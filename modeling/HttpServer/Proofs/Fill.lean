import HttpServer.Proofs.Storage
/-!
# A full storage is not an ended stream

A read into no room gives no bytes, as a read at the end of a stream does, so a connection must never
read into a storage without room. A storage that is full and as large as it may be is not read into at
all. Any other has room, or it grows once and has some then, since a storage is never empty and twice its
size is more (`Bounded.makeRoom_of_not_isFull`). A read into room gives the bytes that the stream has ready,
as far as there is room for them (`fill_of_makeRoom`). So no bytes mean that there are no more
(`fill_of_run`).
-/
namespace HttpServer

open Bytes

/-- However a stream ends, that says nothing about room. -/
theorem Ending.outcome_ne_headerTooLarge (ending : Ending) :
    ending.outcome ≠ .error .headerTooLarge := by
  cases ending with
  | ended => nofun
  | silent => nofun
  | failed kind => cases kind <;> nofun

theorem Ending.outcome_eq_ok_iff {ending : Ending} {n : Nat} :
    ending.outcome = .ok n ↔ ending = .ended ∧ n = 0 := by
  cases ending <;> simp [outcome, eq_comm]

namespace Storage

variable {s roomy : Storage} {limits : RequestLimits} {memory : Memory} {incoming : Incoming}

/-! ## One read -/

@[simp] theorem receive_nil (s : Storage) : s.receive [] = s := by
  simp [receive]

/-- What a read into the room of a storage does to it. Either some bytes are ready, and as many of them as
there is room for are pending from then on, or none are left, and the storage stays as it is. -/
theorem fill_of_makeRoom (made : s.makeRoom memory = .ok roomy) (incoming : Incoming) :
    let free := roomy.size - roomy.received
    (incoming.available ≠ [] ∧ s.fill memory incoming =
        (⟨.ok (incoming.available.take free).length, roomy.receive (incoming.available.take free)⟩,
          (incoming.read free).2)) ∨
      (incoming.available = [] ∧ (s.fill memory incoming).1 = ⟨incoming.ending.outcome, roomy⟩) := by
  intro free
  unfold fill
  rw [made]
  by_cases nothing : incoming.available = []
  · refine .inr ⟨nothing, ?_⟩
    simp only [incoming.read_of_available_eq_nil nothing]
    cases incoming.ending <;> simp [Ending.reading, Ending.outcome]
  · refine .inl ⟨nothing, ?_⟩
    simp only [(incoming.read_of_available nothing _).1]
    rfl

/-- A `fill` fails for lack of room or of memory and does nothing, or it reads into some room. -/
theorem Bounded.fill_cases (h : s.Bounded limits) (memory : Memory) (incoming : Incoming) :
    (s.IsFull limits ∧ s.fill memory incoming = (⟨.error .headerTooLarge, s⟩, incoming)) ∨
      (¬ s.IsFull limits ∧ memory (min (2 * s.size) limits.maxSize) = false ∧
        s.fill memory incoming = (⟨.error .outOfMemory, s⟩, incoming)) ∨
      (¬ s.IsFull limits ∧ ∃ roomy, s.makeRoom memory = .ok roomy ∧ s.Offers roomy limits) := by
  by_cases full : s.IsFull limits
  · refine .inl ⟨full, ?_⟩
    rw [Storage.fill, h.makeRoom_of_isFull full]
  · rcases h.makeRoom_of_not_isFull full memory with ⟨failed, refused⟩ | offered
    · refine .inr (.inl ⟨full, refused, ?_⟩)
      rw [Storage.fill, failed]
    · exact .inr (.inr ⟨full, offered⟩)

theorem Offers.length_take_available_pos (o : s.Offers roomy limits) (nonempty : incoming.available ≠ []) :
    0 < (incoming.available.take (roomy.size - roomy.received)).length := by
  have ready := List.length_pos_iff.2 nonempty
  have room := o.room
  rw [List.length_take]
  omega

/-- The bytes that are ready come behind the pending ones, in the order of the stream. -/
theorem Offers.fill_of_available (o : s.Offers roomy limits) (h : s.Bounded limits)
    (made : s.makeRoom memory = .ok roomy) (nonempty : incoming.available ≠ []) :
    let free := roomy.size - roomy.received
    let count := min free incoming.available.length
    1 ≤ count ∧ ∃ filled rest, s.fill memory incoming = (⟨.ok count, filled⟩, rest) ∧
      filled.size = roomy.size ∧ filled.pending = s.pending ++ incoming.available.take free ∧
      incoming.available.take free ++ rest.chunks.flatten = incoming.chunks.flatten ∧
      rest.ending = incoming.ending := by
  intro free count
  have length : (incoming.available.take free).length = count := List.length_take
  have fits : (incoming.available.take free).length ≤ free := List.length_take_le _ _
  have pos : 1 ≤ count := length ▸ o.length_take_available_pos nonempty
  rcases fill_of_makeRoom made incoming with ⟨-, filled⟩ | ⟨nothing, -⟩
  · obtain ⟨-, bytes, ending⟩ := incoming.read_of_available nonempty free
    refine ⟨pos, _, _, by rw [filled, length], ?_, ?_, bytes, ending⟩
    · exact ((o.bounded h).receive fits).2
    · rw [(o.bounded h).pending_receive, o.extended.pending h]
  · exact absurd nothing nonempty

theorem Bounded.result_fill_eq_headerTooLarge_iff (h : s.Bounded limits) (memory : Memory)
    (incoming : Incoming) :
    (s.fill memory incoming).1.result = .error .headerTooLarge ↔ s.IsFull limits := by
  rcases h.fill_cases memory incoming
    with ⟨full, failed⟩ | ⟨space, -, failed⟩ | ⟨space, roomy, made, -⟩
  · simp [full, failed]
  · simp [space, failed]
  · rcases fill_of_makeRoom made incoming with ⟨-, filled⟩ | ⟨-, ended⟩
    · simp [space, filled]
    · simp [space, ended, incoming.ending.outcome_ne_headerTooLarge]

/-- No bytes come from a stream that has ended, and from no other. -/
theorem Bounded.ended_of_result_fill (h : s.Bounded limits)
    (zero : (s.fill memory incoming).1.result = .ok 0) :
    incoming.chunks.flatten = [] ∧ incoming.ending = .ended := by
  rcases h.fill_cases memory incoming with ⟨-, failed⟩ | ⟨-, -, failed⟩ | ⟨-, roomy, made, offers⟩
  · simp [failed] at zero
  · simp [failed] at zero
  · rcases fill_of_makeRoom made incoming with ⟨nonempty, filled⟩ | ⟨nothing, ended⟩
    · have pos := offers.length_take_available_pos nonempty
      rw [filled, Except.ok.injEq] at zero
      omega
    · rw [ended, Ending.outcome_eq_ok_iff] at zero
      exact ⟨Incoming.available_eq_nil_iff.1 nothing, zero.1⟩

/-- Whatever was done to the storage of a new connection, and whatever memory it was refused, a `fill`
fails for lack of room exactly if the storage is full and as large as it may be, and then it does nothing.
Any other storage offers the stream some room, after at most one doubling. The bytes that are ready come
behind the pending ones, at least one of them, until the room is used up, and if none are ready the
outcome is how the stream ends. So no bytes mean that the stream has ended. With enough memory this is the
`fill` of the receive buffer. -/
theorem fill_of_run (limits : RequestLimits) (small : limits.maxSize < ReceiveBuffer.allocationLimit)
    (steps : List (Memory × BufferOp)) (memory : Memory) (incoming : Incoming) :
    let s := (new limits).run steps
    ((s.fill memory incoming).1.result = .error .headerTooLarge ↔ s.IsFull limits) ∧
      (s.IsFull limits → s.fill memory incoming = (⟨.error .headerTooLarge, s⟩, incoming)) ∧
      (¬ s.IsFull limits → (∀ n < ReceiveBuffer.allocationLimit, memory n = true) →
        ∃ roomy, s.makeRoom memory = .ok roomy ∧ s.Offers roomy limits ∧
          let free := roomy.size - roomy.received
          let count := min free incoming.available.length
          0 < free ∧
            (incoming.available ≠ [] → 1 ≤ count ∧ ∃ filled rest,
              s.fill memory incoming = (⟨.ok count, filled⟩, rest) ∧
                filled.size = roomy.size ∧
                filled.pending = s.pending ++ incoming.available.take free ∧
                incoming.available.take free ++ rest.chunks.flatten = incoming.chunks.flatten ∧
                rest.ending = incoming.ending) ∧
            (incoming.available = [] →
              (s.fill memory incoming).1 = ⟨incoming.ending.outcome, roomy⟩)) ∧
      ((s.fill memory incoming).1.result = .ok 0 →
        incoming.chunks.flatten = [] ∧ incoming.ending = .ended) ∧
      ((s.fill .ample incoming).1.view, (s.fill .ample incoming).2) = s.view.fill incoming := by
  intro s
  obtain ⟨bounded, -, -⟩ : s.Bounded limits ∧ _ := (bounded_new limits).run steps
  refine ⟨bounded.result_fill_eq_headerTooLarge_iff memory incoming, fun full => ?_,
    fun space enough => ?_, bounded.ended_of_result_fill, bounded.view_fill incoming⟩
  · rw [fill, bounded.makeRoom_of_isFull full]
  · rcases bounded.makeRoom_of_not_isFull space memory with ⟨-, refused⟩ | ⟨roomy, made, offers⟩
    · have granted := enough (min (2 * s.size) limits.maxSize) (by omega)
      simp [granted] at refused
    · refine ⟨roomy, made, offers, Nat.sub_pos_of_lt offers.room,
        offers.fill_of_available bounded made, fun nothing => ?_⟩
      rcases fill_of_makeRoom made incoming with ⟨nonempty, -⟩ | ⟨-, ended⟩
      · exact absurd nothing nonempty
      · exact ended

/-- No cell is asked for at first, and no more than three may be. -/
def sampleNarrow : RequestLimits := { initialSize := 0, maxSize := 3 }

/-- A byte is answered, and another one takes its cell when no memory is left. -/
def sampleRefill : List (Memory × BufferOp) :=
  [(.ample, .fill ⟨[ofString "a"], .ended⟩), (.ample, .consume 1), (.ample, .shift),
   (fun _ => false, .fill ⟨[ofString "b"], .ended⟩)]

/-- Two more reads, which use up all cells there may be. -/
def sampleRest : List (Memory × BufferOp) :=
  [(.ample, .fill ⟨[ofString "c"], .ended⟩), (.ample, .fill ⟨[ofString "d"], .ended⟩)]

theorem fill_of_sampleRefill :
    let s := (new sampleNarrow).run sampleRefill
    let t := (new sampleNarrow).run (sampleRefill ++ sampleRest)
    let more : Incoming := ⟨[ofString "cdef"], .silent⟩
    sampleNarrow.maxSize < ReceiveBuffer.allocationLimit ∧
      (s.received = 1 ∧ s.size = 1) ∧
      (∃ filled rest, s.fill .ample more = (⟨.ok 1, filled⟩, rest) ∧ filled.size = 2 ∧
        filled.pending = ofString "bc" ∧ rest.chunks.flatten = ofString "def") ∧
      t.fill .ample more = (⟨.error .headerTooLarge, t⟩, more) := by
  intro s t more
  have small : sampleNarrow.maxSize < ReceiveBuffer.allocationLimit := by decide
  have places : s.received = 1 ∧ s.size = 1 := by decide
  obtain ⟨-, -, offers, -⟩ := fill_of_run sampleNarrow small sampleRefill .ample more
  obtain ⟨-, refuses, -⟩ := fill_of_run sampleNarrow small (sampleRefill ++ sampleRest) .ample more
  refine ⟨small, places, ?_, refuses ⟨by decide, by decide⟩⟩
  have space : ¬ s.IsFull sampleNarrow := by
    rintro ⟨-, largest⟩
    rw [places.2] at largest
    exact absurd largest (by decide)
  obtain ⟨roomy, -, o, -, delivers, -⟩ := offers space fun n below => decide_eq_true below
  obtain ⟨size, -⟩ := o.doubled (places.1.trans places.2.symm)
  have received : roomy.received = 1 := o.extended.received.trans places.1
  have size' : roomy.size = 2 := by
    rw [size, places.2]
    rfl
  obtain ⟨-, filled, rest, read, same, pending, left, -⟩ := delivers (by decide)
  rw [size', received] at read pending left
  refine ⟨filled, rest, read, same.trans size', pending.trans rfl, ?_⟩
  exact List.append_cancel_left left

end Storage
end HttpServer
