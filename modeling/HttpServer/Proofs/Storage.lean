import HttpServer.Proofs.ReceiveBuffer
import HttpServer.ReceiveBuffer.Storage
/-!
# A storage keeps every byte

Whatever is done to a storage, and whatever memory it is refused, its places stay in order, it never
shrinks, and the answered bytes followed by the pending ones are the bytes that its streams gave
(`answered_append_pending_run`). With enough memory it is a receive buffer at every time
(`view_after`).

Each operation either keeps the cells in front of the received place (`Extends`), writes behind them,
or moves the pending bytes. Only the last rewrites a cell that holds something, and `take_moveCells`
says that it never writes a cell before it has read it.
-/
namespace HttpServer

variable {distance target count : Nat} {cells : Bytes}

/-! ## Moving cells -/

@[simp] theorem length_moveCells :
    (moveCells distance target count cells).length = cells.length := by
  induction count generalizing target cells with
  | zero => rfl
  | succ count ih => rw [moveCells, ih, List.length_set]

/-- The cells that were moved are found where they were moved to, behind those that were there. -/
theorem take_moveCells (fits : distance + target + count ≤ cells.length) :
    (moveCells distance target count cells).take (target + count) =
      cells.take target ++ (cells.drop (distance + target)).take count := by
  induction count generalizing target cells with
  | zero => simp [moveCells]
  | succ count ih =>
    have source : distance + target < cells.length := by omega
    -- the cell that is written stands in front of all that are still to be read
    have written (b : UInt8) : (cells.set target b).take (target + 1) = cells.take target ++ [b] := by
      have here : target < (cells.set target b).length := by rw [List.length_set]; omega
      rw [List.take_succ_eq_append_getElem here, List.getElem_set_self,
        List.take_set_of_le (Nat.le_refl target)]
    have unread (b : UInt8) :
        (cells.set target b).drop (distance + (target + 1)) = cells.drop (distance + target + 1) :=
      List.drop_set_of_lt (by omega)
    have next : cells.drop (distance + target) =
        cells.getD (distance + target) 0 :: cells.drop (distance + target + 1) := by
      rw [List.drop_eq_getElem_cons source, List.getD_eq_getElem?_getD,
        List.getElem?_eq_getElem source]
      rfl
    rw [moveCells, show target + (count + 1) = target + 1 + count by omega,
      ih (by rw [List.length_set]; omega), written, unread, next, List.take_succ_cons,
      List.append_assoc, List.singleton_append]

/-- The cells may overlap with those they are moved to. -/
example : moveCells 2 0 4 [1, 2, 3, 4, 5, 6] = [3, 4, 5, 6, 5, 6] := by decide

/-! ## Bytes taken from a stream -/

namespace Incoming

variable {i : Incoming}

theorem taken_self (i : Incoming) : i.taken i = [] := by
  rw [taken, Nat.sub_self, List.take_zero]

theorem taken_of_flatten {rest : Incoming} {bytes : Bytes}
    (h : i.chunks.flatten = bytes ++ rest.chunks.flatten) : i.taken rest = bytes := by
  have count : i.remaining - rest.remaining = bytes.length := by
    rw [remaining, remaining, h, List.length_append]
    omega
  rw [taken, count, h, List.take_left]

theorem taken_of_flatten_eq_nil (h : i.chunks.flatten = []) (rest : Incoming) :
    i.taken rest = [] := by
  rw [taken, h, List.take_nil]

/-- The bytes that a read takes from the stream are those it gives. -/
theorem taken_read (i : Incoming) {room : Nat} (pos : 0 < room) :
    (i.read room).1 = .received (i.taken (i.read room).2) ∧
        (i.taken (i.read room).2).length ≤ room ∨
      i.taken (i.read room).2 = [] ∧
        ((i.read room).1 = .silence ∨ ∃ kind, (i.read room).1 = .failure kind) := by
  rcases i.read_cases pos with ⟨nothing, reading⟩ | ⟨bytes, rest, -, len, read, chunks⟩
  · have takenNothing := taken_of_flatten_eq_nil nothing (i.read room).2
    cases ending : i.ending with
    | ended =>
      refine .inl ⟨?_, ?_⟩
      · rw [takenNothing, reading, ending]
        rfl
      · rw [takenNothing]
        exact Nat.zero_le room
    | silent =>
      refine .inr ⟨takenNothing, .inl ?_⟩
      rw [reading, ending]
      rfl
    | failed kind =>
      refine .inr ⟨takenNothing, .inr ⟨kind, ?_⟩⟩
      rw [reading, ending]
      rfl
  · have takenBytes : i.taken (i.read room).2 = bytes := taken_of_flatten (by rw [read, chunks])
    refine .inl ⟨?_, ?_⟩
    · rw [takenBytes, read]
    · rwa [takenBytes]

end Incoming

namespace Storage

variable {s s' roomy : Storage} {limits : RequestLimits} {memory : Memory}

/-! ## The bounds -/

/-- The places of a storage are in order, and it is neither empty nor too large. -/
structure Bounded (s : Storage) (limits : RequestLimits) : Prop where
  maxSize : s.maxSize = limits.maxSize
  consumed_le : s.consumed ≤ s.received
  received_le : s.received ≤ s.size
  size_pos : 1 ≤ s.size
  size_le : s.size ≤ max limits.maxSize 1

theorem bounded_new (limits : RequestLimits) : (new limits).Bounded limits := by
  have size : (new limits).size = max 1 (min limits.initialSize (max limits.maxSize 1)) :=
    List.length_replicate
  exact ⟨rfl, Nat.le_refl 0, Nat.zero_le _, by omega, by omega⟩

theorem Bounded.length_pending (h : s.Bounded limits) :
    s.pending.length = s.received - s.consumed := by
  have := h.received_le
  rw [size] at this
  rw [pending, List.length_drop, List.length_take]
  omega

theorem Bounded.received_view (h : s.Bounded limits) : s.view.received = s.received := by
  have le := h.consumed_le
  change s.consumed + s.pending.length = s.received
  rw [h.length_pending]
  omega

/-! ## Moving the pending bytes -/

@[simp] theorem consumed_shift (s : Storage) : s.shift.consumed = 0 := by
  unfold shift
  split
  · assumption
  · rfl

theorem Bounded.pending_shift (h : s.Bounded limits) : s.shift.pending = s.pending := by
  have consumed := h.consumed_le
  have received := h.received_le
  rw [size] at received
  unfold shift
  split
  · rfl
  · have fits : s.consumed + 0 + (s.received - s.consumed) ≤ s.cells.length := by omega
    have moved := take_moveCells fits
    rw [Nat.zero_add, List.take_zero, List.nil_append, Nat.add_zero] at moved
    rw [pending, pending, List.drop_zero, moved, List.drop_take]

theorem Bounded.view_shift (h : s.Bounded limits) : s.shift.view = s.view.shift := by
  have kept : s.shift.size = s.size ∧ s.shift.maxSize = s.maxSize := by
    unfold shift size
    split <;> simp
  rw [view, h.pending_shift, consumed_shift, kept.1, kept.2]
  rfl

theorem Bounded.shift (h : s.Bounded limits) : s.shift.Bounded limits ∧ s.shift.size = s.size := by
  obtain ⟨maxSize, consumed, received, pos, le⟩ := h
  unfold Storage.shift
  split
  · exact ⟨⟨maxSize, consumed, received, pos, le⟩, rfl⟩
  · simp only [size] at received pos le ⊢
    refine ⟨⟨maxSize, Nat.zero_le _, ?_, ?_, ?_⟩, ?_⟩
    all_goals simp only [size, length_moveCells]
    all_goals omega

/-! ## Answering -/

theorem Bounded.consume (h : s.Bounded limits) (n : Nat) : (s.consume n).Bounded limits :=
  ⟨h.maxSize, Nat.min_le_right _ _, h.received_le, h.size_pos, h.size_le⟩

theorem Bounded.pending_consume (h : s.Bounded limits) (n : Nat) :
    (s.consume n).pending = s.pending.drop n := by
  have received := h.received_le
  rw [size] at received
  rw [pending, pending, Storage.consume, List.drop_drop]
  -- beyond the received bytes there is nothing left to drop
  rcases Nat.le_total (s.consumed + n) s.received with le | le
  · rw [Nat.min_eq_left le]
  · rw [Nat.min_eq_right le, List.drop_eq_nil_of_le (List.length_take_le _ _),
      List.drop_eq_nil_of_le (Nat.le_trans (List.length_take_le _ _) le)]

theorem Bounded.view_consume (h : s.Bounded limits) (n : Nat) :
    (s.consume n).view = s.view.consume n := by
  have le := h.consumed_le
  have consumed : (s.consume n).consumed = s.consumed + min n s.pending.length := by
    change min (s.consumed + n) s.received = _
    rw [h.length_pending]
    omega
  rw [view, h.pending_consume, consumed]
  rfl

/-! ## Larger storages -/

/-- The second storage has the cells of the first one, and perhaps others behind them. -/
structure Extends (s s' : Storage) : Prop where
  cells : s.cells <+: s'.cells
  consumed : s'.consumed = s.consumed
  received : s'.received = s.received
  maxSize : s'.maxSize = s.maxSize

theorem Extends.refl (s : Storage) : s.Extends s := ⟨List.prefix_rfl, rfl, rfl, rfl⟩

theorem Extends.size_le (e : s.Extends s') : s.size ≤ s'.size := e.cells.length_le

theorem Extends.pending (e : s.Extends s') (h : s.Bounded limits) : s'.pending = s.pending := by
  obtain ⟨more, cells⟩ := e.cells
  have received := h.received_le
  rw [size] at received
  rw [Storage.pending, Storage.pending, e.received, e.consumed, ← cells,
    List.take_append_of_le_length received]

theorem Extends.bounded (e : s.Extends s') (h : s.Bounded limits)
    (le : s'.size ≤ max limits.maxSize 1) : s'.Bounded limits :=
  ⟨e.maxSize.trans h.maxSize, by rw [e.consumed, e.received]; exact h.consumed_le,
    by rw [e.received]; exact Nat.le_trans h.received_le e.size_le,
    Nat.le_trans h.size_pos e.size_le, le⟩

theorem Extends.view (e : s.Extends s') (h : s.Bounded limits) :
    s'.view = { s.view with size := s'.size } := by
  rw [Storage.view, e.pending h, e.consumed, e.maxSize]
  rfl

/-- A storage that can be resized gets as many cells as asked for. -/
theorem resize_cases (memory : Memory) (larger : s.size ≤ target) :
    (s.resize memory target = .error .outOfMemory ∧ memory target = false) ∨
      ∃ s', s.resize memory target = .ok s' ∧ memory target = true ∧ s.Extends s' ∧
        s'.size = target := by
  unfold resize
  cases granted : memory target with
  | false => exact .inl ⟨rfl, rfl⟩
  | true =>
    rw [size] at larger
    refine .inr ⟨_, if_pos rfl, rfl, ⟨?_, rfl, rfl, rfl⟩, ?_⟩
    · rw [List.take_of_length_le larger]
      exact List.prefix_append _ _
    · simp only [size, List.length_append, List.length_take, List.length_replicate]
      omega

theorem resize_ample (larger : s.size ≤ target) (h : s.Bounded limits) :
    (s.resize .ample target).map Storage.view = s.view.resize target := by
  unfold ReceiveBuffer.resize
  rcases resize_cases .ample larger with ⟨failed, refused⟩ | ⟨s', resized, granted, extended, size⟩
  · rw [Memory.ample, decide_eq_false_iff_not, Nat.not_lt] at refused
    rw [failed, if_pos refused]
    rfl
  · rw [Memory.ample, decide_eq_true_iff] at granted
    rw [resized, if_neg (Nat.not_le.2 granted), Except.map, extended.view h, size]

/-! ## Room for a read -/

/-- There is no room in the storage, and it is as large as it may be. -/
def IsFull (s : Storage) (limits : RequestLimits) : Prop :=
  s.received = s.size ∧ limits.maxSize ≤ s.size

/-- The second storage is the first one with room for a byte: the same one if that has room, and
otherwise a larger one after a single doubling. -/
structure Offers (s roomy : Storage) (limits : RequestLimits) : Prop where
  extended : s.Extends roomy
  room : roomy.received < roomy.size
  kept : s.received < s.size → roomy = s
  doubled : s.received = s.size → roomy.size = min (2 * s.size) limits.maxSize ∧ s.size < roomy.size

theorem Bounded.makeRoom_of_isFull (h : s.Bounded limits) (full : s.IsFull limits)
    (memory : Memory) : s.makeRoom memory = .error .headerTooLarge := by
  rw [makeRoom, if_pos full.1, grow, h.maxSize, if_pos full.2]

/-- Any other storage gets room, unless there is no memory for one that is twice as large. -/
theorem Bounded.makeRoom_of_not_isFull (h : s.Bounded limits) (space : ¬ s.IsFull limits)
    (memory : Memory) :
    s.makeRoom memory = .error .outOfMemory ∧ memory (min (2 * s.size) limits.maxSize) = false ∨
      ∃ roomy, s.makeRoom memory = .ok roomy ∧ s.Offers roomy limits := by
  by_cases full : s.received = s.size
  · have smaller : s.size < limits.maxSize := Nat.lt_of_not_le fun largest => space ⟨full, largest⟩
    have pos := h.size_pos
    -- twice a size that is not zero is more, and so is the largest size
    have larger : s.size < min (2 * s.size) limits.maxSize := by omega
    rw [makeRoom, if_pos full, grow, h.maxSize, if_neg (Nat.not_le.2 smaller)]
    rcases resize_cases memory (Nat.le_of_lt larger)
      with ⟨failed, refused⟩ | ⟨roomy, resized, -, extended, size⟩
    · exact .inl ⟨failed, refused⟩
    · refine .inr ⟨roomy, resized, extended, ?_, fun room => ?_, fun _ => ⟨size, ?_⟩⟩
      · rw [extended.received, full, size]
        exact larger
      · exact absurd full (Nat.ne_of_lt room)
      · rw [size]
        exact larger
  · have room : s.received < s.size := Nat.lt_of_le_of_ne h.received_le full
    exact .inr ⟨s, if_neg full, .refl s, room, fun _ => rfl, fun full' => absurd full' full⟩

theorem Offers.bounded (o : s.Offers roomy limits) (h : s.Bounded limits) : roomy.Bounded limits := by
  refine o.extended.bounded h ?_
  rcases Nat.lt_or_eq_of_le h.received_le with room | full
  · rw [o.kept room]
    exact h.size_le
  · have doubled := (o.doubled full).1
    omega

theorem Bounded.makeRoom_cases (h : s.Bounded limits) (memory : Memory) :
    (∃ e, s.makeRoom memory = .error e) ∨
      ∃ s', s.makeRoom memory = .ok s' ∧ s.Extends s' ∧ s'.Bounded limits ∧
        s'.received < s'.size := by
  by_cases full : s.IsFull limits
  · exact .inl ⟨_, h.makeRoom_of_isFull full memory⟩
  · rcases h.makeRoom_of_not_isFull full memory with ⟨failed, -⟩ | ⟨s', made, offers⟩
    · exact .inl ⟨_, failed⟩
    · exact .inr ⟨s', made, offers.extended, offers.bounded h, offers.room⟩

theorem Bounded.makeRoom_ample (h : s.Bounded limits) :
    (s.makeRoom .ample).map Storage.view = s.view.makeRoom := by
  unfold makeRoom ReceiveBuffer.makeRoom grow ReceiveBuffer.grow
  rw [h.received_view]
  by_cases full : s.received = s.size
  · rw [if_pos full, if_pos (show s.received = s.view.size from full)]
    by_cases largest : s.size ≥ s.maxSize
    · rw [if_pos largest, if_pos (show s.view.size ≥ s.view.maxSize from largest)]
      rfl
    · rw [if_neg largest, if_neg (show ¬ s.view.size ≥ s.view.maxSize from largest),
        resize_ample (by omega) h]
      rfl
  · rw [if_neg full, if_neg (show ¬ s.received = s.view.size from full)]
    rfl

/-! ## Reading -/

section

variable {bytes : Bytes}

theorem Bounded.receive (h : s.Bounded limits) (room : bytes.length ≤ s.size - s.received) :
    (s.receive bytes).Bounded limits ∧ (s.receive bytes).size = s.size := by
  have received := h.received_le
  have sameSize : (s.receive bytes).size = s.size := by
    simp only [Storage.receive, size, List.length_append, List.length_take, List.length_drop]
      at received room ⊢
    omega
  refine ⟨⟨h.maxSize, ?_, ?_, ?_, ?_⟩, sameSize⟩
  · exact Nat.le_trans h.consumed_le (Nat.le_add_right _ _)
  · rw [sameSize]
    change s.received + bytes.length ≤ s.size
    omega
  · rw [sameSize]
    exact h.size_pos
  · rw [sameSize]
    exact h.size_le

theorem Bounded.pending_receive (h : s.Bounded limits) :
    (s.receive bytes).pending = s.pending ++ bytes := by
  have consumed := h.consumed_le
  have front : (s.cells.take s.received).length = s.received := List.length_take_of_le h.received_le
  have all : (s.receive bytes).cells.take (s.received + bytes.length) =
      s.cells.take s.received ++ bytes := by
    rw [← front, ← List.length_append, front]
    exact List.take_left
  change ((s.receive bytes).cells.take (s.received + bytes.length)).drop s.consumed = _
  rw [all, List.drop_append_of_le_length (by omega), pending]

theorem Bounded.view_receive (h : s.Bounded limits) (room : bytes.length ≤ s.size - s.received) :
    (s.receive bytes).view = { s.view with pending := s.view.pending ++ bytes } := by
  rw [view, h.pending_receive, (h.receive room).2]
  rfl

end

/-- A `fill` keeps the bounds and appends what it takes from the stream. -/
theorem Bounded.fill (h : s.Bounded limits) (memory : Memory) (incoming : Incoming) :
    (s.fill memory incoming).1.storage.Bounded limits ∧
      s.size ≤ (s.fill memory incoming).1.storage.size ∧
      (s.fill memory incoming).1.storage.pending =
        s.pending ++ incoming.taken (s.fill memory incoming).2 := by
  unfold Storage.fill
  rcases h.makeRoom_cases memory with ⟨e, failed⟩ | ⟨s', made, extended, bounded, space⟩
  · simp only [failed]
    exact ⟨h, Nat.le_refl _, by rw [incoming.taken_self, List.append_nil]⟩
  · simp only [made]
    have room : 0 < s'.size - s'.received := Nat.sub_pos_of_lt space
    rcases incoming.taken_read room with ⟨read, len⟩ | ⟨nothing, silence | ⟨kind, failure⟩⟩
    · obtain ⟨bounded', size⟩ := bounded.receive len
      simp only [read]
      refine ⟨bounded', ?_, ?_⟩
      · rw [size]
        exact extended.size_le
      · rw [bounded.pending_receive, extended.pending h]
    · simp only [silence]
      exact ⟨bounded, extended.size_le, by rw [extended.pending h, nothing, List.append_nil]⟩
    · simp only [failure]
      exact ⟨bounded, extended.size_le, by rw [extended.pending h, nothing, List.append_nil]⟩

theorem Bounded.view_fill (h : s.Bounded limits) (incoming : Incoming) :
    ((s.fill .ample incoming).1.view, (s.fill .ample incoming).2) = s.view.fill incoming := by
  unfold Storage.fill ReceiveBuffer.fill
  rw [← h.makeRoom_ample]
  rcases h.makeRoom_cases .ample with ⟨e, failed⟩ | ⟨s', made, extended, bounded, space⟩
  · rw [failed]
    rfl
  · have room : s'.view.room = s'.size - s'.received := by
      rw [ReceiveBuffer.room, bounded.received_view]
      rfl
    have pos : 0 < s'.size - s'.received := Nat.sub_pos_of_lt space
    simp only [made, Except.map, room]
    rcases incoming.taken_read pos with ⟨read, len⟩ | ⟨-, silence | ⟨kind, failure⟩⟩
    · simp only [read, Outcome.view, bounded.view_receive len]
    · simp only [silence, Outcome.view]
    · simp only [failure, Outcome.view]

/-! ## Making room for a request -/

/-- Room for a request is made or refused; the pending bytes and the bounds stay. -/
theorem Bounded.reserve (h : s.Bounded limits) (memory : Memory) (total : Nat) :
    (s.reserve memory total).storage.Bounded limits ∧
      s.size ≤ (s.reserve memory total).storage.size ∧
      (s.reserve memory total).storage.pending = s.pending := by
  obtain ⟨shifted, size⟩ := h.shift
  unfold Storage.reserve
  split
  · exact ⟨h, Nat.le_refl _, rfl⟩
  · split
    · exact ⟨h, Nat.le_refl _, rfl⟩
    · rename_i admissible _
      simp only
      by_cases larger : total > s.shift.size
      · rw [if_pos larger]
        rcases resize_cases memory (Nat.le_of_lt larger)
          with ⟨failed, -⟩ | ⟨s', resized, -, extended, size'⟩
        · rw [failed]
          exact ⟨shifted, Nat.le_of_eq size.symm, h.pending_shift⟩
        · rw [resized]
          have max := h.maxSize
          refine ⟨extended.bounded shifted (by omega), ?_, ?_⟩
          · rw [← size]
            exact extended.size_le
          · exact (extended.pending shifted).trans h.pending_shift
      · rw [if_neg larger]
        exact ⟨shifted, Nat.le_of_eq size.symm, h.pending_shift⟩

theorem Bounded.view_reserve (h : s.Bounded limits) (total : Nat) :
    (s.reserve .ample total).view = s.view.reserve total := by
  obtain ⟨shifted, size⟩ := h.shift
  unfold Storage.reserve ReceiveBuffer.reserve
  by_cases large : total > s.maxSize
  · rw [if_pos large, if_pos (show total > s.view.maxSize from large)]
    rfl
  · rw [if_neg large, if_neg (show ¬ total > s.view.maxSize from large)]
    by_cases reach : s.consumed + total ≤ s.size
    · rw [if_pos reach, if_pos (show s.view.consumed + total ≤ s.view.size from reach)]
      rfl
    · rw [if_neg reach, if_neg (show ¬ s.view.consumed + total ≤ s.view.size from reach)]
      simp only [← h.view_shift]
      by_cases larger : total > s.shift.size
      · rw [if_pos larger, if_pos (show total > s.shift.view.size from larger),
          ← resize_ample (Nat.le_of_lt larger) shifted]
        cases s.shift.resize .ample total <;> rfl
      · rw [if_neg larger, if_neg (show ¬ total > s.shift.view.size from larger)]
        rfl

theorem Bounded.fits_view (h : s.Bounded limits) : s.view.Fits limits :=
  ⟨h.maxSize, by rw [h.received_view]; exact h.received_le, h.size_pos, h.size_le⟩

/-- With enough memory room is made for every admissible request, and the storage grows no further than
to its end. -/
theorem Bounded.reserve_ample (h : s.Bounded limits)
    (small : limits.maxSize < ReceiveBuffer.allocationLimit) {total : Nat}
    (admissible : total ≤ limits.maxSize) :
    ∃ s', s.reserve .ample total = ⟨.ok (), s'⟩ ∧ s'.Bounded limits ∧ s'.pending = s.pending ∧
      s'.consumed + total ≤ s'.size ∧ s'.size = max s.size total := by
  obtain ⟨b, reserved, -, -, reaches, size⟩ := h.fits_view.reserve small admissible
  have view := h.view_reserve total
  rw [reserved] at view
  have result : (s.reserve .ample total).result = .ok () := congrArg (·.result) view
  have buffer : (s.reserve .ample total).storage.view = b := congrArg (·.buffer) view
  obtain ⟨bounded, -, pending⟩ := h.reserve .ample total
  rw [← buffer] at reaches size
  exact ⟨(s.reserve .ample total).storage, by rw [← result], bounded, pending, reaches, size⟩

/-! ## Sequences of operations -/

/-- What one operation answers and leaves pending is what was pending and what it receives. -/
theorem Bounded.after (h : s.Bounded limits) (memory : Memory) (op : BufferOp) :
    (s.after memory op).Bounded limits ∧ s.size ≤ (s.after memory op).size ∧
      s.answeredBy op ++ (s.after memory op).pending = s.pending ++ s.deliveredBy memory op := by
  cases op with
  | fill incoming =>
    obtain ⟨bounded, le, pending⟩ := h.fill memory incoming
    exact ⟨bounded, le, pending⟩
  | consume n =>
    refine ⟨h.consume n, Nat.le_refl _, ?_⟩
    simp only [Storage.after, answeredBy, deliveredBy, h.pending_consume, List.append_nil,
      List.take_append_drop]
  | reserve total =>
    obtain ⟨bounded, le, pending⟩ := h.reserve memory total
    exact ⟨bounded, le, pending.trans (List.append_nil _).symm⟩
  | shift =>
    obtain ⟨bounded, size⟩ := h.shift
    exact ⟨bounded, Nat.le_of_eq size.symm, h.pending_shift.trans (List.append_nil _).symm⟩

/-- With enough memory, an operation does to the storage what it does to the receive buffer. -/
theorem Bounded.view_after (h : s.Bounded limits) (op : BufferOp) :
    (s.after .ample op).view = s.view.after op := by
  cases op with
  | fill incoming => exact congrArg (·.1.buffer) (h.view_fill incoming)
  | consume n => exact h.view_consume n
  | reserve total => exact congrArg (·.buffer) (h.view_reserve total)
  | shift => exact h.view_shift

theorem Bounded.run (h : s.Bounded limits) (steps : List (Memory × BufferOp)) :
    (s.run steps).Bounded limits ∧ s.size ≤ (s.run steps).size ∧
      s.answered steps ++ (s.run steps).pending = s.pending ++ s.delivered steps := by
  induction steps generalizing s with
  | nil => exact ⟨h, Nat.le_refl _, (List.append_nil _).symm⟩
  | cons step steps ih =>
    obtain ⟨memory, op⟩ := step
    obtain ⟨bounded, le, one⟩ := h.after memory op
    obtain ⟨bounded', le', rest⟩ := ih bounded
    refine ⟨bounded', Nat.le_trans le le', ?_⟩
    calc s.answeredBy op ++ (s.after memory op).answered steps ++ (s.run ((memory, op) :: steps)).pending
        = s.answeredBy op ++ ((s.after memory op).pending ++ (s.after memory op).delivered steps) := by
          rw [List.append_assoc, ← rest]
          rfl
      _ = s.pending ++ (s.deliveredBy memory op ++ (s.after memory op).delivered steps) := by
          rw [← List.append_assoc, one, List.append_assoc]

theorem Bounded.view_run (h : s.Bounded limits) (ops : List BufferOp) :
    (s.run (ops.map (Memory.ample, ·))).view = ops.foldl ReceiveBuffer.after s.view := by
  induction ops generalizing s with
  | nil => rfl
  | cons op ops ih =>
    rw [List.foldl_cons, ← h.view_after op, ← ih (h.after .ample op).1]
    rfl

theorem view_new (limits : RequestLimits) : (new limits).view = .new limits := by
  simp [view, new, pending, size, ReceiveBuffer.new]

/-- Whatever is done to the storage of a new connection, and whatever memory it is refused: its places
stay in order, its size stays within the bounds and never shrinks, and the answered bytes followed by
the pending ones are the bytes that the streams gave. With enough memory it is the receive buffer of
the connection. -/
theorem answered_append_pending_run (limits : RequestLimits) :
    (∀ steps : List (Memory × BufferOp),
      let s := (new limits).run steps
      (s.consumed ≤ s.received ∧ s.received ≤ s.size) ∧
        (1 ≤ s.size ∧ s.size ≤ max limits.maxSize 1) ∧
        (∀ more, s.size ≤ (s.run more).size) ∧
        (new limits).answered steps ++ s.pending = (new limits).delivered steps) ∧
    ∀ ops : List BufferOp, ((new limits).run (ops.map (Memory.ample, ·))).view =
      ops.foldl ReceiveBuffer.after (.new limits) := by
  refine ⟨fun steps => ?_, fun ops => ?_⟩
  · intro s
    obtain ⟨bounded, -, bytes⟩ := (bounded_new limits).run steps
    have empty : (new limits).pending = [] := by simp [new, pending]
    rw [empty, List.nil_append] at bytes
    exact ⟨⟨bounded.consumed_le, bounded.received_le⟩, ⟨bounded.size_pos, bounded.size_le⟩,
      fun more => (bounded.run more).2.1, bytes⟩
  · rw [(bounded_new limits).view_run, view_new]

end Storage
end HttpServer
