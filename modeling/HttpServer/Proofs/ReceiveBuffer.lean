import HttpServer.ReceiveBuffer
/-!
# The receive buffer keeps its bounds

`Fits` is what holds of the buffer of a connection at any time: the received bytes lie in the
storage, and the storage is never empty and never larger than the largest request, or one byte if
that is nothing. Every operation keeps it.

A read gives the bytes that the stream has ready, as many of them as there is room for
(`Incoming.read_of_available`), and with room for a byte it gives none only if none are left.

With allocation out of the way (`maxSize` below the limit of allocation) there is one reason for
which a buffer gets no room: it is full and as large as it may be (`makeRoom_cases`). What one `fill`
does to it then depends on the stream alone (`fill_cases`).
-/
namespace HttpServer

/-! ## Reading from a stream -/

/-- What a `fill` gives once all bytes are read. -/
def Ending.outcome : Ending → Except Rejection Nat
  | ended => .ok 0
  | silent => .error .requestTimeout
  | failed kind => .error (.ofIo kind)

namespace Incoming

variable {i : Incoming} {room : Nat}

/-- The bytes that a stream has ready for the next read. -/
def available (i : Incoming) : Bytes := (i.chunks.dropWhile List.isEmpty).headD []

theorem ne_nil_of_dropWhile_isEmpty {chunks : List Bytes} {chunk : Bytes} {rest : List Bytes}
    (ready : chunks.dropWhile List.isEmpty = chunk :: rest) : chunk ≠ [] := by
  have first := List.head?_dropWhile_not List.isEmpty chunks
  rw [ready] at first
  simpa using first

/-- A stream has some bytes ready as long as any are left. -/
theorem available_eq_nil_iff : i.available = [] ↔ i.chunks.flatten = [] := by
  rw [available, ← flatten_dropWhile_isEmpty]
  cases ready : i.chunks.dropWhile List.isEmpty with
  | nil => simp
  | cons chunk rest => simp [ne_nil_of_dropWhile_isEmpty ready]

/-- A read gives as many of the bytes that are ready as there is room for, and leaves the others. -/
theorem read_of_available (nonempty : i.available ≠ []) (room : Nat) :
    (i.read room).1 = .received (i.available.take room) ∧
      i.available.take room ++ (i.read room).2.chunks.flatten = i.chunks.flatten ∧
      (i.read room).2.ending = i.ending := by
  have all := flatten_dropWhile_isEmpty i.chunks
  unfold available read at *
  cases ready : i.chunks.dropWhile List.isEmpty with
  | nil => simp [ready] at nonempty
  | cons chunk rest =>
    rw [ready, List.flatten_cons] at all
    refine ⟨rfl, ?_, rfl⟩
    rw [← all]
    simp only [List.headD_cons]
    split
    · rename_i fits
      rw [List.take_of_length_le fits]
    · rw [List.flatten_cons, ← List.append_assoc, List.take_append_drop]

/-- A read of a stream with nothing ready tells how the stream ends. -/
theorem read_of_available_eq_nil (nothing : i.available = []) (room : Nat) :
    (i.read room).1 = i.ending.reading := by
  unfold available read at *
  cases ready : i.chunks.dropWhile List.isEmpty with
  | nil => rfl
  | cons chunk rest => simp [ready, ne_nil_of_dropWhile_isEmpty ready] at nothing

/-- A read with room for a byte takes some bytes off the front of the stream, if there are any. -/
theorem read_cases (i : Incoming) (pos : 0 < room) :
    (i.chunks.flatten = [] ∧ (i.read room).1 = i.ending.reading) ∨
      ∃ bytes rest, bytes ≠ [] ∧ bytes.length ≤ room ∧
        i.read room = (.received bytes, ⟨rest, i.ending⟩) ∧
        i.chunks.flatten = bytes ++ rest.flatten := by
  by_cases ready : i.available = []
  · exact .inl ⟨available_eq_nil_iff.1 ready, read_of_available_eq_nil ready room⟩
  · obtain ⟨reading, bytes, ending⟩ := read_of_available ready room
    refine .inr ⟨i.available.take room, (i.read room).2.chunks, ?_, List.length_take_le _ _, ?_,
      bytes.symm⟩
    · simp [ready]
      omega
    · rw [← reading, ← ending]

end Incoming

namespace ReceiveBuffer

variable {b : ReceiveBuffer} {limits : RequestLimits}

/-- The bounds of the buffer of a connection. -/
structure Fits (b : ReceiveBuffer) (limits : RequestLimits) : Prop where
  maxSize : b.maxSize = limits.maxSize
  received_le : b.received ≤ b.size
  size_pos : 1 ≤ b.size
  size_le : b.size ≤ max limits.maxSize 1

theorem fits_new (limits : RequestLimits) : (new limits).Fits limits :=
  ⟨rfl, Nat.zero_le _, by simp only [new]; omega, by simp only [new]; omega⟩

theorem Fits.shift (h : b.Fits limits) : b.shift.Fits limits := by
  obtain ⟨maxSize, received, pos, le⟩ := h
  refine ⟨maxSize, ?_, pos, le⟩
  simp only [ReceiveBuffer.received, ReceiveBuffer.shift] at received ⊢
  omega

theorem Fits.consume (h : b.Fits limits) (n : Nat) : (b.consume n).Fits limits := by
  obtain ⟨maxSize, received, pos, le⟩ := h
  refine ⟨maxSize, ?_, pos, le⟩
  simp only [ReceiveBuffer.received, ReceiveBuffer.consume, List.length_drop] at received ⊢
  omega

/-- The storage of another length, if the received bytes lie in it. -/
theorem Fits.withSize (h : b.Fits limits) {size : Nat} (fits : b.received ≤ size) (pos : 1 ≤ size)
    (le : size ≤ max limits.maxSize 1) : Fits { b with size } limits :=
  ⟨h.maxSize, fits, pos, le⟩

theorem Fits.receive (h : b.Fits limits) {bytes : Bytes} (room : bytes.length ≤ b.room) :
    Fits { b with pending := b.pending ++ bytes } limits := by
  obtain ⟨maxSize, received, pos, le⟩ := h
  refine ⟨maxSize, ?_, pos, le⟩
  simp only [ReceiveBuffer.received, ReceiveBuffer.room, List.length_append] at received room ⊢
  omega

/-- Room for a request of an admissible size can always be made. It moves the pending bytes at most,
and from then on the storage reaches to the end of the request and is no larger than that asks for. -/
theorem Fits.reserve (h : b.Fits limits) (small : limits.maxSize < allocationLimit) {total : Nat}
    (admissible : total ≤ limits.maxSize) :
    ∃ b', b.reserve total = ⟨.ok (), b'⟩ ∧ b'.pending = b.pending ∧ b'.Fits limits ∧
      b'.consumed + total ≤ b'.size ∧ b'.size = max b.size total := by
  unfold ReceiveBuffer.reserve
  rw [h.maxSize, if_neg (by omega)]
  by_cases room : b.consumed + total ≤ b.size
  · exact ⟨b, if_pos room, rfl, h, room, by omega⟩
  · rw [if_neg room]
    by_cases larger : total > b.shift.size
    · have allocated : b.shift.resize total = .ok { b.shift with size := total } := if_neg (by omega)
      refine ⟨{ b.shift with size := total }, ?_, rfl, h.shift.withSize ?_ (by omega) (by omega), ?_, ?_⟩
      · simp only [larger, if_true, allocated]
      · have := h.shift.received_le
        omega
      · simp [ReceiveBuffer.shift]
      · simp only [ReceiveBuffer.shift] at larger ⊢
        omega
    · simp only [ReceiveBuffer.shift] at larger
      refine ⟨b.shift, if_neg larger, rfl, h.shift, ?_, ?_⟩
      · simp only [ReceiveBuffer.shift]
        omega
      · simp only [ReceiveBuffer.shift]
        omega

/-- Room for a byte is made unless the storage is full and as large as it may be. -/
theorem Fits.makeRoom_cases (h : b.Fits limits) (small : limits.maxSize < allocationLimit) :
    (b.makeRoom = .error .headerTooLarge ∧ b.received = b.size ∧ limits.maxSize ≤ b.size) ∨
      ∃ size, b.makeRoom = .ok { b with size } ∧ Fits { b with size } limits ∧ b.size ≤ size ∧
        b.received < size := by
  have received := h.received_le
  have pos := h.size_pos
  have max := h.maxSize
  unfold ReceiveBuffer.makeRoom
  by_cases full : b.received = b.size
  · rw [if_pos full, grow]
    by_cases largest : b.size ≥ b.maxSize
    · exact .inl ⟨if_pos largest, full, by omega⟩
    · have allocated : b.resize (min (2 * b.size) b.maxSize) =
          .ok { b with size := min (2 * b.size) b.maxSize } := if_neg (by omega)
      refine .inr ⟨min (2 * b.size) b.maxSize, ?_, h.withSize (by omega) (by omega) (by omega),
        by omega, by omega⟩
      rw [if_neg largest, allocated]
  · exact .inr ⟨b.size, if_neg full, h, Nat.le_refl _, by omega⟩

/-- A `fill` fails for lack of room, tells how the stream ended, or appends some bytes of it. -/
theorem Fits.fill_cases (h : b.Fits limits) (small : limits.maxSize < allocationLimit)
    (incoming : Incoming) :
    (b.fill incoming = (⟨.error .headerTooLarge, b⟩, incoming) ∧ b.received = b.size ∧
      limits.maxSize ≤ b.size) ∨
    ∃ size, Fits { b with size } limits ∧ b.size ≤ size ∧ b.received < size ∧
      ((incoming.chunks.flatten = [] ∧
          (b.fill incoming).1 = ⟨incoming.ending.outcome, { b with size }⟩) ∨
        ∃ bytes rest, bytes ≠ [] ∧ bytes.length ≤ size - b.received ∧
          incoming.chunks.flatten = bytes ++ rest.flatten ∧
          b.fill incoming = (⟨.ok bytes.length, { b with size, pending := b.pending ++ bytes }⟩,
            ⟨rest, incoming.ending⟩)) := by
  unfold ReceiveBuffer.fill
  rcases h.makeRoom_cases small with ⟨failed, full⟩ | ⟨size, made, fits, le, room⟩
  · exact .inl ⟨by rw [failed], full⟩
  · refine .inr ⟨size, fits, le, room, ?_⟩
    rw [made]
    have pos : 0 < ReceiveBuffer.room { b with size } := Nat.sub_pos_of_lt room
    rcases incoming.read_cases pos with ⟨nothing, ended⟩ | ⟨bytes, rest, nonempty, len, read, chunks⟩
    · refine .inl ⟨nothing, ?_⟩
      simp only [ended]
      cases incoming.ending <;> simp [Ending.reading, Ending.outcome]
    · refine .inr ⟨bytes, rest, nonempty, len, chunks, ?_⟩
      simp only [read]

end ReceiveBuffer
end HttpServer
