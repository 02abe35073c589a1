import HttpServer.Limits
import HttpServer.Rejection
/-!
# Receive buffers

A connection receives into a storage of a fixed length that can grow up to the largest request:

```text
0           consumed        received            size
[ answered  | pending       | room              ]
```

Reading appends to the pending bytes and grows a full storage first. A request that is answered
leaves its bytes in front of the pending ones until `shift` moves these to the front. Only the
pending bytes are kept here, since nothing looks at the answered ones again.
-/
namespace HttpServer

/-! ## Incoming bytes -/

/-- How a stream ends, once all its bytes are read. -/
inductive Ending where
  | ended
  /-- The client says nothing until the time for a read is over. -/
  | silent
  | failed (kind : IoKind)
  deriving DecidableEq

/-- What a client sends: chunks, each of which is read before the next one arrives, and the ending.
An empty chunk is nothing to read. -/
structure Incoming where
  chunks : List Bytes
  ending : Ending

/-- What one read gives. -/
inductive Reading where
  /-- Bytes; none at the end of the stream. -/
  | received (bytes : Bytes)
  | silence
  | failure (kind : IoKind)

/-- What a read gives once all bytes are read. -/
def Ending.reading : Ending → Reading
  | ended => .received []
  | silent => .silence
  | failed kind => .failure kind

namespace Incoming

def remaining (i : Incoming) : Nat := i.chunks.flatten.length

/-- One read of at most `room` bytes, which never reaches behind the current chunk. -/
def read (i : Incoming) (room : Nat) : Reading × Incoming :=
  match i.chunks.dropWhile List.isEmpty with
  | [] => (i.ending.reading, { i with chunks := [] })
  | chunk :: rest =>
    (.received (chunk.take room),
      { i with chunks := if chunk.length ≤ room then rest else chunk.drop room :: rest })

/-- Chunks without bytes count for nothing. -/
theorem flatten_dropWhile_isEmpty (chunks : List Bytes) :
    (chunks.dropWhile List.isEmpty).flatten = chunks.flatten := by
  induction chunks with
  | nil => rfl
  | cons c cs ih => cases c <;> simp [ih]

theorem remaining_read {i : Incoming} {room : Nat} {bytes : Bytes}
    (h : (i.read room).1 = .received bytes) :
    (i.read room).2.remaining + bytes.length = i.remaining := by
  have total := congrArg List.length (flatten_dropWhile_isEmpty i.chunks)
  unfold read at *
  cases hc : i.chunks.dropWhile List.isEmpty with
  | nil =>
    simp only [hc, remaining] at h total ⊢
    cases he : i.ending <;> simp_all [Ending.reading]
  | cons chunk rest =>
    simp only [hc, remaining, Reading.received.injEq] at h total ⊢
    subst h
    rw [← total]
    split <;> simp <;> omega

end Incoming

/-! ## The buffer -/

structure ReceiveBuffer where
  /-- The number of answered bytes in front of the pending ones. -/
  consumed : Nat := 0
  /-- The bytes that are received and not answered. -/
  pending : Bytes := []
  size : Nat
  maxSize : Nat

namespace ReceiveBuffer

/-- The length of a storage from which on it cannot be allocated, 2 to the 62nd. -/
def allocationLimit : Nat := 0x4000000000000000

/-- The buffer of a new connection. Its storage is never empty, and no larger than the largest
request unless that is nothing. -/
def new (limits : RequestLimits) : ReceiveBuffer :=
  { size := max 1 (min limits.initialSize (max limits.maxSize 1)), maxSize := limits.maxSize }

/-- The end of the received bytes in the storage. -/
def received (b : ReceiveBuffer) : Nat := b.consumed + b.pending.length

/-- The number of bytes that still fit behind the received ones. -/
def room (b : ReceiveBuffer) : Nat := b.size - b.received

/-- The buffer with the pending bytes at the front of the storage. -/
def shift (b : ReceiveBuffer) : ReceiveBuffer := { b with consumed := 0 }

/-- The buffer with the first `n` pending bytes answered. -/
def consume (b : ReceiveBuffer) (n : Nat) : ReceiveBuffer :=
  { b with consumed := b.consumed + min n b.pending.length, pending := b.pending.drop n }

def resize (b : ReceiveBuffer) (target : Nat) : Except Rejection ReceiveBuffer :=
  if target ≥ allocationLimit then .error .outOfMemory else .ok { b with size := target }

/-- The buffer with twice the storage, or as much as it may have. -/
def grow (b : ReceiveBuffer) : Except Rejection ReceiveBuffer :=
  if b.size ≥ b.maxSize then .error .headerTooLarge else b.resize (min (2 * b.size) b.maxSize)

/-- The buffer with room for at least one more byte. -/
def makeRoom (b : ReceiveBuffer) : Except Rejection ReceiveBuffer :=
  if b.received = b.size then b.grow else .ok b

structure Outcome (α : Type) where
  result : Except Rejection α
  /-- The buffer afterwards, also after a failure. -/
  buffer : ReceiveBuffer

/-- One read into the room behind the received bytes, and what is left to read. It gives the number
of bytes, which is zero at the end of the stream. -/
def fill (b : ReceiveBuffer) (incoming : Incoming) : Outcome Nat × Incoming :=
  match b.makeRoom with
  | .error e => (⟨.error e, b⟩, incoming)
  | .ok b =>
    let rest := (incoming.read b.room).2
    match (incoming.read b.room).1 with
    | .received bytes => (⟨.ok bytes.length, { b with pending := b.pending ++ bytes }⟩, rest)
    | .silence => (⟨.error .requestTimeout, b⟩, rest)
    | .failure kind => (⟨.error (.ofIo kind), b⟩, rest)

theorem remaining_fill {b filled : ReceiveBuffer} {incoming rest : Incoming} {n : Nat}
    (h : b.fill incoming = (⟨.ok (n + 1), filled⟩, rest)) :
    rest.remaining < incoming.remaining := by
  unfold fill at h
  split at h
  · simp at h
  · rename_i b' _
    cases hr : (incoming.read b'.room).1 with
    | received bytes =>
      have left := Incoming.remaining_read hr
      simp only [hr, Prod.mk.injEq, Outcome.mk.injEq, Except.ok.injEq] at h
      rw [← h.2]
      omega
    | silence => simp [hr] at h
    | failure kind => simp [hr] at h

/-- The buffer with room for a request of `total` bytes that starts with the pending ones. These are
moved to the front if the storage does not reach far enough, and only then it grows. -/
def reserve (b : ReceiveBuffer) (total : Nat) : Outcome Unit :=
  if total > b.maxSize then ⟨.error .payloadTooLarge, b⟩
  else if b.consumed + total ≤ b.size then ⟨.ok (), b⟩
  else
    let b := b.shift
    if total > b.size then
      match b.resize total with
      | .error e => ⟨.error e, b⟩
      | .ok b => ⟨.ok (), b⟩
    else ⟨.ok (), b⟩

end ReceiveBuffer
end HttpServer
