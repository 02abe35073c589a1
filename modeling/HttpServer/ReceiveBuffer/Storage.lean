import HttpServer.ReceiveBuffer
/-!
# Storages

A receive buffer says which bytes are pending, and a storage says where they lie: in a row of cells,
between two places in it.

```text
0           consumed        received            cells.length
[ answered  | pending       | room              ]
```

All is done in place. Reading writes into the cells of the room, a larger storage keeps the cells
that it has, and `shift` moves the pending bytes to the front cell by cell, although they may overlap
with the cells they go to. `Storage.view` forgets the cells that hold nothing pending, and what is left
is a receive buffer.

Memory can be refused at any time and for any reason, so every operation that allocates is told for
which lengths there is memory.
-/
namespace HttpServer

/-- A storage with received bytes in it. -/
structure Storage where
  /-- All cells, also those that hold nothing of interest. -/
  cells : Bytes
  /-- The place behind the answered bytes. -/
  consumed : Nat := 0
  /-- The place behind the received bytes. -/
  received : Nat := 0
  maxSize : Nat

/-- The lengths of a storage for which there is memory. -/
abbrev Memory := Nat → Bool

/-- The memory of a machine that has enough for every length below the limit of allocation. -/
def Memory.ample : Memory := fun n => n < ReceiveBuffer.allocationLimit

/-- The cells after `count` of them were moved `distance` cells to the left, the first of them to the
cell `target`. Each is read when those before it are written already. -/
def moveCells (distance : Nat) : (target count : Nat) → Bytes → Bytes
  | _, 0, cells => cells
  | target, count + 1, cells =>
    moveCells distance (target + 1) count (cells.set target (cells.getD (distance + target) 0))

namespace Storage

def size (s : Storage) : Nat := s.cells.length

def pending (s : Storage) : Bytes := (s.cells.take s.received).drop s.consumed

/-- The receive buffer in a storage. -/
def view (s : Storage) : ReceiveBuffer := ⟨s.consumed, s.pending, s.size, s.maxSize⟩

def new (limits : RequestLimits) : Storage :=
  { cells := List.replicate (max 1 (min limits.initialSize (max limits.maxSize 1))) 0
    maxSize := limits.maxSize }

def shift (s : Storage) : Storage :=
  if s.consumed = 0 then s
  else { s with
    cells := moveCells s.consumed 0 (s.received - s.consumed) s.cells
    received := s.received - s.consumed
    consumed := 0 }

def consume (s : Storage) (n : Nat) : Storage :=
  { s with consumed := min (s.consumed + n) s.received }

/-- The storage with `target` cells. New ones hold zero. -/
def resize (memory : Memory) (s : Storage) (target : Nat) : Except Rejection Storage :=
  if memory target then
    .ok { s with cells := s.cells.take target ++ List.replicate (target - s.size) 0 }
  else .error .outOfMemory

def grow (memory : Memory) (s : Storage) : Except Rejection Storage :=
  if s.size ≥ s.maxSize then .error .headerTooLarge
  else s.resize memory (min (2 * s.size) s.maxSize)

def makeRoom (memory : Memory) (s : Storage) : Except Rejection Storage :=
  if s.received = s.size then s.grow memory else .ok s

/-- The storage with these bytes written behind the received ones. -/
def receive (s : Storage) (bytes : Bytes) : Storage :=
  { s with
    cells := s.cells.take s.received ++ bytes ++ s.cells.drop (s.received + bytes.length)
    received := s.received + bytes.length }

structure Outcome (α : Type) where
  result : Except Rejection α
  /-- The storage afterwards, also after a failure. -/
  storage : Storage

def Outcome.view {α : Type} (o : Outcome α) : ReceiveBuffer.Outcome α := ⟨o.result, o.storage.view⟩

def fill (memory : Memory) (s : Storage) (incoming : Incoming) : Outcome Nat × Incoming :=
  match s.makeRoom memory with
  | .error e => (⟨.error e, s⟩, incoming)
  | .ok s =>
    let rest := (incoming.read (s.size - s.received)).2
    match (incoming.read (s.size - s.received)).1 with
    | .received bytes => (⟨.ok bytes.length, s.receive bytes⟩, rest)
    | .silence => (⟨.error .requestTimeout, s⟩, rest)
    | .failure kind => (⟨.error (.ofIo kind), s⟩, rest)

def reserve (memory : Memory) (s : Storage) (total : Nat) : Outcome Unit :=
  if total > s.maxSize then ⟨.error .payloadTooLarge, s⟩
  else if s.consumed + total ≤ s.size then ⟨.ok (), s⟩
  else
    let s := s.shift
    if total > s.size then
      match s.resize memory total with
      | .error e => ⟨.error e, s⟩
      | .ok s => ⟨.ok (), s⟩
    else ⟨.ok (), s⟩

end Storage

/-! ## Sequences of operations -/

/-- The bytes of a stream that are no longer in what is left of it. -/
def Incoming.taken (i rest : Incoming) : Bytes :=
  i.chunks.flatten.take (i.remaining - rest.remaining)

/-- An operation on a receive buffer. Every read has a stream of its own, since what a stream gives
next is up to the client. -/
inductive BufferOp where
  | fill (incoming : Incoming)
  | consume (n : Nat)
  | reserve (total : Nat)
  | shift

/-- The buffer after an operation, whether it succeeds or not. -/
def ReceiveBuffer.after (b : ReceiveBuffer) : BufferOp → ReceiveBuffer
  | .fill incoming => (b.fill incoming).1.buffer
  | .consume n => b.consume n
  | .reserve total => (b.reserve total).buffer
  | .shift => b.shift

namespace Storage

def after (s : Storage) (memory : Memory) : BufferOp → Storage
  | .fill incoming => (s.fill memory incoming).1.storage
  | .consume n => s.consume n
  | .reserve total => (s.reserve memory total).storage
  | .shift => s.shift

/-- The bytes that an operation takes from its stream. -/
def deliveredBy (s : Storage) (memory : Memory) : BufferOp → Bytes
  | .fill incoming => incoming.taken (s.fill memory incoming).2
  | _ => []

def answeredBy (s : Storage) : BufferOp → Bytes
  | .consume n => s.pending.take n
  | _ => []

/-- The storage after operations, each with the memory that there is at its time. -/
def run (s : Storage) (steps : List (Memory × BufferOp)) : Storage :=
  steps.foldl (fun s (memory, op) => s.after memory op) s

def delivered (s : Storage) : List (Memory × BufferOp) → Bytes
  | [] => []
  | (memory, op) :: steps => s.deliveredBy memory op ++ (s.after memory op).delivered steps

def answered (s : Storage) : List (Memory × BufferOp) → Bytes
  | [] => []
  | (memory, op) :: steps => s.answeredBy op ++ (s.after memory op).answered steps

end Storage
end HttpServer
