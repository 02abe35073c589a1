import HttpServer.Sending
/-!
# Sending, call by call

`sendAll` and `sendFile` count what the peer accepts. Here the bytes themselves are handed over, and
every call is kept with what was asked of it.

A file is not offered from memory. The system reads it from a place that it moves on by itself, and the
loop counts what was moved; before each call the loop waits until the connection has room for more,
which can fail as well. `Streaming` holds both numbers, and a `Round` is what becomes of one turn of
this loop.
-/
namespace HttpServer

/-! ## Bytes -/

/-- The number of bytes that a write took. -/
def WriteOutcome.count : WriteOutcome → Nat
  | accepts n => n
  | _ => 0

/-- The failure that a write ends the sending with, if it does. -/
def WriteOutcome.failure? : WriteOutcome → Option IoError
  | accepts 0 => some .writeZero
  | accepts (_ + 1) => none
  | fails e => if e.kind = .interrupted then none else some e
  | stalls => some .writeTimeout

/-- A write after which the sending goes on has taken a byte or used up a listed answer. -/
theorem Peer.listed_lt_of_goesOn {p q : Peer} {n : Nat} {outcome : WriteOutcome}
    (h : p.offer n = (outcome, q)) (on : outcome.failure? = none) :
    q.listed < p.listed + outcome.count := by
  cases outcome with
  | accepts k =>
    have := listed_le_of_offer h
    cases k with
    | zero => cases on
    | succ k =>
      simp only [WriteOutcome.count]
      omega
  | fails e =>
    have := listed_lt_of_offer h
    simp only [WriteOutcome.count]
    omega
  | stalls => cases on

theorem Peer.count_le_of_offer {p q : Peer} {n : Nat} {outcome : WriteOutcome}
    (h : p.offer n = (outcome, q)) : outcome.count ≤ n := by
  cases outcome with
  | accepts k => exact le_of_offer h
  | _ => exact Nat.zero_le n

structure WriteCall where
  offered : Bytes
  outcome : WriteOutcome

def WriteCall.taken (call : WriteCall) : Bytes := call.offered.take call.outcome.count

/-- What became of bytes, with all the writes. -/
structure Writing where
  calls : List WriteCall
  peer : Peer
  result : Except IoError Unit

namespace Writing

def wire (w : Writing) : Bytes := w.calls.flatMap WriteCall.taken

/-- The writing with one more write before the others. -/
def behind (w : Writing) (call : WriteCall) : Writing := { w with calls := call :: w.calls }

/-- What is counted of a writing. -/
def transfer (w : Writing) : Transfer :=
  ⟨w.wire.length, (w.calls.map fun call => call.offered.length).toArray, w.peer, w.result⟩

end Writing

/-- Writes the data from the place `offset` on, until all is taken or a write fails for good. -/
def writeFrom (data : Bytes) (offset : Nat) (peer : Peer) : Writing :=
  if offset < data.length then
    let rest := data.drop offset
    match _h : peer.offer rest.length with
    | (outcome, next) =>
      match _on : outcome.failure? with
      | some e => ⟨[⟨rest, outcome⟩], next, .error e⟩
      | none => (writeFrom data (offset + outcome.count) next).behind ⟨rest, outcome⟩
  else ⟨[], peer, .ok ()⟩
termination_by peer.listed + (data.length - offset)
decreasing_by
  have := Peer.listed_lt_of_goesOn _h _on
  have := Peer.count_le_of_offer _h
  have : rest.length = data.length - offset := List.length_drop
  omega

def writeAll (data : Bytes) (peer : Peer) : Writing := writeFrom data 0 peer

/-! ## Files -/

/-- What becomes of one turn of the loop that streams a file. -/
inductive Round where
  /-- Waiting for room fails. -/
  | unready (e : IoError)
  | stalls
  /-- The system moves as many bytes as it is asked for and the file has, but at most `n`. -/
  | moves (n : Nat)
  | fails (e : IoError)
  deriving DecidableEq

namespace Round

/-- The loop tries again. -/
def Retried : Round → Prop
  | fails e => e.kind = .interrupted ∨ e.kind = .wouldBlock
  | _ => False

/-- The system moves bytes as long as the file has any. -/
def Moves : Round → Prop
  | moves n => 0 < n
  | _ => False

def ofOutcome : WriteOutcome → Round
  | .accepts n => moves n
  | .fails e => fails e
  | .stalls => stalls

/-- The turns with a peer that answers as listed, and accepts everything after that: there are enough
of these for `size` bytes. -/
def script (size : Nat) (outcomes : List WriteOutcome) : List Round :=
  outcomes.map ofOutcome ++ List.replicate size (moves size)

end Round

/-- What the system is asked for. -/
structure FileCall where
  offset : Nat
  count : Nat

structure Streaming where
  /-- The place in the file that the system reads next. -/
  offset : Nat := 0
  /-- The number of bytes that the loop has counted. -/
  sent : Nat := 0
  wire : Bytes := []
  calls : List FileCall := []
  result : Option (Except IoError Unit) := none

namespace Streaming

/-- The loop ends when all is sent that was announced. -/
def settle (size : Nat) (st : Streaming) : Streaming :=
  if st.sent < size then st else { st with result := some (.ok ()) }

def fail (st : Streaming) (e : IoError) : Streaming := { st with result := some (.error e) }

/-- What the next call asks for: no more than is left, than a word can hold, and than a chunk. -/
def next (size chunk : Nat) (st : Streaming) : FileCall :=
  ⟨st.offset, min (min (size - st.sent) (Decimal.wordLimit - 1)) (max chunk 1)⟩

def ask (size chunk : Nat) (st : Streaming) : Streaming :=
  { st with calls := st.calls ++ [st.next size chunk] }

/-- These bytes have been moved from the file to the peer. -/
def advance (st : Streaming) (bytes : Bytes) : Streaming :=
  { st with
    offset := st.offset + bytes.length
    sent := st.sent + bytes.length
    wire := st.wire ++ bytes }

/-- The system moves `count` bytes of the file, or as many as are left. If none are, it moves nothing,
and the file has ended too early. -/
def move (content : Bytes) (size count : Nat) (st : Streaming) : Streaming :=
  let bytes := (content.drop st.offset).take count
  if bytes = [] then st.fail (.fileEnded st.sent size) else settle size (st.advance bytes)

/-- One turn of the loop, unless it has ended. -/
def step (file : OpenFile) (size chunk : Nat) (st : Streaming) (round : Round) : Streaming :=
  match st.result with
  | some _ => st
  | none =>
    match round with
    | .unready e => st.fail e
    | .stalls => st.fail .writeTimeout
    | .moves n =>
      if file.readable then
        (st.ask size chunk).move file.content size (min n (st.next size chunk).count)
      else (st.ask size chunk).fail (.system .badDescriptor)
    | .fails e =>
      if e.kind = .interrupted ∨ e.kind = .wouldBlock then st.ask size chunk
      else (st.ask size chunk).fail e

/-- A file of the announced `size` after some turns of the loop. -/
def run (file : OpenFile) (size chunk : Nat) (rounds : List Round) : Streaming :=
  rounds.foldl (step file size chunk) (settle size {})

/-- The file after `n` turns, if turn number `i` is `rounds i`. -/
def after (file : OpenFile) (size chunk : Nat) (rounds : Nat → Round) (n : Nat) : Streaming :=
  run file size chunk ((List.range n).map rounds)

end Streaming

/-! ## Responses -/

structure Transmission where
  wire : Bytes
  result : Option (Except SendError Unit)

/-- A response after all writes to the peer and some turns of the loop that streams its file. -/
def Response.transmit (r : Response) (limits : ResponseLimits) (peer : Peer) (rounds : List Round) :
    Transmission :=
  let head := writeAll r.head peer
  match head.result with
  | .error e => ⟨head.wire, some (.error ⟨.header, e⟩)⟩
  | .ok () =>
    match r.body with
    | .owned bytes =>
      let body := writeAll bytes head.peer
      ⟨head.wire ++ body.wire, some (body.result.mapError (⟨.body, ·⟩))⟩
    | .file file size =>
      let body := Streaming.run file size limits.fileChunk rounds
      ⟨head.wire ++ body.wire, body.result.map (·.mapError (⟨.file, ·⟩))⟩

def failedPhase : Except SendError Unit → Option Phase
  | .ok () => none
  | .error e => some e.phase

/-- Where a response is cut off whose sending failed in this phase: in its head, behind the head in the
bytes that it owns, or behind the head in its file, before as much was sent as was announced. It is whole
if no phase failed, and then its file had as much as was announced. -/
def Response.CutOff (r : Response) (wire : Bytes) : Option Phase → Prop
  | none => wire = r.head ++ r.body.bytes ∧ r.body.bytes.length = r.body.length
  | some .header => wire <+: r.head ∧ wire ≠ r.head
  | some .body => ∃ bytes, r.body = .owned bytes ∧ bytes ≠ [] ∧
      ∃ sent, wire = r.head ++ sent ∧ sent <+: bytes ∧ sent ≠ bytes
  | some .file => ∃ file size, r.body = .file file size ∧
      ∃ sent, wire = r.head ++ sent ∧ sent <+: file.content.take size ∧ sent.length < size

end HttpServer
