import HttpServer.Connection
/-!
# Connections step by step

`Service.run` serves a client from its first byte to the last. Beside other connections it is done in
steps: bytes are received, one pending request is answered, a part of a response is sent. Between two
steps anything else may happen, also that the client sends more or is gone.

A `Link` is a connection with both of its sides, and `Link.Step` has the steps of the server on it.
How many bytes a step reads or writes is not determined, and sending can fail at any time.
-/
namespace HttpServer

/-- What is to be done next for a connection. -/
inductive Stage where
  /-- Nothing: it is not served yet, or no longer. -/
  | idle
  | receiving (buffer : ReceiveBuffer)
  | answering (buffer : ReceiveBuffer)
  /-- The bytes `left` are to be sent. Behind them more requests are answered, or it is over. -/
  | sending (left : Bytes) (next : Option ReceiveBuffer)

/-- What is to be done about a rejection. If the transport failed, nothing is sent any more. -/
def Rejection.stage : Rejection → Stage
  | io _ => .idle
  | reason => .sending reason.wire none

namespace Stage

/-- What is to be done after a read. -/
def received : ReceiveBuffer.Outcome Nat → Stage
  | ⟨.error e, _⟩ => e.stage
  | ⟨.ok 0, _⟩ => idle
  | ⟨.ok (_ + 1), filled⟩ => answering filled

/-- What is to be done when the bytes of a response are sent. -/
def sent : Option ReceiveBuffer → Stage
  | none => idle
  | some b => answering b

/-- What is to be done after a look at the first pending request. -/
def answered (s : Service) (b : ReceiveBuffer) : Stage :=
  match (s.processNext b).result with
  | .error e => e.stage
  | .ok none => receiving (s.processNext b).buffer.shift
  | .ok (some response) =>
    sending response.bytes (if response.shouldClose then none else some (s.processNext b).buffer)

end Stage

structure Link where
  connected : Bool := false
  sent : Bytes := []
  /-- What the client has sent and the server has not read. -/
  held : Bytes := []
  ended : Bool := false
  broken : Option IoKind := none
  stage : Stage := .idle
  /-- What the server has read, by reads. -/
  reads : List Bytes := []
  /-- How reading has ended for the server, if it has. -/
  readEnd : Option Ending := none
  wire : Bytes := []

namespace Link

/-- A read can end so: nothing is left to read at the end of the stream or when the time is over, and
a failure does not wait for that. -/
def CanEnd (l : Link) : Ending → Prop
  | .ended => l.held = [] ∧ l.ended = true
  | .silent => l.held = [] ∧ l.ended = false ∧ l.broken = none
  | .failed kind => l.broken = some kind

inductive Step (s : Service) (l : Link) : Link → Prop where
  | read {b roomy : ReceiveBuffer} {n : Nat} (stage : l.stage = .receiving b)
      (room : b.makeRoom = .ok roomy) (pos : 0 < n) (there : n ≤ l.held.length)
      (fits : n ≤ roomy.room) :
    Step s l { l with
      held := l.held.drop n
      reads := l.reads ++ [l.held.take n]
      stage := .received (b.fill ⟨[l.held.take n], .ended⟩).1 }
  | readEnd {b roomy : ReceiveBuffer} {e : Ending} (stage : l.stage = .receiving b)
      (room : b.makeRoom = .ok roomy) (can : l.CanEnd e) :
    Step s l { l with readEnd := some e, stage := .received (b.fill ⟨[], e⟩).1 }
  | full {b : ReceiveBuffer} {e : Rejection} (stage : l.stage = .receiving b)
      (full : b.makeRoom = .error e) : Step s l { l with stage := e.stage }
  | answer {b : ReceiveBuffer} (stage : l.stage = .answering b) :
    Step s l { l with stage := .answered s b }
  | write {left : Bytes} {next : Option ReceiveBuffer} (n : Nat) (stage : l.stage = .sending left next) :
    Step s l { l with wire := l.wire ++ left.take n, stage := .sending (left.drop n) next }
  | sent {next : Option ReceiveBuffer} (stage : l.stage = .sending [] next) :
    Step s l { l with stage := .sent next }
  /-- A write fails for good. -/
  | cut {left : Bytes} {next : Option ReceiveBuffer} (stage : l.stage = .sending left next) :
    Step s l { l with stage := .idle }

/-- What the server has read from the connection is the start of this stream, and all of it with the
same ending if reading has ended. -/
def Heard (l : Link) (incoming : Incoming) : Prop :=
  ∃ rest, incoming.chunks = l.reads ++ rest ∧
    ∀ e, l.readEnd = some e → rest = [] ∧ incoming.ending = e

end Link
end HttpServer
