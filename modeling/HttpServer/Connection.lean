import HttpServer.ReceiveBuffer
import HttpServer.Route
import HttpServer.Sending
/-!
# Connections

A connection receives into its buffer, answers every complete request that is pending, and receives
again. It ends when the client has ended its side, when a response says so, when a response cannot
be sent, or when a request is rejected; only a rejection is answered by one more response.

`processNext` takes one request: it looks at nothing but the pending bytes, and a request is only
answered when its head and its whole body are there.
-/
namespace HttpServer

/-- What all connections of a server share. -/
structure Service where
  requests : RequestLimits := {}
  responses : ResponseLimits := {}
  docs : DocumentRoot

namespace Service

/-! ## One request -/

/-- The answer to the first pending request, whose head of `headSize` bytes is read already. There
is none before its whole body is pending; until then the buffer has room for it. -/
def answerRequest (s : Service) (b : ReceiveBuffer) (request : Request) (headSize : Nat) :
    ReceiveBuffer.Outcome (Option Response) :=
  if headSize + request.contentLength > s.requests.maxSize then ⟨.error .payloadTooLarge, b⟩
  else if b.pending.length < headSize + request.contentLength then
    ⟨(b.reserve (headSize + request.contentLength)).result.map fun _ => none,
      (b.reserve (headSize + request.contentLength)).buffer⟩
  else match request.resolvePath with
    | .error e => ⟨.error e, b⟩
    | .ok path =>
      ⟨.ok (some (request.respond s.docs (request.body (b.pending.drop headSize)) path.normal)),
        b.consume (headSize + request.contentLength)⟩

/-- The answer to the first pending request, which is consumed with it, or none if more bytes are
needed. The head goes up to the first empty line; the line before it keeps its end. -/
def processNext (s : Service) (b : ReceiveBuffer) : ReceiveBuffer.Outcome (Option Response) :=
  match Bytes.indexOf? Bytes.blankLine b.pending with
  | none => ⟨.ok none, b⟩
  | some i =>
    match Request.parse s.requests (b.pending.take (i + 2)) with
    | .error e => ⟨.error e, b⟩
    | .ok request => s.answerRequest b request (i + 4)

theorem pending_answerRequest {s : Service} {b : ReceiveBuffer} {request : Request} {n : Nat}
    {r : Response} (h : (s.answerRequest b request n).result = .ok (some r)) :
    n + request.contentLength ≤ b.pending.length ∧
      (s.answerRequest b request n).buffer.pending =
        b.pending.drop (n + request.contentLength) := by
  unfold answerRequest at h ⊢
  split at h
  · simp at h
  · split at h
    · cases hr : (b.reserve (n + request.contentLength)).result <;> simp [hr, Except.map] at h
    · split at h
      · simp at h
      · rename_i small enough _ _ _
        simp only [small, if_false, enough]
        exact ⟨by omega, rfl⟩

theorem length_pending_processNext {s : Service} {b : ReceiveBuffer} {r : Response}
    (h : (s.processNext b).result = .ok (some r)) :
    (s.processNext b).buffer.pending.length < b.pending.length := by
  unfold processNext at h ⊢
  split at h
  · simp at h
  · split at h
    · simp at h
    · obtain ⟨enough, rest⟩ := pending_answerRequest h
      rw [rest, List.length_drop]
      omega

/-! ## Pending requests -/

/-- What happens after the pending requests. -/
inductive Turn where
  | receive
  | close
  /-- A response could not be sent, and the connection is given up. -/
  | drop (failure : SendError)
  | reject (reason : Rejection)

/-- What answering the pending requests comes to. -/
structure Progress where
  wire : Bytes
  /-- The responses that were begun. -/
  responses : List Response
  buffer : ReceiveBuffer
  peer : Peer
  turn : Turn

/-- Answers pending requests, one after another, as long as they are complete. -/
def answerPending (s : Service) (b : ReceiveBuffer) (peer : Peer) : Progress :=
  match _h : (s.processNext b).result with
  | .error e => ⟨[], [], (s.processNext b).buffer, peer, .reject e⟩
  | .ok none => ⟨[], [], (s.processNext b).buffer, peer, .receive⟩
  | .ok (some response) =>
    let sent := response.send s.responses peer
    match sent.result with
    | .error e => ⟨sent.wire, [response], (s.processNext b).buffer, sent.peer, .drop e⟩
    | .ok () =>
      if response.shouldClose then
        ⟨sent.wire, [response], (s.processNext b).buffer, sent.peer, .close⟩
      else
        let rest := answerPending s (s.processNext b).buffer sent.peer
        { rest with wire := sent.wire ++ rest.wire, responses := response :: rest.responses }
termination_by b.pending.length
decreasing_by exact length_pending_processNext _h

end Service

/-! ## A whole connection -/

/-- What a connection came to. -/
structure Session where
  /-- The bytes that the peer accepted. -/
  wire : Bytes
  /-- The responses that were begun, in order. -/
  responses : List Response := []
  /-- The rejection that was answered last, if there was one. -/
  rejection : Option Rejection := none
  /-- The failure that cut the last response off, if one did. -/
  dropped : Option SendError := none
  peer : Peer
  /-- The kind of the failure of the transport, if there was one. -/
  result : Except IoKind Unit := .ok ()

/-- The session that goes on with `last` behind the requests answered before. -/
def Session.behind (last : Session) (done : Service.Progress) : Session :=
  { last with wire := done.wire ++ last.wire, responses := done.responses ++ last.responses }

/-- The session that only answers a rejection. If the transport failed, nothing is sent any more. -/
def Rejection.session (reason : Rejection) (peer : Peer) : Session :=
  match reason with
  | .io kind => { wire := [], peer, result := .error kind }
  | _ =>
    { wire := reason.wire.take (reason.send peer).sent
      rejection := some reason
      peer := (reason.send peer).peer
      result := (reason.send peer).result.mapError IoError.kind }

namespace Service

/-- Receives and answers until the connection ends, and returns what is left of the stream. -/
def converse (s : Service) (b : ReceiveBuffer) (incoming : Incoming) (peer : Peer) :
    Session × Incoming :=
  match _h : b.fill incoming with
  | (⟨.error e, _⟩, rest) => (e.session peer, rest)
  | (⟨.ok 0, _⟩, rest) => ({ wire := [], peer }, rest)
  | (⟨.ok (_ + 1), filled⟩, rest) =>
    let done := s.answerPending filled peer
    match done.turn with
    | .close => (Session.behind { wire := [], peer := done.peer } done, rest)
    | .drop e => (Session.behind { wire := [], dropped := some e, peer := done.peer } done, rest)
    | .reject e => ((e.session done.peer).behind done, rest)
    | .receive => (converse s done.buffer.shift rest done.peer).map (·.behind done) id
termination_by incoming.remaining
decreasing_by exact ReceiveBuffer.remaining_fill _h

/-- Serves one client from the first byte on. -/
def run (s : Service) (incoming : Incoming) (peer : Peer) : Session :=
  (s.converse (.new s.requests) incoming peer).1

end Service
end HttpServer
