import HttpServer.Connection
/-!
# Answers and the peer that takes them

What a connection answers is decided by what it reads, and its peer decides how far the answers get.
A dispatch sends responses one behind the other, up to the first that cannot be sent, and the
rejection goes out behind them if all of them did.
-/
namespace HttpServer

/-- What became of responses that were sent one behind the other. -/
structure Dispatch where
  wire : Bytes
  begun : List Response
  peer : Peer
  /-- The failure that cut the last response off, if one did. -/
  failure : Option SendError

/-- What became of the responses of two dispatches, when nothing failed in the first. -/
def Dispatch.followedBy (done rest : Dispatch) : Dispatch :=
  { rest with wire := done.wire ++ rest.wire, begun := done.begun ++ rest.begun }

/-- Sends responses, up to the first that cannot be sent. -/
def dispatch (limits : ResponseLimits) : List Response → Peer → Dispatch
  | [], peer => ⟨[], [], peer, none⟩
  | r :: rs, peer =>
    let sent := r.send limits peer
    match sent.result with
    | .error e => ⟨sent.wire, [r], sent.peer, some e⟩
    | .ok () => (Dispatch.mk sent.wire [r] sent.peer none).followedBy (dispatch limits rs sent.peer)

namespace Session

/-- What is left of a session when all its responses are sent to this peer. -/
def last (t : Session) (peer : Peer) : Session :=
  match t.rejection with
  | some e => e.session peer
  | none => { wire := [], peer, result := t.result }

/-- The session that has the same to answer, with this peer. -/
def sentTo (t : Session) (limits : ResponseLimits) (peer : Peer) : Session :=
  let done := dispatch limits t.responses peer
  match done.failure with
  | some e => { wire := done.wire, responses := done.begun, dropped := some e, peer := done.peer }
  | none =>
    { t.last done.peer with
      wire := done.wire ++ (t.last done.peer).wire
      responses := done.begun }

end Session
end HttpServer
