import HttpServer.Connection
import HttpServer.ReceiveBuffer.Storage
/-!
# Requests taken from a storage

What `processNext` does to a receive buffer is done here in a storage and with the sizes of a machine.
The size of a request is the sum of two words, and a sum that is no word must be noticed. The body is
cut out between two places of the pending bytes, and room for a request can be refused.
-/
namespace HttpServer

/-- The sum of two words, if it is a word. -/
def Decimal.add? (m n : Nat) : Option Nat := if m + n < wordLimit then some (m + n) else none

/-- The size of a request by the sizes of its head and its body, if it is admissible. -/
def RequestLimits.total? (limits : RequestLimits) (headSize bodySize : Nat) : Option Nat :=
  (Decimal.add? headSize bodySize).filter (· ≤ limits.maxSize)

namespace Service

/-- The answer to the first pending request, whose head of `headSize` bytes is read already. -/
def answerInPlace (s : Service) (memory : Memory) (st : Storage) (request : Request)
    (headSize : Nat) : Storage.Outcome (Option Response) :=
  match s.requests.total? headSize request.contentLength with
  | none => ⟨.error .payloadTooLarge, st⟩
  | some total =>
    if st.pending.length < total then
      ⟨(st.reserve memory total).result.map fun _ => none, (st.reserve memory total).storage⟩
    else match request.resolvePath with
      | .error e => ⟨.error e, st⟩
      | .ok path =>
        let body := (st.pending.take total).drop headSize
        ⟨.ok (some (request.respond s.docs (request.body body) path.normal)), st.consume total⟩

/-- The answer to the first pending request, which is consumed with it, or none if more bytes are
needed. -/
def processInPlace (s : Service) (memory : Memory) (st : Storage) :
    Storage.Outcome (Option Response) :=
  match Bytes.indexOf? Bytes.blankLine st.pending with
  | none => ⟨.ok none, st⟩
  | some i =>
    match Request.parse s.requests (st.pending.take (i + 2)) with
    | .error e => ⟨.error e, st⟩
    | .ok request => s.answerInPlace memory st request (i + 4)

end Service
end HttpServer
