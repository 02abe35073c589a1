import HttpServer.Reply
import HttpServer.Transcript
/-!
# Exchanges

An exchange is a request with the response to it. Which exchanges a connection makes is told by the
bytes of its client.

The client that made a request knows how to read the response: behind the head of a response to `HEAD`
it expects no body, whatever the head says of its size, and reads the next response there.
-/
namespace HttpServer

structure Exchange where
  request : Request
  response : Response

/-- Whether the client expects no body. -/
def Exchange.isBodiless (e : Exchange) : Bool := e.request.knownMethod == some .head

/-- The requests at the start of a stream that are answered with a response. -/
def Service.exchanges (s : Service) (bytes : Bytes) : List Exchange :=
  match Bytes.indexOf? Bytes.blankLine bytes with
  | none => []
  | some i =>
    match Request.parse s.requests (bytes.take (i + 2)) with
    | .error _ => []
    | .ok request =>
      if i + 4 + request.contentLength > s.requests.maxSize then []
      else if bytes.length < i + 4 + request.contentLength then []
      else match request.resolvePath with
        | .error _ => []
        | .ok path =>
          let response := request.respond s.docs (request.body (bytes.drop (i + 4))) path.normal
          ⟨request, response⟩ ::
            if response.shouldClose then []
            else exchanges s (bytes.drop (i + 4 + request.contentLength))
termination_by bytes.length
decreasing_by
  rw [List.length_drop]
  omega

namespace Reply

/-- The head at the start of a stream, and what stands behind it. -/
def head? (stream : Bytes) : Option (Head × Bytes) :=
  (Bytes.cut? Bytes.blankLine stream).bind fun (text, rest) =>
    (Head.ofLines? (Bytes.lines (text ++ Bytes.crlf))).map (·, rest)

/-- The reply at the start of a stream, whose body is expected or not, and the rest of the stream. -/
def readOne? (bodiless : Bool) (stream : Bytes) : Option (Reply × Bytes) :=
  (head? stream).bind fun (head, rest) =>
    let size := if bodiless then 0 else head.size
    if rest.length < size then none
    else some (⟨head.code, head.contentType, head.close, rest.take size⟩, rest.drop size)

/-- The replies at the start of a stream, one for each request of which this tells whether a body is
expected, and the rest of the stream. -/
def readFor? : List Bool → Bytes → Option (List Reply × Bytes)
  | [], stream => some ([], stream)
  | bodiless :: asked, stream =>
    (readOne? bodiless stream).bind fun (reply, rest) =>
      (readFor? asked rest).map fun (replies, rest) => (reply :: replies, rest)

end Reply
end HttpServer
