import HttpServer.Connection
/-!
# Transcripts

What a connection answers is decided by the bytes of its client alone, however they arrive and
whatever buffer receives them. A transcript says so directly: it reads requests off the whole
stream.

Only two things of the buffer remain. A head that does not end within the largest request is too
large, and what the end of the stream cuts off is answered by the way in which the stream ends.
-/
namespace HttpServer

/-- The answers of a connection: responses, and a rejection behind them if there was one. -/
structure Transcript where
  responses : List Response
  rejection : Option Rejection

def Transcript.wire (t : Transcript) : Bytes :=
  t.responses.flatMap Response.bytes ++ t.rejection.elim [] Rejection.wire

/-- The rejection that answers the end of a stream: a client that ended its side wants no answer,
and a failed transport takes none. -/
def Ending.rejection : Ending → Option Rejection
  | ended => none
  | silent => some .requestTimeout
  | failed .timedOut => some .requestTimeout
  | failed _ => none

namespace Service

/-- The number of bytes within which a head has to end. -/
def headLimit (s : Service) : Nat := max s.requests.maxSize 1

/-- The answers to a stream of bytes with this ending. -/
def transcript (s : Service) (ending : Ending) (bytes : Bytes) : Transcript :=
  match _h : Bytes.indexOf? Bytes.blankLine (bytes.take s.headLimit) with
  | none => ⟨[], if s.headLimit ≤ bytes.length then some .headerTooLarge else ending.rejection⟩
  | some i =>
    match Request.parse s.requests (bytes.take (i + 2)) with
    | .error e => ⟨[], some e⟩
    | .ok request =>
      if i + 4 + request.contentLength > s.requests.maxSize then ⟨[], some .payloadTooLarge⟩
      else if bytes.length < i + 4 + request.contentLength then ⟨[], ending.rejection⟩
      else match request.resolvePath with
        | .error e => ⟨[], some e⟩
        | .ok path =>
          let response := request.respond s.docs (request.body (bytes.drop (i + 4))) path.normal
          if response.shouldClose then ⟨[response], none⟩
          else
            let rest := transcript s ending (bytes.drop (i + 4 + request.contentLength))
            { rest with responses := response :: rest.responses }
termination_by bytes.length
decreasing_by
  rw [List.length_drop]
  omega

end Service
end HttpServer
