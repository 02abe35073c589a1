import HttpServer.Limits
import HttpServer.Peer
import HttpServer.Rejection
import HttpServer.Response
/-!
# Sending

A response goes out in two phases, first its head and then its body, and the body is either bytes or
a file. Each phase offers what is left to the peer again and again until all is accepted or a write
fails for good. A failed phase ends the sending, and its name is part of the error, so that one can
tell where the response was cut off.
-/
namespace HttpServer

/-- What became of bytes that were offered in one or more writes. -/
structure Transfer where
  sent : Nat
  /-- The number of bytes offered at each write. -/
  offered : Array Nat
  peer : Peer
  result : Except IoError Unit

/-! ## Bytes -/

/-- Offers what is left of `size` bytes, of which `sent` are accepted, until all are accepted. An
interrupted write is tried again, and a write that takes nothing is a failure. -/
def offerRest (size : Nat) (peer : Peer) (sent : Nat) (offered : Array Nat) : Transfer :=
  if sent < size then
    let left := size - sent
    match h : peer.offer left with
    | (.accepts 0, next) => ⟨sent, offered.push left, next, .error .writeZero⟩
    | (.accepts (k + 1), next) => offerRest size next (sent + (k + 1)) (offered.push left)
    | (.fails e, next) =>
      if e.kind = .interrupted then offerRest size next sent (offered.push left)
      else ⟨sent, offered.push left, next, .error e⟩
    | (.stalls, next) => ⟨sent, offered.push left, next, .error .writeTimeout⟩
  else ⟨sent, offered, peer, .ok ()⟩
termination_by peer.listed + (size - sent)
decreasing_by
  · have := Peer.listed_le_of_offer h
    omega
  · have := Peer.listed_lt_of_offer h
    omega

/-- Offers `size` bytes until all are accepted. -/
def sendAll (size : Nat) (peer : Peer) : Transfer := offerRest size peer 0 #[]

/-! ## Files -/

/-- Offers the bytes of a file from number `sent` on, at most `chunk` at a time and never more than
what is left of the announced `size`, until so many are accepted. The file has `available` bytes. An
interrupted write and one that found no room are tried again. A file that cannot be read or that
ends too early is a failure. -/
def offerFile (readable : Bool) (available size chunk : Nat) (peer : Peer) (sent : Nat)
    (offered : Array Nat) : Transfer :=
  if sent < size then
    let count := min (size - sent) (max chunk 1)
    match _h : peer.offer count with
    | (.accepts k, next) =>
      if !readable then ⟨sent, offered.push count, next, .error (.system .badDescriptor)⟩
      else if 0 < min k (available - sent) then
        offerFile readable available size chunk next (sent + min k (available - sent))
          (offered.push count)
      else ⟨sent, offered.push count, next, .error (.fileEnded sent size)⟩
    | (.fails e, next) =>
      if e.kind = .interrupted ∨ e.kind = .wouldBlock then
        offerFile readable available size chunk next sent (offered.push count)
      else ⟨sent, offered.push count, next, .error e⟩
    | (.stalls, next) => ⟨sent, offered.push count, next, .error .writeTimeout⟩
  else ⟨sent, offered, peer, .ok ()⟩
termination_by peer.listed + (size - sent)
decreasing_by
  · have := Peer.listed_le_of_offer _h
    omega
  · have := Peer.listed_lt_of_offer _h
    omega

/-- Offers the first `size` bytes of a file, wherever it is positioned. -/
def sendFile (file : OpenFile) (size chunk : Nat) (peer : Peer) : Transfer :=
  offerFile file.readable file.content.length size chunk peer 0 #[]

/-! ## Responses -/

/-- The part of a response that was being sent. -/
inductive Phase where
  | header
  | body
  | file
  deriving DecidableEq

def Phase.name : Phase → String
  | header => "header"
  | body => "body"
  | file => "file"

structure SendError where
  phase : Phase
  cause : IoError

def SendError.message (e : SendError) : String :=
  e.phase.name ++ " send failed: " ++ e.cause.message

/-- What became of a response. -/
structure Delivery where
  wire : Bytes
  peer : Peer
  result : Except SendError Unit

/-- The delivery after a phase that sent the part `t.sent` of `bytes` behind `before`. -/
def Transfer.delivery (t : Transfer) (before bytes : Bytes) (phase : Phase) : Delivery :=
  ⟨before ++ bytes.take t.sent, t.peer, t.result.mapError (⟨phase, ·⟩)⟩

/-- Sends the head and then the body of a response. -/
def Response.send (r : Response) (limits : ResponseLimits) (peer : Peer) : Delivery :=
  let t := sendAll r.head.length peer
  match t.result with
  | .error _ => t.delivery [] r.head .header
  | .ok () =>
    match r.body with
    | .owned bytes => (sendAll bytes.length t.peer).delivery r.head bytes .body
    | .file file size =>
      (sendFile file size limits.fileChunk t.peer).delivery r.head file.content .file

def Rejection.send (r : Rejection) (peer : Peer) : Transfer := sendAll r.wire.length peer

end HttpServer
