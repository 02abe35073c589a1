import HttpServer.Status
/-!
# Responses

A response is a status, an optional type, a body and whether the connection ends with it. The body
is either bytes that the response owns or an open file of a size announced beforehand.

`Response.head` is the status line and the header lines up to the empty line: `Content-Length`, the
type if there is one, and `Connection`.
-/
namespace HttpServer

structure OpenFile where
  content : Bytes
  /-- Where the next read starts. -/
  position : Nat := 0
  readable : Bool := true
  deriving DecidableEq

/-- A read to the end: the bytes from the position on, and the file positioned behind them. -/
def OpenFile.readToEnd (f : OpenFile) : Option Bytes × OpenFile :=
  if f.readable then
    (some (f.content.drop f.position), { f with position := max f.position f.content.length })
  else (none, f)

inductive Body where
  | owned (bytes : Bytes)
  /-- A file and the size announced for it. -/
  | file (file : OpenFile) (size : Nat)
  deriving DecidableEq

namespace Body

/-- The announced number of bytes. -/
def length : Body → Nat
  | owned bytes => bytes.length
  | file _ size => size

def isEmpty (b : Body) : Bool := b.length == 0

def isFile : Body → Bool
  | owned _ => false
  | file .. => true

/-- The bytes that are sent: of a file the first ones, as many as announced. -/
def bytes : Body → Bytes
  | owned bytes => bytes
  | file f size => f.content.take size

/-- The body with its file read to the end. -/
def drained : Body → Body
  | owned bytes => owned bytes
  | file f size => file f.readToEnd.2 size

end Body

structure Response where
  status : Status
  contentType : Option Bytes := none
  body : Body := .owned []
  shouldClose : Bool := false
  deriving DecidableEq

namespace Response

def empty (status : Status) : Response := { status }

def text (status : Status) (bytes : Bytes) : Response :=
  { status, body := .owned bytes, contentType := some (.ofString "text/plain") }

def ofFile (file : OpenFile) (size : Nat) (contentType : Bytes) : Response :=
  { status := .ok, body := .file file size, contentType := some contentType }

/-- The response to a failure of the server itself. -/
def internalError : Response := empty .internalServerError

def withContentType (r : Response) (value : Bytes) : Response :=
  { r with contentType := some value }

def withKeepAlive (r : Response) (keepAlive : Bool) : Response :=
  { r with shouldClose := !keepAlive }

/-! ## The head on the wire -/

def headerLine (name : String) (value : Bytes) : Bytes :=
  Bytes.ofString name ++ Bytes.ofString ": " ++ value ++ Bytes.crlf

/-- The value of the header that tells whether the connection stays open. -/
def connectionValue (shouldClose : Bool) : Bytes :=
  if shouldClose then .ofString "close" else .ofString "keep-alive"

/-- The status line and the header lines, with the empty line, in a buffer that held other bytes
before: these are cleared away first. -/
def headInto (r : Response) (held : Bytes) : Bytes :=
  held.take 0 ++ r.status.line ++ headerLine "Content-Length" (Decimal.write r.body.length)
    ++ (r.contentType.elim [] (headerLine "Content-Type"))
    ++ headerLine "Connection" (connectionValue r.shouldClose) ++ Bytes.crlf

/-- The head, which does not depend on the buffer. -/
def head (r : Response) : Bytes := r.headInto []

def bytes (r : Response) : Bytes := r.head ++ r.body.bytes

/-- All that is sent of responses one after another. All heads are written into one buffer, which
holds `held` before the first and then always the last head. -/
def stream (held : Bytes) : List Response → Bytes
  | [] => []
  | r :: rs => r.headInto held ++ r.body.bytes ++ stream (r.headInto held) rs

end Response
end HttpServer
