import HttpServer.Decimal
import HttpServer.Field
import HttpServer.Limits
import HttpServer.Method
import HttpServer.Path.Normal
import HttpServer.Path.Percent
/-!
# Request heads

A head is a request line and one or more field lines, each ended by a carriage return and a line
feed:

* the request line is a method, spaces, a path, spaces and the version `HTTP/1.1`;
* a field line is a name, a colon, any spaces and a value, and neither is empty.

Field lines are read in order, and the first line at fault decides the rejection. Four names mean
something: `Content-Type` is kept, `Content-Length` is the size of the body, `Connection` can ask
for the end of the connection, and `Transfer-Encoding` is refused. Whether the method allows the
body that was announced is asked last.
-/
namespace HttpServer

/-- What the head of a request says. -/
structure Request where
  method : Bytes
  /-- The path as it is routed: still encoded, and without the segment that marks the API. -/
  path : Bytes
  version : Bytes
  fields : Array Field := #[]
  /-- The value of the last field for the type of the body. -/
  contentType : Option Bytes := none
  contentLength : Nat := 0
  contentLengthSeen : Bool := false
  keepAlive : Bool := true
  isApi : Bool := false
  deriving DecidableEq

namespace Request

def servedVersion : Bytes := .ofString "HTTP/1.1"

/-- The meaning of the method token, if it has one. -/
def knownMethod (r : Request) : Option Method := Method.ofToken? r.method

/-- The value of the first field with this name, up to case. -/
def field? (r : Request) (name : Bytes) : Option Bytes :=
  (r.fields.find? (·.isNamed name)).map (·.value)

/-! ## Reading -/

/-- The request that a request line starts. -/
def ofLine (line : Bytes) : Except Rejection Request :=
  match Bytes.cutAt? Bytes.sp line with
  | none => .error .badRequestLine
  | some (method, rest) =>
    if method = [] then .error .badRequestLine
    else match Bytes.cutAt? Bytes.sp (Bytes.skipSpaces rest) with
      | none => .error .badRequestLine
      | some (path, rest) =>
        let version := Bytes.skipSpaces rest
        if version = servedVersion then .ok { method, path, version }
        else .error .invalidVersion

/-- The request with the size of its body. A carriage return ends the number, and a second number is
refused even if it is the same. -/
def noteContentLength (r : Request) (value : Bytes) : Except Rejection Request :=
  if r.contentLengthSeen then .error .invalidContentLength
  else match Decimal.read? (value.takeWhile (· != Bytes.cr)) with
    | none => .error .invalidContentLength
    | some n => .ok { r with contentLength := n, contentLengthSeen := true }

/-- The request with what a field means for it. -/
def note (r : Request) (f : Field) : Except Rejection Request :=
  if f.isNamed Field.contentType then .ok { r with contentType := some f.value }
  else if f.isNamed Field.contentLength then r.noteContentLength f.value
  else if f.isNamed Field.connection then
    if Bytes.containsIgnoreCase f.value (.ofString "close") then .ok { r with keepAlive := false }
    else .ok r
  else if f.isNamed Field.transferEncoding then .error .unsupportedTransferEncoding
  else .ok r

/-- The request with one more field line. -/
def addLine (maxFields : Nat) (r : Request) (line : Bytes) : Except Rejection Request :=
  if r.fields.size ≥ maxFields then .error .tooManyHeaders
  else match Field.ofLine? line with
    | none => .error .badHeaderSyntax
    | some f =>
      match r.note f with
      | .error e => .error e
      | .ok r => .ok { r with fields := r.fields.push f }

/-- Whether the method forbids the body that the fields announce. -/
def bodyForbidden (r : Request) : Bool :=
  r.knownMethod.any Method.forbidsBody && r.contentLength != 0

/-- The first segment of the paths of the API, with the slash before it. -/
def apiRoot : Bytes := .ofString "/api"

/-- The request with its path taken relative to the API, if it belongs there. -/
def classify (r : Request) : Request :=
  if (apiRoot ++ [Bytes.slash]).isPrefixOf r.path then
    { r with path := r.path.drop apiRoot.length, isApi := true }
  else if r.path = apiRoot then { r with path := [Bytes.slash], isApi := true }
  else r

/-- The request of a head: request line and field lines with their ends, without the empty line
behind them. -/
def parse (limits : RequestLimits) (head : Bytes) : Except Rejection Request :=
  match Bytes.cut? Bytes.crlf head with
  | none => .error .badRequestLine
  | some (line, rest) =>
    match ofLine line with
    | .error e => .error e
    | .ok r =>
      if rest = [] then .error .missingRequiredHeaders
      else match (Bytes.lines rest).foldlM (addLine limits.maxFields) r with
        | .error e => .error e
        | .ok r => if r.bodyForbidden then .error .bodyNotAllowed else .ok r.classify

/-! ## Body and path -/

def body (r : Request) (rest : Bytes) : Bytes := rest.take r.contentLength

/-- A path with its encodings undone, and then in normal form. -/
structure ResolvedPath where
  decoded : Bytes
  normal : Bytes

def resolvePath (r : Request) : Except Rejection ResolvedPath :=
  match Path.percentDecode r.path with
  | .error e => .error e
  | .ok decoded =>
    match Path.normalize decoded with
    | .error e => .error e
    | .ok normal => .ok ⟨decoded, normal⟩

end Request
end HttpServer
