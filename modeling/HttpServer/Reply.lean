import HttpServer.Field
import HttpServer.Rejection
import HttpServer.Response
/-!
# Replies

A client knows nothing of a response but its bytes. It reads a head up to the first empty line,
finds the size of the body there, and takes so many bytes. What it understands is a reply.
-/
namespace HttpServer

/-- What a client understands of a response. -/
structure Reply where
  code : Nat
  contentType : Option Bytes
  close : Bool
  body : Bytes
  deriving DecidableEq

namespace Reply

/-! ## The head -/

/-- What the head of a response says. -/
structure Head where
  code : Nat
  contentType : Option Bytes
  close : Bool
  size : Nat
  deriving DecidableEq

/-- What stands before the number of the status. -/
def statusStart : Bytes := .ofString "HTTP/1.1 "

def code? (line : Bytes) : Option Nat :=
  if statusStart.isPrefixOf line then
    (Bytes.cutAt? Bytes.sp (line.drop statusStart.length)).bind fun (number, _) =>
      Decimal.number? number
  else none

/-- What stands between the name and the value of a field. -/
def separator : Bytes := .ofString ": "

/-- The field of a line. A value may be empty or start with a space. -/
def field? (line : Bytes) : Option Field :=
  (Bytes.cut? separator line).map fun (name, value) => ⟨name, value⟩

def value? (fields : List Field) (name : Bytes) : Option Bytes :=
  (fields.find? (·.isNamed name)).map (·.value)

def Head.ofLines? : List Bytes → Option Head
  | [] => none
  | line :: lines => do
    let code ← code? line
    let fields ← lines.mapM field?
    let size ← (value? fields Field.contentLength).bind Decimal.number?
    return {
      code
      contentType := value? fields Field.contentType
      close := value? fields Field.connection == some (.ofString "close")
      size }

/-! ## The stream -/

/-- The reply at the start of a stream, and the rest of the stream. -/
def read? (stream : Bytes) : Option (Reply × Bytes) :=
  match Bytes.cut? Bytes.blankLine stream with
  | none => none
  | some (text, rest) =>
    match Head.ofLines? (Bytes.lines (text ++ Bytes.crlf)) with
    | none => none
    | some head =>
      if rest.length < head.size then none
      else some (⟨head.code, head.contentType, head.close, rest.take head.size⟩,
        rest.drop head.size)

theorem length_lt_of_read? {stream rest : Bytes} {reply : Reply} (nonempty : stream ≠ [])
    (h : read? stream = some (reply, rest)) : rest.length < stream.length := by
  have pos := List.length_pos_iff.2 nonempty
  unfold read? Bytes.cut? at h
  cases hi : Bytes.indexOf? Bytes.blankLine stream with
  | none => simp [hi] at h
  | some i =>
    simp only [hi, Option.map_some] at h
    split at h
    · cases h
    · split at h
      · cases h
      · cases h
        simp only [List.length_drop, show Bytes.blankLine.length = 4 from rfl]
        omega

def readAll? (stream : Bytes) : Option (List Reply) :=
  if _nonempty : stream ≠ [] then
    match _h : read? stream with
    | none => none
    | some (reply, rest) => (readAll? rest).map (reply :: ·)
  else some []
termination_by stream.length
decreasing_by exact length_lt_of_read? _nonempty _h

end Reply

def Response.reply (r : Response) : Reply :=
  ⟨r.status.code, r.contentType, r.shouldClose, r.body.bytes⟩

def Rejection.response (r : Rejection) : Response := { status := r.status, shouldClose := true }

end HttpServer
