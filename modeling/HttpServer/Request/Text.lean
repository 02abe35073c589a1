import HttpServer.Request
/-!
# The text of a request head

A head is written from its parts, and `Request.parse` reads it back. The parts tell everything that
the text holds: also the numbers of spaces, which mean nothing.
-/
namespace HttpServer.Request

/-- A field line by its parts. -/
structure FieldText where
  name : Bytes
  /-- The number of spaces behind the colon. -/
  spaces : Nat
  value : Bytes
  deriving DecidableEq

/-- A head by its parts. -/
structure HeadText where
  method : Bytes
  spacesBefore : Nat
  path : Bytes
  spacesAfter : Nat
  fields : List FieldText
  deriving DecidableEq

def spacing (n : Nat) : Bytes := List.replicate n Bytes.sp

namespace FieldText

/-- The line without its end. -/
def line (f : FieldText) : Bytes := f.name ++ Field.colon :: spacing f.spaces ++ f.value

def field (f : FieldText) : Field := ⟨f.name, f.value⟩

/-- The parts can be told apart in the line: the name ends at the first colon, the value begins at
the first byte that is no space, and the line ends at its end. -/
def WellFormed (f : FieldText) : Prop :=
  f.name ≠ [] ∧ Field.colon ∉ f.name ∧ f.value ≠ [] ∧ f.value.head? ≠ some Bytes.sp ∧
    Bytes.indexOf? Bytes.crlf f.line = none

end FieldText

namespace HeadText

def requestLine (t : HeadText) : Bytes :=
  t.method ++ spacing t.spacesBefore ++ t.path ++ spacing t.spacesAfter ++ servedVersion

def render (t : HeadText) : Bytes :=
  t.requestLine ++ Bytes.crlf ++ t.fields.flatMap fun f => f.line ++ Bytes.crlf

/-- The values of the fields with a name, up to case. -/
def values (t : HeadText) (name : Bytes) : List Bytes :=
  (t.fields.filter (·.field.isNamed name)).map (·.value)

/-- The digits of a content length: the value up to the first carriage return. -/
def digitsOf (value : Bytes) : Bytes := value.takeWhile (· != Bytes.cr)

/-- The size of the body: zero, or what the only field for it says. -/
def contentLength (t : HeadText) : Option Nat :=
  match t.values Field.contentLength with
  | [] => some 0
  | [value] => Decimal.read? (digitsOf value)
  | _ => none

/-- The text is that of a head which is accepted. -/
structure WellFormed (t : HeadText) (limits : RequestLimits) : Prop where
  method : t.method ≠ [] ∧ Bytes.sp ∉ t.method
  path : t.path ≠ [] ∧ Bytes.sp ∉ t.path
  separated : 0 < t.spacesBefore ∧ 0 < t.spacesAfter
  /-- The request line ends at its end. -/
  line : Bytes.indexOf? Bytes.crlf t.requestLine = none
  count : t.fields ≠ [] ∧ t.fields.length ≤ limits.maxFields
  fields : ∀ f ∈ t.fields, f.WellFormed
  encoding : t.values Field.transferEncoding = []
  /-- The size of the body is a number, and the method allows the body. -/
  body : ∃ n, t.contentLength = some n ∧
    (n ≠ 0 → ∀ m, Method.ofToken? t.method = some m → m.forbidsBody = false)

/-- What the head says, with the path as it was sent. -/
def unclassified (t : HeadText) : Request :=
  { method := t.method
    path := t.path
    version := servedVersion
    fields := (t.fields.map FieldText.field).toArray
    contentType := (t.values Field.contentType).getLast?
    contentLength := t.contentLength.getD 0
    contentLengthSeen := !(t.values Field.contentLength).isEmpty
    keepAlive := !(t.values Field.connection).any fun value =>
      Bytes.containsIgnoreCase value (.ofString "close") }

def request (t : HeadText) : Request := t.unclassified.classify

end HeadText
end HttpServer.Request
