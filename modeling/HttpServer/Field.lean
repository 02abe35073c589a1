import HttpServer.Bytes
/-!
# Header fields

A field line is a name, a colon, any spaces and a value; neither name nor value is empty. Names are
compared without regard to case, and a value keeps the spaces behind it.
-/
namespace HttpServer

structure Field where
  /-- The name, spelled as it was sent. -/
  name : Bytes
  /-- The value without the spaces before it. -/
  value : Bytes
  deriving DecidableEq

namespace Field

def colon : UInt8 := 0x3a

def ofLine? (line : Bytes) : Option Field :=
  match Bytes.cutAt? colon line with
  | none => none
  | some (name, rest) =>
    let value := Bytes.skipSpaces rest
    if name = [] ∨ value = [] then none else some ⟨name, value⟩

/-- Whether the field has this name, up to case. -/
def isNamed (f : Field) (name : Bytes) : Bool := Bytes.eqIgnoreCase f.name name

def contentType : Bytes := .ofString "content-type"
def contentLength : Bytes := .ofString "content-length"
def connection : Bytes := .ofString "connection"
def transferEncoding : Bytes := .ofString "transfer-encoding"

end Field
end HttpServer
