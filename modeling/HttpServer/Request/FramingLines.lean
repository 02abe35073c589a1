import HttpServer.Request
/-!
# Framing lines

Where the body of a request ends is told by two kinds of field lines, the size of the body and its
transfer encoding. Client and server must read them alike, or one of them takes bytes of a body for
the next request. Here these lines are read in the most liberal way: neither the case of a name counts
nor the spaces and tabs around it.
-/
namespace HttpServer.Request

/-- Whether the byte is a space or a tab. -/
def isBlank (b : UInt8) : Bool := b == Bytes.sp || b == 0x09

/-- `s` without the spaces and tabs at both ends. -/
def trim (s : Bytes) : Bytes :=
  ((s.dropWhile isBlank).reverse.dropWhile isBlank).reverse

def fieldLines (head : Bytes) : List Bytes :=
  match Bytes.cut? Bytes.crlf head with
  | none => []
  | some (_, rest) => Bytes.lines rest

/-- What stands before the first colon of a line. -/
def nameOf (line : Bytes) : Bytes := line.takeWhile (· != Field.colon)

def valueOf (line : Bytes) : Bytes :=
  Bytes.skipSpaces ((line.dropWhile (· != Field.colon)).drop 1)

/-- Whether the line has this name, up to case and to spaces and tabs around it. -/
def isAbout (name line : Bytes) : Bool := Bytes.eqIgnoreCase (trim (nameOf line)) name

/-- Whether spaces or tabs stand around the name of the line. -/
def isPadded (line : Bytes) : Bool := trim (nameOf line) != nameOf line

/-- The number that a line carries: its value up to the first carriage return. -/
def numberOf? (line : Bytes) : Option Nat :=
  Decimal.number? ((valueOf line).takeWhile (· != Bytes.cr))

/-- No line of the head contradicts a body of `n` bytes, in whichever way it is spelled. -/
structure Framed (head : Bytes) (n : Nat) : Prop where
  encoding : ∀ line ∈ fieldLines head, isAbout Field.transferEncoding line = false
  length : ∀ line ∈ fieldLines head, isAbout Field.contentLength line = true →
    numberOf? line = some n

end HttpServer.Request
