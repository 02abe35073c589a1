/-!
# Byte strings

Everything on the wire, every request path and every file name is a string of bytes. This module
holds the operations that the rest of the library shares: the bytes of a text, cutting at the first
occurrence of a separator, and comparison without regard to ASCII case.

A separator is searched from the left, and `cut?` splits at its first occurrence, so the part before
it never contains it.
-/
namespace HttpServer

abbrev Bytes := List UInt8

namespace Bytes

/-- The bytes of a text in UTF-8. -/
def ofString (text : String) : Bytes := text.toUTF8.data.toList

def sp : UInt8 := 0x20
def cr : UInt8 := 0x0d
def lf : UInt8 := 0x0a
def slash : UInt8 := 0x2f
def crlf : Bytes := [0x0d, 0x0a]

/-- The end of a head: the end of its last line followed by an empty line. -/
def blankLine : Bytes := crlf ++ crlf

/-! ## Searching -/

/-- The place of the first occurrence of `needle` in `s`, counted from `start`. -/
def indexFrom (needle : Bytes) : Bytes → Nat → Option Nat
  | [], start => if needle.isEmpty then some start else none
  | b :: s, start =>
    if needle.isPrefixOf (b :: s) then some start else indexFrom needle s (start + 1)

/-- The place of the first occurrence of `needle` in `s`. -/
def indexOf? (needle s : Bytes) : Option Nat := indexFrom needle s 0

/-- What stands before and after the first occurrence of `needle` in `s`. -/
def cut? (needle s : Bytes) : Option (Bytes × Bytes) :=
  (indexOf? needle s).map fun i => (s.take i, s.drop (i + needle.length))

/-- What stands before and after the first byte `b` of `s`. -/
def cutAt? (b : UInt8) (s : Bytes) : Option (Bytes × Bytes) :=
  match s.dropWhile (· != b) with
  | [] => none
  | _ :: after => some (s.takeWhile (· != b), after)

def skipSpaces (s : Bytes) : Bytes := s.dropWhile (· == sp)

/-- The pieces of `s` between the bytes `b`; there is one more of them than there are such bytes. -/
def pieces (b : UInt8) (s : Bytes) : List Bytes :=
  s.foldr (fun c done => match done with
    | piece :: rest => if c == b then [] :: piece :: rest else (c :: piece) :: rest
    | [] => []) [[]]

/-! ## Lines -/

/-- The lines at the start of `s` that are ended and not empty, behind `done`; `line` holds what was
read of the next one, backwards. -/
def linesOnto : Bytes → Bytes → Array Bytes → Array Bytes
  | 0x0d :: 0x0a :: s, line, done =>
    if line.isEmpty then done else linesOnto s [] (done.push line.reverse)
  | b :: s, line, done => linesOnto s (b :: line) done
  | [], _, done => done

/-- The lines at the start of `s` up to the first that is empty or has no end. -/
def lines (s : Bytes) : List Bytes := (linesOnto s [] #[]).toList

/-! ## Letters without case -/

/-- The small letter of an ASCII capital; any other byte is itself. -/
def toLower (b : UInt8) : UInt8 := if 0x41 ≤ b ∧ b ≤ 0x5a then b + 0x20 else b

def eqIgnoreCase (s t : Bytes) : Bool := s.map toLower == t.map toLower

def containsIgnoreCase (s needle : Bytes) : Bool :=
  (indexOf? (needle.map toLower) (s.map toLower)).isSome

/-! ## Text -/

def isUtf8 (s : Bytes) : Bool := (ByteArray.mk s.toArray).validateUTF8

/-- The form of client bytes in a log line: themselves if they are text, else a fixed mark. -/
def logText (s : Bytes) : Bytes := if isUtf8 s then s else ofString "<non-utf8>"

end Bytes
end HttpServer
