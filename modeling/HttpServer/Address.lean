import HttpServer.Decimal
/-!
# Socket addresses

An address is four bytes or eight groups of two bytes, with a port. The text of the first kind is
`1.2.3.4:80`; that of the second is `[1:2::3]:80`, where `::` stands for a run of zero groups, the
last two groups may be written like four bytes, and a number behind `%` tells the scope.

Reading is by parts, each of which takes a beginning of the text and leaves the rest.
-/
namespace HttpServer

/-- An address without port, of four bytes or of eight groups of two. -/
inductive IpAddress where
  | v4 (octets : List Nat)
  | v6 (groups : List Nat)
  deriving DecidableEq

structure SocketAddress where
  ip : IpAddress
  /-- The scope, zero if there is none. -/
  scope : Nat := 0
  port : Nat
  deriving DecidableEq

namespace Address

/-! ## Reading -/

/-- A part of an address read from the beginning of a text, and the rest. -/
abbrev Reader (α : Type) := Bytes → Option (α × Bytes)

def readByte (b : UInt8) : Reader Unit
  | [] => none
  | c :: s => if c = b then some ((), s) else none

/-- The value of a digit to the base 10 or 16. -/
def digit? (base : Nat) (b : UInt8) : Option Nat :=
  if Decimal.isDigit b then some (Decimal.digitValue b)
  else if base = 16 ∧ 0x61 ≤ b ∧ b ≤ 0x66 then some (b.toNat - 0x61 + 10)
  else if base = 16 ∧ 0x41 ≤ b ∧ b ≤ 0x46 then some (b.toNat - 0x41 + 10)
  else none

/-- A number below `limit` of at most `maxDigits` digits, all the digits there are. -/
def readNumber (base : Nat) (maxDigits : Option Nat) (leadingZero : Bool) (limit : Nat) :
    Reader Nat := fun s =>
  let digits := s.takeWhile fun b => (digit? base b).isSome
  let value := digits.foldl (fun n b => n * base + (digit? base b).getD 0) 0
  if digits = [] then none
  else if maxDigits.any (· < digits.length) then none
  else if limit ≤ value then none
  else if !leadingZero && digits.head? == some 0x30 && 1 < digits.length then none
  else some (value, s.drop digits.length)

/-- One byte of an address in decimal, without leading zeros. -/
def readOctet : Reader Nat := readNumber 10 (some 3) false 256

/-- Four bytes with dots between them. -/
def readV4 : Reader (List Nat) := fun s => do
  let (a, s) ← readOctet s
  let (_, s) ← readByte 0x2e s
  let (b, s) ← readOctet s
  let (_, s) ← readByte 0x2e s
  let (c, s) ← readOctet s
  let (_, s) ← readByte 0x2e s
  let (d, s) ← readOctet s
  return ([a, b, c, d], s)

/-- A part behind a colon, unless it is the first one. -/
def behindColon (first : Bool) (part : Reader α) : Reader α := fun s => do
  if first then part s
  else
    let (_, s) ← readByte 0x3a s
    part s

/-- Groups, at most `most` of them, with colons between them, up to the first that cannot be read.
Four bytes take the place of the last two groups, and then nothing more is read. -/
def readGroups : (most : Nat) → (first : Bool) → Bytes → List Nat × Bool × Bytes
  | 0, _, s => ([], false, s)
  | most + 1, first, s =>
    match if 0 < most then behindColon first readV4 s else none with
    | some ([a, b, c, d], s) => ([a * 256 + b, c * 256 + d], true, s)
    | _ =>
      match behindColon first (readNumber 16 (some 4) true 0x10000) s with
      | none => ([], false, s)
      | some (group, s) =>
        let (groups, dotted, s) := readGroups most false s
        (group :: groups, dotted, s)

/-- Eight groups, or fewer with `::` for at least one group of zero. -/
def readV6 : Reader (List Nat) := fun s => do
  let (front, dotted, s) := readGroups 8 true s
  if front.length = 8 then return (front, s)
  else if dotted then none
  else
    let (_, s) ← readByte 0x3a s
    let (_, s) ← readByte 0x3a s
    let (back, _, s) := readGroups (7 - front.length) true s
    return (front ++ List.replicate (8 - front.length - back.length) 0 ++ back, s)

def readPort : Reader Nat := fun s => do
  let (_, s) ← readByte 0x3a s
  readNumber 10 none true 0x10000 s

def readScope : Reader Nat := fun s => do
  let (_, s) ← readByte 0x25 s
  readNumber 10 none true 0x100000000 s

def readSocketV4 : Reader SocketAddress := fun s => do
  let (octets, s) ← readV4 s
  let (port, s) ← readPort s
  return ({ ip := .v4 octets, port }, s)

def readSocketV6 : Reader SocketAddress := fun s => do
  let (_, s) ← readByte 0x5b s
  let (groups, s) ← readV6 s
  let (scope, s) := (readScope s).getD (0, s)
  let (_, s) ← readByte 0x5d s
  let (port, s) ← readPort s
  return ({ ip := .v6 groups, scope, port }, s)

/-! ## Printing -/

/-- The numbers with a separator between them. -/
def joined (separator : String) (write : Nat → String) (ns : List Nat) : String :=
  separator.intercalate (ns.map write)

/-- The digits of a group. -/
def hex (n : Nat) : String := String.ofList (Nat.toDigits 16 n)

def dotted (octets : List Nat) : String := joined "." toString octets

/-- The length of the run of zeros at the beginning. -/
def zerosAhead (groups : List Nat) : Nat := (groups.takeWhile (· == 0)).length

/-- Where the longest run of zeros begins, and its length; of several the first one. -/
def longestZeros (groups : List Nat) : Nat × Nat :=
  (List.range groups.length).foldl (fun best i =>
    let run := zerosAhead (groups.drop i)
    if best.2 < run then (i, run) else best) (0, 0)

/-- Eight groups, with the longest run of two or more zeros left out. -/
def colons (groups : List Nat) : String :=
  let (start, length) := longestZeros groups
  if 1 < length then
    joined ":" hex (groups.take start) ++ "::" ++ joined ":" hex (groups.drop (start + length))
  else joined ":" hex groups

end Address

/-- The text of an address. Four bytes within eight groups keep their own form. -/
def IpAddress.text : IpAddress → String
  | v4 octets => Address.dotted octets
  | v6 [0, 0, 0, 0, 0, 0xffff, high, low] =>
    "::ffff:" ++ Address.dotted [high / 256, high % 256, low / 256, low % 256]
  | v6 groups => Address.colons groups

namespace SocketAddress

/-- The address that is written by the whole text. -/
def ofBytes? (s : Bytes) : Option SocketAddress :=
  match Address.readSocketV4 s with
  | some (address, []) => some address
  | some _ => none
  | none =>
    match Address.readSocketV6 s with
    | some (address, []) => some address
    | _ => none

def text (a : SocketAddress) : String :=
  match a.ip with
  | .v4 _ => a.ip.text ++ ":" ++ toString a.port
  | .v6 _ =>
    let scope := if a.scope = 0 then "" else "%" ++ toString a.scope
    "[" ++ a.ip.text ++ scope ++ "]:" ++ toString a.port

end SocketAddress
end HttpServer
