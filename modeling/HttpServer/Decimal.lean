import HttpServer.Bytes
/-!
# Decimal numbers

A length on the wire is a run of ASCII digits. It is read into a machine word of 64 bits: reading
stops with nothing as soon as a prefix does not fit, which is exactly when the whole number does
not.
-/
namespace HttpServer.Decimal

/-- The count of values of a machine word, 2 to the 64th. -/
def wordLimit : Nat := 0x10000000000000000

/-- Whether the byte is one of `0` to `9`. -/
def isDigit (b : UInt8) : Bool := 0x30 ≤ b && b ≤ 0x39

def digitValue (b : UInt8) : Nat := b.toNat - 0x30

/-- One more digit behind a number, if the byte is one and both the product and the sum fit. -/
def push? (n : Nat) (b : UInt8) : Option Nat :=
  if isDigit b then
    if n * 10 < wordLimit then
      if n * 10 + digitValue b < wordLimit then some (n * 10 + digitValue b) else none
    else none
  else none

/-- The number written by `s`; no digits at all are zero. -/
def read? (s : Bytes) : Option Nat := s.foldlM push? 0

/-- The value of a run of digits, however large. -/
def value (s : Bytes) : Nat := s.foldl (fun n b => n * 10 + digitValue b) 0

/-- The number written by `s`, however large; it has at least one digit. -/
def number? (s : Bytes) : Option Nat :=
  if s ≠ [] ∧ s.all isDigit then some (value s) else none

/-- The digits of `n` without leading zeros. -/
def write (n : Nat) : Bytes := (Nat.toDigits 10 n).map fun c => c.toNat.toUInt8

end HttpServer.Decimal
