import HttpServer.Bytes
import HttpServer.Rejection
/-!
# Percent encoding

In a request path a byte may be written as `%` and two hexadecimal digits. Decoding comes before
normalization, so that an encoded dot or slash counts like a plain one. Nothing is decoded twice.
-/
namespace HttpServer.Path

def percent : UInt8 := 0x25

/-- The value of a hexadecimal digit, in either case. -/
def hexValue? (b : UInt8) : Option UInt8 :=
  if 0x30 ≤ b ∧ b ≤ 0x39 then some (b - 0x30)
  else if 0x61 ≤ b ∧ b ≤ 0x66 then some (b - 0x61 + 10)
  else if 0x41 ≤ b ∧ b ≤ 0x46 then some (b - 0x41 + 10)
  else none

def hexPair? (hi lo : UInt8) : Option UInt8 :=
  match hexValue? hi, hexValue? lo with
  | some h, some l => some (h <<< 4 ||| l)
  | _, _ => none

/-- The decoded bytes behind `out`, which may not grow beyond `room` bytes. -/
def decodeOnto (room : Nat) : Bytes → Array UInt8 → Except Rejection Bytes
  | [], out => .ok out.toList
  | b :: s, out =>
    if b = percent then
      match s with
      | hi :: lo :: rest =>
        match hexPair? hi lo with
        | some c =>
          if out.size < room then decodeOnto room rest (out.push c) else .error .badRequestPath
        | none => .error .badRequestPath
      | _ => .error .badRequestPath
    else if out.size < room then decodeOnto room s (out.push b)
    else .error .badRequestPath

/-- The bytes that `s` encodes. A `%` without two hexadecimal digits behind it is an error, and the
result has the room of `s`. -/
def percentDecode (s : Bytes) : Except Rejection Bytes := decodeOnto s.length s #[]

end HttpServer.Path
