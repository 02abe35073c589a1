import HttpServer.Path.Percent
/-!
# Encodings of a path

A path has many encodings: each of its bytes is written either as itself, unless it is the percent
sign, or as that sign and two hexadecimal digits. `percentDecode` reads exactly these.
-/
namespace HttpServer.Path

/-- The hexadecimal digits of a value below sixteen: one, or two where case makes a difference. -/
inductive HexDigit : UInt8 → UInt8 → Prop where
  | decimal (v : UInt8) (h : v < 10) : HexDigit (0x30 + v) v
  | lower (v : UInt8) (h : v < 6) : HexDigit (0x61 + v) (10 + v)
  | upper (v : UInt8) (h : v < 6) : HexDigit (0x41 + v) (10 + v)

/-- A way of writing one byte. -/
inductive Token : Bytes → UInt8 → Prop where
  | plain (b : UInt8) (h : b ≠ percent) : Token [b] b
  | escaped {hi lo : UInt8} {h l : UInt8} (hhi : HexDigit hi h) (hlo : HexDigit lo l) :
    Token [percent, hi, lo] (16 * h + l)

/-- A way of writing a string of bytes: one token for each of them. -/
inductive Encodes : Bytes → Bytes → Prop where
  | nil : Encodes [] []
  | cons {token text rest : Bytes} {b : UInt8} (h : Token token b) (t : Encodes text rest) :
    Encodes (token ++ text) (b :: rest)

end HttpServer.Path
