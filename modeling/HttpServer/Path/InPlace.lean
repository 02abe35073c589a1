import HttpServer.Path.Normal
import HttpServer.Path.Percent
/-!
# Paths written into a buffer

A path is decoded into one buffer and normalized into another. A buffer may hold anything from before
and is emptied first, and what was written stays in it when the path is refused. The source is read by
places: behind a percent sign the decoder looks two places ahead, which must lie in the source.

`Decoding` and `Normalizing` say what the two loops have written when they come to a place or to a
segment of their source.
-/
namespace HttpServer.Path

/-- What writing into a buffer came to. -/
structure Written where
  result : Except Rejection Unit
  buffer : Array UInt8

/-- The bytes that were written, if the source is not refused. -/
def Written.bytes (w : Written) : Except Rejection Bytes :=
  w.result.map fun _ => w.buffer.toList

/-! ## Decoding -/

/-- The byte that the source writes at a place, and the place behind it. -/
def tokenAt? (s : Bytes) (i : Nat) (h : i < s.length) : Option (UInt8 × Nat) :=
  if s[i] = percent then
    if ahead : i + 2 < s.length then (hexPair? s[i + 1] s[i + 2]).map fun b => (b, i + 3) else none
  else some (s[i], i + 1)

theorem tokenAt?_bounds {s : Bytes} {i j : Nat} {h : i < s.length} {b : UInt8}
    (token : tokenAt? s i h = some (b, j)) : i < j ∧ j ≤ s.length := by
  unfold tokenAt? at token
  split at token
  · split at token
    · rename_i ahead
      obtain ⟨b', -, e⟩ := Option.map_eq_some_iff.1 token
      cases e
      omega
    · cases token
  · cases token
    omega

/-- Decodes the source from the place `i` on behind what the buffer holds, which may not grow beyond
`room` bytes. -/
def decodeFrom (room : Nat) (s : Bytes) (i : Nat) (buffer : Array UInt8) : Written :=
  if h : i < s.length then
    match _token : tokenAt? s i h with
    | none => ⟨.error .badRequestPath, buffer⟩
    | some (b, j) =>
      if buffer.size ≥ room then ⟨.error .badRequestPath, buffer⟩
      else decodeFrom room s j (buffer.push b)
  else ⟨.ok (), buffer⟩
termination_by s.length - i
decreasing_by
  have := tokenAt?_bounds _token
  omega

def decodeInto (s : Bytes) (buffer : Array UInt8) : Written :=
  decodeFrom s.length s 0 (buffer.take 0)

/-- Decoding comes to the place `i` of the source with `out` in the buffer, as far as the room of the
buffer is not in its way. -/
inductive Decoding (s : Bytes) : Nat → Array UInt8 → Prop where
  | start : Decoding s 0 #[]
  | token {i j : Nat} {out : Array UInt8} {b : UInt8} (here : Decoding s i out) (h : i < s.length)
      (token : tokenAt? s i h = some (b, j)) : Decoding s j (out.push b)

/-! ## Normalizing -/

/-- Writes segments one after another, up to the first that is refused. -/
def writeSegments (room : Nat) : List Bytes → Normal → Written
  | [], p => ⟨.ok (), p.text⟩
  | segment :: rest, p =>
    match p.step room segment with
    | .error e => ⟨.error e, p.text⟩
    | .ok p => writeSegments room rest p

def normalizeInto (s : Bytes) (buffer : Array UInt8) : Written :=
  let root := (buffer.take 0).push Bytes.slash
  match s with
  | [] => ⟨.ok (), root⟩
  | b :: _ =>
    if b = Bytes.slash then
      writeSegments (max s.length 1) (Bytes.pieces Bytes.slash s) { text := root }
    else ⟨.error .badRequestPath, root⟩

/-- Normalizing comes to a segment of the source with `p` written. -/
def Normalizing (s : Bytes) (p : Normal) (segment : Bytes) : Prop :=
  s.head? = some Bytes.slash ∧ ∃ before after,
    Bytes.pieces Bytes.slash s = before ++ segment :: after ∧
      before.foldlM (Normal.step (max s.length 1)) {} = .ok p

end HttpServer.Path
