import HttpServer.Checked
import HttpServer.Path.InPlace
import HttpServer.Request
/-!
# Paths decoded and normalized by places

What `decodeInto` and `normalizeInto` do, with every look at a place of the source and every sum of
lengths done by an operation that can fault.
-/
namespace HttpServer.Checked

open Bytes HttpServer.Path

/-! ## Decoding -/

def hexValue? (b : UInt8) : Checked (Option UInt8) :=
  if 0x30 ≤ b ∧ b ≤ 0x39 then do
    let value ← byteDifference b 0x30
    .ok (some value)
  else if 0x61 ≤ b ∧ b ≤ 0x66 then do
    let value ← byteSum (← byteDifference b 0x61) 10
    .ok (some value)
  else if 0x41 ≤ b ∧ b ≤ 0x46 then do
    let value ← byteSum (← byteDifference b 0x41) 10
    .ok (some value)
  else .ok none

/-- The byte that the two hexadecimal digits behind a place write. -/
def escapedAt? (s : Bytes) (i : Nat) : Checked (Option UInt8) := do
  match ← hexValue? (← byteAt s (← sum i 1)) with
  | none => .ok none
  | some hi =>
    match ← hexValue? (← byteAt s (← sum i 2)) with
    | none => .ok none
    | some lo => .ok (some (hi <<< 4 ||| lo))

def tokenAt? (s : Bytes) (i : Nat) : Checked (Option (UInt8 × Nat)) := do
  let b ← byteAt s i
  if b = percent then
    let last ← sum i 2
    if last ≥ s.length then .ok none
    else
      match ← escapedAt? s i with
      | none => .ok none
      | some b => do
        let behind ← sum i 3
        .ok (some (b, behind))
  else do
    let behind ← sum i 1
    .ok (some (b, behind))

theorem lt_of_tokenAt? {s : Bytes} {i j : Nat} {b : UInt8}
    (token : tokenAt? s i = .ok (some (b, j))) : i < j := by
  obtain ⟨c, -, token⟩ := exists_of_bind token
  split at token
  · obtain ⟨last, -, token⟩ := exists_of_bind token
    split at token
    · cases token
    · obtain ⟨escaped, -, token⟩ := exists_of_bind token
      cases escaped with
      | none => cases token
      | some c =>
        obtain ⟨behind, step, token⟩ := exists_of_bind token
        cases token
        have := eq_of_sum step
        omega
  · obtain ⟨behind, step, token⟩ := exists_of_bind token
    cases token
    have := eq_of_sum step
    omega

/-- Decodes the source from the place `i` on behind what the buffer holds, which may not grow beyond
`room` bytes. -/
def decodeFrom (room : Nat) (s : Bytes) (i : Nat) (buffer : Array UInt8) : Checked Written :=
  if _inside : i < s.length then
    match _token : tokenAt? s i with
    | .error fault => .error fault
    | .ok none => .ok ⟨.error .badRequestPath, buffer⟩
    | .ok (some (b, j)) =>
      if buffer.size ≥ room then .ok ⟨.error .badRequestPath, buffer⟩
      else decodeFrom room s j (buffer.push b)
  else .ok ⟨.ok (), buffer⟩
termination_by s.length - i
decreasing_by
  have := lt_of_tokenAt? _token
  omega

def decodeInto (s : Bytes) (buffer : Array UInt8) : Checked Written :=
  decodeFrom s.length s 0 (buffer.take 0)

/-! ## Normalizing -/

/-- The path with one more segment, if it stays within `room` bytes. -/
def push (room : Nat) (p : Normal) (segment : Bytes) : Checked (Except Rejection Normal) := do
  let mark := p.text.size
  let separator := if mark > 1 then 1 else 0
  let size ← sum (← sum mark separator) segment.length
  if size > room then .ok (.error .badRequestPath)
  else .ok (.ok ⟨(if separator = 1 then p.text.push slash else p.text) ++ segment, mark :: p.marks⟩)

def step (room : Nat) (p : Normal) (segment : Bytes) : Checked (Except Rejection Normal) :=
  if segment = [] ∨ segment = dot then .ok (.ok p)
  else if segment = dotdot then .ok p.pop
  else push room p segment

/-- Writes segments one after another, up to the first that is refused. -/
def writeSegments (room : Nat) : List Bytes → Normal → Checked Written
  | [], p => .ok ⟨.ok (), p.text⟩
  | segment :: rest, p => do
    match ← step room p segment with
    | .error e => .ok ⟨.error e, p.text⟩
    | .ok p => writeSegments room rest p

def normalizeInto (s : Bytes) (buffer : Array UInt8) : Checked Written :=
  let root := (buffer.take 0).push slash
  match s with
  | [] => .ok ⟨.ok (), root⟩
  | b :: _ =>
    if b = slash then writeSegments (max s.length 1) (pieces slash s) { text := root }
    else .ok ⟨.error .badRequestPath, root⟩

/-! ## Both -/

def resolvePath (r : Request) : Checked (Except Rejection Request.ResolvedPath) := do
  match (← decodeInto r.path #[]).bytes with
  | .error e => .ok (.error e)
  | .ok decoded =>
    match (← normalizeInto decoded #[]).bytes with
    | .error e => .ok (.error e)
    | .ok normal => .ok (.ok ⟨decoded, normal⟩)

end HttpServer.Checked
