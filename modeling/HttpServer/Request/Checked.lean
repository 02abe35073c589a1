import HttpServer.Checked
import HttpServer.Request
/-!
# Request heads read by places

A head is one run of bytes, and its parts are the ranges between places of it. Each place comes from a
search in a part that was cut off before, so whether it lies in the part that is cut next depends on
where that search stopped. `Checked.parse` reads a head in this way, line after line from the place
behind the last one.
-/
namespace HttpServer.Checked

open Bytes

/-! ## The request line -/

def placeOf? (b : UInt8) (s : Bytes) : Option Nat := s.findIdx? (· == b)

def skipSpaces (s : Bytes) : Checked Bytes := sliceFrom s (s.findIdx (· != sp))

def ofLine (line : Bytes) : Checked (Except Rejection Request) :=
  match placeOf? sp line with
  | none => .ok (.error .badRequestLine)
  | some methodEnd =>
    if methodEnd = 0 then .ok (.error .badRequestLine)
    else do
      let method ← sliceTo line methodEnd
      let rest ← skipSpaces (← sliceFrom line methodEnd)
      match placeOf? sp rest with
      | none => .ok (.error .badRequestLine)
      | some pathEnd => do
        let path ← sliceTo rest pathEnd
        let version ← skipSpaces (← sliceFrom rest pathEnd)
        if version = Request.servedVersion then .ok (.ok { method, path, version })
        else .ok (.error .invalidVersion)

/-! ## Field lines -/

def fieldOf? (line : Bytes) : Checked (Option Field) :=
  match placeOf? Field.colon line with
  | none => .ok none
  | some place => do
    let name ← sliceTo line place
    let value ← skipSpaces (← sliceFrom line (← sum place 1))
    if name = [] ∨ value = [] then .ok none else .ok (some ⟨name, value⟩)

def push? (n : Nat) (b : UInt8) : Checked (Option Nat) :=
  if Decimal.isDigit b then
    if n * 10 < Decimal.wordLimit then do
      let digit ← byteDifference b 0x30
      if n * 10 + digit.toNat < Decimal.wordLimit then .ok (some (n * 10 + digit.toNat)) else .ok none
    else .ok none
  else .ok none

/-- The number that goes on from `n` with the digits `s`. -/
def readFrom? (n : Nat) : Bytes → Checked (Option Nat)
  | [] => .ok (some n)
  | b :: s => do
    match ← push? n b with
    | none => .ok none
    | some n => readFrom? n s

def upToCr (s : Bytes) : Checked Bytes :=
  match placeOf? cr s with
  | none => .ok s
  | some stop => sliceTo s stop

def noteContentLength (r : Request) (value : Bytes) : Checked (Except Rejection Request) :=
  if r.contentLengthSeen then .ok (.error .invalidContentLength)
  else do
    match ← readFrom? 0 (← upToCr value) with
    | none => .ok (.error .invalidContentLength)
    | some n => .ok (.ok { r with contentLength := n, contentLengthSeen := true })

def containsIgnoreCase (s needle : Bytes) : Checked Bool :=
  if needle = [] then .ok true
  else do
    let candidates ← windows s needle.length
    .ok (candidates.any (eqIgnoreCase · needle))

def note (r : Request) (f : Field) : Checked (Except Rejection Request) :=
  if f.isNamed Field.contentType then .ok (.ok { r with contentType := some f.value })
  else if f.isNamed Field.contentLength then noteContentLength r f.value
  else if f.isNamed Field.connection then do
    if ← containsIgnoreCase f.value (.ofString "close") then .ok (.ok { r with keepAlive := false })
    else .ok (.ok r)
  else if f.isNamed Field.transferEncoding then .ok (.error .unsupportedTransferEncoding)
  else .ok (.ok r)

def addField (r : Request) (line : Bytes) : Checked (Except Rejection Request) := do
  match ← fieldOf? line with
  | none => .ok (.error .badHeaderSyntax)
  | some f =>
    match ← note r f with
    | .error e => .ok (.error e)
    | .ok r => .ok (.ok { r with fields := r.fields.push f })

/-- The place behind a line of this length and its end. -/
def behindLine (start length : Nat) : Checked Nat := do sum start (← sum length 2)

theorem eq_of_behindLine {start length next : Nat} (h : behindLine start length = .ok next) :
    next = start + (length + 2) := by
  obtain ⟨n, step, h⟩ := exists_of_bind h
  rw [eq_of_sum h, eq_of_sum step]

/-- The request with the fields of the lines that start at a place of the block, up to the first line
that is empty or has no end. -/
def addLinesFrom (maxFields : Nat) (block : Bytes) (start : Nat) (r : Request) :
    Checked (Except Rejection Request) :=
  if _inside : start < block.length then do
    let rest ← sliceFrom block start
    match indexOf? crlf rest with
    | none => .ok (.ok r)
    | some length =>
      if length = 0 then .ok (.ok r)
      else if r.fields.size ≥ maxFields then .ok (.error .tooManyHeaders)
      else do
        let line ← slice block start (← sum start length)
        match ← addField r line with
        | .error e => .ok (.error e)
        | .ok r =>
          match _next : behindLine start length with
          | .error fault => .error fault
          | .ok next => addLinesFrom maxFields block next r
  else .ok (.ok r)
termination_by block.length - start
decreasing_by
  have := eq_of_behindLine _next
  omega

/-! ## Heads -/

def classify (r : Request) : Checked Request :=
  if (Request.apiRoot ++ [slash]).isPrefixOf r.path then do
    let path ← sliceFrom r.path 4
    .ok { r with path, isApi := true }
  else if r.path = Request.apiRoot then do
    let path ← sliceTo r.path 1
    .ok { r with path, isApi := true }
  else .ok r

def parse (limits : RequestLimits) (block : Bytes) : Checked (Except Rejection Request) :=
  match indexOf? crlf block with
  | none => .ok (.error .badRequestLine)
  | some lineEnd => do
    match ← ofLine (← sliceTo block lineEnd) with
    | .error e => .ok (.error e)
    | .ok r =>
      let start ← sum lineEnd 2
      if start ≥ block.length then .ok (.error .missingRequiredHeaders)
      else
        match ← addLinesFrom limits.maxFields block start r with
        | .error e => .ok (.error e)
        | .ok r =>
          if r.bodyForbidden then .ok (.error .bodyNotAllowed)
          else do
            let r ← classify r
            .ok (.ok r)

def body (r : Request) (rest : Bytes) : Checked Bytes := do
  assert (r.contentLength ≤ rest.length)
  sliceTo rest (min r.contentLength rest.length)

end HttpServer.Checked
