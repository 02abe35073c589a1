import HttpServer.Bytes
import HttpServer.Rejection
/-!
# Normal paths

A path is a sequence of segments between slashes. Normalizing drops the empty segments and those
that stand for the current directory, and lets the one for the parent directory take back the
segment before it. A path that takes back more than it has would leave the root and is refused.

The normal path is built in place: `marks` holds the length of the text before each segment that can
still be taken back.
-/
namespace HttpServer.Path

def dot : Bytes := [0x2e]
def dotdot : Bytes := [0x2e, 0x2e]

/-- A normal path under construction. -/
structure Normal where
  /-- The path so far; it starts with a slash. -/
  text : Array UInt8 := #[Bytes.slash]
  /-- The length of the text before each segment, the last segment first. -/
  marks : List Nat := []

namespace Normal

def pop (p : Normal) : Except Rejection Normal :=
  match p.marks with
  | [] => .error .badRequestPath
  | mark :: marks => .ok ⟨p.text.take mark, marks⟩

/-- The path with one more segment, if it stays within `room` bytes. Only the first segment needs no
slash before it, for the text is then a single slash. -/
def push (room : Nat) (p : Normal) (segment : Bytes) : Except Rejection Normal :=
  let mark := p.text.size
  let separator := if mark > 1 then 1 else 0
  if mark + separator + segment.length > room then .error .badRequestPath
  else .ok ⟨(if separator = 1 then p.text.push Bytes.slash else p.text) ++ segment,
    mark :: p.marks⟩

def step (room : Nat) (p : Normal) (segment : Bytes) : Except Rejection Normal :=
  if segment = [] ∨ segment = dot then .ok p
  else if segment = dotdot then p.pop
  else p.push room segment

end Normal

/-- The normal form of a path: a slash, then the segments that are left, with a slash between them.
An empty path is the root; any other path has to start with a slash. The result has the room of `s`,
and at least that of the root. -/
def normalize (s : Bytes) : Except Rejection Bytes :=
  match s with
  | [] => .ok [Bytes.slash]
  | b :: _ =>
    if b = Bytes.slash then
      match (Bytes.pieces Bytes.slash s).foldlM (Normal.step (max s.length 1)) {} with
      | .ok p => .ok p.text.toList
      | .error e => .error e
    else .error .badRequestPath

end HttpServer.Path
