import HttpServer.Path.Normal
/-!
# Paths as segments

A normal path is a stack of ordinary segments, written with a slash before each of them; an empty
stack is the root. Every other segment of a path is an instruction: the empty one and the one for
the current directory do nothing, and the one for the parent directory pops.
-/
namespace HttpServer.Path

/-- A segment that names something. -/
def Ordinary (segment : Bytes) : Prop := segment ≠ [] ∧ segment ≠ dot ∧ segment ≠ dotdot

instance (segment : Bytes) : Decidable (Ordinary segment) := inferInstanceAs (Decidable (_ ∧ _))

/-- The stack, its top first, after one segment. There is none below the root. -/
def follow (stack : List Bytes) (segment : Bytes) : Option (List Bytes) :=
  if segment = dotdot then
    match stack with
    | [] => none
    | _ :: rest => some rest
  else if Ordinary segment then some (segment :: stack)
  else some stack

/-- The stack, its bottom first, after all segments. -/
def stackOf (segments : List Bytes) : Option (List Bytes) :=
  (segments.foldlM follow []).map List.reverse

/-- The segments lead above where they start: up to some point, more of them go up than down. -/
def Rises (segments : List Bytes) : Prop :=
  ∃ before, before <+: segments ∧ before.countP (Ordinary ·) < before.count dotdot

/-- The path of a stack. -/
def joined : List Bytes → Bytes
  | [] => [Bytes.slash]
  | stack => stack.flatMap fun segment => Bytes.slash :: segment

/-- A path as `joined` writes it. -/
def IsNormal (path : Bytes) : Prop :=
  ∃ stack, (∀ s ∈ stack, Ordinary s ∧ Bytes.slash ∉ s) ∧ path = joined stack

end HttpServer.Path
