import HttpServer.Path.InPlace
import HttpServer.Proofs.Segments
/-!
# Normal forms

Normalizing gives the path of the stack that the segments leave behind, and it fails for a path that
does not start at the root or that has, up to some segment, gone up more often than down
(`normalize_walks_stack`). The room of its buffer is never too small, since every byte that is written
was read before, and the slash in front of a segment with it (`Normalizing.size_le`).

A normal form leads to the stack that it is the path of (`foldlM_follow_joined`). So it is its own normal
form, and a path can be replaced by its normal form whatever is appended to it (`normalize_resumes`).
-/
namespace HttpServer.Path

open Bytes

variable {s n a b : Bytes} {segment : Bytes} {stack segments before : List Bytes} {room : Nat}
  {p : Normal} {e : Rejection}

/-! ## Where a walk fails -/

/-- A property of some start of a list, by the first member of the list. -/
theorem exists_prefix_cons_iff {P : List Bytes → Prop} :
    (∃ before, before <+: segment :: segments ∧ P before) ↔
      P [] ∨ ∃ before, before <+: segments ∧ P (segment :: before) := by
  constructor
  · rintro ⟨before, start, h⟩
    rcases List.prefix_cons_iff.1 start with rfl | ⟨rest, rfl, starts⟩
    · exact .inl h
    · exact .inr ⟨rest, starts, h⟩
  · rintro (h | ⟨before, start, h⟩)
    · exact ⟨[], List.nil_prefix, h⟩
    · exact ⟨segment :: before, List.cons_prefix_cons.2 ⟨rfl, start⟩, h⟩

theorem follow_dotdot_cons (top : Bytes) (stack : List Bytes) :
    follow (top :: stack) dotdot = some stack := rfl

theorem follow_of_ordinary (h : Ordinary segment) (stack : List Bytes) :
    follow stack segment = some (segment :: stack) := by
  unfold follow
  rw [if_neg h.2.2, if_pos h]

theorem follow_of_not_ordinary (h : ¬ Ordinary segment) (up : segment ≠ dotdot)
    (stack : List Bytes) : follow stack segment = some stack := by
  unfold follow
  rw [if_neg up, if_neg h]

/-- A walk fails exactly if the segments rise above all of the stack that it starts from. -/
theorem foldlM_follow_eq_none_iff (segments stack : List Bytes) :
    segments.foldlM follow stack = none ↔ ∃ before, before <+: segments ∧
      stack.length + before.countP (Ordinary ·) < before.count dotdot := by
  induction segments generalizing stack with
  | nil => simp
  | cons segment segments ih =>
    -- no start is empty, and for the others the first segment changes both sides by what it does
    have start : ¬ stack.length + ([] : List Bytes).countP (Ordinary ·) <
        ([] : List Bytes).count dotdot := by simp
    rw [List.foldlM_cons, exists_prefix_cons_iff, or_iff_right start]
    by_cases up : segment = dotdot
    · subst up
      have same (before : List Bytes) : (dotdot :: before).countP (Ordinary ·) =
          before.countP (Ordinary ·) := List.countP_cons_of_neg (by decide)
      simp only [same, List.count_cons_self]
      cases stack with
      | nil =>
        refine iff_of_true rfl ⟨[], List.nil_prefix, ?_⟩
        simp
      | cons top stack =>
        rw [follow_dotdot_cons, Option.bind_eq_bind, Option.bind_some, ih]
        refine exists_congr fun before => and_congr_right fun _ => ?_
        rw [List.length_cons]
        omega
    · have same (before : List Bytes) : (segment :: before).count dotdot = before.count dotdot :=
        List.count_cons_of_ne up
      simp only [same]
      by_cases ordinary : Ordinary segment
      · have one_more (before : List Bytes) : (segment :: before).countP (Ordinary ·) =
            before.countP (Ordinary ·) + 1 := List.countP_cons_of_pos (by simpa using ordinary)
        rw [follow_of_ordinary ordinary, Option.bind_eq_bind, Option.bind_some, ih]
        refine exists_congr fun before => and_congr_right fun _ => ?_
        rw [one_more, List.length_cons]
        omega
      · have ignored (before : List Bytes) : (segment :: before).countP (Ordinary ·) =
            before.countP (Ordinary ·) := List.countP_cons_of_neg (by simpa using ordinary)
        rw [follow_of_not_ordinary ordinary up]
        simp only [ignored]
        exact ih stack

theorem foldlM_follow_eq_none_iff_rises :
    segments.foldlM follow [] = none ↔ Rises segments := by
  simp only [foldlM_follow_eq_none_iff, List.length_nil, Nat.zero_add]
  rfl

/-! ## The outcome of a walk -/

/-- What normalizing gives for the stack that a walk leaves, its top first. -/
def outcome : Option (List Bytes) → Except Rejection Bytes
  | none => .error .badRequestPath
  | some stack => .ok (joined stack.reverse)

theorem outcome_eq_error_iff {walked : Option (List Bytes)} :
    outcome walked = .error e ↔ e = .badRequestPath ∧ walked = none := by
  cases walked <;> simp [outcome, eq_comm]

theorem outcome_eq_ok_iff {walked : Option (List Bytes)} :
    outcome walked = .ok n ↔ ∃ stack, walked = some stack ∧ n = joined stack.reverse := by
  cases walked <;> simp [outcome, eq_comm]

theorem normalize_of_rooted (rooted : s = [] ∨ s.head? = some slash) :
    normalize s = outcome ((pieces slash s).foldlM follow []) := by
  rw [normalize_eq, if_pos rooted, stackOf]
  cases (pieces slash s).foldlM follow [] <;> rfl

theorem normalize_of_not_rooted (h : ¬ (s = [] ∨ s.head? = some slash)) :
    normalize s = .error .badRequestPath := by
  rw [normalize_eq, if_neg h]

/-- Normalizing refuses a path for one reason only, in two cases. -/
theorem normalize_eq_error_iff :
    normalize s = .error e ↔ e = .badRequestPath ∧
      ((s ≠ [] ∧ s.head? ≠ some slash) ∨ Rises (pieces slash s)) := by
  by_cases rooted : s = [] ∨ s.head? = some slash
  · have no : ¬ (s ≠ [] ∧ s.head? ≠ some slash) := by
      rintro ⟨h, h'⟩
      exact rooted.elim h h'
    rw [normalize_of_rooted rooted, outcome_eq_error_iff, foldlM_follow_eq_none_iff_rises]
    simp only [no, false_or]
  · rw [normalize_of_not_rooted rooted]
    rw [not_or] at rooted
    constructor
    · rintro ⟨⟩
      exact ⟨rfl, .inl rooted⟩
    · rintro ⟨rfl, -⟩
      rfl

theorem normalize_eq_ok_iff :
    normalize s = .ok n ↔ (s = [] ∨ s.head? = some slash) ∧
      ∃ stack, (pieces slash s).foldlM follow [] = some stack ∧ n = joined stack.reverse := by
  by_cases rooted : s = [] ∨ s.head? = some slash
  · rw [normalize_of_rooted rooted, outcome_eq_ok_iff]
    simp only [rooted, true_and]
  · rw [normalize_of_not_rooted rooted]
    simp [rooted]

/-- Segments with a slash between them are the first one and a slash before each of the others. -/
theorem intercalate_slash_cons (segment : Bytes) (segments : List Bytes) :
    [slash].intercalate (segment :: segments) = segment ++ segments.flatMap (slash :: ·) := by
  induction segments generalizing segment with
  | nil => simp
  | cons next segments ih =>
    rw [List.intercalate_cons_cons, ih]
    simp

/-- The path of a stack is a slash and then the segments with a slash between them. -/
theorem joined_eq (stack : List Bytes) : joined stack = slash :: [slash].intercalate stack := by
  cases stack with
  | nil => rfl
  | cons segment rest =>
    rw [intercalate_slash_cons]
    rfl

/-! ## Normal forms lead where they came from -/

/-- Ordinary segments are pushed one after another. -/
theorem foldlM_follow_of_ordinary (h : ∀ s ∈ segments, Ordinary s) (stack : List Bytes) :
    segments.foldlM follow stack = some (segments.reverse ++ stack) := by
  induction segments generalizing stack with
  | nil => rfl
  | cons segment segments ih =>
    obtain ⟨ordinary, h⟩ := List.forall_mem_cons.1 h
    rw [List.foldlM_cons, follow_of_ordinary ordinary, Option.bind_eq_bind, Option.bind_some, ih h,
      List.reverse_cons, List.append_assoc, List.singleton_append]

/-- The path of a stack leads to this stack. -/
theorem foldlM_follow_joined (h : ∀ s ∈ stack, Ordinary s ∧ slash ∉ s) :
    (pieces slash (joined stack)).foldlM follow [] = some stack.reverse := by
  cases stack with
  | nil => rfl
  | cons segment rest =>
    have parts : pieces slash (joined (segment :: rest)) = [] :: segment :: rest := by
      change pieces slash (slash :: (segment ++ rest.flatMap (slash :: ·))) = _
      rw [pieces_cons_self, pieces_flatMap fun x hx => (h x hx).2]
    rw [parts, foldlM_follow_nil_cons, foldlM_follow_of_ordinary fun s hs => (h s hs).1,
      List.append_nil]

theorem head?_joined (stack : List Bytes) : (joined stack).head? = some slash := by
  cases stack <;> rfl

theorem normalize_of_isNormal (h : IsNormal n) : normalize n = .ok n := by
  obtain ⟨stack, ordinary, rfl⟩ := h
  refine normalize_eq_ok_iff.2 ⟨.inr (head?_joined stack), _, foldlM_follow_joined ordinary, ?_⟩
  rw [List.reverse_reverse]

/-- The walk along two paths with a slash between them goes on where the first one ended. -/
theorem foldlM_follow_append_cons (a b : Bytes) :
    (pieces slash (a ++ slash :: b)).foldlM follow [] =
      ((pieces slash a).foldlM follow []).bind fun stack => (pieces slash b).foldlM follow stack := by
  rw [pieces_append_cons, List.foldlM_append]
  rfl

theorem normalize_append_of_rooted (rooted : a = [] ∨ a.head? = some slash) (b : Bytes) :
    normalize (a ++ slash :: b) =
      outcome (((pieces slash a).foldlM follow []).bind fun stack =>
        (pieces slash b).foldlM follow stack) := by
  have both : (a ++ slash :: b).head? = some slash := by
    rcases rooted with rfl | head
    · rfl
    · rw [List.head?_append, head]
      rfl
  rw [normalize_of_rooted (.inr both), foldlM_follow_append_cons]

/-- A refused path is refused with more segments behind it. -/
theorem normalize_append_of_error (failed : normalize a = .error e) (b : Bytes) :
    normalize (a ++ slash :: b) = .error .badRequestPath := by
  rw [normalize_eq_error_iff] at failed
  by_cases rooted : a = [] ∨ a.head? = some slash
  · rw [normalize_append_of_rooted rooted]
    rcases failed with ⟨-, ⟨nonempty, unrooted⟩ | rises⟩
    · exact absurd rooted (not_or.2 ⟨nonempty, unrooted⟩)
    · rw [foldlM_follow_eq_none_iff_rises.2 rises]
      rfl
  · refine normalize_of_not_rooted ?_
    cases a with
    | nil => exact absurd (.inl rfl) rooted
    | cons c a =>
      rintro (h | head)
      · cases h
      · exact rooted (.inr head)

/-- A path can be replaced by its normal form before more segments. -/
theorem normalize_append_congr (h : normalize a = .ok n) (b : Bytes) :
    normalize (a ++ slash :: b) = normalize (n ++ slash :: b) := by
  obtain ⟨rooted, stack, walked, rfl⟩ := normalize_eq_ok_iff.1 h
  have ordinary : ∀ s ∈ stack.reverse, Ordinary s ∧ slash ∉ s := fun s hs =>
    ordinary_of_foldlM_follow walked not_mem_of_mem_pieces (List.forall_mem_nil _) s
      (List.mem_reverse.1 hs)
  have again := foldlM_follow_joined ordinary
  rw [List.reverse_reverse] at again
  rw [normalize_append_of_rooted rooted, walked,
    normalize_append_of_rooted (.inr (head?_joined _)), again]

/-! ## Room -/

/-- What was written stands for a stack, and is no longer than what was read. -/
theorem Normal.holds_of_foldlM (fits : (segments.flatMap (· ++ [slash])).length ≤ room)
    (written : segments.foldlM (Normal.step room) {} = .ok p) :
    ∃ stack, segments.foldlM follow [] = some stack ∧
      p.Holds stack (segments.flatMap (· ++ [slash])).length := by
  rw [← Nat.zero_add (List.length _)] at fits
  have steps := Normal.holds_root.foldlM_step fits
  rw [Nat.zero_add] at steps
  cases walked : segments.foldlM follow [] with
  | none =>
    rw [walked] at steps
    simp only at steps
    rw [steps] at written
    cases written
  | some stack =>
    rw [walked] at steps
    obtain ⟨p', written', holds⟩ := steps
    rw [written'] at written
    cases written
    exact ⟨stack, rfl, holds⟩

/-- The room of a segment is there when normalizing comes to it. -/
theorem Normalizing.size_le (h : Normalizing s p segment) (ordinary : Ordinary segment) :
    p.text.size + (if p.text.size > 1 then 1 else 0) + segment.length ≤ max s.length 1 := by
  obtain ⟨rooted, before, after, parts, written⟩ := h
  obtain ⟨rest, rfl⟩ : ∃ rest, s = slash :: rest := by
    cases s with
    | nil => cases rooted
    | cons c rest => exact ⟨rest, by rw [Option.some.inj rooted]⟩
  rw [pieces_cons_self] at parts
  cases before with
  | nil =>
    obtain ⟨rfl, -⟩ := List.cons.inj parts
    exact absurd rfl ordinary.1
  | cons first before =>
    obtain ⟨rfl, -⟩ := List.cons.inj parts
    have behind : pieces slash rest = before ++ segment :: after := (List.cons.inj parts).2
    have total := congrArg List.length (flatMap_pieces slash rest)
    rw [behind] at total
    simp only [List.flatMap_append, List.flatMap_cons, List.length_append, List.length_singleton]
      at total
    rw [foldlM_step_nil_cons] at written
    rw [List.length_cons] at written ⊢
    obtain ⟨stack, -, holds⟩ := Normal.holds_of_foldlM (by omega) written
    have size := holds.size
    split <;> omega

theorem length_le_of_normalize (h : normalize s = .ok n) : n.length ≤ max s.length 1 := by
  cases s with
  | nil =>
    cases h
    exact Nat.le_max_right _ _
  | cons c rest =>
    rw [normalize] at h
    by_cases rooted : c = slash
    · subst rooted
      rw [if_pos rfl, pieces_cons_self, foldlM_step_nil_cons] at h
      have total := congrArg List.length (flatMap_pieces slash rest)
      rw [List.length_append, List.length_singleton] at total
      split at h
      · rename_i p written
        obtain ⟨stack, -, holds⟩ := Normal.holds_of_foldlM
          (by rw [total, List.length_cons]; omega) written
        have size := holds.size
        cases h
        rw [Array.length_toList, List.length_cons]
        omega
      · cases h
    · rw [if_neg rooted] at h
      cases h

/-! ## Buffers -/

theorem bytes_writeSegments (room : Nat) (segments : List Bytes) (p : Normal) :
    (writeSegments room segments p).bytes =
      (segments.foldlM (Normal.step room) p).map fun p => p.text.toList := by
  induction segments generalizing p with
  | nil => rfl
  | cons segment segments ih =>
    rw [writeSegments, List.foldlM_cons]
    cases stepped : p.step room segment with
    | error e => rfl
    | ok p' => exact ih p'

/-- What a buffer held before makes no difference. -/
theorem bytes_normalizeInto (s : Bytes) (buffer : Array UInt8) :
    (normalizeInto s buffer).bytes = normalize s := by
  have root : (buffer.take 0).push slash = #[slash] := by simp
  cases s with
  | nil => simp only [normalizeInto, root]; rfl
  | cons c rest =>
    simp only [normalizeInto, root, normalize]
    by_cases rooted : c = slash
    · rw [if_pos rooted, if_pos rooted, bytes_writeSegments]
      cases (pieces slash (c :: rest)).foldlM (Normal.step (max (c :: rest).length 1)) {} <;> rfl
    · rw [if_neg rooted, if_neg rooted]
      rfl

theorem writeSegments_of_foldlM {q : Normal} (written : before.foldlM (Normal.step room) p = .ok q)
    (after : List Bytes) : writeSegments room (before ++ after) p = writeSegments room after q := by
  induction before generalizing p with
  | nil =>
    cases written
    rfl
  | cons first before ih =>
    rw [List.foldlM_cons] at written
    rw [List.cons_append, writeSegments]
    cases stepped : p.step room first with
    | error e =>
      rw [stepped] at written
      cases written
    | ok p' =>
      rw [stepped] at written
      exact ih written

/-- Normalizing does come to the segments that it is said to come to, and goes on from there. -/
theorem Normalizing.normalizeInto_eq (h : Normalizing s p segment) (buffer : Array UInt8) :
    ∃ after, normalizeInto s buffer = writeSegments (max s.length 1) (segment :: after) p := by
  obtain ⟨rooted, before, after, parts, written⟩ := h
  have root : (buffer.take 0).push slash = #[slash] := by simp
  refine ⟨after, ?_⟩
  rw [← writeSegments_of_foldlM written, ← parts]
  cases s with
  | nil => cases rooted
  | cons c rest =>
    simp only [normalizeInto, root]
    exact if_pos (Option.some.inj rooted)

/-! ## Main results -/

/-- Whatever the buffer held, normalizing leaves the path of the stack that the segments push and pop.
It fails exactly for a path that does not start at the root or rises above it, and not for lack of
room: a normal form is no longer than its path, or the root, and so is all that is written on the way.
The normal forms are the paths of all stacks of ordinary segments. -/
theorem normalize_walks_stack (s : Bytes) :
    (∀ buffer, (normalizeInto s buffer).bytes = normalize s) ∧
    (∀ e, normalize s = .error e ↔ e = .badRequestPath ∧
      ((s ≠ [] ∧ s.head? ≠ some slash) ∨ Rises (pieces slash s))) ∧
    (∀ n, normalize s = .ok n ↔ (s = [] ∨ s.head? = some slash) ∧
      ∃ stack, stackOf (pieces slash s) = some stack ∧ n = slash :: [slash].intercalate stack) ∧
    (∀ p segment, Normalizing s p segment →
      (∀ buffer, ∃ after,
        normalizeInto s buffer = writeSegments (max s.length 1) (segment :: after) p) ∧
      (Ordinary segment →
        p.text.size + (if p.text.size > 1 then 1 else 0) + segment.length ≤ max s.length 1)) ∧
    (∀ n, normalize s = .ok n → n.length ≤ max s.length 1) ∧
    ∀ n, (∃ s, normalize s = .ok n) ↔ IsNormal n := by
  refine ⟨bytes_normalizeInto s, fun e => normalize_eq_error_iff, fun n => ?_,
    fun p segment comes => ⟨comes.normalizeInto_eq, comes.size_le⟩,
    fun n => length_le_of_normalize, fun n => ?_⟩
  · rw [normalize_eq_ok_iff, stackOf]
    simp only [Option.map_eq_some_iff, ← joined_eq]
    refine and_congr_right fun _ => ⟨?_, ?_⟩
    · rintro ⟨stack, walked, rfl⟩
      exact ⟨stack.reverse, ⟨stack, walked, rfl⟩, rfl⟩
    · rintro ⟨_, ⟨stack, walked, rfl⟩, rfl⟩
      exact ⟨stack, walked, rfl⟩
  · constructor
    · rintro ⟨s, normalized⟩
      exact isNormal_of_normalize normalized
    · intro normal
      exact ⟨n, normalize_of_isNormal normal⟩

/-- A path that goes up and down, with an empty segment. -/
def samplePath : Bytes := ofString "/a//b/../c"

theorem normalize_samplePath :
    (normalizeInto samplePath #[1, 2, 3]).bytes = .ok (ofString "/a/c") ∧
      Ordinary (ofString "c") ∧
      Normalizing samplePath ⟨#[0x2f, 0x61], [1]⟩ (ofString "c") ∧
      2 + 1 + (ofString "c").length ≤ max samplePath.length 1 ∧
      (ofString "/a/c").length ≤ max samplePath.length 1 ∧
      IsNormal (ofString "/a/c") := by
  have normal : normalize samplePath = .ok (ofString "/a/c") := rfl
  have ordinary : Ordinary (ofString "c") := by decide
  have comes : Normalizing samplePath ⟨#[0x2f, 0x61], [1]⟩ (ofString "c") :=
    ⟨rfl, [[], ofString "a", [], ofString "b", dotdot], [], rfl, rfl⟩
  obtain ⟨buffers, -, -, room, size, forms⟩ := normalize_walks_stack samplePath
  exact ⟨(buffers _).trans normal, ordinary, comes, (room _ _ comes).2 ordinary, size _ normal,
    (forms _).1 ⟨_, normal⟩⟩

/-- Normalizing again changes nothing, and it does not matter whether a path or its normal form is
continued: both are refused or both have the same normal form. No continuation saves a path that is
refused. -/
theorem normalize_resumes (a : Bytes) :
    (∀ n, normalize a = .ok n → normalize n = .ok n ∧ ∀ b,
      (normalize (a ++ slash :: b) = .error .badRequestPath ∧
        normalize (n ++ slash :: b) = .error .badRequestPath) ∨
      ∃ m, normalize (a ++ slash :: b) = .ok m ∧ normalize (n ++ slash :: b) = .ok m) ∧
    ∀ e, normalize a = .error e → ∀ b, normalize (a ++ slash :: b) = .error .badRequestPath := by
  refine ⟨fun n normalized => ?_, fun e => normalize_append_of_error⟩
  refine ⟨normalize_of_isNormal (isNormal_of_normalize normalized), fun b => ?_⟩
  rw [← normalize_append_congr normalized b, and_self]
  cases h : normalize (a ++ slash :: b) with
  | error e =>
    obtain ⟨rfl, -⟩ := normalize_eq_error_iff.1 h
    exact .inl rfl
  | ok m => exact .inr ⟨m, rfl, rfl⟩

/-- The sample goes on from its normal form, and nothing brings a path back that has left the root. -/
theorem normalize_resumes_samplePath :
    normalize samplePath = .ok (ofString "/a/c") ∧
      normalize (ofString "/a/c") = .ok (ofString "/a/c") ∧
      (∃ m, normalize (samplePath ++ slash :: ofString "../../d") = .ok m ∧
        normalize (ofString "/a/c" ++ slash :: ofString "../../d") = .ok m) ∧
      normalize (ofString "/a/../..") = .error .badRequestPath ∧
      normalize (ofString "/a/../.." ++ slash :: ofString "a/b") = .error .badRequestPath := by
  have normal : normalize samplePath = .ok (ofString "/a/c") := rfl
  have left : normalize (ofString "/a/../..") = .error .badRequestPath := rfl
  obtain ⟨again, goes_on⟩ := (normalize_resumes samplePath).1 _ normal
  refine ⟨normal, again, (goes_on (ofString "../../d")).resolve_left ?_, left,
    (normalize_resumes _).2 _ left _⟩
  rintro ⟨refused, -⟩
  cases refused

end HttpServer.Path
