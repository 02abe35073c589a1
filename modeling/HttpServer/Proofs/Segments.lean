import HttpServer.Path.Segments
import HttpServer.Proofs.Search
/-!
# Normalizing is a walk over a stack

`Normal.step` works on a text and on lengths of it. `Normal.Holds` ties both to the stack of segments
that they stand for, and says how large the text can be after so many bytes of the path. A step keeps
this and does to the stack what the segment says (`Holds.step`), so the room that normalizing has is
never too small, and the normal form is that of the stack (`normalize_eq`).
-/
namespace HttpServer.Path

open Bytes

variable {stack segments : List Bytes} {segment : Bytes} {room spent : Nat} {p : Normal}

/-! ## Paths of stacks -/

/-- One more segment is written behind the path, with a slash unless the path is the root. -/
theorem joined_concat (stack : List Bytes) (segment : Bytes) (h : ∀ s ∈ stack, s ≠ []) :
    joined (stack ++ [segment]) =
      (if 1 < (joined stack).length then joined stack ++ [slash] else joined stack) ++ segment := by
  cases stack with
  | nil => simp [joined]
  | cons s rest =>
    have long : 1 < (joined (s :: rest)).length := by
      have := List.length_pos_iff.2 (h s (List.mem_cons_self ..))
      simp only [joined, List.flatMap_cons, List.length_append, List.length_cons]
      omega
    rw [if_pos long]
    simp [joined]

/-- The path without its last segment is the start of the path. -/
theorem joined_prefix_concat (stack : List Bytes) (segment : Bytes) :
    joined stack <+: joined (stack ++ [segment]) := by
  cases stack with
  | nil => exact ⟨segment, by simp [joined]⟩
  | cons s rest => exact ⟨slash :: segment, by simp [joined]⟩

/-- The segments of a stack are the pieces of its path behind the first slash. -/
theorem pieces_flatMap {s : Bytes} {rest : List Bytes} (h : ∀ x ∈ s :: rest, slash ∉ x) :
    pieces slash (s ++ rest.flatMap (slash :: ·)) = s :: rest := by
  induction rest generalizing s with
  | nil =>
    rw [List.flatMap_nil, List.append_nil, pieces_of_not_mem (h s (List.mem_singleton_self s))]
  | cons x rest ih =>
    obtain ⟨first, h⟩ := List.forall_mem_cons.1 h
    rw [List.flatMap_cons, List.cons_append, pieces_append first, ih h]

/-- The lengths of the path before each segment of a stack. -/
def marksOf : List Bytes → List Nat
  | [] => []
  | _ :: rest => (joined rest.reverse).length :: marksOf rest

/-! ## One segment -/

/-- Text and marks stand for a stack of ordinary segments, its top first, and the text is no longer
than the `spent` bytes of the path that were looked at, or the root. -/
structure Normal.Holds (p : Normal) (stack : List Bytes) (spent : Nat) : Prop where
  text : p.text.toList = joined stack.reverse
  marks : p.marks = marksOf stack
  ordinary : ∀ s ∈ stack, Ordinary s
  size : p.text.size ≤ max 1 spent

theorem Normal.holds_root : Normal.Holds {} [] 0 := ⟨rfl, rfl, by simp, by simp⟩

namespace Normal.Holds

theorem mono (h : p.Holds stack spent) {more : Nat} (le : spent ≤ more) : p.Holds stack more :=
  ⟨h.text, h.marks, h.ordinary, by have := h.size; omega⟩

theorem pop (h : p.Holds (segment :: stack) spent) : ∃ p', p.pop = .ok p' ∧ p'.Holds stack spent := by
  obtain ⟨text, marks, ordinary, size⟩ := h
  have before := joined_prefix_concat stack.reverse segment
  rw [List.reverse_cons] at text
  refine ⟨⟨p.text.take (joined stack.reverse).length, marksOf stack⟩, by rw [Normal.pop, marks]; rfl,
    ?_, rfl, (List.forall_mem_cons.1 ordinary).2, ?_⟩
  · rw [Array.take_eq_extract, Array.toList_extract, List.extract_eq_take_drop, List.drop_zero, text,
      Nat.sub_zero]
    exact (List.prefix_iff_eq_take.1 before).symm
  · rw [Array.take_eq_extract, Array.size_extract]
    omega

theorem push (h : p.Holds stack spent) (ordinary : Ordinary segment)
    (fits : spent + segment.length + 1 ≤ room) :
    ∃ p', p.push room segment = .ok p' ∧
      p'.Holds (segment :: stack) (spent + segment.length + 1) := by
  have size := h.size
  have length : (joined stack.reverse).length = p.text.size := by
    rw [← h.text, Array.length_toList]
  have written := joined_concat stack.reverse segment
    fun s hs => (h.ordinary s (List.mem_reverse.1 hs)).1
  rw [length, ← h.text] at written
  unfold Normal.push
  by_cases long : p.text.size > 1
  · simp only [if_pos long, if_true] at written ⊢
    rw [if_neg (by omega)]
    refine ⟨_, rfl, ?_, ?_, List.forall_mem_cons.2 ⟨ordinary, h.ordinary⟩, ?_⟩
    · rw [List.reverse_cons, written]
      simp
    · rw [marksOf, length, h.marks]
    · rw [← Array.length_toList]
      simp
      omega
  · simp only [if_neg long, Nat.zero_ne_one, if_false] at written ⊢
    rw [if_neg (by omega)]
    refine ⟨_, rfl, ?_, ?_, List.forall_mem_cons.2 ⟨ordinary, h.ordinary⟩, ?_⟩
    · rw [List.reverse_cons, written]
      simp
    · rw [marksOf, length, h.marks]
    · rw [← Array.length_toList]
      simp
      omega

/-- A step does to the stack what the segment says, and fails exactly below the root. -/
theorem step (h : p.Holds stack spent) (fits : spent + segment.length + 1 ≤ room) :
    match follow stack segment with
    | none => p.step room segment = .error .badRequestPath
    | some stack' => ∃ p', p.step room segment = .ok p' ∧
      p'.Holds stack' (spent + segment.length + 1) := by
  have kept : p.Holds stack (spent + segment.length + 1) := h.mono (by omega)
  unfold follow Normal.step
  by_cases up : segment = dotdot
  · subst up
    rw [if_pos rfl, if_neg (by decide), if_pos rfl]
    cases stack with
    | nil => simp only [Normal.pop, h.marks, marksOf]
    | cons top stack => exact kept.pop
  · rw [if_neg up]
    by_cases ordinary : Ordinary segment
    · rw [if_pos ordinary, if_neg (fun stays => stays.elim ordinary.1 ordinary.2.1), if_neg up]
      exact h.push ordinary fits
    · have stays : segment = [] ∨ segment = dot := by
        by_contra no
        exact ordinary ⟨fun e => no (.inl e), fun e => no (.inr e), up⟩
      rw [if_neg ordinary, if_pos stays]
      exact ⟨p, rfl, kept⟩

/-- Many steps do to the stack what the segments say, one after another. -/
theorem foldlM_step (h : p.Holds stack spent)
    (fits : spent + (segments.flatMap (· ++ [slash])).length ≤ room) :
    match segments.foldlM follow stack with
    | none => segments.foldlM (Normal.step room) p = .error .badRequestPath
    | some stack' => ∃ p', segments.foldlM (Normal.step room) p = .ok p' ∧
      p'.Holds stack' (spent + (segments.flatMap (· ++ [slash])).length) := by
  induction segments generalizing p stack spent with
  | nil => exact ⟨p, rfl, h⟩
  | cons segment segments ih =>
    have size : ((segment :: segments).flatMap (· ++ [slash])).length =
        segment.length + 1 + (segments.flatMap (· ++ [slash])).length := by
      rw [List.flatMap_cons, List.length_append, List.length_append, List.length_singleton]
    rw [size] at fits ⊢
    have here : spent + segment.length + 1 ≤ room := by omega
    have first := h.step here
    rw [List.foldlM_cons, List.foldlM_cons, ← Nat.add_assoc, ← Nat.add_assoc]
    cases followed : follow stack segment with
    | none =>
      rw [followed] at first
      simp only at first
      rw [first]
      rfl
    | some stack' =>
      rw [followed] at first
      obtain ⟨p', stepped, h'⟩ := first
      rw [stepped]
      exact ih h' (by omega)

end Normal.Holds

/-- The empty piece before a slash at the start does nothing. -/
theorem foldlM_step_nil_cons (room : Nat) (segments : List Bytes) (p : Normal) :
    ([] :: segments).foldlM (Normal.step room) p = segments.foldlM (Normal.step room) p := by
  rw [List.foldlM_cons]
  rfl

theorem foldlM_follow_nil_cons (segments stack : List Bytes) :
    ([] :: segments).foldlM follow stack = segments.foldlM follow stack := by
  rw [List.foldlM_cons]
  rfl

/-! ## Whole paths -/

/-- The normal form of a path is that of the stack of its segments. It fails for a path that does not
start at the root or rises above it, and never for lack of room. -/
theorem normalize_eq (s : Bytes) :
    normalize s =
      if s = [] ∨ s.head? = some slash then
        match stackOf (pieces slash s) with
        | none => .error .badRequestPath
        | some stack => .ok (joined stack)
      else .error .badRequestPath := by
  cases s with
  | nil => rfl
  | cons b rest =>
    rw [normalize]
    by_cases rooted : b = slash
    · subst rooted
      rw [if_pos rfl, if_pos (.inr rfl), stackOf, pieces_cons_self]
      have fits : 0 + ((pieces slash rest).flatMap (· ++ [slash])).length ≤
          max (slash :: rest).length 1 := by
        rw [flatMap_pieces, List.length_append, List.length_singleton, List.length_cons]
        omega
      have steps := Normal.holds_root.foldlM_step fits
      rw [foldlM_step_nil_cons, foldlM_follow_nil_cons]
      cases followed : (pieces slash rest).foldlM follow [] with
      | none =>
        rw [followed] at steps
        simp only at steps
        rw [steps]
        rfl
      | some stack =>
        rw [followed] at steps
        obtain ⟨p, stepped, holds⟩ := steps
        rw [stepped]
        exact congrArg Except.ok holds.text
    · have unrooted : ¬ (b :: rest = [] ∨ (b :: rest).head? = some slash) := by simpa using rooted
      rw [if_neg rooted, if_neg unrooted]

/-- Only ordinary segments of the path are pushed. -/
theorem ordinary_of_foldlM_follow {stack' : List Bytes} (h : segments.foldlM follow stack = some stack')
    (noSlash : ∀ s ∈ segments, slash ∉ s) (before : ∀ s ∈ stack, Ordinary s ∧ slash ∉ s) :
    ∀ s ∈ stack', Ordinary s ∧ slash ∉ s := by
  induction segments generalizing stack with
  | nil => cases h; exact before
  | cons segment segments ih =>
    obtain ⟨whole, noSlash⟩ := List.forall_mem_cons.1 noSlash
    rw [List.foldlM_cons] at h
    unfold follow at h
    split at h
    · cases stack with
      | nil => cases h
      | cons top stack => exact ih h noSlash (List.forall_mem_cons.1 before).2
    · split at h
      · rename_i ordinary
        exact ih h noSlash (List.forall_mem_cons.2 ⟨⟨ordinary, whole⟩, before⟩)
      · exact ih h noSlash before

/-- Every normal form is normal. -/
theorem isNormal_of_normalize {s n : Bytes} (h : normalize s = .ok n) : IsNormal n := by
  rw [normalize_eq] at h
  split at h
  · cases walked : stackOf (pieces slash s) with
    | none => rw [walked] at h; cases h
    | some stack =>
      rw [walked] at h
      obtain ⟨stack, folded, rfl⟩ := Option.map_eq_some_iff.1 walked
      have ordinary := ordinary_of_foldlM_follow folded not_mem_of_mem_pieces (List.forall_mem_nil _)
      exact ⟨stack.reverse, fun s hs => ordinary s (List.mem_reverse.1 hs),
        (Except.ok.inj h).symm⟩
  · cases h

end HttpServer.Path
