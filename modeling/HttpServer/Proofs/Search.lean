import HttpServer.Bytes
import Mathlib.Data.List.Infix
/-!
# Searching in byte strings

A separator is found at the first place where it stands: `indexOf?_eq_some_iff` and
`indexOf?_eq_none_iff` say so once, and everything else about searching follows from these two. What
matters most to a reader of a stream is that a separator, once found, stays where it is when more
bytes arrive (`indexOf?_append`), and that it is found as soon as its last byte is there
(`indexOf?_take`).
-/
namespace HttpServer.Bytes

variable {needle s p q : Bytes} {b : UInt8} {i k : Nat}

/-! ## First occurrences -/

/-- The search from a later start gives the same place, counted from there. -/
theorem indexFrom_eq_map (needle s : Bytes) (start : Nat) :
    indexFrom needle s start = (indexFrom needle s 0).map (start + ·) := by
  induction s generalizing start with
  | nil => simp only [indexFrom]; split <;> rfl
  | cons b s ih =>
    simp only [indexFrom]
    split
    · rfl
    · rw [ih (start + 1), ih (0 + 1), Option.map_map]
      congr 1
      funext i
      simp only [Function.comp]
      omega

theorem indexOf?_nil (needle : Bytes) :
    indexOf? needle [] = if needle = [] then some 0 else none := by
  cases needle <;> rfl

theorem indexOf?_cons (needle : Bytes) (b : UInt8) (s : Bytes) :
    indexOf? needle (b :: s) =
      if needle <+: b :: s then some 0 else (indexOf? needle s).map (1 + ·) := by
  unfold indexOf?
  rw [indexFrom, indexFrom_eq_map needle s (0 + 1)]
  simp only [List.isPrefixOf_iff_prefix]

/-- The place found is the first where the needle stands. -/
theorem indexOf?_eq_some_iff :
    indexOf? needle s = some i ↔
      i ≤ s.length ∧ needle <+: s.drop i ∧ ∀ j < i, ¬ needle <+: s.drop j := by
  induction s generalizing i with
  | nil =>
    rw [indexOf?_nil]
    by_cases hn : needle = []
    · subst hn
      simp only [↓reduceIte, Option.some.injEq, List.length_nil, Nat.le_zero, List.nil_prefix,
        true_and, not_true_eq_false, imp_false]
      exact ⟨fun h => ⟨h.symm, by omega⟩, fun h => h.1.symm⟩
    · simp [hn]
  | cons b s ih =>
    rw [indexOf?_cons]
    by_cases hp : needle <+: b :: s
    · rw [if_pos hp]
      constructor
      · intro h
        cases h
        exact ⟨Nat.zero_le _, hp, by omega⟩
      · rintro ⟨-, -, none_before⟩
        cases i with
        | zero => rfl
        | succ i => exact absurd hp (none_before 0 (by omega))
    · rw [if_neg hp]
      cases i with
      | zero => simp [hp, Nat.add_comm 1]
      | succ i =>
        have shift : (indexOf? needle s).map (1 + ·) = some (i + 1) ↔ indexOf? needle s = some i := by
          rw [Option.map_eq_some_iff]
          constructor
          · rintro ⟨k, hk, h⟩
            rw [hk, show k = i by omega]
          · intro h
            exact ⟨i, h, by omega⟩
        rw [shift, ih]
        simp only [List.length_cons, List.drop_succ_cons, Nat.add_le_add_iff_right]
        refine and_congr_right fun _ => and_congr_right fun _ => ⟨fun h j hj => ?_, fun h j hj => ?_⟩
        · cases j with
          | zero => simpa using hp
          | succ j => simpa using h j (by omega)
        · simpa using h (j + 1) (by omega)

/-- Nothing is found exactly when the needle stands nowhere. -/
theorem indexOf?_eq_none_iff : indexOf? needle s = none ↔ ¬ needle <:+: s := by
  induction s with
  | nil => rw [indexOf?_nil]; by_cases hn : needle = [] <;> simp [hn]
  | cons b s ih =>
    rw [indexOf?_cons, List.infix_cons_iff]
    by_cases hp : needle <+: b :: s <;> simp [hp, ih]

theorem add_length_le_of_indexOf? (h : indexOf? needle s = some i) :
    i + needle.length ≤ s.length := by
  obtain ⟨hi, hp, -⟩ := indexOf?_eq_some_iff.1 h
  have := hp.length_le
  rw [List.length_drop] at this
  omega

/-! ## Streams that grow -/

/-- What is found stays where it is when more bytes follow. -/
theorem indexOf?_append (h : indexOf? needle p = some i) (q : Bytes) :
    indexOf? needle (p ++ q) = some i := by
  have fits := add_length_le_of_indexOf? h
  obtain ⟨hi, hp, before⟩ := indexOf?_eq_some_iff.1 h
  refine indexOf?_eq_some_iff.2 ⟨by rw [List.length_append]; omega, ?_, fun j hj hq => before j hj ?_⟩
  · rw [List.drop_append_of_le_length hi]
    exact hp.trans (List.prefix_append _ _)
  · rw [List.drop_append_of_le_length (by omega)] at hq
    exact List.prefix_of_prefix_length_le hq (List.prefix_append _ _) (by rw [List.length_drop]; omega)

/-- What is found in a stream is found in any part of it that reaches to the end of the needle. -/
theorem indexOf?_take (h : indexOf? needle s = some i) (hk : i + needle.length ≤ k) :
    indexOf? needle (s.take k) = some i := by
  obtain ⟨hi, hp, before⟩ := indexOf?_eq_some_iff.1 h
  have fits := add_length_le_of_indexOf? h
  refine indexOf?_eq_some_iff.2 ⟨by rw [List.length_take]; omega, ?_, fun j hj hq => before j hj ?_⟩
  · rw [List.drop_take]
    exact List.prefix_take_iff.2 ⟨hp, by omega⟩
  · rw [List.drop_take] at hq
    exact hq.trans (List.take_prefix _ _)

/-- What is found in a part of a stream is found in the stream. -/
theorem indexOf?_of_take (h : indexOf? needle (s.take k) = some i) : indexOf? needle s = some i := by
  rw [← List.take_append_drop k s]
  exact indexOf?_append h _

/-! ## Cutting -/

/-- A cut is where the needle stands first. -/
theorem cut?_eq_some_iff {before after : Bytes} :
    cut? needle s = some (before, after) ↔
      s = before ++ needle ++ after ∧ indexOf? needle s = some before.length := by
  unfold cut?
  rw [Option.map_eq_some_iff]
  constructor
  · rintro ⟨i, h, hs⟩
    obtain ⟨rfl, rfl⟩ := Prod.mk.inj hs
    obtain ⟨hi, ⟨rest, hr⟩, -⟩ := indexOf?_eq_some_iff.1 h
    refine ⟨?_, by rwa [List.length_take, Nat.min_eq_left hi]⟩
    rw [← List.drop_drop, ← hr, List.drop_left, List.append_assoc, hr, List.take_append_drop]
  · rintro ⟨rfl, h⟩
    refine ⟨_, h, ?_⟩
    rw [List.append_assoc, List.take_left, ← List.append_assoc, ← List.length_append, List.drop_left]

theorem cut?_eq_none_iff : cut? needle s = none ↔ ¬ needle <:+: s := by
  rw [cut?, Option.map_eq_none_iff, indexOf?_eq_none_iff]

/-- A cut at a byte is where it stands first. -/
theorem cutAt?_eq_some_iff {before after : Bytes} :
    cutAt? b s = some (before, after) ↔ s = before ++ b :: after ∧ b ∉ before := by
  induction s generalizing before with
  | nil => simp [cutAt?]
  | cons c s ih =>
    by_cases hc : c = b
    · subst hc
      have found : cutAt? c (c :: s) = some ([], s) := by simp [cutAt?]
      rw [found, Option.some.injEq, Prod.mk.injEq]
      constructor
      · rintro ⟨rfl, rfl⟩
        exact ⟨rfl, List.not_mem_nil⟩
      · rintro ⟨h, absent⟩
        cases before with
        | nil => exact ⟨rfl, (List.cons.inj h).2⟩
        | cons d before =>
          rw [List.cons_append, List.cons.injEq] at h
          exact absurd (h.1 ▸ List.mem_cons_self) absent
    · have step : cutAt? b (c :: s) = (cutAt? b s).map fun r => (c :: r.1, r.2) := by
        simp only [cutAt?, bne_iff_ne, ne_eq, hc, not_false_eq_true, List.dropWhile_cons_of_pos,
          List.takeWhile_cons_of_pos]
        cases s.dropWhile (· != b) <;> rfl
      rw [step, Option.map_eq_some_iff]
      constructor
      · rintro ⟨⟨l, r⟩, h, hr⟩
        obtain ⟨rfl, rfl⟩ := Prod.mk.inj hr
        obtain ⟨rfl, absent⟩ := ih.1 h
        exact ⟨rfl, by simp [absent, Ne.symm hc]⟩
      · rintro ⟨h, absent⟩
        cases before with
        | nil => exact absurd (List.cons.inj h).1 hc
        | cons d before =>
          rw [List.cons_append, List.cons.injEq] at h
          obtain ⟨rfl, rfl⟩ := h
          exact ⟨(before, after), ih.2 ⟨rfl, fun h => absent (List.mem_cons_of_mem _ h)⟩, rfl⟩

theorem cutAt?_eq_none_iff : cutAt? b s = none ↔ b ∉ s := by
  constructor
  · intro uncut mem
    obtain ⟨before, after, rfl, absent⟩ := List.eq_append_cons_of_mem mem
    rw [cutAt?_eq_some_iff.2 ⟨rfl, absent⟩] at uncut
    cases uncut
  · intro absent
    cases cut : cutAt? b s with
    | none => rfl
    | some parts =>
      rw [(cutAt?_eq_some_iff.1 cut).1] at absent
      exact absurd (List.mem_append_right _ List.mem_cons_self) absent

/-! ## Words -/

variable {c : UInt8} {l : Bytes}

theorem bne_of_not_mem (absent : b ∉ l) : ∀ c ∈ l, (c != b) = true :=
  fun _ mem => bne_iff_ne.2 fun same => absent (same ▸ mem)

/-- A word is what stands before the first separator. -/
theorem takeWhile_word (absent : b ∉ l) (s : Bytes) : (l ++ b :: s).takeWhile (· != b) = l := by
  rw [List.takeWhile_append_of_pos (bne_of_not_mem absent), List.takeWhile_cons_of_neg (by simp),
    List.append_nil]

theorem dropWhile_word (absent : b ∉ l) (s : Bytes) : (l ++ b :: s).dropWhile (· != b) = b :: s := by
  rw [List.dropWhile_append_of_pos (bne_of_not_mem absent), List.dropWhile_cons_of_neg (by simp)]

/-- A byte of `s` stands somewhere last. -/
theorem exists_last (mem : b ∈ s) : ∃ before rest, s = before ++ b :: rest ∧ b ∉ rest := by
  obtain ⟨after, before, reversed, absent⟩ := List.eq_append_cons_of_mem (List.mem_reverse.2 mem)
  refine ⟨before.reverse, after.reverse, ?_, by simpa using absent⟩
  rw [← List.reverse_reverse s, reversed]
  simp

/-! ## Pieces -/

theorem pieces_ne_nil (b : UInt8) (s : Bytes) : pieces b s ≠ [] := by
  induction s with
  | nil => exact List.cons_ne_nil _ _
  | cons c s ih =>
    obtain ⟨piece, rest, h⟩ := List.exists_cons_of_ne_nil ih
    rw [pieces] at h ⊢
    rw [List.foldr_cons, h]
    simp only
    split <;> exact List.cons_ne_nil _ _

theorem pieces_cons_self (b : UInt8) (s : Bytes) : pieces b (b :: s) = [] :: pieces b s := by
  obtain ⟨piece, rest, h⟩ := List.exists_cons_of_ne_nil (pieces_ne_nil b s)
  rw [h]
  rw [pieces] at h ⊢
  rw [List.foldr_cons, h]
  simp

theorem pieces_cons_of_ne (ne : c ≠ b) {piece : Bytes} {rest : List Bytes}
    (h : pieces b s = piece :: rest) : pieces b (c :: s) = (c :: piece) :: rest := by
  rw [pieces] at h ⊢
  rw [List.foldr_cons, h]
  simp [ne]

theorem pieces_of_not_mem (h : b ∉ l) : pieces b l = [l] := by
  induction l with
  | nil => rfl
  | cons c l ih =>
    obtain ⟨ne, h⟩ := List.ne_and_not_mem_of_not_mem_cons h
    exact pieces_cons_of_ne (Ne.symm ne) (ih h)

/-- A separator keeps the pieces before it and behind it apart. -/
theorem pieces_append_cons (b : UInt8) (l s : Bytes) :
    pieces b (l ++ b :: s) = pieces b l ++ pieces b s := by
  induction l with
  | nil => exact pieces_cons_self b s
  | cons c l ih =>
    by_cases h : c = b
    · subst h
      rw [List.cons_append, pieces_cons_self, pieces_cons_self, ih, List.cons_append]
    · obtain ⟨piece, rest, hl⟩ := List.exists_cons_of_ne_nil (pieces_ne_nil b l)
      rw [hl, List.cons_append] at ih
      rw [List.cons_append, pieces_cons_of_ne h hl, pieces_cons_of_ne h ih, List.cons_append]

/-- The first piece ends at the first separator. -/
theorem pieces_append (h : b ∉ l) (s : Bytes) : pieces b (l ++ b :: s) = l :: pieces b s := by
  rw [pieces_append_cons, pieces_of_not_mem h, List.singleton_append]

/-- No piece holds a separator. -/
theorem not_mem_of_mem_pieces : ∀ piece ∈ pieces b s, b ∉ piece := by
  induction s with
  | nil => simp [pieces]
  | cons c s ih =>
    by_cases h : c = b
    · subst h
      rw [pieces_cons_self]
      exact List.forall_mem_cons.2 ⟨List.not_mem_nil, ih⟩
    · obtain ⟨piece, rest, hs⟩ := List.exists_cons_of_ne_nil (pieces_ne_nil b s)
      rw [hs, List.forall_mem_cons] at ih
      rw [pieces_cons_of_ne h hs]
      exact List.forall_mem_cons.2 ⟨List.not_mem_cons_of_ne_of_not_mem (Ne.symm h) ih.1, ih.2⟩

/-- The pieces make up the text, with a separator behind each of them. -/
theorem flatMap_pieces (b : UInt8) (s : Bytes) : (pieces b s).flatMap (· ++ [b]) = s ++ [b] := by
  induction s with
  | nil => rfl
  | cons c s ih =>
    by_cases h : c = b
    · subst h
      rw [pieces_cons_self, List.flatMap_cons, ih]
      rfl
    · obtain ⟨piece, rest, hs⟩ := List.exists_cons_of_ne_nil (pieces_ne_nil b s)
      rw [hs, List.flatMap_cons] at ih
      rw [pieces_cons_of_ne h hs, List.flatMap_cons, List.cons_append, List.cons_append,
        List.cons_append, ih]

end HttpServer.Bytes
