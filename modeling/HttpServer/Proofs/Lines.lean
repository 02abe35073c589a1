import HttpServer.Proofs.Search
/-!
# Lines of a head

A head is a run of lines, each with its end behind it (`unlines`). Reading the lines back gives the
same lines, and then those of what stands behind them (`lines_unlines_append`); from any text nothing
but lines is read (`isLine_of_mem_lines`). The empty line behind a head is found where its last line ends
(`indexOf?_blankLine_unlines`), and every text that ends with a line end and has no empty line
inside is such a run (`exists_eq_unlines`).

All of this rests on one fact: a line end that stands across the end of a line would start inside the
line, so a line without a line end in it stops at the first one behind it.
-/
namespace HttpServer.Bytes

variable {l s rest : Bytes} {ls : List Bytes}

/-- A line of a head: it is not empty, and no line ends inside it. -/
def IsLine (l : Bytes) : Prop := l ≠ [] ∧ ¬ crlf <:+: l

/-- Lines, each with its end behind it. -/
def unlines (ls : List Bytes) : Bytes := ls.flatMap (· ++ crlf)

@[simp] theorem unlines_nil : unlines [] = [] := rfl

@[simp] theorem unlines_cons (l : Bytes) (ls : List Bytes) :
    unlines (l :: ls) = l ++ crlf ++ unlines ls := rfl

/-- Lines end with a line end, if there are any. -/
theorem exists_unlines_cons (l : Bytes) (ls : List Bytes) :
    ∃ text, unlines (l :: ls) = text ++ crlf := by
  induction ls generalizing l with
  | nil => exact ⟨l, by rw [unlines_cons, unlines_nil, List.append_nil]⟩
  | cons x ls ih =>
    obtain ⟨text, ht⟩ := ih x
    exact ⟨l ++ crlf ++ text, by rw [unlines_cons, ht, List.append_assoc (l ++ crlf)]⟩

/-- A line that lacks one of the two bytes of a line end has no line end in it. -/
theorem not_crlf_infix_of_not_mem (h : cr ∉ l ∨ lf ∉ l) : ¬ crlf <:+: l := by
  intro stands
  rcases h with h | h
  · exact h (stands.subset (by decide))
  · exact h (stands.subset (by decide))

theorem not_crlf_infix_append {s : Bytes} (hl : cr ∉ l) (hs : ¬ crlf <:+: s) :
    ¬ crlf <:+: l ++ s := by
  induction l with
  | nil => exact hs
  | cons b l ih =>
    obtain ⟨first, hl⟩ := List.ne_and_not_mem_of_not_mem_cons hl
    rw [List.cons_append, List.infix_cons_iff, not_or]
    refine ⟨fun starts => first ?_, ih hl⟩
    exact (List.cons_prefix_cons.1 starts).1

/-! ## The end of a line -/

/-- A line end does not stand across the end of a line. -/
theorem not_crlf_prefix_cons {b : UInt8} (h : ¬ crlf <:+: b :: l) (rest : Bytes) :
    ¬ crlf <+: b :: (l ++ crlf ++ rest) := by
  intro across
  apply h
  cases l with
  | nil => simp [crlf] at across
  | cons c l =>
    simp only [crlf, List.cons_append, List.cons_prefix_cons, List.nil_prefix, and_true] at across
    obtain ⟨rfl, rfl⟩ := across
    exact ⟨[], l, rfl⟩

theorem not_crlf_infix_tail {b : UInt8} (h : ¬ crlf <:+: b :: l) : ¬ crlf <:+: l :=
  fun stands => h (stands.trans (List.suffix_cons b l).isInfix)

/-- A line stops at the line end behind it. -/
theorem indexOf?_crlf_line (h : ¬ crlf <:+: l) (rest : Bytes) :
    indexOf? crlf (l ++ crlf ++ rest) = some l.length := by
  induction l with
  | nil => rw [List.nil_append, crlf, List.cons_append, indexOf?_cons, if_pos (by simp)]; rfl
  | cons b l ih =>
    rw [List.cons_append, List.cons_append, indexOf?_cons, if_neg (not_crlf_prefix_cons h rest),
      ih (not_crlf_infix_tail h), Option.map_some, List.length_cons, Nat.add_comm]

theorem cut?_crlf_line (h : ¬ crlf <:+: l) (rest : Bytes) :
    cut? crlf (l ++ crlf ++ rest) = some (l, rest) :=
  cut?_eq_some_iff.2 ⟨rfl, indexOf?_crlf_line h rest⟩

/-- What stands before the first line end has none in it. -/
theorem not_crlf_infix_of_cut? (h : cut? crlf s = some (l, rest)) : ¬ crlf <:+: l := by
  rintro ⟨before, after, rfl⟩
  obtain ⟨rfl, hi⟩ := cut?_eq_some_iff.1 h
  refine (indexOf?_eq_some_iff.1 hi).2.2 before.length (by simp [crlf]) ?_
  simp only [List.append_assoc, List.drop_left]
  exact List.prefix_append _ _

/-! ## Reading lines -/

theorem linesOnto_line (h : ¬ crlf <:+: l) (rest line : Bytes) (done : Array Bytes) :
    linesOnto (l ++ crlf ++ rest) line done =
      if line = [] ∧ l = [] then done else linesOnto rest [] (done.push (line.reverse ++ l)) := by
  induction l generalizing line with
  | nil =>
    rw [List.nil_append, crlf, List.cons_append, List.cons_append, List.nil_append, linesOnto]
    simp only [List.isEmpty_iff, and_true, List.append_nil]
  | cons b l ih =>
    have step : linesOnto (b :: (l ++ crlf ++ rest)) line done =
        linesOnto (l ++ crlf ++ rest) (b :: line) done := by
      rw [linesOnto]
      intro s hb hs
      apply not_crlf_prefix_cons h rest
      rw [hb, hs]
      exact ⟨s, rfl⟩
    rw [List.cons_append, List.cons_append, step, ih (not_crlf_infix_tail h)]
    simp

/-- Reading lines one after another collects them in order. -/
theorem linesOnto_unlines (h : ∀ l ∈ ls, IsLine l) (rest : Bytes) (done : Array Bytes) :
    linesOnto (unlines ls ++ rest) [] done = linesOnto rest [] (done ++ ls.toArray) := by
  induction ls generalizing done with
  | nil => simp
  | cons l ls ih =>
    obtain ⟨⟨nonempty, whole⟩, h⟩ := List.forall_mem_cons.1 h
    rw [unlines_cons, List.append_assoc, linesOnto_line whole, if_neg (fun e => nonempty e.2), ih h]
    congr 1
    simp

/-- Lines that were read before stay in front. -/
theorem linesOnto_append (before : Array Bytes) (s line : Bytes) (done : Array Bytes) :
    linesOnto s line (before ++ done) = before ++ linesOnto s line done := by
  fun_induction linesOnto s line done with
  | case1 s line done empty => rw [linesOnto, if_pos empty]
  | case2 s line done nonempty ih => rw [linesOnto, if_neg nonempty, ← Array.append_push, ih]
  | case3 s line done b other ih => rw [linesOnto.eq_2 _ _ _ _ other, ih]
  | case4 line done => rw [linesOnto]

/-- The lines at the start of a text are read, and then those of the rest. -/
theorem lines_unlines_append (h : ∀ l ∈ ls, IsLine l) (rest : Bytes) :
    lines (unlines ls ++ rest) = ls ++ lines rest := by
  have before := linesOnto_append ls.toArray rest [] #[]
  rw [Array.append_empty] at before
  rw [lines, linesOnto_unlines h, Array.empty_append, before, Array.toList_append, lines]

/-- The lines of a head are read back from it. -/
theorem lines_unlines (h : ∀ l ∈ ls, IsLine l) : lines (unlines ls) = ls := by
  have read := lines_unlines_append h []
  rw [List.append_nil] at read
  rw [read, lines, linesOnto]
  simp

/-- Where no line ends there is none to read. -/
theorem linesOnto_of_open (h : ¬ crlf <:+: s) (line : Bytes) (done : Array Bytes) :
    linesOnto s line done = done := by
  fun_induction linesOnto s line done with
  | case1 s line done empty => rfl
  | case2 s line done nonempty ih => exact absurd ⟨[], s, rfl⟩ h
  | case3 s line done b other ih => exact ih (not_crlf_infix_tail h)
  | case4 line done => rfl

theorem lines_of_open (h : ¬ crlf <:+: s) : lines s = [] := by
  rw [lines, linesOnto_of_open h]

/-- A text gives the line before its first line end, unless that is empty, and then those behind it. -/
theorem lines_of_cut? (cut : cut? crlf s = some (l, rest)) :
    lines s = if l = [] then [] else l :: lines rest := by
  have whole := not_crlf_infix_of_cut? cut
  obtain ⟨rfl, -⟩ := cut?_eq_some_iff.1 cut
  by_cases empty : l = []
  · rw [if_pos empty, lines, linesOnto_line whole, if_pos ⟨rfl, empty⟩]
  · have one := lines_unlines_append (List.forall_mem_singleton.2 ⟨empty, whole⟩) rest
    rw [unlines_cons, unlines_nil, List.append_nil] at one
    rw [if_neg empty, one, List.singleton_append]

/-- What is read from a text are lines. -/
theorem isLine_of_mem_lines {s : Bytes} (h : l ∈ lines s) : IsLine l := by
  cases cut : cut? crlf s with
  | none =>
    rw [lines_of_open (cut?_eq_none_iff.1 cut)] at h
    cases h
  | some parts =>
    obtain ⟨first, rest⟩ := parts
    rw [lines_of_cut? cut] at h
    split at h
    · cases h
    · rename_i nonempty
      have shorter : rest.length < s.length := by
        rw [(cut?_eq_some_iff.1 cut).1]
        simp [crlf]
        omega
      rcases List.mem_cons.1 h with rfl | h
      · exact ⟨nonempty, not_crlf_infix_of_cut? cut⟩
      · exact isLine_of_mem_lines h
termination_by s.length

/-! ## The empty line behind a head -/

/-- The empty line that ends a head is not found inside a line: it starts at the end of the line, or
it is one of the text behind. -/
theorem indexOf?_blankLine_line (h : ¬ crlf <:+: l) (rest : Bytes) :
    indexOf? blankLine (l ++ crlf ++ rest) =
      if crlf <+: rest then some l.length
      else (indexOf? blankLine rest).map (l.length + 2 + ·) := by
  induction l with
  | nil =>
    have starts : blankLine <+: 0x0d :: 0x0a :: rest ↔ crlf <+: rest :=
      List.prefix_append_right_inj crlf
    have off : ¬ blankLine <+: 0x0a :: rest := by simp [blankLine, crlf]
    rw [List.nil_append]
    change indexOf? blankLine (0x0d :: 0x0a :: rest) = _
    simp only [indexOf?_cons, starts, if_neg off, Option.map_map, List.length_nil]
    congr 2
    funext i
    simp only [Function.comp]
    omega
  | cons b l ih =>
    have off : ¬ blankLine <+: b :: (l ++ crlf ++ rest) := fun stands =>
      not_crlf_prefix_cons h rest ((List.prefix_append _ _).trans stands)
    rw [List.cons_append, List.cons_append, indexOf?_cons, if_neg off, ih (not_crlf_infix_tail h)]
    split
    · rw [Option.map_some, List.length_cons, Nat.add_comm]
    · rw [Option.map_map]
      congr 1
      funext i
      simp only [Function.comp, List.length_cons]
      omega

/-- A line that is not empty does not start with a line end. -/
theorem IsLine.not_crlf_prefix (h : IsLine l) (rest : Bytes) : ¬ crlf <+: l ++ crlf ++ rest := by
  obtain ⟨nonempty, whole⟩ := h
  cases l with
  | nil => exact absurd rfl nonempty
  | cons b l => exact not_crlf_prefix_cons whole rest

/-- The empty line behind a head is found at the end of its last line. -/
theorem indexOf?_blankLine_unlines (whole : ¬ crlf <:+: l) (h : ∀ x ∈ ls, IsLine x) (rest : Bytes) :
    indexOf? blankLine (unlines (l :: ls) ++ crlf ++ rest) =
      some ((unlines (l :: ls)).length - 2) := by
  induction ls generalizing l with
  | nil =>
    rw [unlines_cons, unlines_nil, List.append_nil, List.append_assoc,
      indexOf?_blankLine_line whole, if_pos (List.prefix_append _ _)]
    simp [crlf]
  | cons x ls ih =>
    obtain ⟨hx, h⟩ := List.forall_mem_cons.1 h
    have next := ih hx.2 h
    rw [unlines_cons, List.append_assoc, List.append_assoc, indexOf?_blankLine_line whole,
      ← List.append_assoc, next, if_neg, Option.map_some]
    · simp only [unlines_cons, List.length_append, show crlf.length = 2 from rfl]
      congr 1
      omega
    · rw [unlines_cons, List.append_assoc, List.append_assoc]
      exact hx.not_crlf_prefix _

/-- A head is cut off at the empty line behind it, and with the end of its last line it is whole. -/
theorem cut?_blankLine_unlines (whole : ¬ crlf <:+: l) (h : ∀ x ∈ ls, IsLine x) (rest : Bytes) :
    ∃ text, cut? blankLine (unlines (l :: ls) ++ crlf ++ rest) = some (text, rest) ∧
      text ++ crlf = unlines (l :: ls) := by
  obtain ⟨text, ht⟩ := exists_unlines_cons l ls
  refine ⟨text, cut?_eq_some_iff.2 ⟨?_, ?_⟩, ht.symm⟩
  · rw [ht, blankLine]
    simp only [List.append_assoc]
  · rw [indexOf?_blankLine_unlines whole h, ht, List.length_append]
    rfl

/-! ## Every head is a run of lines -/

/-- The text up to an empty line, which is the first, ends with a line end and has no empty line
inside. -/
theorem head_of_indexOf? {i : Nat} (h : indexOf? blankLine s = some i) :
    crlf <:+ s.take (i + 2) ∧ ¬ blankLine <:+: s.take (i + 2) := by
  have fits := add_length_le_of_indexOf? h
  obtain ⟨-, ⟨t, ht⟩, before⟩ := indexOf?_eq_some_iff.1 h
  constructor
  · refine ⟨s.take i, ?_⟩
    rw [List.take_add, ← ht, blankLine, List.append_assoc]
    rfl
  · intro stands
    have length : blankLine.length = 4 := rfl
    obtain ⟨j, hj⟩ := Option.ne_none_iff_exists'.1 fun absent => indexOf?_eq_none_iff.1 absent stands
    have same : j = i := Option.some.inj ((indexOf?_of_take hj).symm.trans h)
    have inside := add_length_le_of_indexOf? hj
    rw [List.length_take] at inside
    omega

/-- A text that ends with a line end and has no empty line inside is a run of lines, of which at
most the first is empty. -/
theorem exists_eq_unlines (s : Bytes) (ends : crlf <:+ s) (noBlank : ¬ blankLine <:+: s) :
    ∃ l ls, s = unlines (l :: ls) ∧ ¬ crlf <:+: l ∧ ∀ x ∈ ls, IsLine x := by
  obtain ⟨⟨l, rest⟩, hcut⟩ : ∃ c, cut? crlf s = some c := by
    rw [← Option.ne_none_iff_exists']
    exact fun uncut => cut?_eq_none_iff.1 uncut ends.isInfix
  have whole := not_crlf_infix_of_cut? hcut
  obtain ⟨hs, -⟩ := cut?_eq_some_iff.1 hcut
  by_cases last : rest = []
  · exact ⟨l, [], by rw [hs, last, unlines_cons, unlines_nil], whole, List.forall_mem_nil _⟩
  · -- the line end at the end of `s` is another one than that behind `l`
    have two : 2 ≤ rest.length := by
      match rest, last with
      | [b], _ =>
        obtain ⟨t, ht⟩ := ends
        have := congrArg (fun x => x.reverse.take 2) (ht.trans hs)
        simp [crlf] at this
      | _ :: _ :: _, _ => simp
    have ends' : crlf <:+ rest :=
      List.suffix_of_suffix_length_le ends (hs ▸ List.suffix_append _ _) (by simpa [crlf] using two)
    have noBlank' : ¬ blankLine <:+: rest := fun stands =>
      noBlank (stands.trans (hs ▸ (List.suffix_append _ _).isInfix))
    have : rest.length < s.length := by rw [hs]; simp [crlf]; omega
    obtain ⟨x, ls, rfl, wholeX, areLines⟩ := exists_eq_unlines rest ends' noBlank'
    refine ⟨l, x :: ls, hs, whole, List.forall_mem_cons.2 ⟨⟨?_, wholeX⟩, areLines⟩⟩
    rintro rfl
    exact noBlank ⟨l, unlines ls, by rw [hs, unlines_cons]; simp [blankLine]⟩
termination_by s.length

end HttpServer.Bytes
