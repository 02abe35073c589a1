import HttpServer.Proofs.Lines
import HttpServer.Request.Checked
import Mathlib.Data.List.TakeWhile
/-!
# A head is read without a fault

Whatever a block holds, reading it by places faults nowhere and gives what `Request.parse` gives
(`parse_eq`). A search stops in the part that it looks at, so every cut is made at a place of the part
(`placeOf?_append`, `sliceTo_append`, `sliceFrom_append`), and the place behind a line and its end is at
most the end of the block, since the line end is in it (`addLinesFrom_eq`).
-/
namespace HttpServer.Checked

open Bytes

variable {b : UInt8} {s t before after : Bytes}

/-! ## Cuts -/

theorem sliceTo_append (s t : Bytes) : sliceTo (s ++ t) s.length = .ok s := by
  rw [sliceTo_eq (by rw [List.length_append]; omega), List.take_left]

theorem sliceFrom_append (s t : Bytes) : sliceFrom (s ++ t) s.length = .ok t := by
  rw [sliceFrom_eq (by rw [List.length_append]; omega), List.drop_left]

theorem placeOf?_of_not_mem (absent : b ∉ s) : placeOf? b s = none :=
  List.findIdx?_eq_none_iff.2 fun _ mem => beq_eq_false_iff_ne.2 fun same => absent (same ▸ mem)

theorem placeOf?_append (absent : b ∉ before) (after : Bytes) :
    placeOf? b (before ++ b :: after) = some before.length := by
  have notBefore : before.findIdx? (· == b) = none := placeOf?_of_not_mem absent
  rw [placeOf?, List.findIdx?_append, notBefore, Option.none_or, List.findIdx?_cons, beq_self_eq_true]
  simp

theorem placeOf?_eq_none (cut : cutAt? b s = none) : placeOf? b s = none :=
  placeOf?_of_not_mem (cutAt?_eq_none_iff.1 cut)

theorem skipSpaces_eq (s : Bytes) : skipSpaces s = .ok (Bytes.skipSpaces s) := by
  rw [skipSpaces, sliceFrom_eq List.findIdx_le_length, Bytes.skipSpaces,
    List.dropWhile_eq_drop_findIdx_not]
  rfl

/-! ## The request line -/

theorem ofLine_eq (line : Bytes) : ofLine line = .ok (Request.ofLine line) := by
  unfold ofLine Request.ofLine
  cases cut : cutAt? sp line with
  | none => rw [placeOf?_eq_none cut]
  | some parts =>
    obtain ⟨method, rest⟩ := parts
    obtain ⟨rfl, absent⟩ := cutAt?_eq_some_iff.1 cut
    rw [placeOf?_append absent]
    simp only [sliceTo_append, sliceFrom_append, ok_bind, skipSpaces_eq, List.length_eq_zero_iff]
    by_cases empty : method = []
    · rw [if_pos empty, if_pos empty]
    · rw [if_neg empty, if_neg empty]
      have skipped : Bytes.skipSpaces (sp :: rest) = Bytes.skipSpaces rest := rfl
      rw [skipped]
      cases cut' : cutAt? sp (Bytes.skipSpaces rest) with
      | none => rw [placeOf?_eq_none cut']
      | some parts =>
        obtain ⟨path, rest'⟩ := parts
        obtain ⟨whole, absent'⟩ := cutAt?_eq_some_iff.1 cut'
        have skipped' : Bytes.skipSpaces (sp :: rest') = Bytes.skipSpaces rest' := rfl
        rw [whole, placeOf?_append absent']
        simp only [sliceTo_append, sliceFrom_append, ok_bind, skipped']
        split <;> rfl

/-! ## Field lines -/

theorem fieldOf?_eq {line : Bytes} (small : line.length < memoryLimit) :
    fieldOf? line = .ok (Field.ofLine? line) := by
  unfold fieldOf? Field.ofLine?
  cases cut : cutAt? Field.colon line with
  | none => rw [placeOf?_eq_none cut]
  | some parts =>
    obtain ⟨name, rest⟩ := parts
    obtain ⟨rfl, absent⟩ := cutAt?_eq_some_iff.1 cut
    have behind : name.length + 1 ≤ (name ++ Field.colon :: rest).length := by simp
    have place : sum name.length 1 = .ok (name.length + 1) :=
      sum_eq (Nat.lt_of_le_of_lt behind (small.trans memoryLimit_lt_wordLimit))
    have value : sliceFrom (name ++ Field.colon :: rest) (name.length + 1) = .ok rest := by
      rw [sliceFrom_eq behind, ← List.drop_drop, List.drop_left]
      rfl
    rw [placeOf?_append absent]
    simp only [sliceTo_append, ok_bind, place, value, skipSpaces_eq]
    split <;> rfl

theorem push?_eq (n : Nat) (b : UInt8) : push? n b = .ok (Decimal.push? n b) := by
  unfold push? Decimal.push?
  by_cases digit : Decimal.isDigit b
  · have le : 0x30 ≤ b := by
      rw [Decimal.isDigit, Bool.and_eq_true, decide_eq_true_iff] at digit
      exact digit.1
    have value : (b - 0x30).toNat = Decimal.digitValue b := UInt8.toNat_sub_of_le _ _ le
    rw [if_pos digit, if_pos digit, byteDifference_eq le]
    simp only [ok_bind, value]
    split
    · split <;> rfl
    · rfl
  · rw [if_neg digit, if_neg digit]

theorem readFrom?_eq (n : Nat) (s : Bytes) : readFrom? n s = .ok (s.foldlM Decimal.push? n) := by
  induction s generalizing n with
  | nil => rfl
  | cons b s ih =>
    rw [readFrom?, push?_eq, ok_bind, List.foldlM_cons]
    cases Decimal.push? n b with
    | none => rfl
    | some m => exact ih m

theorem upToCr_eq (s : Bytes) : upToCr s = .ok (s.takeWhile (· != cr)) := by
  unfold upToCr
  cases cut : cutAt? cr s with
  | none =>
    have all : s.takeWhile (· != cr) = s :=
      List.takeWhile_eq_self_iff.2 (bne_of_not_mem (cutAt?_eq_none_iff.1 cut))
    rw [placeOf?_eq_none cut, all]
  | some parts =>
    obtain ⟨number, rest⟩ := parts
    obtain ⟨rfl, absent⟩ := cutAt?_eq_some_iff.1 cut
    rw [placeOf?_append absent, takeWhile_word absent]
    exact sliceTo_append _ _

theorem noteContentLength_eq (r : Request) (value : Bytes) :
    noteContentLength r value = .ok (r.noteContentLength value) := by
  unfold noteContentLength Request.noteContentLength
  rw [upToCr_eq, ok_bind, readFrom?_eq, ok_bind, ← Decimal.read?]
  by_cases seen : r.contentLengthSeen
  · rw [if_pos seen, if_pos seen]
  · rw [if_neg seen, if_neg seen]
    cases Decimal.read? (value.takeWhile (· != cr)) <;> rfl

/-! ## The option to close -/

/-- A text has a window that is the needle up to case exactly if the needle stands in it up to case. -/
theorem any_windows_iff (s needle : Bytes) :
    ((List.range (s.length + 1 - needle.length)).map fun i => (s.drop i).take needle.length).any
        (eqIgnoreCase · needle) = true ↔ needle.map toLower <:+: s.map toLower := by
  simp only [List.any_eq_true, List.mem_map, List.mem_range, exists_exists_and_eq_and, eqIgnoreCase,
    beq_iff_eq]
  constructor
  · rintro ⟨i, -, same⟩
    rw [← same]
    exact ((List.take_prefix _ _).isInfix.trans (List.drop_suffix _ _).isInfix).map _
  · rintro ⟨before, after, whole⟩
    have length := congrArg List.length whole
    simp only [List.length_append, List.length_map] at length
    refine ⟨before.length, by omega, ?_⟩
    rw [List.map_take, List.map_drop, ← whole, List.append_assoc, List.drop_left,
      ← List.length_map toLower, List.take_left]

theorem containsIgnoreCase_eq (s needle : Bytes) :
    containsIgnoreCase s needle = .ok (Bytes.containsIgnoreCase s needle) := by
  have found : Bytes.containsIgnoreCase s needle = true ↔ needle.map toLower <:+: s.map toLower := by
    rw [Bytes.containsIgnoreCase, Option.isSome_iff_ne_none, ne_eq, indexOf?_eq_none_iff, not_not]
  by_cases empty : needle = []
  · rw [containsIgnoreCase, if_pos empty, found.2 (by rw [empty]; exact List.nil_infix)]
  · have width : needle.length ≠ 0 := fun zero => empty (List.length_eq_zero_iff.1 zero)
    rw [containsIgnoreCase, if_neg empty, windows, if_neg width, ok_bind, Except.ok.injEq,
      Bool.eq_iff_iff, any_windows_iff, found]

theorem note_eq (r : Request) (f : Field) : note r f = .ok (r.note f) := by
  unfold note Request.note
  rw [noteContentLength_eq, containsIgnoreCase_eq, ok_bind]
  split
  · rfl
  · split
    · rfl
    · split
      · split <;> rfl
      · split <;> rfl

theorem addField_eq {line : Bytes} {r : Request} {maxFields : Nat}
    (small : line.length < memoryLimit) (few : ¬ r.fields.size ≥ maxFields) :
    addField r line = .ok (r.addLine maxFields line) := by
  rw [addField, fieldOf?_eq small, ok_bind, Request.addLine, if_neg few]
  cases Field.ofLine? line with
  | none => rfl
  | some f =>
    simp only [note_eq, ok_bind]
    cases r.note f <;> rfl

/-! ## All lines -/

theorem behindLine_eq {start length : Nat} (h : start + (length + 2) < Decimal.wordLimit) :
    behindLine start length = .ok (start + (length + 2)) := by
  rw [behindLine, sum_eq (Nat.lt_of_le_of_lt (Nat.le_add_left _ _) h), ok_bind, sum_eq h]

/-- The first line end behind a place lies in the block. The lines from that place on are the one before
it, unless that is empty, and those behind it. -/
theorem lines_drop {block : Bytes} {start length : Nat}
    (found : indexOf? crlf (block.drop start) = some length) :
    start + (length + 2) ≤ block.length ∧
      lines (block.drop start) = if length = 0 then []
        else (block.drop start).take length :: lines (block.drop (start + (length + 2))) := by
  have fits : length + 2 ≤ (block.drop start).length := add_length_le_of_indexOf? found
  have cut : cut? crlf (block.drop start) =
      some ((block.drop start).take length, block.drop (start + (length + 2))) := by
    rw [cut?, found, ← List.drop_drop]
    rfl
  have empty : (block.drop start).take length = [] ↔ length = 0 := by
    rw [List.take_eq_nil_iff, ← List.length_eq_zero_iff]
    omega
  rw [lines_of_cut? cut]
  simp only [empty, and_true]
  rw [List.length_drop] at fits
  omega

/-- One turn of the loop: the line at a place is added, and the next one starts behind its end. -/
theorem addLinesFrom_line {block : Bytes} {start length : Nat} (small : block.length < memoryLimit)
    (inside : start < block.length) (found : indexOf? crlf (block.drop start) = some length)
    (nonempty : length ≠ 0) (maxFields : Nat) (r : Request) :
    addLinesFrom maxFields block start r =
      match r.addLine maxFields ((block.drop start).take length) with
      | .error e => .ok (.error e)
      | .ok r => addLinesFrom maxFields block (start + (length + 2)) r := by
  obtain ⟨fits, -⟩ := lines_drop found
  have word : start + (length + 2) < Decimal.wordLimit :=
    Nat.lt_of_le_of_lt fits (small.trans memoryLimit_lt_wordLimit)
  rw [addLinesFrom, dif_pos inside, sliceFrom_eq (Nat.le_of_lt inside), ok_bind]
  simp only [found, if_neg nonempty]
  by_cases many : r.fields.size ≥ maxFields
  · rw [if_pos many, Request.addLine, if_pos many]
  · have line : slice block start (start + length) = .ok ((block.drop start).take length) := by
      rw [slice_eq (Nat.le_add_right _ _) (by omega), List.drop_take, Nat.add_sub_cancel_left]
    have short : ((block.drop start).take length).length < memoryLimit := by
      rw [List.length_take, List.length_drop]
      omega
    rw [if_neg many, sum_eq (by omega), ok_bind, line, ok_bind, addField_eq short many, ok_bind]
    cases r.addLine maxFields ((block.drop start).take length) with
    | error e => rfl
    | ok r =>
      have behind := behindLine_eq word
      simp only
      split
      · rename_i failed
        rw [behind] at failed
        cases failed
      · rename_i reached
        rw [Except.ok.inj (behind.symm.trans reached)]

/-- From the start of a line on, the lines are read as they are from the text that starts there. -/
theorem addLinesFrom_eq {block : Bytes} (small : block.length < memoryLimit) (maxFields start : Nat)
    (r : Request) : addLinesFrom maxFields block start r =
      .ok ((lines (block.drop start)).foldlM (Request.addLine maxFields) r) := by
  by_cases inside : start < block.length
  · cases found : indexOf? crlf (block.drop start) with
    | none =>
      rw [addLinesFrom, dif_pos inside, sliceFrom_eq (Nat.le_of_lt inside), ok_bind,
        lines_of_open (indexOf?_eq_none_iff.1 found)]
      simp only [found]
      rfl
    | some length =>
      rw [(lines_drop found).2]
      by_cases empty : length = 0
      · rw [addLinesFrom, dif_pos inside, sliceFrom_eq (Nat.le_of_lt inside), ok_bind, if_pos empty]
        simp only [found, if_pos empty]
        rfl
      · rw [addLinesFrom_line small inside found empty, if_neg empty, List.foldlM_cons]
        cases r.addLine maxFields ((block.drop start).take length) with
        | error e => rfl
        | ok r => exact addLinesFrom_eq small maxFields _ r
  · rw [addLinesFrom, dif_neg inside, List.drop_eq_nil_of_le (Nat.le_of_not_lt inside)]
    rfl
termination_by block.length - start

/-! ## Heads -/

theorem classify_eq (r : Request) : classify r = .ok r.classify := by
  unfold classify Request.classify
  by_cases below : (Request.apiRoot ++ [slash]).isPrefixOf r.path = true
  · have long : 4 ≤ r.path.length :=
      Nat.le_trans (by decide) (List.isPrefixOf_iff_prefix.1 below).length_le
    rw [if_pos below, if_pos below, sliceFrom_eq long]
    rfl
  · rw [if_neg below, if_neg below]
    by_cases same : r.path = Request.apiRoot
    · have first : sliceTo Request.apiRoot 1 = .ok [slash] := by decide
      rw [if_pos same, if_pos same, same, first]
      rfl
    · rw [if_neg same, if_neg same]

/-- A block of any bytes is read without a fault, and the head read from it is that of `Request.parse`. -/
theorem parse_eq (limits : RequestLimits) {block : Bytes} (small : block.length < memoryLimit) :
    parse limits block = .ok (Request.parse limits block) := by
  unfold parse Request.parse
  cases found : indexOf? crlf block with
  | none =>
    rw [cut?, found]
    rfl
  | some lineEnd =>
    have fits : lineEnd + 2 ≤ block.length := add_length_le_of_indexOf? found
    have cut : cut? crlf block = some (block.take lineEnd, block.drop (lineEnd + 2)) := by
      rw [cut?, found]
      rfl
    simp only [cut, sliceTo_eq (Nat.le_trans (Nat.le_add_right _ 2) fits), ok_bind, ofLine_eq]
    cases Request.ofLine (block.take lineEnd) with
    | error e => rfl
    | ok r =>
      have word : lineEnd + 2 < Decimal.wordLimit :=
        Nat.lt_of_le_of_lt fits (small.trans memoryLimit_lt_wordLimit)
      simp only [sum_eq word, ok_bind, ge_iff_le, ← List.drop_eq_nil_iff]
      by_cases last : block.drop (lineEnd + 2) = []
      · rw [if_pos last, if_pos last]
      · rw [if_neg last, if_neg last, addLinesFrom_eq small, ok_bind]
        cases (lines (block.drop (lineEnd + 2))).foldlM (Request.addLine limits.maxFields) r with
        | error e => rfl
        | ok r =>
          simp only [classify_eq, ok_bind]
          split <;> rfl

/-- A body that is there is cut off without a fault. -/
theorem body_eq {r : Request} {rest : Bytes} (there : r.contentLength ≤ rest.length) :
    body r rest = .ok (r.body rest) := by
  rw [body, assert_eq there, ok_bind, Nat.min_eq_left there, sliceTo_eq there, Request.body]

end HttpServer.Checked
