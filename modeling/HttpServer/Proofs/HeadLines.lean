import HttpServer.Proofs.HeadText
/-!
# Heads that go on

A head is read from the front, line by line, and a line at fault ends the reading: whatever stands
behind it, the head is refused for that line (`parse_of_more_lines`). Only the two faults of a whole
head can change with further lines, and they change in one direction: a head without field lines may
get some, and a body that a method forbids stays forbidden, because the size of the body is given only
once (`Continues.bodyForbidden`).
-/
namespace HttpServer.Request

open Bytes

variable {line l : Bytes} {ls : List Bytes} {maxFields : Nat} {r r' r'' : Request}
  {limits : RequestLimits}

/-! ## Reading in two steps -/

/-- Field lines are read in front of what stands behind them. -/
theorem readFields_append (limits : RequestLimits) (r : Request) (ls ms : List Bytes) :
    readFields limits r (ls ++ ms) =
      (ls.foldlM (addLine limits.maxFields) r).bind fun r => readFields limits r ms := by
  rw [readFields, List.foldlM_append]
  cases ls.foldlM (addLine limits.maxFields) r <;> rfl

/-- So are the lines at the start of a head. -/
theorem parse_unlines_append (limits : RequestLimits) (whole : ¬ crlf <:+: l)
    (areLines : ∀ x ∈ ls, IsLine x) (rest : Bytes) :
    parse limits (unlines (l :: ls) ++ rest) = (ofLine l).bind fun r =>
      if ls = [] ∧ rest = [] then .error .missingRequiredHeaders
      else (ls.foldlM (addLine limits.maxFields) r).bind fun r =>
        readFields limits r (lines rest) := by
  have nothing : unlines ls ++ rest = [] ↔ ls = [] ∧ rest = [] := by
    cases ls <;> simp [crlf]
  rw [unlines_cons, List.append_assoc, parse_line whole, lines_unlines_append areLines]
  simp only [nothing, readFields_append]

/-! ## What further field lines keep -/

/-- The second request is the first one after further field lines. -/
structure Continues (r r' : Request) : Prop where
  method : r'.method = r.method
  fields : r.fields.toList <+: r'.fields.toList
  length : r.contentLength ≠ 0 → r'.contentLength = r.contentLength

theorem Continues.refl (r : Request) : r.Continues r := ⟨rfl, List.prefix_rfl, fun _ => rfl⟩

theorem Continues.trans (h : r.Continues r') (h' : r'.Continues r'') : r.Continues r'' := by
  refine ⟨h'.method.trans h.method, h.fields.trans h'.fields, fun announced => ?_⟩
  have length := h.length announced
  rw [h'.length (by rwa [length]), length]

/-- A body that is forbidden stays forbidden. -/
theorem Continues.bodyForbidden (h : r.Continues r') (forbidden : r.bodyForbidden = true) :
    r'.bodyForbidden = true := by
  rw [Request.bodyForbidden, Bool.and_eq_true, bne_iff_ne] at forbidden ⊢
  obtain ⟨method, announced⟩ := forbidden
  rw [knownMethod, h.method, h.length announced]
  exact ⟨method, announced⟩

/-- There is a body only if a field announced it. -/
def Counted (r : Request) : Prop := r.contentLength ≠ 0 → r.contentLengthSeen = true

theorem counted_of_ofLine (h : ofLine line = .ok r) : r.Counted ∧ r.fields.size = 0 := by
  obtain ⟨t, -, -, rfl⟩ := HeadText.exists_of_ofLine h
  exact ⟨fun announced => absurd rfl announced, rfl⟩

/-- Taking note of a field leaves the method and the fields alone, and the size of a body that was
announced before. -/
theorem Counted.note (h : r.Counted) {f : Field} (noted : r.note f = .ok r') :
    r'.Counted ∧ r'.fields = r.fields ∧ r.Continues r' := by
  have outcome := noting r f
  rw [noted] at outcome
  cases outcome with
  | type named => exact ⟨h, rfl, rfl, List.prefix_rfl, fun _ => rfl⟩
  | length named unseen read =>
    -- a size was announced only if it was seen
    refine ⟨fun _ => rfl, rfl, rfl, List.prefix_rfl, fun announced => ?_⟩
    rw [h announced] at unseen
    cases unseen
  | close named => exact ⟨h, rfl, rfl, List.prefix_rfl, fun _ => rfl⟩
  | other => exact ⟨h, rfl, .refl _⟩

theorem Counted.addLine (h : r.Counted) (added : addLine maxFields r line = .ok r') :
    r'.Counted ∧ r.Continues r' ∧ r'.fields.size = r.fields.size + 1 := by
  have outcome := adding maxFields r line
  rw [added] at outcome
  cases outcome with
  | added room read noted =>
    obtain ⟨counted, fields, method, -, length⟩ := h.note noted
    refine ⟨counted, ⟨method, ?_, length⟩, by rw [fields, Array.size_push]⟩
    simp only [fields, Array.toList_push]
    exact List.prefix_append _ _

theorem Counted.foldlM_addLine (h : r.Counted)
    (read : ls.foldlM (Request.addLine maxFields) r = .ok r') :
    r'.Counted ∧ r.Continues r' ∧ r'.fields.size = r.fields.size + ls.length := by
  induction ls generalizing r with
  | nil =>
    cases read
    exact ⟨h, .refl _, rfl⟩
  | cons l ls ih =>
    rw [List.foldlM_cons] at read
    cases first : Request.addLine maxFields r l with
    | error e =>
      rw [first] at read
      cases read
    | ok r₁ =>
      rw [first] at read
      obtain ⟨counted, continues, one⟩ := h.addLine first
      obtain ⟨counted', continues', others⟩ := ih counted read
      refine ⟨counted', continues.trans continues', ?_⟩
      rw [others, one, List.length_cons, Nat.add_assoc, Nat.add_comm 1]

/-! ## Heads with more behind them -/

@[simp] theorem fields_classify (r : Request) : r.classify.fields = r.fields := by
  obtain ⟨path, isApi, classified⟩ := r.exists_classify
  rw [classified]

/-- If a request is accepted with further field lines, it is accepted without them. -/
theorem Counted.accepted_of_readFields (h : r.Counted) (accepted : readFields limits r ls = .ok r') :
    settle r = .ok r.classify ∧ r.fields.toList <+: r'.fields.toList := by
  unfold readFields at accepted
  cases read : ls.foldlM (Request.addLine limits.maxFields) r with
  | error e =>
    rw [read] at accepted
    cases accepted
  | ok r₁ =>
    rw [read] at accepted
    have continues := (h.foldlM_addLine read).2.1
    have last : settle r₁ = .ok r' := accepted
    unfold settle at last ⊢
    split at last
    · cases last
    · rename_i allowed
      cases last
      rw [if_neg (mt continues.bodyForbidden allowed), fields_classify]
      exact ⟨rfl, continues.fields⟩

/-- What the lines at the start of a head come to: one of them is at fault, whatever stands behind, or
there is a request with their fields, and what stands behind is read on from there. -/
theorem parse_unlines_cases (limits : RequestLimits) (whole : ¬ crlf <:+: l)
    (areLines : ∀ x ∈ ls, IsLine x) :
    (∃ e, e.isOfLine = true ∧ ∀ rest, parse limits (unlines (l :: ls) ++ rest) = .error e) ∨
      ∃ r : Request, r.Counted ∧ r.fields.size = ls.length ∧
        parse limits (unlines (l :: ls)) =
          (if ls = [] then .error .missingRequiredHeaders else settle r) ∧
        ∀ rest, ls ≠ [] ∨ rest ≠ [] →
          parse limits (unlines (l :: ls) ++ rest) = readFields limits r (lines rest) := by
  cases first : ofLine l with
  | error e =>
    refine .inl ⟨e, isOfLine_of_ofLine first, fun rest => ?_⟩
    rw [parse_unlines_append limits whole areLines, first]
    rfl
  | ok r₀ =>
    cases read : ls.foldlM (Request.addLine limits.maxFields) r₀ with
    | error e =>
      have line := reason_of_foldlM (P := (·.isOfLine = true)) (fun _ _ _ => isOfLine_of_addLine) read
      have nonempty : ls ≠ [] := by
        rintro rfl
        cases read
      refine .inl ⟨e, line, fun rest => ?_⟩
      rw [parse_unlines_append limits whole areLines, first]
      simp only [Except.bind, if_neg (mt And.left nonempty), read]
    | ok r =>
      obtain ⟨counted, noFields⟩ := counted_of_ofLine first
      obtain ⟨counted', -, size⟩ := counted.foldlM_addLine read
      refine .inr ⟨r, counted', by rw [size, noFields, Nat.zero_add], ?_, fun rest further => ?_⟩
      · have all := parse_unlines_append limits whole areLines []
        rw [List.append_nil, first] at all
        simp only [Except.bind, read, and_true] at all
        exact all
      · rw [parse_unlines_append limits whole areLines, first]
        simp only [Except.bind, read]
        exact if_neg fun both => further.elim (· both.1) (· both.2)

/-- A head is never repaired by what stands behind its lines. If a line is at fault, that line decides
the rejection; if only the method forbids the body, the head with more lines is refused too. So a head
is accepted only if each start of it is, with the first of its fields, or lacks field lines and nothing
else. -/
theorem parse_of_more_lines (limits : RequestLimits) {ls : List Bytes} (nonempty : ls ≠ [])
    (areLines : ∀ l ∈ ls, IsLine l) (rest : Bytes) :
    (∀ e, parse limits (unlines ls) = .error e → e ≠ .missingRequiredHeaders →
      e ≠ .bodyNotAllowed → parse limits (unlines ls ++ rest) = .error e) ∧
    (parse limits (unlines ls) = .error .bodyNotAllowed →
      ∀ r, parse limits (unlines ls ++ rest) ≠ .ok r) ∧
    ∀ r, parse limits (unlines ls ++ rest) = .ok r →
      (∃ r', parse limits (unlines ls) = .ok r' ∧ r'.fields.toList <+: r.fields.toList) ∨
        parse limits (unlines ls) = .error .missingRequiredHeaders := by
  obtain ⟨l, ls, rfl⟩ := List.exists_cons_of_ne_nil nonempty
  obtain ⟨⟨-, whole⟩, areLines⟩ := List.forall_mem_cons.1 areLines
  rcases parse_unlines_cases limits whole areLines with
    ⟨e, -, fault⟩ | ⟨r, counted, -, all, go_on⟩
  · have here := fault []
    rw [List.append_nil] at here
    rw [here, fault rest]
    exact ⟨fun _ same _ _ => same, fun _ _ => nofun, fun _ => nofun⟩
  · by_cases bare : ls = []
    · rw [all, if_pos bare]
      refine ⟨fun e same other => ?_, nofun, fun _ _ => .inr rfl⟩
      cases same
      exact absurd rfl other
    · rw [all, if_neg bare, go_on rest (.inl bare)]
      refine ⟨fun e refused _ other => ?_, fun refused r' accepted => ?_, fun r' accepted => .inl ?_⟩
      · unfold settle at refused
        split at refused
        · cases refused
          exact absurd rfl other
        · cases refused
      · rw [(counted.accepted_of_readFields accepted).1] at refused
        cases refused
      · obtain ⟨alone, start⟩ := counted.accepted_of_readFields accepted
        exact ⟨r.classify, alone, by rwa [fields_classify]⟩

/-- A head that is accepted. -/
def samplePlain : List Bytes := [ofString "GET / HTTP/1.1", ofString "A: b"]

/-- The second line is no field line. -/
def sampleFaulty : List Bytes := [ofString "GET / HTTP/1.1", ofString "A b"]

/-- The method forbids the body. -/
def sampleForbidden : List Bytes := [ofString "GET / HTTP/1.1", ofString "Content-Length: 5"]

theorem parse_sampleLines :
    let more := ofString "C: d\r\n"
    (∃ r r', parse {} (unlines samplePlain ++ more) = .ok r ∧ parse {} (unlines samplePlain) = .ok r' ∧
      r'.fields.toList <+: r.fields.toList) ∧
      parse {} (unlines sampleFaulty ++ more) = .error .badHeaderSyntax ∧
      ∀ r, parse {} (unlines sampleForbidden ++ more) ≠ .ok r := by
  intro more
  have areLines (ls : List Bytes) (h : ∀ l ∈ ls, l ≠ [] ∧ cr ∉ l) : ∀ l ∈ ls, IsLine l :=
    fun l hl => ⟨(h l hl).1, not_crlf_infix_of_not_mem (.inl (h l hl).2)⟩
  obtain ⟨-, -, start⟩ := parse_of_more_lines {} (by decide) (areLines samplePlain (by decide)) more
  obtain ⟨same, -, -⟩ := parse_of_more_lines {} (by decide) (areLines sampleFaulty (by decide)) more
  obtain ⟨-, never, -⟩ :=
    parse_of_more_lines {} (by decide) (areLines sampleForbidden (by decide)) more
  refine ⟨?_, same _ rfl nofun nofun, never rfl⟩
  obtain ⟨r, accepted⟩ : ∃ r, parse {} (unlines samplePlain ++ more) = .ok r := ⟨_, rfl⟩
  obtain ⟨r₀, alone⟩ : ∃ r₀, parse {} (unlines samplePlain) = .ok r₀ := ⟨_, rfl⟩
  rcases start r accepted with ⟨r', accepted', first⟩ | missing
  · exact ⟨r, r', accepted, accepted', first⟩
  · rw [alone] at missing
    cases missing

end HttpServer.Request
