import HttpServer.Proofs.Lines
import HttpServer.Proofs.Offences
import HttpServer.Request.Text
/-!
# A head is accepted exactly if it is written by the grammar

`Request.parse` accepts a head if and only if it is the text of well formed parts, and what it gives
is what these parts say. The parts are unique: a line can be taken apart in only one way.

The proof takes the head apart line by line. The request line and a field line are read back from
their parts (`Separable.ofLine_requestLine`, `FieldText.ofLine?_line`) and consist of such parts when
they are accepted (`exists_of_ofLine`, `FieldText.exists_of_ofLine?`). The loop over the field lines
holds, after some lines, exactly what a head with these lines says (`foldlM_addLine_eq_ok_iff`).
-/
namespace HttpServer.Request

open Bytes

variable {line rest : Bytes} {n m : Nat}

/-! ## Spaces -/

/-- The first byte behind spaces ends them. -/
theorem skipSpaces_spacing (h : rest.head? ≠ some sp) : skipSpaces (spacing n ++ rest) = rest := by
  induction n with
  | zero =>
    cases rest with
    | nil => rfl
    | cons b rest =>
      have : b ≠ sp := fun e => h (by rw [e]; rfl)
      simp [spacing, skipSpaces, this]
  | succ n ih => simpa [spacing, skipSpaces, List.replicate_succ] using ih

/-- Every text is some spaces and then none. -/
theorem exists_spacing (s : Bytes) :
    ∃ n, s = spacing n ++ skipSpaces s ∧ (skipSpaces s).head? ≠ some sp := by
  induction s with
  | nil => exact ⟨0, rfl, by simp [skipSpaces]⟩
  | cons b s ih =>
    by_cases hb : b = sp
    · obtain ⟨n, hs, hh⟩ := ih
      refine ⟨n + 1, ?_, by simpa [skipSpaces, hb] using hh⟩
      have skip : skipSpaces (b :: s) = skipSpaces s := by simp [skipSpaces, hb]
      rw [skip, spacing, List.replicate_succ, List.cons_append, ← spacing, ← hs, hb]
    · refine ⟨0, ?_, ?_⟩
      · simp [spacing, skipSpaces, hb]
      · simp [skipSpaces, hb]

/-- The number of spaces and what follows them are told by the text. -/
theorem spacing_append_inj {a b : Bytes} (ha : a.head? ≠ some sp) (hb : b.head? ≠ some sp)
    (h : spacing n ++ a = spacing m ++ b) : n = m ∧ a = b := by
  have tails : a = b := by rw [← skipSpaces_spacing ha (n := n), h, skipSpaces_spacing hb]
  subst tails
  refine ⟨?_, rfl⟩
  have := congrArg List.length h
  simp only [spacing, List.length_append, List.length_replicate] at this
  omega

theorem head?_ne_sp_of_not_mem (h : sp ∉ line) : line.head? ≠ some sp :=
  fun e => h (List.mem_of_mem_head? e)

/-! ## Field lines -/

namespace FieldText

variable {f g : FieldText}

@[simp] theorem field_value (f : FieldText) : f.field.value = f.value := rfl

theorem WellFormed.isLine (h : f.WellFormed) : IsLine f.line := by
  obtain ⟨name, -, -, -, whole⟩ := h
  refine ⟨?_, indexOf?_eq_none_iff.1 whole⟩
  simp [line]

/-- A field line is read back. -/
theorem ofLine?_line (h : f.WellFormed) : Field.ofLine? f.line = some f.field := by
  obtain ⟨name, colonless, value, start, -⟩ := h
  have cut : cutAt? Field.colon f.line = some (f.name, spacing f.spaces ++ f.value) :=
    cutAt?_eq_some_iff.2 ⟨by simp [line], colonless⟩
  rw [Field.ofLine?, cut]
  simp only [skipSpaces_spacing start, name, value, or_self, ↓reduceIte, field]

/-- A line that is read as a field is a field line. -/
theorem exists_of_ofLine? {field : Field} (whole : ¬ crlf <:+: line)
    (h : Field.ofLine? line = some field) :
    ∃ f : FieldText, f.line = line ∧ f.WellFormed ∧ f.field = field := by
  unfold Field.ofLine? at h
  split at h
  · simp at h
  · rename_i name rest cut
    obtain ⟨rfl, colonless⟩ := cutAt?_eq_some_iff.1 cut
    simp only at h
    split at h
    · simp at h
    · rename_i nonempty
      obtain ⟨spaces, hrest, start⟩ := exists_spacing rest
      rw [Option.some.injEq] at h
      have text : (⟨name, spaces, skipSpaces rest⟩ : FieldText).line = name ++ Field.colon :: rest := by
        simp only [FieldText.line, List.append_assoc, List.cons_append, ← hrest]
      refine ⟨⟨name, spaces, skipSpaces rest⟩, text, ⟨?_, colonless, ?_, start, ?_⟩, h⟩
      · exact fun e => nonempty (.inl e)
      · exact fun e => nonempty (.inr e)
      · rw [text]
        exact indexOf?_eq_none_iff.2 whole

/-- A field line has only one way to be taken apart. -/
theorem eq_of_line_eq (hf : f.WellFormed) (hg : g.WellFormed) (h : f.line = g.line) : f = g := by
  have field := ofLine?_line hf
  rw [h, ofLine?_line hg, Option.some.injEq, FieldText.field, FieldText.field, Field.mk.injEq] at field
  obtain ⟨name, value⟩ := field
  have lengths := congrArg List.length h
  simp only [line, name, value, spacing, List.length_append, List.length_cons,
    List.length_replicate] at lengths
  have spaces : f.spaces = g.spaces := by omega
  cases f
  cases g
  simp only [mk.injEq] at name spaces value ⊢
  exact ⟨name.symm, spaces, value.symm⟩

theorem eq_of_map_line_eq {fs gs : List FieldText} (hf : ∀ f ∈ fs, f.WellFormed)
    (hg : ∀ g ∈ gs, g.WellFormed) (h : fs.map FieldText.line = gs.map FieldText.line) : fs = gs := by
  induction fs generalizing gs with
  | nil => exact (List.map_eq_nil_iff.1 h.symm).symm
  | cons f fs ih =>
    cases gs with
    | nil => cases h
    | cons g gs =>
      obtain ⟨first, others⟩ := List.cons.inj h
      rw [List.forall_mem_cons] at hf hg
      rw [eq_of_line_eq hf.1 hg.1 first, ih hf.2 hg.2 others]

end FieldText

/-! ## The request line -/

namespace HeadText

variable {t t' : HeadText}

/-- The parts of a request line can be told apart. -/
structure Separable (t : HeadText) : Prop where
  method : t.method ≠ [] ∧ sp ∉ t.method
  path : t.path ≠ [] ∧ sp ∉ t.path
  separated : 0 < t.spacesBefore ∧ 0 < t.spacesAfter

theorem servedVersion_head? : servedVersion.head? ≠ some sp := by decide

theorem spacing_pos (h : 0 < n) : spacing n = sp :: spacing (n - 1) := by
  obtain ⟨k, rfl⟩ := Nat.exists_eq_succ_of_ne_zero (Nat.ne_of_gt h)
  rfl

theorem Separable.path_head? (h : t.Separable) (rest : Bytes) :
    (t.path ++ rest).head? ≠ some sp := by
  rw [List.head?_append_of_ne_nil _ h.path.1]
  exact head?_ne_sp_of_not_mem h.path.2

/-- A request line is read back. -/
theorem Separable.ofLine_requestLine (h : t.Separable) :
    ofLine t.requestLine =
      .ok { method := t.method, path := t.path, version := servedVersion } := by
  have hm : cutAt? sp t.requestLine = some (t.method, spacing (t.spacesBefore - 1) ++
      (t.path ++ (spacing t.spacesAfter ++ servedVersion))) :=
    cutAt?_eq_some_iff.2 ⟨by simp [requestLine, spacing_pos h.separated.1], h.method.2⟩
  have hp : cutAt? sp (t.path ++ (spacing t.spacesAfter ++ servedVersion)) =
      some (t.path, spacing (t.spacesAfter - 1) ++ servedVersion) :=
    cutAt?_eq_some_iff.2 ⟨by simp [spacing_pos h.separated.2], h.path.2⟩
  rw [ofLine, hm]
  simp only [h.method.1, skipSpaces_spacing (h.path_head? _), hp,
    skipSpaces_spacing servedVersion_head?, ↓reduceIte]

/-- A line that is read as a request line is one. -/
theorem exists_of_ofLine {r : Request} (h : ofLine line = .ok r) :
    ∃ t : HeadText, t.requestLine = line ∧ t.Separable ∧
      r = { method := t.method, path := t.path, version := servedVersion } := by
  unfold ofLine at h
  split at h
  · simp at h
  · rename_i method rest cutMethod
    obtain ⟨rfl, noSpace⟩ := cutAt?_eq_some_iff.1 cutMethod
    split at h
    · simp at h
    · rename_i nonempty
      obtain ⟨before, hbefore, start⟩ := exists_spacing rest
      split at h
      · simp at h
      · rename_i path rest' cutPath
        obtain ⟨hpath, noSpace'⟩ := cutAt?_eq_some_iff.1 cutPath
        obtain ⟨after, hafter, -⟩ := exists_spacing rest'
        simp only at h
        split at h
        · rename_i version
          rw [Except.ok.injEq] at h
          rw [version] at hafter
          refine ⟨⟨method, before + 1, path, after + 1, []⟩, ?_, ⟨⟨nonempty, noSpace⟩, ⟨?_, noSpace'⟩,
            Nat.succ_pos _, Nat.succ_pos _⟩, by rw [← h, version]⟩
          · rw [hpath, hafter] at hbefore
            simp only [requestLine, hbefore, spacing, List.replicate_succ]
            simp
          · rintro rfl
            rw [hpath] at start
            simp at start
        · simp at h

/-- A request line has only one way to be taken apart. -/
theorem Separable.eq_of_requestLine_eq (h : t.Separable) (h' : t'.Separable)
    (e : t.requestLine = t'.requestLine) :
    t.method = t'.method ∧ t.spacesBefore = t'.spacesBefore ∧ t.path = t'.path ∧
      t.spacesAfter = t'.spacesAfter := by
  have read := h.ofLine_requestLine
  rw [e, h'.ofLine_requestLine] at read
  simp only [Except.ok.injEq, Request.mk.injEq, and_true] at read
  obtain ⟨method, path⟩ := read
  simp only [requestLine, ← method, List.append_assoc, List.append_cancel_left_eq] at e
  obtain ⟨before, e⟩ := spacing_append_inj (h.path_head? _) (h'.path_head? _) e
  rw [← path, List.append_cancel_left_eq] at e
  obtain ⟨after, -⟩ := spacing_append_inj servedVersion_head? servedVersion_head? e
  exact ⟨method.symm, before, path.symm, after⟩

/-! ## The loop over the field lines -/

/-- The head with one more field line. -/
def snoc (t : HeadText) (f : FieldText) : HeadText := { t with fields := t.fields ++ [f] }

/-- The field lines are accepted, whatever the request line says. -/
structure Admissible (t : HeadText) (maxFields : Nat) : Prop where
  count : t.fields.length ≤ maxFields
  encoding : t.values Field.transferEncoding = []
  length : t.contentLength.isSome

variable {f : FieldText} {maxFields : Nat} {r : Request}

theorem values_snoc (t : HeadText) (f : FieldText) (name : Bytes) :
    (t.snoc f).values name = t.values name ++ if f.field.isNamed name then [f.value] else [] := by
  unfold values snoc
  rw [List.filter_append, List.map_append]
  congr 1
  by_cases h : f.field.isNamed name <;> simp [h]

/-- A line cannot have two names that differ in more than case. -/
theorem not_isNamed {field : Field} {a b : Bytes} (h : field.isNamed a = true)
    (differ : a.map toLower ≠ b.map toLower) : field.isNamed b = false := by
  rw [Field.isNamed, eqIgnoreCase, beq_iff_eq] at h
  rw [Field.isNamed, eqIgnoreCase, beq_eq_false_iff_ne, h]
  exact differ

theorem contentLength_snoc (h : f.field.isNamed Field.contentLength = false) :
    (t.snoc f).contentLength = t.contentLength := by
  unfold contentLength
  rw [values_snoc, h]
  simp

/-- What one more field line changes in what the head says. -/
theorem unclassified_snoc (t : HeadText) (f : FieldText) :
    (t.snoc f).unclassified =
      { t.unclassified with
        fields := t.unclassified.fields.push f.field
        contentType :=
          if f.field.isNamed Field.contentType then some f.value else t.unclassified.contentType
        contentLength := (t.snoc f).contentLength.getD 0
        contentLengthSeen :=
          t.unclassified.contentLengthSeen || f.field.isNamed Field.contentLength
        keepAlive := t.unclassified.keepAlive &&
          !(f.field.isNamed Field.connection && containsIgnoreCase f.value (.ofString "close")) } := by
  have fields : (t.snoc f).fields = t.fields ++ [f] := rfl
  have same : (t.snoc f).method = t.method ∧ (t.snoc f).path = t.path := ⟨rfl, rfl⟩
  simp only [unclassified, values_snoc, fields, same, Request.mk.injEq, true_and, and_true]
  refine ⟨by simp, ?_, ?_, ?_⟩
  · by_cases h : f.field.isNamed Field.contentType <;> simp [h]
  · by_cases h : f.field.isNamed Field.contentLength <;> simp [h]
  · by_cases h : f.field.isNamed Field.connection <;> simp [h]

/-- A second number is refused, and the first one has to be a number. -/
theorem noteContentLength_eq_ok_iff (named : f.field.isNamed Field.contentLength = true) :
    t.unclassified.noteContentLength f.value = .ok r ↔
      ∃ n, (t.snoc f).contentLength = some n ∧
        r = { t.unclassified with contentLength := n, contentLengthSeen := true } := by
  have values := values_snoc t f Field.contentLength
  rw [named, if_pos rfl] at values
  unfold noteContentLength HeadText.contentLength digitsOf
  rw [values]
  cases hv : t.values Field.contentLength with
  | nil =>
    have unseen : t.unclassified.contentLengthSeen = false := by simp [unclassified, hv]
    simp only [unseen, Bool.false_eq_true, ↓reduceIte, List.nil_append]
    cases Decimal.read? (f.value.takeWhile (· != cr)) with
    | none => simp
    | some n => simp [eq_comm]
  | cons v vs =>
    have seen : t.unclassified.contentLengthSeen = true := by simp [unclassified, hv]
    simp only [seen, ↓reduceIte, reduceCtorEq, false_iff]
    cases vs <;> simp

/-- What a head says with one more field, apart from the field itself. -/
def noted (t : HeadText) (f : FieldText) : Request :=
  { (t.snoc f).unclassified with fields := t.unclassified.fields }

/-- A field that is no number of the body and no encoding of it is always accepted. -/
theorem note_of_harmless (length : f.field.isNamed Field.contentLength = false)
    (encoding : f.field.isNamed Field.transferEncoding = false) :
    t.unclassified.note f.field = .ok (t.noted f) := by
  have number : (t.snoc f).contentLength.getD 0 = t.unclassified.contentLength := by
    rw [contentLength_snoc length]; rfl
  unfold note noted
  rw [unclassified_snoc, number, length, encoding]
  by_cases type : f.field.isNamed Field.contentType = true
  · have connection := not_isNamed type (b := Field.connection) (by decide)
    simp [type, connection]
  · by_cases connection : f.field.isNamed Field.connection = true
    · by_cases close : containsIgnoreCase f.value (.ofString "close") = true <;>
        simp [type, connection, close]
    · simp [type, connection]

/-- Taking note of a field keeps what is noted equal to what the head says. -/
theorem note_eq_ok_iff (h : t.Admissible maxFields) :
    t.unclassified.note f.field = .ok r ↔
      ((t.snoc f).values Field.transferEncoding = [] ∧ (t.snoc f).contentLength.isSome) ∧
        r = t.noted f := by
  by_cases length : f.field.isNamed Field.contentLength = true
  · have type := not_isNamed length (b := Field.contentType) (by decide)
    have connection := not_isNamed length (b := Field.connection) (by decide)
    have encoding := not_isNamed length (b := Field.transferEncoding) (by decide)
    have said : ∀ n, (t.snoc f).contentLength = some n →
        t.noted f = { t.unclassified with contentLength := n, contentLengthSeen := true } := by
      intro n hn
      rw [noted, unclassified_snoc, hn, type, length, connection]
      simp
    rw [note, type, length, if_neg Bool.false_ne_true, if_pos rfl, FieldText.field_value,
      noteContentLength_eq_ok_iff length, Option.isSome_iff_exists]
    constructor
    · rintro ⟨n, hn, rfl⟩
      exact ⟨⟨by simp [values_snoc, encoding, h.encoding], n, hn⟩, (said n hn).symm⟩
    · rintro ⟨⟨-, n, hn⟩, rfl⟩
      exact ⟨n, hn, said n hn⟩
  · rw [Bool.not_eq_true] at length
    by_cases encoding : f.field.isNamed Field.transferEncoding = true
    · have type := not_isNamed encoding (b := Field.contentType) (by decide)
      have connection := not_isNamed encoding (b := Field.connection) (by decide)
      rw [note, type, length, connection, encoding]
      simp [values_snoc, encoding]
    · rw [Bool.not_eq_true] at encoding
      rw [note_of_harmless length encoding, Except.ok.injEq, values_snoc, encoding,
        contentLength_snoc length, h.encoding]
      simp [h.length, eq_comm]

/-- One more field line is accepted exactly if the head with it is, and then the request says what
that head says. -/
theorem addLine_eq_ok_iff (h : t.Admissible maxFields) (hf : f.WellFormed) :
    addLine maxFields t.unclassified f.line = .ok r ↔
      (t.snoc f).Admissible maxFields ∧ r = (t.snoc f).unclassified := by
  have size : t.unclassified.fields.size = t.fields.length := by simp [unclassified]
  have length : (t.snoc f).fields.length = t.fields.length + 1 := by simp [snoc]
  have pushed : { t.noted f with fields := (t.noted f).fields.push f.field } =
      (t.snoc f).unclassified := by
    rw [noted, unclassified_snoc]
  unfold addLine
  rw [size, FieldText.ofLine?_line hf]
  split
  · constructor
    · simp
    · rintro ⟨⟨count, -, -⟩, -⟩
      omega
  · simp only
    split
    · rename_i e refused
      constructor
      · simp
      · rintro ⟨⟨-, encoding, length⟩, -⟩
        have := (note_eq_ok_iff h).2 ⟨⟨encoding, length⟩, rfl⟩
        rw [this] at refused
        cases refused
    · rename_i noted accepted
      obtain ⟨⟨encoding, number⟩, rfl⟩ := (note_eq_ok_iff h).1 accepted
      simp only [Except.ok.injEq, pushed]
      constructor
      · rintro rfl
        exact ⟨⟨by omega, encoding, number⟩, rfl⟩
      · rintro ⟨-, rfl⟩
        rfl

/-- What is accepted with one more field line is accepted without it. -/
theorem Admissible.of_snoc (h : (t.snoc f).Admissible maxFields) : t.Admissible maxFields := by
  obtain ⟨count, encoding, length⟩ := h
  refine ⟨?_, ?_, ?_⟩
  · simp only [snoc, List.length_append, List.length_singleton] at count
    omega
  · rw [values_snoc] at encoding
    exact (List.append_eq_nil_iff.1 encoding).1
  · by_cases named : f.field.isNamed Field.contentLength = true
    · unfold contentLength at length ⊢
      rw [values_snoc, named, if_pos rfl] at length
      cases hv : t.values Field.contentLength with
      | nil => rfl
      | cons v vs =>
        rw [hv] at length
        cases vs <;> simp at length
    · rw [Bool.not_eq_true] at named
      rwa [contentLength_snoc named] at length

/-- The head with other field lines. -/
def withFields (t : HeadText) (fs : List FieldText) : HeadText := { t with fields := fs }

/-- After some field lines the loop holds what the head with these lines says. -/
theorem foldlM_addLine_eq_ok_iff {fs : List FieldText} (h : ∀ f ∈ fs, f.WellFormed) :
    (fs.map FieldText.line).foldlM (addLine maxFields) (t.withFields []).unclassified = .ok r ↔
      (t.withFields fs).Admissible maxFields ∧ r = (t.withFields fs).unclassified := by
  induction fs using List.reverseRecOn generalizing r with
  | nil =>
    have start : (t.withFields []).Admissible maxFields := ⟨Nat.zero_le _, rfl, rfl⟩
    simp only [List.map_nil, List.foldlM_nil, start, true_and]
    exact ⟨fun e => (Except.ok.inj e).symm, fun e => congrArg _ e.symm⟩
  | append_singleton fs f ih =>
    obtain ⟨hfs, hf⟩ := List.forall_mem_append.1 h
    have last : t.withFields (fs ++ [f]) = (t.withFields fs).snoc f := rfl
    rw [last, List.map_append, List.foldlM_append, List.map_singleton]
    cases done : (fs.map FieldText.line).foldlM (addLine maxFields) (t.withFields []).unclassified with
    | error e =>
      constructor
      · intro refused
        cases refused
      · rintro ⟨h, -⟩
        rw [(ih hfs).2 ⟨h.of_snoc, rfl⟩] at done
        cases done
    | ok r' =>
      obtain ⟨accepted, rfl⟩ := (ih hfs).1 done
      rw [← addLine_eq_ok_iff accepted (hf f (List.mem_singleton_self f))]
      change [f.line].foldlM (addLine maxFields) _ = _ ↔ _
      rw [List.foldlM_cons]
      cases addLine maxFields (t.withFields fs).unclassified f.line <;> exact Iff.rfl

end HeadText

/-- Lines that the loop accepts are field lines. -/
theorem exists_fieldTexts {maxFields : Nat} {ls : List Bytes} {r r' : Request}
    (h : ∀ l ∈ ls, IsLine l) (accepted : ls.foldlM (addLine maxFields) r = .ok r') :
    ∃ fs : List FieldText, fs.map FieldText.line = ls ∧ ∀ f ∈ fs, f.WellFormed := by
  induction ls generalizing r with
  | nil => exact ⟨[], rfl, List.forall_mem_nil _⟩
  | cons l ls ih =>
    obtain ⟨hl, hls⟩ := List.forall_mem_cons.1 h
    rw [List.foldlM_cons] at accepted
    cases first : addLine maxFields r l with
    | error e =>
      rw [first] at accepted
      cases accepted
    | ok r₁ =>
      rw [first] at accepted
      obtain ⟨fs, hfs, wellFormed⟩ := ih hls accepted
      have outcome := adding maxFields r l
      rw [first] at outcome
      cases outcome with
      | added room read noted =>
        obtain ⟨f, hf, hw, -⟩ := FieldText.exists_of_ofLine? hl.2 read
        exact ⟨f :: fs, by rw [List.map_cons, hf, hfs], List.forall_mem_cons.2 ⟨hw, wellFormed⟩⟩

/-! ## The whole head -/

/-- Nothing of a request is classified but its path. -/
theorem exists_classify (r : Request) : ∃ path isApi, r.classify = { r with path, isApi } := by
  unfold classify
  split
  · exact ⟨_, _, rfl⟩
  · split <;> exact ⟨_, _, rfl⟩

variable {limits : RequestLimits} {l : Bytes} {ls : List Bytes} {r : Request}

/-- The last look at a request, when all its lines are read. -/
def settle (r : Request) : Except Rejection Request :=
  if r.bodyForbidden then .error .bodyNotAllowed else .ok r.classify

/-- The field lines behind a request line are read one after another, and then one looks at all of
them. -/
def readFields (limits : RequestLimits) (r : Request) (ls : List Bytes) : Except Rejection Request :=
  (ls.foldlM (addLine limits.maxFields) r).bind settle

/-- A head is its request line and what stands behind it. -/
theorem parse_line (whole : ¬ crlf <:+: l) (rest : Bytes) :
    parse limits (l ++ crlf ++ rest) = (ofLine l).bind fun r =>
      if rest = [] then .error .missingRequiredHeaders else readFields limits r (lines rest) := by
  rw [parse, cut?_crlf_line whole]
  simp only
  cases ofLine l with
  | error e => rfl
  | ok r =>
    simp only [Except.bind]
    by_cases nothing : rest = []
    · rw [if_pos nothing, if_pos nothing]
    · rw [if_neg nothing, if_neg nothing, readFields]
      cases (lines rest).foldlM (addLine limits.maxFields) r <;> rfl

namespace HeadText

variable {t t' : HeadText}

theorem WellFormed.separable (h : t.WellFormed limits) : t.Separable :=
  ⟨h.method, h.path, h.separated⟩

theorem WellFormed.admissible (h : t.WellFormed limits) : t.Admissible limits.maxFields :=
  ⟨h.count.2, h.encoding, by obtain ⟨n, hn, -⟩ := h.body; rw [hn]; rfl⟩

theorem render_eq_unlines (t : HeadText) :
    t.render = unlines (t.requestLine :: t.fields.map FieldText.line) := by
  rw [render, unlines_cons, unlines, List.flatMap_map]

theorem WellFormed.isLine (h : t.WellFormed limits) :
    ∀ x ∈ t.fields.map FieldText.line, IsLine x := by
  intro x hx
  obtain ⟨f, hf, rfl⟩ := List.mem_map.1 hx
  exact (h.fields f hf).isLine

/-- A body is forbidden by the last check exactly if the grammar forbids it. -/
theorem bodyForbidden_eq_false_iff {n : Nat} (h : t.contentLength = some n) :
    t.unclassified.bodyForbidden = false ↔
      (n ≠ 0 → ∀ m, Method.ofToken? t.method = some m → m.forbidsBody = false) := by
  have length : t.unclassified.contentLength = n := by rw [unclassified, h, Option.getD_some]
  have method : t.unclassified.knownMethod = Method.ofToken? t.method := rfl
  rw [bodyForbidden, length, method]
  cases Method.ofToken? t.method with
  | none => simp
  | some m => by_cases hn : n = 0 <;> simp [hn]

/-- A well formed head is accepted, and the request says what the head says. -/
theorem WellFormed.parse_render (h : t.WellFormed limits) : parse limits t.render = .ok t.request := by
  have fold := (foldlM_addLine_eq_ok_iff (t := t) h.fields).2 ⟨h.admissible, rfl⟩
  have nonempty : unlines (t.fields.map FieldText.line) ≠ [] := by
    obtain ⟨f, fs, fields⟩ := List.exists_cons_of_ne_nil h.count.1
    simp [fields, crlf]
  obtain ⟨n, number, allowed⟩ := h.body
  have body := (bodyForbidden_eq_false_iff number).2 allowed
  have bare : (t.withFields []).unclassified =
      { method := t.method, path := t.path, version := servedVersion } := rfl
  have all : (t.withFields t.fields).unclassified = t.unclassified := rfl
  rw [bare] at fold
  rw [render_eq_unlines, unlines_cons, parse_line (indexOf?_eq_none_iff.1 h.line),
    h.separable.ofLine_requestLine]
  simp only [Except.bind, if_neg nonempty, lines_unlines h.isLine, readFields, fold]
  rw [all, settle, body]
  rfl

/-- A request that is accepted says what the lines of its head say. Bytes may stand behind these lines
that are not read. -/
theorem exists_of_accepted {head : Bytes} (accepted : parse limits head = .ok r) :
    ∃ (t : HeadText) (rest : Bytes), cut? crlf head = some (t.requestLine, rest) ∧ rest ≠ [] ∧
      t.fields.map FieldText.line = lines rest ∧ t.Separable ∧ (∀ f ∈ t.fields, f.WellFormed) ∧
      t.Admissible limits.maxFields ∧ t.unclassified.bodyForbidden = false ∧ r = t.request := by
  unfold parse at accepted
  split at accepted
  · cases accepted
  · rename_i l rest cut
    split at accepted
    · cases accepted
    · rename_i r₀ first
      obtain ⟨t, rfl, separable, rfl⟩ := exists_of_ofLine first
      split at accepted
      · cases accepted
      · rename_i nonempty
        split at accepted
        · cases accepted
        · rename_i r₁ fold
          obtain ⟨fs, read, wellFormed⟩ := exists_fieldTexts (fun _ => isLine_of_mem_lines) fold
          rw [← read] at fold
          obtain ⟨admissible, rfl⟩ := (foldlM_addLine_eq_ok_iff (t := t) wellFormed).1 fold
          split at accepted
          · cases accepted
          · rename_i body
            cases accepted
            exact ⟨t.withFields fs, rest, cut, nonempty, read,
              ⟨separable.method, separable.path, separable.separated⟩, wellFormed, admissible,
              Bool.not_eq_true _ ▸ body, rfl⟩

/-- A head that is accepted is well formed. -/
theorem exists_of_parse (whole : ¬ crlf <:+: l) (h : ∀ x ∈ ls, IsLine x)
    (accepted : parse limits (unlines (l :: ls)) = .ok r) :
    ∃ t : HeadText, t.render = unlines (l :: ls) ∧ t.WellFormed limits := by
  obtain ⟨t, rest, cut, nonempty, read, separable, wellFormed, admissible, body, -⟩ :=
    exists_of_accepted accepted
  rw [unlines_cons, cut?_crlf_line whole, Option.some.injEq, Prod.mk.injEq] at cut
  obtain ⟨rfl, rfl⟩ := cut
  rw [lines_unlines h] at read
  obtain ⟨n, number⟩ := Option.isSome_iff_exists.1 admissible.length
  refine ⟨t, by rw [render_eq_unlines, read], separable.method, separable.path, separable.separated,
    indexOf?_eq_none_iff.2 whole, ⟨?_, admissible.count⟩, wellFormed, admissible.encoding, n, number,
    (bodyForbidden_eq_false_iff number).1 body⟩
  intro bare
  rw [bare, List.map_nil] at read
  exact nonempty (by rw [← read, unlines_nil])

/-- A head has only one way to be taken apart. -/
theorem WellFormed.eq_of_render_eq (h : t.WellFormed limits) (h' : t'.WellFormed limits)
    (e : t.render = t'.render) : t = t' := by
  rw [render_eq_unlines, render_eq_unlines, unlines_cons, unlines_cons] at e
  have cut := cut?_crlf_line (indexOf?_eq_none_iff.1 h.line) (unlines (t.fields.map FieldText.line))
  rw [e, cut?_crlf_line (indexOf?_eq_none_iff.1 h'.line), Option.some.injEq, Prod.mk.injEq] at cut
  obtain ⟨requestLine, rest⟩ := cut
  obtain ⟨method, before, path, after⟩ :=
    h.separable.eq_of_requestLine_eq h'.separable requestLine.symm
  have sameLines : t.fields.map FieldText.line = t'.fields.map FieldText.line := by
    rw [← lines_unlines h.isLine, ← rest, lines_unlines h'.isLine]
  have fields := FieldText.eq_of_map_line_eq h.fields h'.fields sameLines
  cases t
  cases t'
  simp only [mk.injEq]
  exact ⟨method, before, path, after, fields⟩

end HeadText

/-- What is accepted up to the first empty line is the text of well formed parts. -/
theorem exists_headText {stream : Bytes} {i : Nat} (first : indexOf? blankLine stream = some i)
    (accepted : parse limits (stream.take (i + 2)) = .ok r) :
    ∃ t : HeadText, t.render = stream.take (i + 2) ∧ t.WellFormed limits ∧ r = t.request := by
  obtain ⟨ends, noBlank⟩ := head_of_indexOf? first
  obtain ⟨l, ls, hlines, whole, areLines⟩ := exists_eq_unlines _ ends noBlank
  rw [hlines] at accepted ⊢
  obtain ⟨t, text, wellFormed⟩ := HeadText.exists_of_parse whole areLines accepted
  rw [← text, wellFormed.parse_render, Except.ok.injEq] at accepted
  exact ⟨t, text, wellFormed, accepted.symm⟩

/-- The text up to the first empty line is accepted exactly if it is the text of well formed parts.
These are unique, and the request says what they say. -/
theorem parse_eq_ok_iff_wellFormed {stream : Bytes} {i : Nat}
    (first : indexOf? blankLine stream = some i) (limits : RequestLimits) :
    (∀ r, parse limits (stream.take (i + 2)) = .ok r ↔
      ∃ t : HeadText, t.render = stream.take (i + 2) ∧ t.WellFormed limits ∧ r = t.request) ∧
    ∀ t t' : HeadText, t.WellFormed limits → t'.WellFormed limits →
      t.render = stream.take (i + 2) → t'.render = stream.take (i + 2) → t = t' := by
  obtain ⟨ends, noBlank⟩ := head_of_indexOf? first
  obtain ⟨l, ls, hlines, whole, areLines⟩ := exists_eq_unlines _ ends noBlank
  refine ⟨fun r => ⟨fun accepted => ?_, ?_⟩, fun t t' h h' e e' => h.eq_of_render_eq h' (e.trans e'.symm)⟩
  · rw [hlines] at accepted
    obtain ⟨t, text, wellFormed⟩ := HeadText.exists_of_parse whole areLines accepted
    refine ⟨t, text.trans hlines.symm, wellFormed, ?_⟩
    rw [← text, wellFormed.parse_render, Except.ok.injEq] at accepted
    exact accepted.symm
  · rintro ⟨t, text, wellFormed, rfl⟩
    rw [← text]
    exact wellFormed.parse_render

/-- A head with uneven spaces, a colon in a value and a name in mixed case. -/
def HeadText.sample : HeadText :=
  { method := .ofString "POST", spacesBefore := 2, path := .ofString "/api/echo", spacesAfter := 1
    fields := [⟨.ofString "Host", 1, .ofString "a:b"⟩, ⟨.ofString "content-LENGTH", 3, .ofString "5"⟩] }

/-- The sample followed by a body that holds an empty line itself. -/
def HeadText.sampleStream : Bytes := sample.render ++ crlf ++ .ofString "a\r\n\r\nb"

theorem parse_sampleStream :
    indexOf? blankLine HeadText.sampleStream = some 56 ∧ HeadText.sample.WellFormed {} ∧
      parse {} (HeadText.sampleStream.take 58) = .ok HeadText.sample.request := by
  have allowed : ∀ m, Method.ofToken? HeadText.sample.method = some m → m.forbidsBody = false := by
    have known : Method.ofToken? HeadText.sample.method = some .post := by decide
    intro m hm
    rw [known] at hm
    cases hm
    rfl
  have fields : ∀ f ∈ HeadText.sample.fields, f.WellFormed := by
    intro f hf
    rcases List.mem_pair.1 hf with rfl | rfl <;> exact ⟨by decide, by decide, by decide, by decide, by decide⟩
  have wellFormed : HeadText.sample.WellFormed {} :=
    ⟨by decide, by decide, by decide, by decide, by decide, fields, by decide, 5, by decide,
      fun _ => allowed⟩
  have first : indexOf? blankLine HeadText.sampleStream = some 56 := by decide
  exact ⟨first, wellFormed,
    ((parse_eq_ok_iff_wellFormed first {}).1 _).2 ⟨HeadText.sample, by decide, wellFormed, rfl⟩⟩

end HttpServer.Request
