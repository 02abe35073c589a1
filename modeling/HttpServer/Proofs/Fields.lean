import HttpServer.Proofs.Decimal
import HttpServer.Proofs.HeadLines
/-!
# What the fields of a request say

The fields of an accepted request are kept in order, and some of them are also noted while they are
read. What was noted can be found again in the fields (`noted_of_accepted`), with one exception: of
several fields for the type of the body the last one is noted, and `field?` finds the first.

The size of the body is written in digits (`IsSize`). Any other value is refused where it stands, again
with one exception: a value that begins with a carriage return has no digits at all, and no digits are
zero (`isSize_of_accepted`).
-/
namespace HttpServer

open Bytes

namespace Request

open HeadText (digitsOf)

variable {t : HeadText} {f : FieldText} {r : Request} {limits : RequestLimits} {head value : Bytes}
  {maxFields n : Nat}

/-! ## The size of a body -/

/-- A value that says how large a body is: up to the first carriage return it consists of digits, and
there is at least one. -/
structure IsSize (value : Bytes) (n : Nat) : Prop where
  start : ∃ b, value.head? = some b ∧ Decimal.isDigit b = true
  digits : ∀ b ∈ digitsOf value, Decimal.isDigit b = true
  number : Decimal.value (digitsOf value) = n
  fits : n < Decimal.wordLimit

theorem digitsOf_eq_nil_iff (nonempty : value ≠ []) : digitsOf value = [] ↔ value.head? = some cr := by
  cases value with
  | nil => exact absurd rfl nonempty
  | cons b rest => by_cases h : b = cr <;> simp [digitsOf, h]

/-- A number is read exactly from a value that says how large a body is, if it has digits at all. -/
theorem isSize_iff (nonempty : value ≠ []) :
    IsSize value n ↔ value.head? ≠ some cr ∧ Decimal.read? (digitsOf value) = some n := by
  constructor
  · rintro ⟨⟨b, start, digit⟩, digits, number, fits⟩
    refine ⟨?_, Decimal.read?_eq_some_iff.2 ⟨List.all_eq_true.2 digits, number, fits⟩⟩
    rw [start]
    rintro same
    cases same
    cases digit
  · rintro ⟨start, read⟩
    obtain ⟨digits, number, fits⟩ := Decimal.read?_eq_some_iff.1 read
    rw [List.all_eq_true] at digits
    obtain ⟨b, rest, rfl⟩ := List.exists_cons_of_ne_nil nonempty
    have first : b ∈ digitsOf (b :: rest) := by
      have other : b ≠ cr := fun same => start (by rw [same]; rfl)
      simp [digitsOf, other]
    exact ⟨⟨b, rfl, digits b first⟩, digits, number, fits⟩

/-- The size of the body is read from every field for it, since there is only one. -/
theorem HeadText.read?_of_mem_values (number : t.contentLength = some n)
    (mem : value ∈ t.values Field.contentLength) : Decimal.read? (digitsOf value) = some n := by
  unfold contentLength at number
  split at number
  · rename_i noValues
    rw [noValues] at mem
    cases mem
  · rename_i single
    rw [single] at mem
    rwa [List.mem_singleton.1 mem]
  · cases number

/-- A field for the size of the body that has no number in it is at fault. -/
theorem addLine_of_not_isSize (room : r.fields.size < maxFields) (hf : f.WellFormed)
    (named : f.field.isNamed Field.contentLength = true) (start : f.value.head? ≠ some cr)
    (bad : ∀ n, ¬ IsSize f.value n) :
    addLine maxFields r f.line = .error .invalidContentLength := by
  have type := HeadText.not_isNamed named (b := Field.contentType) (by decide)
  have unread : Decimal.read? (f.value.takeWhile (· != cr)) = none := by
    cases read : Decimal.read? (f.value.takeWhile (· != cr)) with
    | none => rfl
    | some n => exact absurd ((isSize_iff hf.2.2.1).2 ⟨start, read⟩) (bad n)
  have noted : r.note f.field = .error .invalidContentLength := by
    rw [note, type, named, if_neg Bool.false_ne_true, if_pos rfl, noteContentLength,
      FieldText.field_value, unread]
    split <;> rfl
  rw [addLine, if_neg (Nat.not_le.2 room), FieldText.ofLine?_line hf]
  simp only [noted]

/-! ## Fields by their names -/

/-- The values of the fields with this name, up to case, in order. -/
def values (r : Request) (name : Bytes) : List Bytes :=
  (r.fields.toList.filter (·.isNamed name)).map (·.value)

/-- The look-up of a name finds the first of the values. -/
theorem field?_eq_head? (r : Request) (name : Bytes) : r.field? name = (r.values name).head? := by
  rw [field?, values, List.head?_map, List.head?_filter, Array.find?_toList]

theorem mem_values {field : Field} {name : Bytes} (hf : field ∈ r.fields)
    (named : field.isNamed name = true) : field.value ∈ r.values name :=
  List.mem_map_of_mem (List.mem_filter.2 ⟨Array.mem_def.1 hf, named⟩)

/-- Names that differ in case only have the same values. -/
theorem values_congr {name name' : Bytes} (same : eqIgnoreCase name name' = true) (r : Request) :
    r.values name = r.values name' := by
  rw [eqIgnoreCase, beq_iff_eq] at same
  simp only [values, Field.isNamed, eqIgnoreCase, same]

@[simp] theorem HeadText.values_unclassified (t : HeadText) (name : Bytes) :
    t.unclassified.values name = t.values name := by
  simp [Request.values, HeadText.values, unclassified, List.filter_map, Function.comp_def]

/-- What is noted of the fields, by their values. -/
structure Noted (r : Request) : Prop where
  contentType : r.contentType = (r.values Field.contentType).getLast?
  seen : r.contentLengthSeen = true ↔ r.values Field.contentLength ≠ []
  unseen : r.values Field.contentLength = [] → r.contentLength = 0
  length : ∀ value ∈ r.values Field.contentLength,
    value ≠ [] ∧ Decimal.read? (digitsOf value) = some r.contentLength
  keepAlive : r.values Field.connection = [] → r.keepAlive = true

theorem Noted.classify (h : r.Noted) : r.classify.Noted := by
  obtain ⟨path, isApi, classified⟩ := r.exists_classify
  rw [classified]
  exact ⟨h.contentType, h.seen, h.unseen, h.length, h.keepAlive⟩

/-- An accepted request notes what its fields say. -/
theorem noted_of_accepted (accepted : parse limits head = .ok r) : r.Noted := by
  obtain ⟨t, -, -, -, -, -, wellFormed, admissible, -, rfl⟩ := HeadText.exists_of_accepted accepted
  obtain ⟨n, number⟩ := Option.isSome_iff_exists.1 admissible.length
  have length : t.unclassified.contentLength = n := by
    rw [HeadText.unclassified, number, Option.getD_some]
  refine Noted.classify ⟨?_, ?_, fun absent => ?_, fun value mem => ?_, fun absent => ?_⟩
  · rw [t.values_unclassified]
    rfl
  · rw [t.values_unclassified]
    simp [HeadText.unclassified]
  · rw [t.values_unclassified] at absent
    rw [HeadText.contentLength, absent] at number
    rw [length, ← Option.some.inj number]
  · rw [t.values_unclassified] at mem
    obtain ⟨f, hf, rfl⟩ := List.mem_map.1 mem
    rw [length]
    exact ⟨(wellFormed f (List.mem_of_mem_filter hf)).2.2.1, HeadText.read?_of_mem_values number mem⟩
  · rw [t.values_unclassified] at absent
    simp [HeadText.unclassified, absent]

/-- In an accepted head the field for the size of the body has a number in it, and that number is used,
unless its value begins with a carriage return, which counts as zero. Any other value without a number
is refused where it stands, if no line before it is at fault and there is room for one more. -/
theorem isSize_of_accepted (limits : RequestLimits) :
    (∀ head r, parse limits head = .ok r →
      ∀ f ∈ r.fields, f.isNamed Field.contentLength = true →
        (f.value.head? ≠ some cr → IsSize f.value r.contentLength) ∧
        (f.value.head? = some cr → r.contentLength = 0 ∧ ∀ n, ¬ IsSize f.value n)) ∧
    ∀ (l : Bytes) (ls : List Bytes) (f : FieldText) (rest : Bytes), ¬ crlf <:+: l →
      (∀ x ∈ ls, IsLine x) → ls.length < limits.maxFields →
      (∀ e, parse limits (unlines (l :: ls)) = .error e →
        e = .missingRequiredHeaders ∨ e = .bodyNotAllowed) →
      f.WellFormed → f.field.isNamed Field.contentLength = true → f.value.head? ≠ some cr →
      (∀ n, ¬ IsSize f.value n) →
      parse limits (unlines (l :: ls) ++ f.line ++ crlf ++ rest) = .error .invalidContentLength := by
  refine ⟨fun head r accepted f hf named => ?_, ?_⟩
  · obtain ⟨nonempty, read⟩ := (noted_of_accepted accepted).length _ (mem_values hf named)
    refine ⟨fun start => (isSize_iff nonempty).2 ⟨start, read⟩, fun start => ⟨?_, fun n size => ?_⟩⟩
    · rw [(digitsOf_eq_nil_iff nonempty).2 start] at read
      exact (Option.some.inj read).symm
    · exact ((isSize_iff nonempty).1 size).1 start
  · intro l ls f rest whole areLines room harmless hf named start bad
    rcases parse_unlines_cases limits whole areLines with ⟨e, line, fault⟩ | ⟨r, -, size, -, go_on⟩
    · have here := fault []
      rw [List.append_nil] at here
      rcases harmless e here with rfl | rfl <;> cases line
    · have next : lines (f.line ++ (crlf ++ rest)) = [f.line] ++ lines rest := by
        have read := lines_unlines_append (List.forall_mem_singleton.2 hf.isLine) rest
        rwa [unlines_cons, unlines_nil, List.append_nil, List.append_assoc] at read
      have nonempty : f.line ++ (crlf ++ rest) ≠ [] := by simp [crlf]
      have refused := addLine_of_not_isSize (size ▸ room) hf named start bad
      rw [List.append_assoc, List.append_assoc, go_on _ (.inr nonempty), next, readFields_append,
        List.foldlM_cons, refused]
      rfl

/-- A number with bytes behind a carriage return. -/
def sampleCut : Bytes := ofString "POST / HTTP/1.1\r\ncontent-LENGTH: 5\rx\r\n"

/-- A field for the size of the body without a number in it. -/
def sampleField : FieldText := ⟨ofString "Content-Length", 1, ofString "5x"⟩

theorem isSize_sampleCut :
    (∃ r, parse {} sampleCut = .ok r ∧ r.contentLength = 5 ∧ IsSize (ofString "5\rx") 5) ∧
      parse {} (unlines [ofString "POST / HTTP/1.1", ofString "A: b"] ++ sampleField.line ++ crlf ++
        ofString "C: d\r\n") = .error .invalidContentLength := by
  obtain ⟨counted, refused⟩ := isSize_of_accepted {}
  refine ⟨?_, ?_⟩
  · obtain ⟨r, accepted, size, fields⟩ : ∃ r, parse {} sampleCut = .ok r ∧ r.contentLength = 5 ∧
        r.fields = #[⟨ofString "content-LENGTH", ofString "5\rx"⟩] := ⟨_, rfl, rfl, rfl⟩
    have isSize := (counted _ r accepted ⟨ofString "content-LENGTH", ofString "5\rx"⟩
      (by rw [fields]; simp) (by decide)).1 (by decide)
    rw [size] at isSize
    exact ⟨r, accepted, size, isSize⟩
  · have wellFormed : sampleField.WellFormed := ⟨by decide, by decide, by decide, by decide, by decide⟩
    have bad (n : Nat) : ¬ IsSize sampleField.value n := by
      rw [isSize_iff (by decide)]
      rintro ⟨-, read⟩
      cases read
    refine refused _ _ _ _ (not_crlf_infix_of_not_mem (.inl (by decide))) ?_ (by decide) ?_ wellFormed
      (by decide) (by decide) bad
    · exact List.forall_mem_singleton.2 ⟨by decide, not_crlf_infix_of_not_mem (.inl (by decide))⟩
    · intro e refused
      cases refused

/-- A value that begins with a carriage return is no number, and the head is accepted. -/
theorem not_isSize_sampleBare :
    ∃ r, parse {} (ofString "POST / HTTP/1.1\r\nContent-Length: \r5\r\n") = .ok r ∧
      r.contentLength = 0 ∧ r.fields = #[⟨ofString "Content-Length", ofString "\r5"⟩] ∧
      ∀ n, ¬ IsSize (ofString "\r5") n := by
  refine ⟨_, rfl, rfl, rfl, fun n size => ?_⟩
  rw [isSize_iff (by decide)] at size
  exact size.1 rfl

/-- What an accepted request tells of its own accord agrees with a look-up in its fields, in whatever
case names are spelled and in whatever order lines stand; but of several fields for the type of the body
the last one is told, and a look-up finds the first. -/
theorem accessors_of_accepted (accepted : parse limits head = .ok r) (name : Bytes) :
    (eqIgnoreCase name Field.contentType = true →
      r.contentType = (r.values name).getLast? ∧
      (r.contentType = r.field? name ↔ (r.values name).head? = (r.values name).getLast?)) ∧
    (eqIgnoreCase name Field.contentLength = true →
      (r.contentLengthSeen = true ↔ r.field? name ≠ none) ∧
      (r.field? name = none → r.contentLength = 0) ∧
      ∀ value, r.field? name = some value →
        Decimal.read? (digitsOf value) = some r.contentLength) ∧
    (eqIgnoreCase name Field.connection = true → r.field? name = none → r.keepAlive = true) := by
  have noted := noted_of_accepted accepted
  refine ⟨fun same => ?_, fun same => ?_, fun same absent => ?_⟩
  · rw [field?_eq_head?, values_congr same, noted.contentType]
    exact ⟨rfl, eq_comm⟩
  · rw [field?_eq_head?, values_congr same]
    refine ⟨?_, fun absent => noted.unseen (List.head?_eq_none_iff.1 absent), fun value first => ?_⟩
    · rw [noted.seen, Ne, Ne, List.head?_eq_none_iff]
    · exact (noted.length value (List.mem_of_head? first)).2
  · rw [field?_eq_head?, values_congr same] at absent
    exact noted.keepAlive (List.head?_eq_none_iff.1 absent)

/-- One field for the type of the body, in mixed case, and none for its size. -/
def sampleTyped : Bytes := ofString "POST / HTTP/1.1\r\nA: b\r\ncontent-TYPE: text/html\r\n"

theorem accessors_sampleTyped :
    ∃ r, parse {} sampleTyped = .ok r ∧ r.contentType = some (ofString "text/html") ∧
      r.contentType = r.field? (ofString "Content-Type") ∧
      r.contentLength = 0 ∧ r.contentLengthSeen = false ∧ r.keepAlive = true := by
  obtain ⟨r, accepted, fields⟩ : ∃ r, parse {} sampleTyped = .ok r ∧
    r.fields = #[⟨ofString "A", ofString "b"⟩, ⟨ofString "content-TYPE", ofString "text/html"⟩] :=
      ⟨_, rfl, rfl⟩
  have values : r.values (ofString "Content-Type") = [ofString "text/html"] := by
    rw [Request.values, fields]
    rfl
  have uncounted : r.field? (ofString "CONTENT-length") = none := by
    rw [field?, fields]
    rfl
  have unconnected : r.field? (ofString "connection") = none := by
    rw [field?, fields]
    rfl
  obtain ⟨type, alike⟩ := (accessors_of_accepted accepted (ofString "Content-Type")).1 (by decide)
  obtain ⟨seen, unseen, -⟩ :=
    (accessors_of_accepted accepted (ofString "CONTENT-length")).2.1 (by decide)
  have keepAlive := (accessors_of_accepted accepted (ofString "connection")).2.2 (by decide)
  refine ⟨r, accepted, ?_, alike.2 ?_, unseen uncounted, ?_, keepAlive unconnected⟩
  · rw [type, values]
    rfl
  · rw [values]
    rfl
  · rw [← Bool.not_eq_true, seen, uncounted]
    exact absurd rfl

/-- Of two fields for the type of the body the second one is told, and a look-up finds the first. -/
theorem contentType_ne_field?_sampleTwice :
    ∃ r, parse {} (ofString
        "GET / HTTP/1.1\r\nContent-Type: text/html\r\ncontent-type: text/plain\r\n") = .ok r ∧
      r.contentType = some (ofString "text/plain") ∧
      r.field? (ofString "content-type") = some (ofString "text/html") ∧
      r.contentType ≠ r.field? (ofString "content-type") := by
  refine ⟨_, rfl, rfl, rfl, ?_⟩
  decide

end Request
end HttpServer
