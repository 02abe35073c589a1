import HttpServer.Proofs.Search
import HttpServer.StaticFile
/-!
# The type of a file by the end of its path

The name of a file is what stands behind the last slash of its path, and its extension what stands
behind the last dot of the name. An extension without a dot or a slash of its own is the extension of a
path exactly if the path ends with it behind a dot, wherever else dots and slashes stand
(`extension?_eq_some_iff`). All extensions of the table are of that kind, so the two searches and the
look-up come to a test of how the path ends (`contentType_eq_iff_suffix`).
-/
namespace HttpServer.StaticFile

open Bytes

variable {b : UInt8} {s rest name extension type path : Bytes}

/-! ## Last occurrences -/

theorem afterLast?_append (absent : b ∉ rest) (before : Bytes) :
    afterLast? b (before ++ b :: rest) = some rest := by
  have stands : (before ++ b :: rest).contains b = true := by simp
  have reversed : (before ++ b :: rest).reverse = rest.reverse ++ b :: before.reverse := by simp
  rw [afterLast?, if_pos stands, reversed, takeWhile_word (by simpa using absent),
    List.reverse_reverse]

theorem afterLast?_eq_none_iff : afterLast? b s = none ↔ b ∉ s := by
  simp [afterLast?]

/-- What is found is the end of `s` behind its last `b`. -/
theorem afterLast?_eq_some_iff : afterLast? b s = some rest ↔ b :: rest <:+ s ∧ b ∉ rest := by
  constructor
  · intro found
    have mem : b ∈ s := by
      by_contra absent
      rw [afterLast?_eq_none_iff.2 absent] at found
      cases found
    obtain ⟨before, last, rfl, absent⟩ := exists_last mem
    rw [afterLast?_append absent] at found
    cases found
    exact ⟨List.suffix_append _ _, absent⟩
  · rintro ⟨⟨before, rfl⟩, absent⟩
    exact afterLast?_append absent before

/-! ## Names and extensions -/

/-- The name of a file: the last segment of its path. -/
def fileName (path : Bytes) : Bytes := (afterLast? slash path).getD path

/-- The extension of a file: the end of its name behind the last dot. -/
def extension? (path : Bytes) : Option Bytes := afterLast? 0x2e (fileName path)

theorem fileName_of_not_mem (absent : slash ∉ path) : fileName path = path := by
  rw [fileName, afterLast?_eq_none_iff.2 absent, Option.getD_none]

theorem fileName_append (absent : slash ∉ name) (directory : Bytes) :
    fileName (directory ++ slash :: name) = name := by
  rw [fileName, afterLast?_append absent, Option.getD_some]

/-- The name is the last of the pieces between the slashes. -/
theorem getLast?_pieces (path : Bytes) : (pieces slash path).getLast? = some (fileName path) := by
  by_cases mem : slash ∈ path
  · obtain ⟨directory, name, rfl, absent⟩ := exists_last mem
    rw [fileName_append absent, pieces_append_cons, pieces_of_not_mem absent, List.getLast?_concat]
  · rw [fileName_of_not_mem mem, pieces_of_not_mem mem, List.getLast?_singleton]

theorem slash_not_mem_fileName (path : Bytes) : slash ∉ fileName path :=
  not_mem_of_mem_pieces _ (List.mem_of_getLast? (getLast?_pieces path))

/-- Nothing in front of a slash belongs to the name, be there dots or not. -/
theorem fileName_append_cons (directory path : Bytes) :
    fileName (directory ++ slash :: path) = fileName path := by
  have last := getLast?_pieces (directory ++ slash :: path)
  rw [pieces_append_cons, List.getLast?_append_of_ne_nil _ (pieces_ne_nil _ _),
    getLast?_pieces] at last
  exact (Option.some.inj last).symm

/-- What has no slash ends the name exactly if it ends the path. -/
theorem suffix_fileName_iff (clean : slash ∉ s) : s <:+ fileName path ↔ s <:+ path := by
  by_cases mem : slash ∈ path
  · obtain ⟨directory, name, rfl, absent⟩ := exists_last mem
    rw [fileName_append absent]
    constructor
    · intro ends
      exact (ends.trans (List.suffix_cons _ _)).trans (List.suffix_append _ _)
    · intro ends
      -- of two ends of one path, the shorter one ends the longer one
      rcases List.suffix_or_suffix_of_suffix ends (List.suffix_append directory (slash :: name)) with
        inside | outside
      · rcases List.suffix_cons_iff.1 inside with rfl | inside
        · exact absurd List.mem_cons_self clean
        · exact inside
      · exact absurd (outside.subset List.mem_cons_self) clean
  · rw [fileName_of_not_mem mem]

/-- The two searches, one inside what the other found, are one test of the end of the path. -/
theorem extension?_eq_some_iff (clean : slash ∉ extension) :
    extension? path = some extension ↔ 0x2e :: extension <:+ path ∧ 0x2e ∉ extension := by
  have clean' : slash ∉ 0x2e :: extension := List.not_mem_cons_of_ne_of_not_mem (by decide) clean
  rw [extension?, afterLast?_eq_some_iff, suffix_fileName_iff clean']

/-! ## Types -/

theorem contentType_eq_lookup (path : Bytes) :
    contentType path = ((extension? path).bind fun e => knownTypes.lookup e).getD unknownType := by
  rw [contentType, extension?, fileName]
  cases afterLast? 0x2e ((afterLast? slash path).getD path) <;> rfl

/-- The directory does not matter. -/
theorem contentType_append_cons (directory path : Bytes) :
    contentType (directory ++ slash :: path) = contentType path := by
  rw [contentType_eq_lookup, contentType_eq_lookup, extension?, extension?, fileName_append_cons]

theorem contentType_fileName (path : Bytes) : contentType (fileName path) = contentType path := by
  rw [contentType_eq_lookup, contentType_eq_lookup, extension?, extension?,
    fileName_of_not_mem (slash_not_mem_fileName path)]

/-- No extension of the table has a dot or a slash, and no type in it is that of unknown files. -/
theorem plain_of_mem_knownTypes :
    ∀ entry ∈ knownTypes, 0x2e ∉ entry.1 ∧ slash ∉ entry.1 ∧ entry.2 ≠ unknownType := by
  decide

/-- Every entry of the table is found. -/
theorem lookup_of_mem_knownTypes :
    ∀ entry ∈ knownTypes, knownTypes.lookup entry.1 = some entry.2 := by
  decide

/-- Different extensions have different types. -/
theorem extension_of_type : ∀ entry ∈ knownTypes, ∀ other ∈ knownTypes,
    entry.2 = other.2 → entry.1 = other.1 := by
  decide

/-- A type is that of unknown files, or it stands in the table with the extension of the path. -/
theorem contentType_cases (path : Bytes) :
    contentType path = unknownType ∨
      ∃ entry ∈ knownTypes, extension? path = some entry.1 ∧ contentType path = entry.2 := by
  rw [contentType_eq_lookup]
  cases found : extension? path with
  | none => exact .inl rfl
  | some extension =>
    rw [Option.bind_some]
    cases listed : knownTypes.lookup extension with
    | none => exact .inl rfl
    | some type =>
      obtain ⟨before, after, table, -⟩ := List.lookup_eq_some_iff.1 listed
      have known : (extension, type) ∈ knownTypes := by
        rw [table]
        exact List.mem_append_right _ List.mem_cons_self
      exact .inr ⟨(extension, type), known, rfl, rfl⟩

/-- A path has the type of an entry exactly if it ends as the entry says. -/
theorem contentType_eq_iff_of_mem (known : (extension, type) ∈ knownTypes) (path : Bytes) :
    contentType path = type ↔ 0x2e :: extension <:+ path := by
  obtain ⟨noDot, noSlash, special⟩ := plain_of_mem_knownTypes _ known
  constructor
  · intro same
    rcases contentType_cases path with unknown | ⟨entry, known', found, listed⟩
    · exact absurd (same.symm.trans unknown) special
    · have one : entry.1 = extension := extension_of_type _ known' _ known (listed.symm.trans same)
      rw [one] at found
      exact ((extension?_eq_some_iff noSlash).1 found).1
  · intro ends
    rw [contentType_eq_lookup, (extension?_eq_some_iff noSlash).2 ⟨ends, noDot⟩, Option.bind_some,
      lookup_of_mem_knownTypes _ known, Option.getD_some]

theorem contentType_eq_unknownType_iff :
    contentType path = unknownType ↔ ∀ entry ∈ knownTypes, ¬ 0x2e :: entry.1 <:+ path := by
  constructor
  · intro unknown entry known ends
    have listed := (contentType_eq_iff_of_mem known path).2 ends
    exact (plain_of_mem_knownTypes _ known).2.2 (listed.symm.trans unknown)
  · intro unmatched
    rcases contentType_cases path with unknown | ⟨entry, known, -, listed⟩
    · exact unknown
    · exact absurd ((contentType_eq_iff_of_mem known path).1 listed) (unmatched entry known)

/-- A name without a dot has no extension, whatever the directories above it are called. -/
theorem contentType_of_not_mem (absent : 0x2e ∉ fileName path) : contentType path = unknownType := by
  rw [contentType_eq_lookup, extension?, afterLast?_eq_none_iff.2 absent, Option.bind_none,
    Option.getD_none]

/-- The type of a file is decided by how its path ends, byte for byte. So the name alone decides it,
the last of the pieces between slashes: a directory in front changes nothing, and a name without a dot
has no type of its own, however many dots its directories have. -/
theorem contentType_eq_iff_suffix (path : Bytes) :
    (contentType path = ofString "text/html" ↔ ofString ".html" <:+ path) ∧
    (contentType path = ofString "text/css" ↔ ofString ".css" <:+ path) ∧
    (contentType path = ofString "application/javascript" ↔ ofString ".js" <:+ path) ∧
    (contentType path = ofString "image/png" ↔ ofString ".png" <:+ path) ∧
    (contentType path = ofString "application/octet-stream" ↔
      ∀ ending ∈ [".html", ".css", ".js", ".png"], ¬ ofString ending <:+ path) ∧
    (∃ name, (pieces slash path).getLast? = some name ∧ contentType path = contentType name ∧
      (0x2e ∉ name → contentType path = ofString "application/octet-stream")) ∧
    ∀ directory, contentType (directory ++ slash :: path) = contentType path := by
  have html : (ofString "html", ofString "text/html") ∈ knownTypes := by decide
  have css : (ofString "css", ofString "text/css") ∈ knownTypes := by decide
  have js : (ofString "js", ofString "application/javascript") ∈ knownTypes := by decide
  have png : (ofString "png", ofString "image/png") ∈ knownTypes := by decide
  refine ⟨contentType_eq_iff_of_mem html path, contentType_eq_iff_of_mem css path,
    contentType_eq_iff_of_mem js path, contentType_eq_iff_of_mem png path,
    contentType_eq_unknownType_iff.trans ?_, ⟨fileName path, getLast?_pieces path, ?_, ?_⟩, ?_⟩
  · have endings :
        knownTypes.map (0x2e :: ·.1) = [".html", ".css", ".js", ".png"].map ofString := by decide
    calc (∀ entry ∈ knownTypes, ¬ 0x2e :: entry.1 <:+ path)
        ↔ ∀ ending ∈ knownTypes.map (0x2e :: ·.1), ¬ ending <:+ path := by
          rw [List.forall_mem_map]
      _ ↔ ∀ ending ∈ [".html", ".css", ".js", ".png"], ¬ ofString ending <:+ path := by
          rw [endings, List.forall_mem_map]
  · exact (contentType_fileName path).symm
  · exact contentType_of_not_mem
  · intro directory
    exact contentType_append_cons directory path

theorem contentType_sampleDirectories :
    contentType (ofString "/v1.2/.html") = ofString "text/html" ∧
    (pieces slash (ofString "site.html/v2.css/README")).getLast? = some (ofString "README") ∧
    0x2e ∉ ofString "README" ∧
    contentType (ofString "site.html/v2.css/README") = ofString "application/octet-stream" := by
  obtain ⟨html, -⟩ := contentType_eq_iff_suffix (ofString "/v1.2/.html")
  obtain ⟨-, -, -, -, -, ⟨name, last, -, plain⟩, -⟩ :=
    contentType_eq_iff_suffix (ofString "site.html/v2.css/README")
  have readme :
      (pieces slash (ofString "site.html/v2.css/README")).getLast? = some (ofString "README") := by
    decide
  have clean : 0x2e ∉ ofString "README" := by decide
  obtain rfl : name = ofString "README" := Option.some.inj (last.symm.trans readme)
  exact ⟨html.2 (by decide), readme, clean, plain clean⟩

/-- Capitals are other bytes, a name may be all extension, and the last dot may have nothing behind it. -/
example : ["LOGO.PNG", ".html", "app.min.js", "archive.js.gz", "trailing."].map
      (fun path => contentType (ofString path)) =
    [unknownType, ofString "text/html", ofString "application/javascript", unknownType,
      unknownType] := by
  decide

end HttpServer.StaticFile
