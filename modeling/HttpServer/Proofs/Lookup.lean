import HttpServer.Proofs.Confinement
import HttpServer.Proofs.ContentType
/-!
# Serving a path is looking up its segments

In a tree without links a walk along ordinary segments arrives where they lead, or fails with the first
obstacle on the way, and one of the two is the case (`Leads.descend`, `Obstacle.descend`,
`leads_or_obstacle`). So what is served for a normal path is decided by its segments: the file that they
lead to, or a status for the obstacle (`serve_eq_lookup`).
-/
namespace HttpServer

open Bytes

namespace Tree

variable {privileged readable searchable : Bool} {node leaf : Node} {entries : List (Bytes × Node)}
  {segment path : Bytes} {names : List Bytes} {e : SystemError}

/-! ## Walks along ordinary segments -/

/-- In a directory that may be searched, an ordinary segment is looked up. -/
theorem descend_search (free : LinkFree (.directory readable entries searchable))
    (ordinary : Path.Ordinary segment) (may : searchable = true ∨ privileged = true)
    (short : segment.length ≤ maxName) (names : List Bytes) (above : List Node) :
    descend privileged (segment :: names) ⟨.directory readable entries searchable, above⟩ =
      match entries.lookup segment with
      | none => .error .noEntry
      | some child =>
        descend privileged names ⟨child, .directory readable entries searchable :: above⟩ := by
  have permitted : (searchable || privileged) = true := by simpa using may
  rw [descend_cons free ordinary.2.2]
  simp only [permitted, Bool.not_true, Bool.false_eq_true, if_false, if_neg ordinary.2.1,
    if_neg (Nat.not_lt.2 short)]
  rfl

/-- A walk arrives where the segments lead. -/
theorem Leads.descend (way : Leads privileged node names leaf) (free : LinkFree node)
    (ordinary : ∀ name ∈ names, Path.Ordinary name) (above : List Node) :
    ∃ above', Tree.descend privileged names ⟨node, above⟩ = .ok (.arrived ⟨leaf, above'⟩) := by
  induction way generalizing above with
  | here node => exact ⟨above, rfl⟩
  | @down readable searchable entries segment rest child leaf may short entry way ih =>
    obtain ⟨first, ordinary⟩ := List.forall_mem_cons.1 ordinary
    rw [descend_search free first may short, entry]
    apply ih (free.lookup entry) ordinary

/-- A walk fails with the first obstacle on the way. -/
theorem Obstacle.descend (h : Obstacle privileged node names e) (free : LinkFree node)
    (ordinary : ∀ name ∈ names, Path.Ordinary name) (above : List Node) :
    Tree.descend privileged names ⟨node, above⟩ = .error e := by
  induction h generalizing above with
  | @notDirectory node segment rest h =>
    cases node with
    | directory readable entries searchable => exact absurd rfl (h readable entries searchable)
    | _ => rfl
  | denied unprivileged =>
    obtain ⟨first, ordinary⟩ := List.forall_mem_cons.1 ordinary
    rw [descend_cons free first.2.2, unprivileged]
    rfl
  | @tooLong readable searchable entries segment rest may long =>
    obtain ⟨first, ordinary⟩ := List.forall_mem_cons.1 ordinary
    have permitted : (searchable || privileged) = true := by simpa using may
    rw [descend_cons free first.2.2]
    simp only [permitted, Bool.not_true, Bool.false_eq_true, if_false, if_neg first.2.1, if_pos long]
  | missing may short missing =>
    obtain ⟨first, ordinary⟩ := List.forall_mem_cons.1 ordinary
    rw [descend_search free first may short, missing]
  | further may short entry h ih =>
    obtain ⟨first, ordinary⟩ := List.forall_mem_cons.1 ordinary
    rw [descend_search free first may short, entry]
    apply ih (free.lookup entry) ordinary

/-- Segments lead to a node, or there is an obstacle on the way. -/
theorem leads_or_obstacle (privileged : Bool) (node : Node) (names : List Bytes) :
    (∃ leaf, Leads privileged node names leaf) ∨ ∃ e, Obstacle privileged node names e := by
  induction names generalizing node with
  | nil => exact .inl ⟨node, .here node⟩
  | cons segment rest ih =>
    cases node with
    | directory readable entries searchable =>
      by_cases may : searchable = true ∨ privileged = true
      · by_cases short : segment.length ≤ maxName
        · cases entry : entries.lookup segment with
          | none => exact .inr ⟨_, .missing may short entry⟩
          | some child =>
            rcases ih child with ⟨leaf, way⟩ | ⟨e, h⟩
            · exact .inl ⟨leaf, .down may short entry way⟩
            · exact .inr ⟨e, .further may short entry h⟩
        · exact .inr ⟨_, .tooLong may (Nat.lt_of_not_le short)⟩
      · have closed : searchable = false ∧ privileged = false := by simpa using may
        obtain ⟨rfl, unprivileged⟩ := closed
        exact .inr ⟨_, .denied unprivileged⟩
    | _ => exact .inr ⟨_, .notDirectory (by intro readable entries searchable h; cases h)⟩

/-- What an obstacle can be. -/
theorem Obstacle.mem (h : Obstacle privileged node names e) :
    e ∈ [SystemError.noEntry, .notDirectory, .accessDenied, .nameTooLong] := by
  induction h with
  | further may short entry h ih => exact ih
  | _ => simp

/-- Nothing that segments lead to has links if the start has none. -/
theorem LinkFree.leads (free : LinkFree node) (way : Leads privileged node names leaf) :
    LinkFree leaf := by
  induction way with
  | here node => exact free
  | down may short entry way ih => exact ih (free.lookup entry)

/-! ## Opening -/

/-- A path of admissible length that names no link on its way leads where its components do. -/
theorem walk_of_descend {start : Place} (result : Except SystemError Place) (nonempty : path ≠ [])
    (relative : isAbsolute path = false) (short : path.length < maxPath)
    (h : descend privileged (components path) start = result.map .arrived) :
    walk privileged path start = result := by
  rw [walk, if_neg (Nat.not_le.2 short), if_neg nonempty, relative, follow]
  simp only [Bool.false_eq_true, if_false, h]
  cases result <;> rfl

/-- The components of a path are its pieces if none of them is empty. -/
theorem components_of_pieces (nonempty : ∀ piece ∈ pieces slash path, piece ≠ []) :
    components path = pieces slash path := by
  have last : path.getLast? ≠ some slash := by
    intro ends
    obtain ⟨before, rfl⟩ := List.getLast?_eq_some_iff.1 ends
    rw [pieces_append_cons] at nonempty
    exact nonempty [] (List.mem_append_right _ (List.mem_singleton_self [])) rfl
  unfold components
  simp only [if_neg last]
  rw [List.filter_eq_self]
  intro piece hp
  simpa using nonempty piece hp

/-- What opening a node comes to that a walk has led to. -/
def openLeaf (privileged : Bool) (leaf : Node) (above : List Node) : Except SystemError Place :=
  if leaf.readable = true ∨ privileged = true then
    match leaf with
    | .socket _ => .error .noDevice
    | _ => .ok ⟨leaf, above⟩
  else .error .accessDenied

theorem openAt_of_walk {start : Place} {above : List Node}
    (h : walk privileged path start = .ok ⟨leaf, above⟩) :
    openAt privileged path start = openLeaf privileged leaf above := by
  unfold openAt openLeaf
  rw [h]
  by_cases may : leaf.readable = true ∨ privileged = true
  · have permitted : (leaf.readable || privileged) = true := by simpa using may
    simp only [permitted, if_pos may]
    cases leaf <;> rfl
  · have closed : (leaf.readable || privileged) = false := by simpa using may
    simp only [closed, if_neg may]
    rfl

end Tree

/-! ## Normal paths -/

namespace StaticFile

/-- The path with the index file in place of the root itself. -/
def indexed (path : Bytes) : Bytes := if path = [slash] then slash :: indexFile else path

/-- The segments that a normal path asks for: what stands behind its slashes. -/
def segments (path : Bytes) : List Bytes := (pieces slash (indexed path)).tail

variable {root : DocumentRoot} {path source : Bytes}

theorem indexed_of_isNormal (h : Path.IsNormal path) : indexed path = slash :: relativePath path := by
  obtain ⟨stack, ordinary, rfl⟩ := h
  cases stack with
  | nil => rfl
  | cons s rest =>
    obtain ⟨⟨nonempty, -⟩, -⟩ := ordinary s (List.mem_cons_self ..)
    obtain ⟨b, s, rfl⟩ := List.exists_cons_of_ne_nil nonempty
    have long : Path.joined ((b :: s) :: rest) ≠ [slash] := by simp [Path.joined]
    rw [indexed, if_neg long]
    rfl

theorem segments_of_isNormal (h : Path.IsNormal path) :
    segments path = pieces slash (relativePath path) := by
  rw [segments, indexed_of_isNormal h, pieces_cons_self, List.tail_cons]

theorem zero_mem_relativePath (h : Path.IsNormal path) : 0 ∈ relativePath path ↔ 0 ∈ path := by
  have same : 0 ∈ indexed path ↔ 0 ∈ relativePath path := by
    rw [indexed_of_isNormal h]
    simp [slash]
  rw [← same, indexed]
  split
  · rename_i top
    rw [top]
    decide
  · rfl

theorem length_relativePath_lt (h : Path.IsNormal path) (short : path.tail.length < Tree.maxPath) :
    (relativePath path).length < Tree.maxPath := by
  have same : relativePath path = (indexed path).tail := by rw [indexed_of_isNormal h, List.tail_cons]
  rw [same, indexed]
  split
  · decide
  · exact short

/-- A slash in front does not change the name of the file. -/
theorem contentType_slash_cons (s : Bytes) : contentType (slash :: s) = contentType s :=
  contentType_append_cons [] s

/-! ## Serving -/

/-- A normal path without the byte zero is opened. -/
theorem serve_of_isNormal (h : Path.IsNormal path) (clean : 0 ∉ path) :
    serve root path =
      match Tree.openAt root.privileged (relativePath path) root.place with
      | .error e => .empty (openErrorStatus e)
      | .ok place =>
        match place.node with
        | .file _ content => .ofFile ⟨content, 0, true⟩ content.length (contentType (indexed path))
        | _ => .text .forbidden forbiddenText := by
  obtain ⟨-, relative, -⟩ := relativePath_of_isNormal h
  have relative : Tree.isAbsolute (relativePath path) = false := by simpa [Tree.isAbsolute] using relative
  have clean : (relativePath path).contains 0 = false := by
    simpa [zero_mem_relativePath h] using clean
  have named : ¬ (Tree.isAbsolute (relativePath path) || (relativePath path).contains 0) = true := by
    rw [relative, clean]
    exact Bool.false_ne_true
  rw [indexed_of_isNormal h, contentType_slash_cons]
  exact (if_neg named).trans rfl

theorem serve_of_zero (h : Path.IsNormal path) (zero : 0 ∈ path) :
    serve root path = .empty .notFound := by
  have held : (relativePath path).contains 0 = true := by
    simpa [zero_mem_relativePath h] using zero
  simp only [serve, held, Bool.or_true, if_true]

/-- What is served for a node that the segments of a path lead to. -/
def leafResponse (privileged : Bool) (path : Bytes) (leaf : Tree.Node) : Response :=
  if leaf.readable = true ∨ privileged = true then
    match leaf with
    | .file _ content => .ofFile ⟨content, 0, true⟩ content.length (contentType path)
    | .socket _ => .empty .internalServerError
    | _ => .text .forbidden forbiddenText
  else .empty .forbidden

theorem serve_of_leads (free : Tree.LinkFree root.place.node) (h : Path.IsNormal path)
    (short : path.tail.length < Tree.maxPath) (clean : 0 ∉ path) {leaf : Tree.Node}
    (way : Tree.Leads root.privileged root.place.node (segments path) leaf) :
    serve root path = leafResponse root.privileged (indexed path) leaf := by
  obtain ⟨nonempty, relative, ordinary⟩ := relativePath_of_isNormal h
  have parts := Tree.components_of_pieces fun piece hp => (ordinary piece hp).1
  rw [segments_of_isNormal h, ← parts] at way
  rw [← parts] at ordinary
  obtain ⟨above, arrived⟩ := way.descend free ordinary root.place.above
  have walked := Tree.walk_of_descend (.ok ⟨leaf, above⟩) nonempty
    (by simpa [Tree.isAbsolute] using relative) (length_relativePath_lt h short) arrived
  rw [serve_of_isNormal h clean, Tree.openAt_of_walk walked]
  unfold Tree.openLeaf leafResponse
  by_cases may : leaf.readable = true ∨ root.privileged = true
  · rw [if_pos may, if_pos may]
    cases leaf <;> rfl
  · rw [if_neg may, if_neg may]
    rfl

/-- What is served if there is an obstacle. -/
theorem serve_of_obstacle (free : Tree.LinkFree root.place.node) (h : Path.IsNormal path)
    (short : path.tail.length < Tree.maxPath) (clean : 0 ∉ path) {e : SystemError}
    (obstacle : Tree.Obstacle root.privileged root.place.node (segments path) e) :
    serve root path = .empty (openErrorStatus e) := by
  obtain ⟨nonempty, relative, ordinary⟩ := relativePath_of_isNormal h
  have parts := Tree.components_of_pieces fun piece hp => (ordinary piece hp).1
  rw [segments_of_isNormal h, ← parts] at obstacle
  rw [← parts] at ordinary
  have failed := obstacle.descend free ordinary root.place.above
  have walked := Tree.walk_of_descend (.error e) nonempty
    (by simpa [Tree.isAbsolute] using relative) (length_relativePath_lt h short) failed
  rw [serve_of_isNormal h clean, Tree.openAt, walked]

theorem leafResponse_eq_ofFile_iff {privileged : Bool} {leaf : Tree.Node} {content : Bytes} :
    leafResponse privileged path leaf =
        .ofFile ⟨content, 0, true⟩ content.length (contentType path) ↔
      ∃ readable, (readable = true ∨ privileged = true) ∧ leaf = .file readable content := by
  unfold leafResponse
  by_cases may : leaf.readable = true ∨ privileged = true
  · rw [if_pos may]
    cases leaf with
    | file readable bytes =>
      constructor
      · intro same
        cases same
        exact ⟨readable, may, rfl⟩
      · rintro ⟨readable, -, same⟩
        cases same
        rfl
    | _ => simp [Response.ofFile, Response.text, Response.empty]
  · rw [if_neg may]
    constructor
    · intro same
      cases same
    · rintro ⟨readable, may', rfl⟩
      exact absurd may' may

/-- In a tree without links, the segments of a normal path decide what is served. The path is answered
with a whole file exactly if they lead to it, through directories that may be searched, and it may be
read. No byte of a file is sent otherwise, and then the byte zero decides, or the first obstacle, or
what the segments lead to. A directory on the way need not be readable, and the one at the end need not
be searchable. -/
theorem serve_eq_lookup (free : Tree.LinkFree root.place.node)
    (normal : Path.normalize source = .ok path) (short : path.tail.length < Tree.maxPath) :
    let Leads := Tree.Leads root.privileged root.place.node (segments path)
    let Stops := Tree.Obstacle root.privileged root.place.node (segments path)
    let May (readable : Bool) := readable = true ∨ root.privileged = true
    let file (content : Bytes) :=
      Response.ofFile ⟨content, 0, true⟩ content.length (contentType (indexed path))
    (∀ content, serve root path = file content ↔
      0 ∉ path ∧ ∃ readable, May readable ∧ Leads (.file readable content)) ∧
    ((∀ content, serve root path ≠ file content) →
      (serve root path).body = .owned [] ∨ (serve root path).body = .owned forbiddenText) ∧
    (0 ∈ path → serve root path = .empty .notFound) ∧
    (0 ∉ path →
      (Stops .noEntry ∨ Stops .notDirectory → serve root path = .empty .notFound) ∧
      (Stops .accessDenied ∨ (∃ leaf, Leads leaf ∧ ¬ May leaf.readable) →
        serve root path = .empty .forbidden) ∧
      ((∃ readable, May readable ∧
          ((∃ entries searchable, Leads (.directory readable entries searchable)) ∨
            Leads (.pipe readable))) →
        serve root path = .text .forbidden forbiddenText) ∧
      (Stops .nameTooLong ∨ (∃ readable, May readable ∧ Leads (.socket readable)) →
        serve root path = .empty .internalServerError)) ∧
    ((∃ leaf, Leads leaf ∧ Tree.LinkFree leaf) ∨
      ∃ e ∈ [SystemError.noEntry, .notDirectory, .accessDenied, .nameTooLong], Stops e) := by
  intro Leads Stops May file
  have h := Path.isNormal_of_normalize normal
  have led (clean : 0 ∉ path) {leaf : Tree.Node} (way : Leads leaf) :=
    serve_of_leads free h short clean way
  have stopped (clean : 0 ∉ path) {e : SystemError} (obstacle : Stops e) :=
    serve_of_obstacle free h short clean obstacle
  refine ⟨fun content => ⟨fun served => ?_, ?_⟩, fun unserved => ?_, serve_of_zero h, fun clean => ?_, ?_⟩
  · by_cases zero : 0 ∈ path
    · rw [serve_of_zero h zero] at served
      cases served
    · refine ⟨zero, ?_⟩
      rcases Tree.leads_or_obstacle root.privileged root.place.node (segments path) with
        ⟨leaf, way⟩ | ⟨e, obstacle⟩
      · rw [led zero way] at served
        obtain ⟨readable, may, rfl⟩ := leafResponse_eq_ofFile_iff.1 served
        exact ⟨readable, may, way⟩
      · rw [stopped zero obstacle] at served
        cases congrArg Response.body served
  · rintro ⟨clean, readable, may, way⟩
    rw [led clean way]
    exact leafResponse_eq_ofFile_iff.2 ⟨readable, may, rfl⟩
  · rcases serve_cases root path with ⟨status, served⟩ | served | ⟨content, served⟩
    · rw [served]
      exact .inl rfl
    · rw [served]
      exact .inr rfl
    · rw [← contentType_slash_cons, ← indexed_of_isNormal h] at served
      exact absurd served (unserved content)
  · refine ⟨?_, ?_, ?_, ?_⟩
    · rintro (obstacle | obstacle) <;> exact stopped clean obstacle
    · rintro (obstacle | ⟨leaf, way, closed⟩)
      · exact stopped clean obstacle
      · exact (led clean way).trans (if_neg closed)
    · rintro ⟨readable, may, ⟨entries, searchable, way⟩ | way⟩ <;> exact (led clean way).trans (if_pos may)
    · rintro (obstacle | ⟨readable, may, way⟩)
      · exact stopped clean obstacle
      · exact (led clean way).trans (if_pos may)
  · rcases Tree.leads_or_obstacle root.privileged root.place.node (segments path) with
      ⟨leaf, way⟩ | ⟨e, obstacle⟩
    · exact .inl ⟨leaf, way, free.leads way⟩
    · exact .inr ⟨e, obstacle.mem, obstacle⟩

/-- A root with a directory that may be searched but not read, one that may be read but not searched,
and one with nodes that are no regular files. -/
def sampleRoot : DocumentRoot :=
  { place := ⟨.directory true
      [(ofString "index.html", .file true (ofString "welcome")),
       (ofString "drop", .directory false [(ofString "a.png", .file true (ofString "picture"))] true),
       (ofString "list", .directory true [(ofString "a.png", .file true (ofString "secret"))] false),
       (ofString "run", .directory true
        [(ofString "pipe", .pipe true), (ofString "socket", .socket true)] true)] true, []⟩ }

theorem linkFree_sampleRoot : Tree.LinkFree sampleRoot.place.node := by
  refine .directory _ _ _ ?_
  simp only [List.forall_mem_cons, List.not_mem_nil, false_implies, implies_true, and_true]
  refine ⟨.file _ _, .directory _ _ _ ?_, .directory _ _ _ ?_, .directory _ _ _ ?_⟩
  · exact List.forall_mem_singleton.2 (.file _ _)
  · exact List.forall_mem_singleton.2 (.file _ _)
  · exact List.forall_mem_cons.2 ⟨.pipe _, List.forall_mem_singleton.2 (.socket _)⟩

theorem serve_sampleRoot :
    let answer (path : String) := serve sampleRoot (ofString path)
    Tree.LinkFree sampleRoot.place.node ∧
    Path.normalize (ofString "/run/..") = .ok (ofString "/") ∧
    answer "/" = .ofFile ⟨ofString "welcome", 0, true⟩ 7 (ofString "text/html") ∧
    answer "/drop/a.png" = .ofFile ⟨ofString "picture", 0, true⟩ 7 (ofString "image/png") ∧
    answer "/drop" = .empty .forbidden ∧
    answer "/list/a.png" = .empty .forbidden ∧
    answer "/list" = .text .forbidden forbiddenText ∧
    answer "/run/pipe" = .text .forbidden forbiddenText ∧
    answer "/run/pipe/x" = .empty .notFound ∧
    answer "/run/socket" = .empty .internalServerError := by
  intro answer
  have free := linkFree_sampleRoot
  have top : Path.normalize (ofString "/run/..") = .ok (ofString "/") := rfl
  have toPicture : Path.normalize (ofString "//drop/./a.png") = .ok (ofString "/drop/a.png") := rfl
  have toDrop : Path.normalize (ofString "/drop/") = .ok (ofString "/drop") := rfl
  have toSecret : Path.normalize (ofString "/list/a.png") = .ok (ofString "/list/a.png") := rfl
  have toList : Path.normalize (ofString "/list") = .ok (ofString "/list") := rfl
  have toPipe : Path.normalize (ofString "/run/pipe") = .ok (ofString "/run/pipe") := rfl
  have behindPipe : Path.normalize (ofString "/run/pipe/x") = .ok (ofString "/run/pipe/x") := rfl
  have toSocket : Path.normalize (ofString "/run/socket") = .ok (ofString "/run/socket") := rfl
  obtain ⟨index, -⟩ := serve_eq_lookup free top (by decide)
  obtain ⟨picture, -⟩ := serve_eq_lookup free toPicture (by decide)
  obtain ⟨-, -, -, drop, -⟩ := serve_eq_lookup free toDrop (by decide)
  obtain ⟨-, -, -, secret, -⟩ := serve_eq_lookup free toSecret (by decide)
  obtain ⟨-, -, -, list, -⟩ := serve_eq_lookup free toList (by decide)
  obtain ⟨-, -, -, pipe, -⟩ := serve_eq_lookup free toPipe (by decide)
  obtain ⟨-, -, -, below, -⟩ := serve_eq_lookup free behindPipe (by decide)
  obtain ⟨-, -, -, socket, -⟩ := serve_eq_lookup free toSocket (by decide)
  have may : true = true ∨ sampleRoot.privileged = true := .inl rfl
  refine ⟨free, top, ?_, ?_, ?_, ?_, ?_, ?_, ?_, ?_⟩
  · exact (index (ofString "welcome")).2 ⟨by decide, true, may, .down may (by decide) rfl (.here _)⟩
  · exact (picture (ofString "picture")).2
      ⟨by decide, true, may, .down may (by decide) rfl (.down may (by decide) rfl (.here _))⟩
  · exact (drop (by decide)).2.1 (.inr ⟨_, .down may (by decide) rfl (.here _), by decide⟩)
  · exact (secret (by decide)).2.1 (.inl (.further may (by decide) rfl (.denied rfl)))
  · exact (list (by decide)).2.2.1
      ⟨true, may, .inl ⟨_, false, .down may (by decide) rfl (.here _)⟩⟩
  · exact (pipe (by decide)).2.2.1
      ⟨true, may, .inr (.down may (by decide) rfl (.down may (by decide) rfl (.here _)))⟩
  · refine (below (by decide)).1 (.inr (.further may (by decide) rfl (.further may (by decide) rfl
      (.notDirectory ?_))))
    intro readable entries searchable same
    cases same
  · exact (socket (by decide)).2.2.2
      (.inr ⟨true, may, .down may (by decide) rfl (.down may (by decide) rfl (.here _))⟩)

end StaticFile
end HttpServer
