import HttpServer.Proofs.Segments
import HttpServer.Proofs.Session
import HttpServer.Tree.Lookup
/-!
# Requests see nothing outside the document root

A path that is handed to the file tree names only what is below the root: it is relative, and each of
its components is an ordinary segment (`StaticFile.relativePath_of_isNormal`). In a tree without links
such a walk never looks at the nodes above the place where it starts (`descend_confined`), so a
connection is the same in any two worlds that agree on the root (`run_inWorld_eq`).
-/
namespace HttpServer

open Bytes

/-! ## Walks that do not go up -/

namespace Tree

variable {node : Node} {names : List Bytes} {path : Bytes}

theorem LinkFree.ne_link (h : LinkFree node) (target : Bytes) : node ≠ .link target := by
  rintro rfl
  cases h

/-- An entry of a directory without links has none either. -/
theorem LinkFree.lookup {readable searchable : Bool} {entries : List (Bytes × Node)} {name : Bytes}
    (h : LinkFree (.directory readable entries searchable)) (entry : entries.lookup name = some node) :
    LinkFree node := by
  cases h with
  | directory _ _ _ h =>
    obtain ⟨before, after, rfl, -⟩ := List.lookup_eq_some_iff.1 entry
    exact h (name, node) (by simp)

/-- The same place in a world with more nodes above. -/
def Place.under (p : Place) (above : List Node) : Place := { p with above := p.above ++ above }

@[simp] theorem Place.under_node (p : Place) (above : List Node) : (p.under above).node = p.node := rfl

@[simp] theorem Place.under_child (p : Place) (above : List Node) (node : Node) :
    (p.under above).child node = (p.child node).under above := rfl

/-- One component of a walk through a tree without links that does not lead to the parent. -/
theorem descend_cons {p : Place} {name : Bytes} (free : LinkFree p.node)
    (down : name ≠ Path.dotdot) (privileged : Bool) (names : List Bytes) :
    descend privileged (name :: names) p =
      match p.node with
      | .directory _ entries searchable =>
        if !(searchable || privileged) then .error .accessDenied
        else if name = Path.dot then descend privileged names p
        else if name.length > maxName then .error .nameTooLong
        else match entries.lookup name with
          | none => .error .noEntry
          | some child => descend privileged names (p.child child)
      | _ => .error .notDirectory := by
  obtain ⟨node, above⟩ := p
  cases node with
  | directory readable entries searchable =>
    have down' : name ≠ [0x2e, 0x2e] := down
    simp only [descend, if_neg down', Path.dot]
    cases entry : entries.lookup name with
    | none => rfl
    | some child =>
      cases child with
      | link target => exact absurd rfl ((free.lookup entry).ne_link target)
      | _ => rfl
  | _ => rfl

/-- A walk that never names the parent, through a tree without links, ends in the same way whatever is
above: with the same obstacle, or at the same place. -/
theorem descend_confined (privileged : Bool) {p : Place} (free : LinkFree p.node)
    (down : ∀ name ∈ names, name ≠ Path.dotdot) :
    ∃ result : Except SystemError Place, ∀ above,
      descend privileged names (p.under above) = result.map fun q => .arrived (q.under above) := by
  induction names generalizing p with
  | nil => exact ⟨.ok p, fun above => rfl⟩
  | cons name names ih =>
    obtain ⟨first, down⟩ := List.forall_mem_cons.1 down
    have step (above : List Node) :=
      descend_cons (show LinkFree (p.under above).node from free) first privileged names
    simp only [step, Place.under_node, Place.under_child]
    cases node : p.node with
    | directory readable entries searchable =>
      simp only
      split
      · exact ⟨.error .accessDenied, fun above => rfl⟩
      · split
        · exact ih free down
        · split
          · exact ⟨.error .nameTooLong, fun above => rfl⟩
          · cases entry : entries.lookup name with
            | none => exact ⟨.error .noEntry, fun above => rfl⟩
            | some child =>
              -- one level down there is one more node above, and the rest of them is still arbitrary
              rw [node] at free
              have below : LinkFree (p.child child).node := free.lookup entry
              obtain ⟨result, h⟩ := ih below down
              exact ⟨result, h⟩
    | link target => exact absurd node (free.ne_link target)
    | file readable content => exact ⟨.error .notDirectory, fun above => rfl⟩
    | pipe readable => exact ⟨.error .notDirectory, fun above => rfl⟩
    | socket readable => exact ⟨.error .notDirectory, fun above => rfl⟩

/-- No component of a path leads to the parent if none of its pieces does. -/
theorem ne_dotdot_of_mem_components (h : ∀ piece ∈ pieces slash path, piece ≠ Path.dotdot) :
    ∀ name ∈ components path, name ≠ Path.dotdot := by
  have kept : ∀ name ∈ (pieces slash path).filter (· != []), name ≠ Path.dotdot :=
    fun name hn => h name (List.mem_filter.1 hn).1
  unfold components
  simp only
  split
  · exact List.forall_mem_append.2 ⟨kept, List.forall_mem_singleton.2 (by decide)⟩
  · exact kept

theorem walk_confined (privileged : Bool) {p : Place} (free : LinkFree p.node) (relative : isAbsolute path = false)
    (h : ∀ piece ∈ pieces slash path, piece ≠ Path.dotdot) :
    ∃ result : Except SystemError Place, ∀ above,
      walk privileged path (p.under above) = result.map (·.under above) := by
  obtain ⟨result, descended⟩ := descend_confined privileged free
    (ne_dotdot_of_mem_components h)
  by_cases long : path.length ≥ maxPath
  · exact ⟨.error .nameTooLong, fun above => by rw [walk, if_pos long]; rfl⟩
  by_cases empty : path = []
  · exact ⟨.error .noEntry, fun above => by rw [walk, if_neg long, if_pos empty]; rfl⟩
  refine ⟨result, fun above => ?_⟩
  rw [walk, if_neg long, if_neg empty, relative, follow]
  simp only [Bool.false_eq_true, if_false, descended]
  cases result <;> rfl

/-- What is opened by a relative path without a piece for the parent, in a tree without links, does
not depend on what is above. -/
theorem openAt_confined (privileged : Bool) {p : Place} (free : LinkFree p.node) (relative : isAbsolute path = false)
    (h : ∀ piece ∈ pieces slash path, piece ≠ Path.dotdot) :
    ∃ result : Except SystemError Place, ∀ above,
      openAt privileged path (p.under above) = result.map (·.under above) := by
  obtain ⟨result, walked⟩ := walk_confined privileged free relative h
  simp only [openAt, walked]
  cases result with
  | error e => exact ⟨.error e, fun above => rfl⟩
  | ok place =>
    simp only [Except.map, Place.under_node]
    by_cases denied : (!(place.node.readable || privileged)) = true
    · exact ⟨.error .accessDenied, fun above => if_pos denied⟩
    · rw [Bool.not_eq_true] at denied
      simp only [denied, Bool.false_eq_true, if_false]
      cases place.node with
      | socket readable => exact ⟨.error .noDevice, fun above => rfl⟩
      | _ => exact ⟨.ok place, fun above => rfl⟩

end Tree

/-! ## Paths below the root -/

namespace StaticFile

/-- What a normal path asks for lies below the root: it does not start at the top, and each of its
components is ordinary. -/
theorem relativePath_of_isNormal {path : Bytes} (h : Path.IsNormal path) :
    relativePath path ≠ [] ∧ (relativePath path).head? ≠ some slash ∧
      ∀ piece ∈ pieces slash (relativePath path), Path.Ordinary piece := by
  obtain ⟨stack, ordinary, rfl⟩ := h
  cases stack with
  | nil =>
    have index : relativePath (Path.joined []) = indexFile := rfl
    have whole : pieces slash indexFile = [indexFile] := pieces_of_not_mem (by decide)
    rw [index, whole, List.forall_mem_singleton]
    exact ⟨by decide, by decide, by decide⟩
  | cons s rest =>
    have parts := Path.pieces_flatMap fun x hx => (ordinary x hx).2
    obtain ⟨⟨nonempty, -⟩, whole⟩ := ordinary s (List.mem_cons_self ..)
    obtain ⟨b, s, rfl⟩ := List.exists_cons_of_ne_nil nonempty
    have relative : relativePath (Path.joined ((b :: s) :: rest)) =
        b :: s ++ rest.flatMap (slash :: ·) := rfl
    rw [relative, parts]
    refine ⟨List.cons_ne_nil _ _, ?_, fun piece hp => (ordinary piece hp).1⟩
    rw [List.cons_append, List.head?_cons]
    rintro first
    exact whole (Option.some.inj first ▸ List.mem_cons_self ..)

end StaticFile

theorem Request.isNormal_of_resolvePath {r : Request} {path : Request.ResolvedPath}
    (h : r.resolvePath = .ok path) : Path.IsNormal path.normal := by
  unfold resolvePath at h
  split at h
  · cases h
  · split at h
    · cases h
    · rename_i normalized
      cases h
      exact Path.isNormal_of_normalize normalized

/-! ## Worlds -/

/-- The same root in a world with these nodes above it. -/
def DocumentRoot.inWorld (root : DocumentRoot) (above : List Tree.Node) : DocumentRoot :=
  { root with place := ⟨root.place.node, above⟩ }

/-- The same service in such a world. -/
def Service.inWorld (s : Service) (above : List Tree.Node) : Service :=
  { s with docs := s.docs.inWorld above }

variable {root : DocumentRoot} {s s' : Service} {p : Bytes}

theorem StaticFile.serve_inWorld (free : Tree.LinkFree root.place.node) {path : Bytes}
    (h : Path.IsNormal path) (above above' : List Tree.Node) :
    serve (root.inWorld above) path = serve (root.inWorld above') path := by
  obtain ⟨-, relative, ordinary⟩ := relativePath_of_isNormal h
  have free' : Tree.LinkFree (⟨root.place.node, []⟩ : Tree.Place).node := free
  obtain ⟨result, opened⟩ := Tree.openAt_confined root.privileged free'
    (by simpa [Tree.isAbsolute] using relative) fun piece hp => (ordinary piece hp).2.2
  have opened (above : List Tree.Node) : Tree.openAt root.privileged (relativePath path)
      ⟨root.place.node, above⟩ = result.map (·.under above) := opened above
  simp only [serve, DocumentRoot.inWorld, opened]
  cases result <;> rfl

theorem Request.respond_inWorld (free : Tree.LinkFree root.place.node) (r : Request) (body : Bytes)
    {path : Bytes} (h : Path.IsNormal path) (above above' : List Tree.Node) :
    r.respond (root.inWorld above) body path = r.respond (root.inWorld above') body path := by
  unfold respond
  cases Route.resolve r.knownMethod r.isApi path with
  | staticFile => simp only [Route.respond, StaticFile.serve_inWorld free h above above']
  | _ => rfl

namespace Service

/-- The verdict on pending bytes is the same in all worlds. -/
theorem judge_inWorld (free : Tree.LinkFree s.docs.place.node) (p : Bytes)
    (above above' : List Tree.Node) :
    (s.inWorld above).judge p = (s.inWorld above').judge p :=
  judge_congr rfl fun _ request _ _ _ resolved =>
    Request.respond_inWorld free request _ (Request.isNormal_of_resolvePath resolved) above above'

/-! ## Connections that judge alike -/

theorem answerPending_congr (judge : ∀ p, s.judge p = s'.judge p) (sending : s.responses = s'.responses)
    (b : ReceiveBuffer) (peer : Peer) : s.answerPending b peer = s'.answerPending b peer := by
  have next (b : ReceiveBuffer) : s.processNext b = s'.processNext b := by
    rw [processNext_eq, processNext_eq, judge]
  -- the induction unfolds one side, the equation the other
  fun_induction answerPending s b peer with
  | case1 b peer e failed => rw [answerPending_eq, ← next, failed]
  | case2 b peer waiting => rw [answerPending_eq, ← next, waiting]
  | case3 b peer response answered sent e failed =>
    rw [answerPending_eq, ← next, answered, ← sending]
    simp only [sent, failed]
  | case4 b peer response answered sent ok close =>
    rw [answerPending_eq, ← next, answered, ← sending]
    simp only [sent, ok, close, if_true]
  | case5 b peer response answered sent ok keep rest ih =>
    rw [answerPending_eq, ← next, answered, ← sending]
    simp only [sent, ok, keep, Bool.false_eq_true, if_false, rest, ih]

/-- Services that judge alike and send alike serve a client alike. -/
theorem converse_congr (judge : ∀ p, s.judge p = s'.judge p) (sending : s.responses = s'.responses)
    (b : ReceiveBuffer) (incoming : Incoming) (peer : Peer) :
    s.converse b incoming peer = s'.converse b incoming peer := by
  have turn := answerPending_congr judge sending
  fun_induction converse s b incoming peer with
  | case1 b incoming peer e filled rest fill => rw [converse_eq, fill]
  | case2 b incoming peer filled rest fill => rw [converse_eq, fill]
  | case3 b incoming peer n filled rest fill done close =>
    rw [converse_eq, fill]
    simp only [← turn, close, done]
  | case4 b incoming peer n filled rest fill done failure drop =>
    rw [converse_eq, fill]
    simp only [← turn, drop, done]
  | case5 b incoming peer n filled rest fill done e reject =>
    rw [converse_eq, fill]
    simp only [← turn, reject, done]
  | case6 b incoming peer n filled rest fill done receive ih =>
    rw [converse_eq s', fill]
    simp only [← turn, receive, done, ih]

/-- If there are no links below the root, a connection is the same whatever is outside it. For what is
looked up is below the root, however a path was written: it is relative, and no component of it is
empty or stands for the directory itself or for its parent. -/
theorem run_inWorld_eq (s : Service) (free : Tree.LinkFree s.docs.place.node) :
    (∀ above above' incoming peer,
      (s.inWorld above).run incoming peer = (s.inWorld above').run incoming peer) ∧
    ∀ (r : Request) (path : Request.ResolvedPath), r.resolvePath = .ok path →
      StaticFile.relativePath path.normal ≠ [] ∧
      (StaticFile.relativePath path.normal).head? ≠ some slash ∧
      ∀ piece ∈ pieces slash (StaticFile.relativePath path.normal), Path.Ordinary piece :=
  ⟨fun above above' incoming peer =>
    congrArg Prod.fst
      (converse_congr (fun p => judge_inWorld free p above above') rfl _ incoming peer),
    fun _ _ resolved => StaticFile.relativePath_of_isNormal (Request.isNormal_of_resolvePath resolved)⟩

/-- A root with one file, and a request for it that goes up and down behind encodings. -/
def rooted : Service :=
  { docs := ⟨⟨.directory true [(ofString "a", .file true (ofString "inside"))], []⟩, false⟩ }

def roundabout : Request :=
  { method := ofString "GET", path := ofString "/b%2F%2e./.%2f/a", version := Request.servedVersion }

theorem run_inWorld_rooted :
    Tree.LinkFree rooted.docs.place.node ∧
      (∀ incoming peer, (rooted.inWorld []).run incoming peer =
        (rooted.inWorld [.directory true [(ofString "a", .file true (ofString "outside"))]]).run
          incoming peer) ∧
      roundabout.resolvePath = .ok ⟨ofString "/b/.././/a", ofString "/a"⟩ ∧
      ∀ piece ∈ pieces slash (StaticFile.relativePath (ofString "/a")), Path.Ordinary piece := by
  have free : Tree.LinkFree rooted.docs.place.node :=
    .directory true _ true (List.forall_mem_singleton.2 (.file true _))
  have resolved : roundabout.resolvePath = .ok ⟨ofString "/b/.././/a", ofString "/a"⟩ := rfl
  exact ⟨free, (run_inWorld_eq rooted free).1 _ _, resolved,
    ((run_inWorld_eq rooted free).2 _ _ resolved).2.2⟩

end Service
end HttpServer
