import HttpServer.Path.Encoding
import HttpServer.Proofs.Framing
import HttpServer.Proofs.HeadText
import HttpServer.Request.Target
/-!
# Requests that see no file

Only a `GET` request outside the API looks at files. Which requests these are is told by the bytes of the
request line: the method and the path that a head is accepted with are those at its start
(`exists_text_of_parse`). So two services that differ in nothing but their files treat every other request
alike.

The path of an API request is decoded and normalized without the segment that marks the API. If it goes
up more often than down there, it is refused, and a request that is answered gets its answer from a route
that looks at no file (`processNext_spares_files`).
-/
namespace HttpServer

open Bytes

variable {s : Service} {b : ReceiveBuffer} {p : Bytes} {limits : RequestLimits} {r : Request}
  {i : Nat}

/-! ## The request line -/

namespace Request

variable {t : HeadText}

namespace HeadText

/-- The method and the path of a request line are those at its start, whatever follows it. -/
theorem Separable.start_of_requestLine (h : t.Separable) (rest : Bytes) :
    methodOf (t.requestLine ++ rest) = t.method ∧ pathOf (t.requestLine ++ rest) = t.path := by
  have parts : t.requestLine ++ rest = t.method ++ (spacing t.spacesBefore ++
      (t.path ++ (spacing t.spacesAfter ++ (servedVersion ++ rest)))) := by
    simp only [requestLine, List.append_assoc]
  have before := spacing_pos h.separated.1
  have after := spacing_pos h.separated.2
  rw [parts]
  constructor
  · rw [methodOf, before, List.cons_append, takeWhile_word h.method.2]
  · have start := h.path_head? (spacing t.spacesAfter ++ (servedVersion ++ rest))
    have behind : (t.method ++ (spacing t.spacesBefore ++ (t.path ++ (spacing t.spacesAfter ++
        (servedVersion ++ rest))))).dropWhile (· != sp) =
        spacing t.spacesBefore ++ (t.path ++ (spacing t.spacesAfter ++ (servedVersion ++ rest))) := by
      rw [before, List.cons_append, dropWhile_word h.method.2]
    rw [pathOf, behind, skipSpaces_spacing start, after, List.cons_append, takeWhile_word h.path.2]

end HeadText

/-- A head is accepted with the method and the path at its start. -/
theorem exists_text_of_parse (head : indexOf? blankLine p = some i)
    (parsed : parse limits (p.take (i + 2)) = .ok r) :
    ∃ t : HeadText, r = t.request ∧ methodOf p = t.method ∧ pathOf p = t.path := by
  obtain ⟨t, text, wellFormed, said⟩ := exists_headText head parsed
  have stream : p = t.requestLine ++ (crlf ++ (t.fields.flatMap fun f => f.line ++ crlf) ++
      p.drop (i + 2)) := by
    conv_lhs => rw [← List.take_append_drop (i + 2) p, ← text, HeadText.render]
    simp only [List.append_assoc]
  obtain ⟨method, path⟩ := wellFormed.separable.start_of_requestLine
    (crlf ++ (t.fields.flatMap fun f => f.line ++ crlf) ++ p.drop (i + 2))
  rw [← stream] at method path
  exact ⟨t, said, method, path⟩

/-! ## Paths of the API -/

theorem method_classify (r : Request) : r.classify.method = r.method := by
  obtain ⟨path, isApi, classified⟩ := r.exists_classify
  rw [classified]

theorem isApi_classify (api : IsApiPath r.path) : r.classify.isApi = true := by
  unfold classify
  split
  · rfl
  · rename_i other
    rcases api with api | api
    · rw [if_pos api]
    · exact absurd (List.isPrefixOf_iff_prefix.2 api) other

/-- What follows the segment that marks the API is kept, with the slash before it. -/
theorem path_classify (path : r.path = apiRoot ++ slash :: rest) :
    r.classify.path = slash :: rest := by
  have marked : (apiRoot ++ [slash]).isPrefixOf r.path = true := by
    rw [List.isPrefixOf_iff_prefix, path]
    exact ⟨rest, by simp⟩
  rw [classify, if_pos marked]
  change r.path.drop apiRoot.length = _
  rw [path, List.drop_left]

end Request

namespace Path

/-- What an API path says behind its first segment is refused if it rises above it. -/
theorem normalize_of_rises {decoded : Bytes} (rises : Rises (pieces slash decoded)) :
    normalize (slash :: decoded) = .error .badRequestPath := by
  refine normalize_eq_error_iff.2 ⟨rfl, .inr ?_⟩
  rw [pieces_cons_self, ← foldlM_follow_eq_none_iff_rises, foldlM_follow_nil_cons,
    foldlM_follow_eq_none_iff_rises]
  exact rises

end Path

theorem Request.resolvePath_of_rises {rest decoded : Bytes} (path : r.path = slash :: rest)
    (encodes : Path.Encodes rest decoded) (rises : Path.Rises (pieces slash decoded)) :
    r.resolvePath = .error .badRequestPath := by
  have slashToken : Path.Token [slash] slash := .plain slash (by decide)
  have whole : Path.percentDecode (slash :: rest) = .ok (slash :: decoded) :=
    Path.percentDecode_eq_ok_iff.2 (.cons slashToken encodes)
  rw [resolvePath, path, whole]
  simp only [Path.normalize_of_rises rises]

/-! ## Routes -/

theorem Method.token_of_ofToken? {token : Bytes} {m : Method} (h : ofToken? token = some m) :
    m.token = token := by
  have found := List.find?_some h
  simpa using found

namespace Route

/-- Only `GET` outside the API looks at files. -/
theorem resolve_ne_staticFile {method : Option Method} {isApi : Bool}
    (h : isApi = true ∨ method ≠ some .get) (path : Bytes) :
    resolve method isApi path ≠ staticFile := by
  intro files
  unfold resolve at files
  split at files
  · split at files <;> cases files
  · split at files <;> cases files
  · rcases h with h | h
    · cases h
    · exact h rfl
  · cases files

theorem respond_eq_of_ne_staticFile {route : Route} (h : route ≠ staticFile)
    (docs docs' : DocumentRoot) (body path : Bytes) :
    route.respond docs body path = route.respond docs' body path := by
  cases route with
  | staticFile => exact absurd rfl h
  | _ => rfl

end Route

/-! ## Services with other files -/

/-- The same service with these files. -/
def Service.serving (s : Service) (docs : DocumentRoot) : Service := { s with docs }

namespace Service

/-- The route of an accepted request in the API, or with another method than `GET`, is one without
files. -/
theorem resolve_ne_staticFile_of_parse (head : indexOf? blankLine p = some i)
    (parsed : Request.parse limits (p.take (i + 2)) = .ok r)
    (spares : Request.IsApiPath (Request.pathOf p) ∨ Request.methodOf p ≠ Method.get.token)
    (path : Bytes) : Route.resolve r.knownMethod r.isApi path ≠ .staticFile := by
  obtain ⟨t, rfl, method, target⟩ := Request.exists_text_of_parse head parsed
  rw [method, target] at spares
  refine Route.resolve_ne_staticFile ?_ path
  rcases spares with api | other
  · exact .inl (Request.isApi_classify api)
  · refine .inr fun get => other ?_
    have token := Method.token_of_ofToken? get
    rw [token]
    exact (Request.method_classify t.unclassified).symm

/-- Such requests are judged without regard to the files. -/
theorem judge_serving
    (spares : Request.IsApiPath (Request.pathOf p) ∨ Request.methodOf p ≠ Method.get.token)
    (docs docs' : DocumentRoot) : (s.serving docs).judge p = (s.serving docs').judge p := by
  refine judge_congr rfl fun i request path head parsed _ => ?_
  have route := resolve_ne_staticFile_of_parse head parsed spares path.normal
  rw [Request.respond, Request.respond]
  exact congrArg (Response.withKeepAlive · _)
    (Route.respond_eq_of_ne_staticFile route _ _ _ _)

/-- The path of an API request that rises above the API is refused once the request is complete. -/
theorem judge_of_rises {rest decoded : Bytes} (head : indexOf? blankLine p = some i)
    (parsed : Request.parse s.requests (p.take (i + 2)) = .ok r)
    (admissible : i + 4 + r.contentLength ≤ s.requests.maxSize)
    (complete : i + 4 + r.contentLength ≤ p.length)
    (path : Request.pathOf p = Request.apiRoot ++ slash :: rest)
    (encodes : Path.Encodes rest decoded) (rises : Path.Rises (pieces slash decoded)) :
    s.judge p = .refused .badRequestPath := by
  obtain ⟨t, rfl, -, target⟩ := Request.exists_text_of_parse head parsed
  have classified : t.request.path = slash :: rest := Request.path_classify (target.symm.trans path)
  exact judged_iff.1 (.badPath head parsed admissible complete
    (Request.resolvePath_of_rises classified encodes rises))

/-- Whatever files are served, a request of the API and one with another method than `GET` come to the
same. A request of the API is answered by a route that looks at no file, and in whichever way its path
is written, it is refused if behind the segment that marks the API it rises above it at any point. -/
theorem processNext_spares_files (s : Service) (b : ReceiveBuffer) :
    (Request.IsApiPath (Request.pathOf b.pending) ∨
        Request.methodOf b.pending ≠ Method.get.token → ∀ docs docs',
      (s.serving docs).processNext b = (s.serving docs').processNext b) ∧
    (Request.IsApiPath (Request.pathOf b.pending) → ∀ response,
      (s.processNext b).result = .ok (some response) →
      ∃ route, route ≠ Route.staticFile ∧ ∃ body path keepAlive, ∀ docs,
        response = (route.respond docs body path).withKeepAlive keepAlive) ∧
    ∀ i request rest decoded, indexOf? blankLine b.pending = some i →
      Request.parse s.requests (b.pending.take (i + 2)) = .ok request →
      i + 4 + request.contentLength ≤ s.requests.maxSize →
      i + 4 + request.contentLength ≤ b.pending.length →
      Request.pathOf b.pending = Request.apiRoot ++ slash :: rest →
      Path.Encodes rest decoded → Path.Rises (pieces slash decoded) →
      s.processNext b = ⟨.error .badRequestPath, b⟩ := by
  refine ⟨fun spares docs docs' => ?_, fun api response answered => ?_, ?_⟩
  · rw [processNext_eq, processNext_eq, judge_serving spares docs docs']
  · obtain ⟨total, verdict, -⟩ := judge_of_processNext answered
    cases judged_iff.2 verdict with
    | @answered i request path head parsed admissible there resolved =>
      have route := resolve_ne_staticFile_of_parse head parsed (.inl api) path.normal
      refine ⟨_, route, request.body (b.pending.drop (i + 4)), path.normal, request.keepAlive,
        fun docs => ?_⟩
      rw [Request.respond, Route.respond_eq_of_ne_staticFile route s.docs docs]
  · intro i request rest decoded head parsed admissible complete path encodes rises
    rw [processNext_eq, judge_of_rises head parsed admissible complete path encodes rises]
    rfl

/-- A directory with one file, and an empty one. -/
def sampleFile : DocumentRoot :=
  ⟨⟨.directory true [(ofString "x", .file true (ofString "inside"))], []⟩, false⟩

def sampleEmpty : DocumentRoot := ⟨⟨.directory true [], []⟩, false⟩

/-- A buffer of the usual size that holds some bytes. -/
def sampleHolding (bytes : Bytes) : ReceiveBuffer :=
  { pending := bytes, size := 4096, maxSize := 16384 }

/-- A request for a file with a method that the files do not have. -/
def samplePost : Bytes := ofString "POST /x HTTP/1.1\r\nA: b\r\n\r\n"

/-- A request of the API that goes down and up again. -/
def sampleBack : Bytes := ofString "GET /api/x/%2e. HTTP/1.1\r\nA: b\r\n\r\n"

/-- A request of the API that goes up once too often, for a file. -/
def sampleClimb : Bytes := ofString "GET /api/a/%2e%2E/.%2e/x HTTP/1.1\r\nA: b\r\n\r\n"

theorem processNext_spares_sampleFile :
    let s : Service := { docs := sampleFile }
    (Request.methodOf samplePost ≠ Method.get.token ∧
      (s.serving sampleFile).processNext (sampleHolding samplePost) =
        (s.serving sampleEmpty).processNext (sampleHolding samplePost)) ∧
    (Request.IsApiPath (Request.pathOf sampleBack) ∧
      (s.processNext (sampleHolding sampleBack)).result = .ok (some (.text .ok Route.helloText)) ∧
      ∃ route, route ≠ Route.staticFile ∧ ∃ body path keepAlive, ∀ docs,
        Response.text .ok Route.helloText = (route.respond docs body path).withKeepAlive keepAlive) ∧
    Request.pathOf sampleClimb = Request.apiRoot ++ slash :: ofString "a/%2e%2E/.%2e/x" ∧
      Path.Encodes (ofString "a/%2e%2E/.%2e/x") (ofString "a/../../x") ∧
      Path.Rises (pieces slash (ofString "a/../../x")) ∧
      s.processNext (sampleHolding sampleClimb) =
        ⟨.error .badRequestPath, sampleHolding sampleClimb⟩ := by
  intro s
  have post : Request.methodOf samplePost ≠ Method.get.token := by decide
  have api : Request.IsApiPath (Request.pathOf sampleBack) := .inr (by decide)
  have hello : (s.processNext (sampleHolding sampleBack)).result =
      .ok (some (.text .ok Route.helloText)) := rfl
  have encodes : Path.Encodes (ofString "a/%2e%2E/.%2e/x") (ofString "a/../../x") :=
    Path.percentDecode_eq_ok_iff.1 rfl
  have rises : Path.Rises (pieces slash (ofString "a/../../x")) :=
    ⟨[ofString "a", Path.dotdot, Path.dotdot], ⟨[ofString "x"], rfl⟩, by decide⟩
  obtain ⟨request, parsed, bodiless⟩ : ∃ request,
      Request.parse s.requests (sampleClimb.take 41) = .ok request ∧ request.contentLength = 0 :=
    ⟨_, rfl, rfl⟩
  refine ⟨⟨post, (processNext_spares_files s (sampleHolding samplePost)).1 (.inr post) _ _⟩,
    ⟨api, hello, (processNext_spares_files s (sampleHolding sampleBack)).2.1 api _ hello⟩, rfl,
    encodes, rises, ?_⟩
  exact (processNext_spares_files s (sampleHolding sampleClimb)).2.2 39 request _ _ rfl parsed
    (by rw [bodiless]; decide) (by rw [bodiless]; decide) rfl encodes rises

end Service
end HttpServer
