import HttpServer.Proofs.ContentType
import HttpServer.Proofs.Decimal
import HttpServer.Proofs.Lines
import HttpServer.Proofs.Transcript
import HttpServer.Reply
/-!
# Responses delimit themselves

A client that knows nothing but the bytes finds every response of a stream again, with nothing left
over (`Reply.readAll?_stream`). This holds for any responses whose type has no line end in it and
whose body is as long as announced, also if the body looks like a head itself: the client never
searches a body, it counts it off.

All responses of a connection are of this kind, and so is the one to a rejected request.
-/
namespace HttpServer

open Bytes

variable {r : Response} {rs : List Response} {held rest : Bytes}

/-! ## Heads as lines -/

/-- A file holds at least the size that is announced for it. -/
def Body.IsWhole : Body → Prop
  | owned _ => True
  | file f size => size ≤ f.content.length

theorem Body.IsWhole.length_bytes {b : Body} (h : b.IsWhole) : b.bytes.length = b.length := by
  cases b with
  | owned bytes => rfl
  | file f size => exact List.length_take_of_le h

theorem Body.IsSendable.isWhole {b : Body} (h : b.IsSendable) : b.IsWhole := by
  cases b with
  | owned bytes => trivial
  | file f size => exact h.2

namespace Response

/-- The first line of the head without its end. -/
def statusLine (r : Response) : Bytes :=
  Reply.statusStart ++ Decimal.write r.status.code ++ sp :: ofString r.status.reason

/-- The fields of the head. -/
def fields (r : Response) : List Field :=
  ⟨.ofString "Content-Length", Decimal.write r.body.length⟩ ::
    (r.contentType.toList.map (⟨.ofString "Content-Type", ·⟩) ++
      [⟨.ofString "Connection", connectionValue r.shouldClose⟩])

end Response

/-- The line of a field of a response. -/
def Field.replyLine (f : Field) : Bytes := f.name ++ Reply.separator ++ f.value

namespace Response

/-- A head is its lines and the empty line, whatever the buffer held. -/
theorem headInto_eq (r : Response) (held : Bytes) :
    r.headInto held = unlines (r.statusLine :: r.fields.map Field.replyLine) ++ crlf := by
  cases h : r.contentType <;>
    simp [headInto, statusLine, fields, Status.line, headerLine, Field.replyLine, Reply.separator,
      Reply.statusStart, h]

/-- A client can find the end of the head, and the body holds as much as announced. -/
structure IsReadable (r : Response) : Prop where
  contentType : ∀ type ∈ r.contentType, ¬ crlf <:+: type
  body : r.body.IsWhole

theorem cr_not_mem_write (n : Nat) : cr ∉ Decimal.write n :=
  fun h => absurd (Decimal.isDigit_of_mem_write h) (by decide)

theorem not_crlf_infix_statusLine (r : Response) : ¬ crlf <:+: r.statusLine := by
  refine not_crlf_infix_append (fun h => ?_) (not_crlf_infix_of_not_mem (.inl ?_))
  · rcases List.mem_append.1 h with h | h
    · exact absurd h (by decide)
    · exact cr_not_mem_write _ h
  · cases r.status <;> decide

/-- The bytes name a field: a line that starts with them is not empty, no line end starts in them,
and they end where the client looks for their end. -/
structure IsName (name : Bytes) : Prop where
  nonempty : name ≠ []
  cr_not_mem : cr ∉ name ++ Reply.separator
  first : indexOf? Reply.separator (name ++ Reply.separator) = some name.length

theorem isName_of_mem_fields {f : Field} (h : f ∈ r.fields) : IsName f.name := by
  rw [fields, List.mem_cons, List.mem_append, List.mem_singleton, List.mem_map] at h
  rcases h with rfl | ⟨type, -, rfl⟩ | rfl
  · exact (⟨by decide, by decide, by decide⟩ : IsName (ofString "Content-Length"))
  · exact (⟨by decide, by decide, by decide⟩ : IsName (ofString "Content-Type"))
  · exact (⟨by decide, by decide, by decide⟩ : IsName (ofString "Connection"))

theorem not_crlf_infix_value (h : r.IsReadable) {f : Field} (hf : f ∈ r.fields) :
    ¬ crlf <:+: f.value := by
  rw [fields, List.mem_cons, List.mem_append, List.mem_singleton, List.mem_map] at hf
  rcases hf with rfl | ⟨type, htype, rfl⟩ | rfl
  · exact not_crlf_infix_of_not_mem (.inl (cr_not_mem_write _))
  · exact h.contentType type (Option.mem_toList.1 htype)
  · cases r.shouldClose <;> decide

/-- The lines of a head are lines. -/
theorem isLine_lines (h : r.IsReadable) :
    ∀ x ∈ r.statusLine :: r.fields.map Field.replyLine, IsLine x := by
  refine List.forall_mem_cons.2
    ⟨⟨by simp [statusLine], r.not_crlf_infix_statusLine⟩, List.forall_mem_map.2 fun f hf => ?_⟩
  have name := isName_of_mem_fields hf
  exact ⟨by simp [Field.replyLine, name.nonempty],
    not_crlf_infix_append name.cr_not_mem (not_crlf_infix_value h hf)⟩

end Response

/-! ## Reading a head -/

namespace Reply

theorem code?_statusLine (r : Response) : code? r.statusLine = some r.status.code := by
  have cut : cutAt? sp (Decimal.write r.status.code ++ sp :: ofString r.status.reason) =
      some (Decimal.write r.status.code, ofString r.status.reason) :=
    cutAt?_eq_some_iff.2 ⟨rfl, fun h => absurd (Decimal.isDigit_of_mem_write h) (by decide)⟩
  rw [code?, Response.statusLine, List.append_assoc, if_pos (by simp), List.drop_left, cut]
  exact Decimal.number?_write _

theorem field?_replyLine {f : Field} (h : Response.IsName f.name) :
    field? f.replyLine = some f := by
  rw [field?, Field.replyLine, cut?_eq_some_iff.2 ⟨rfl, indexOf?_append h.first f.value⟩,
    Option.map_some]

theorem mapM_field? {fs : List Field} (h : ∀ f ∈ fs, Response.IsName f.name) :
    (fs.map Field.replyLine).mapM field? = some fs := by
  induction fs with
  | nil => rfl
  | cons f fs ih =>
    obtain ⟨hf, h⟩ := List.forall_mem_cons.1 h
    rw [List.map_cons, List.mapM_cons, field?_replyLine hf, ih h]
    rfl

/-- The head of a response says what the response says. -/
theorem ofLines?_head (r : Response) :
    Head.ofLines? (r.statusLine :: r.fields.map Field.replyLine) =
      some ⟨r.status.code, r.contentType, r.shouldClose, r.body.length⟩ := by
  have size : value? r.fields Field.contentLength = some (Decimal.write r.body.length) := rfl
  have type : value? r.fields Field.contentType = r.contentType := by
    cases h : r.contentType <;> simp only [Response.fields, h] <;> rfl
  have connection : value? r.fields Field.connection =
      some (Response.connectionValue r.shouldClose) := by
    cases h : r.contentType <;> simp only [Response.fields, h] <;> rfl
  have close : (some (Response.connectionValue r.shouldClose) == some (ofString "close")) =
      r.shouldClose := by
    cases r.shouldClose <;> decide
  simp only [Head.ofLines?, code?_statusLine, mapM_field? fun _ => Response.isName_of_mem_fields,
    size, type, connection, close, Decimal.number?_write, Option.bind_eq_bind, Option.bind_some,
    Option.pure_def]

/-- A response is read from the front of a stream, and the rest is what stands behind it. -/
theorem read?_response (h : r.IsReadable) (held rest : Bytes) :
    read? (r.headInto held ++ r.body.bytes ++ rest) = some (r.reply, rest) := by
  have areLines := Response.isLine_lines h
  obtain ⟨text, cut, whole⟩ := cut?_blankLine_unlines r.not_crlf_infix_statusLine
    (List.forall_mem_cons.1 areLines).2 (r.body.bytes ++ rest)
  rw [read?, r.headInto_eq, List.append_assoc, cut]
  simp only [whole, lines_unlines areLines, ofLines?_head, ← h.body.length_bytes]
  rw [if_neg (by simp), List.take_left, List.drop_left]
  rfl

/-- The responses of a stream are read back in order, with nothing left over. -/
theorem readAll?_stream (h : ∀ r ∈ rs, r.IsReadable) (held : Bytes) :
    readAll? (Response.stream held rs) = some (rs.map Response.reply) := by
  induction rs generalizing held with
  | nil => rw [Response.stream, readAll?]; rfl
  | cons r rs ih =>
    obtain ⟨hr, h⟩ := List.forall_mem_cons.1 h
    have read := read?_response hr held (Response.stream (r.headInto held) rs)
    rw [Response.stream, readAll?, dif_pos (by simp [Response.headInto_eq, crlf])]
    split
    · rename_i unread
      rw [read] at unread
      cases unread
    · rename_i reply rest read'
      rw [read] at read'
      cases read'
      rw [ih h, Option.map_some, List.map_cons]

end Reply

/-! ## Connections -/

namespace Response

/-- What the buffer held before leaves no trace. -/
theorem stream_eq (held : Bytes) (rs : List Response) : stream held rs = rs.flatMap bytes := by
  induction rs generalizing held with
  | nil => rfl
  | cons r rs ih =>
    rw [stream, ih, List.flatMap_cons, bytes, head, headInto, headInto, List.take_zero,
      List.take_zero]

end Response

/-- The response to a rejected request is sent like any other. -/
theorem Rejection.wire_eq_bytes (e : Rejection) : e.wire = e.response.bytes := by
  have tail : ofString "Content-Length: 0\r\nConnection: close\r\n\r\n" =
      Response.headerLine "Content-Length" (Decimal.write 0) ++
        Response.headerLine "Connection" (ofString "close") ++ crlf := by decide
  rw [wire, tail]
  simp [Response.bytes, Response.head, Response.headInto, response, Response.connectionValue,
    Body.length, Body.bytes]

/-- All responses of a session, with the one to a rejected request. -/
def Session.answered (t : Session) : List Response :=
  t.responses ++ t.rejection.toList.map Rejection.response

theorem Session.answers_eq_stream (t : Session) : t.answers = Response.stream [] t.answered := by
  rw [answers, answered, Response.stream_eq, List.flatMap_append]
  cases t.rejection with
  | none => rfl
  | some e => simp [Rejection.wire_eq_bytes]

namespace StaticFile

theorem cr_not_mem_contentType (path : Bytes) : cr ∉ contentType path := by
  have all : ∀ entry ∈ knownTypes, cr ∉ entry.2 := by decide
  rcases contentType_cases path with unknown | ⟨entry, known, -, listed⟩
  · rw [unknown]
    decide
  · rw [listed]
    exact all entry known

end StaticFile

namespace Service

theorem isReadable_respond (request : Request) (docs : DocumentRoot) (body path : Bytes) :
    (request.respond docs body path).IsReadable := by
  have plain : ¬ crlf <:+: ofString "text/plain" := not_crlf_infix_of_not_mem (by decide)
  refine ⟨?_, (isSendable_respond request docs body path).isWhole⟩
  unfold Request.respond Response.withKeepAlive
  intro type htype
  cases route : Route.resolve request.knownMethod request.isApi path with
  | staticFile =>
    rw [route] at htype
    simp only [Route.respond] at htype
    rcases StaticFile.serve_cases docs path with ⟨status, h⟩ | h | ⟨content, h⟩ <;>
      rw [h] at htype <;> cases htype
    · exact plain
    · exact not_crlf_infix_of_not_mem (.inl (StaticFile.cr_not_mem_contentType _))
  | _ =>
    rw [route] at htype
    cases htype
    exact plain

theorem isReadable_answered (s : Service) (incoming : Incoming) (peer : Peer) :
    ∀ r ∈ (s.run incoming peer).answered, r.IsReadable := by
  refine List.forall_mem_append.2
    ⟨forall_responses_converse (fun b r answered => ?_) _ incoming peer, ?_⟩
  · obtain ⟨n, verdict, -⟩ := judge_of_processNext answered
    cases judged_iff.2 verdict with
    | answered => exact isReadable_respond _ _ _ _
  · exact List.forall_mem_map.2 fun e _ => ⟨nofun, trivial⟩

/-- Only the last answer can ask for the end of the connection. -/
theorem shouldClose_answered (s : Service) (incoming : Incoming) (peer : Peer) :
    ∀ r ∈ (s.run incoming peer).answered.dropLast, r.shouldClose = false := by
  have order := s.orderly_converse (.new s.requests) incoming peer
  unfold Session.answered
  cases rejected : (s.run incoming peer).rejection with
  | none =>
    simp only [Option.toList_none, List.map_nil, List.append_nil]
    exact order.before
  | some e =>
    simp only [Option.toList_some, List.map_singleton, List.dropLast_concat]
    exact order.last (by rw [← run, rejected]; exact Option.some_ne_none e)

end Service

/-- If no write fails, a client finds all answers of a connection in what was written, in order and
with nothing left over, and nothing follows the first that announces the end. This reading undoes
the writing of any readable responses, whatever the buffer of the heads held before. -/
theorem Reply.readAll?_wire_run :
    (∀ (s : Service) (incoming : Incoming) (peer : Peer), (s.run incoming peer).IsComplete →
      (s.run incoming peer).wire = Response.stream [] (s.run incoming peer).answered ∧
      readAll? (s.run incoming peer).wire =
        some ((s.run incoming peer).answered.map Response.reply) ∧
      ∀ r ∈ (s.run incoming peer).answered.dropLast, r.shouldClose = false) ∧
    ∀ (held : Bytes) (rs : List Response), (∀ r ∈ rs, r.IsReadable) →
      readAll? (Response.stream held rs) = some (rs.map Response.reply) := by
  refine ⟨fun s incoming peer complete => ?_, fun held rs h => readAll?_stream h held⟩
  have wire : (s.run incoming peer).wire = Response.stream [] (s.run incoming peer).answered :=
    (Service.wire_converse complete).trans (Session.answers_eq_stream _)
  refine ⟨wire, ?_, s.shouldClose_answered incoming peer⟩
  rw [wire]
  exact readAll?_stream (s.isReadable_answered incoming peer) []

/-- Responses of which the first has a body that looks like a head, the second a file that holds more
than announced, and the third no body and no type. -/
def Response.samples : List Response :=
  [.text .ok (ofString "HTTP/1.1 500 No\r\nContent-Length: 9\r\n\r\n"),
   .ofFile { content := ofString "abc" } 2 (ofString " a: b"),
   (Response.empty .notFound).withKeepAlive false]

/-- A request with a body, in two reads, and a line that is no request. -/
def Incoming.samples : Incoming :=
  ⟨[ofString "POST /api/echo HTTP/1.1\r\nContent-Length: 4\r\n\r\n\r\n",
    ofString "\r\nBAD\r\n\r\n"], .ended⟩

theorem Reply.readAll?_samples :
    ((Service.sample.run .samples .attentive).IsComplete ∧
      readAll? (Service.sample.run .samples .attentive).wire =
        some [⟨200, some (ofString "text/plain"), false, ofString "\r\n\r\n"⟩,
          ⟨400, none, true, []⟩]) ∧
    (∀ r ∈ Response.samples, r.IsReadable) ∧
      readAll? (Response.stream (ofString "old") Response.samples) =
        some [⟨200, some (ofString "text/plain"), false,
            ofString "HTTP/1.1 500 No\r\nContent-Length: 9\r\n\r\n"⟩,
          ⟨200, some (ofString " a: b"), false, ofString "ab"⟩, ⟨404, none, true, []⟩] := by
  have complete := Service.sample.isComplete_run_attentive .samples
  have answered : (Service.sample.run .samples .attentive).transcript =
      ⟨[.text .ok (ofString "\r\n\r\n")], some .badRequestLine⟩ := by
    have first : Service.sample.judge Incoming.samples.chunks.flatten =
        .answered (.text .ok (ofString "\r\n\r\n")) 50 := rfl
    have second : Service.sample.judge (Incoming.samples.chunks.flatten.drop 50) =
        .refused .badRequestLine := rfl
    have refused : Service.sample.transcript .ended (Incoming.samples.chunks.flatten.drop 50 ++ []) =
        ⟨[], some .badRequestLine⟩ :=
      Service.transcript_of_refused second (by decide) []
    rw [List.append_nil] at refused
    rw [Service.transcript_run (by decide) complete.responses]
    exact (Service.transcript_of_answered first).trans
      (congrArg (Transcript.behind · [.text .ok (ofString "\r\n\r\n")]) refused)
  have responses : (Service.sample.run .samples .attentive).responses =
      [.text .ok (ofString "\r\n\r\n")] := congrArg Transcript.responses answered
  have rejection : (Service.sample.run .samples .attentive).rejection = some .badRequestLine :=
    congrArg Transcript.rejection answered
  have readable : ∀ r ∈ Response.samples, r.IsReadable := by
    have ofType {r : Response} {type : Bytes} (typed : r.contentType = some type)
        (whole : ¬ crlf <:+: type) (body : r.body.IsWhole) : r.IsReadable :=
      ⟨fun t ht => by rw [typed] at ht; cases ht; exact whole, body⟩
    intro r hr
    simp only [Response.samples, List.mem_cons, List.not_mem_nil, or_false] at hr
    rcases hr with rfl | rfl | rfl
    · exact ofType rfl (not_crlf_infix_of_not_mem (by decide)) trivial
    · exact ofType rfl (not_crlf_infix_of_not_mem (by decide)) (show 2 ≤ 3 by decide)
    · exact ⟨nofun, trivial⟩
  refine ⟨⟨complete, ?_⟩, readable, ?_⟩
  · rw [(readAll?_wire_run.1 _ _ _ complete).2.1, Session.answered, responses, rejection]
    rfl
  · rw [readAll?_wire_run.2 _ _ readable]
    rfl

end HttpServer
