import HttpServer.Proofs.HeadText
import HttpServer.Proofs.Replies
import HttpServer.Proofs.Transcript
import Mathlib.Data.List.TakeWhile
/-!
# Pipelined echoes come back

A client that sends requests to echo some bodies, one behind the other and in any pieces, gets the
bodies back (`Service.run_echo`). The bodies are any bytes. They may hold empty lines or look like
requests: where a body ends is told by its length alone, so `Service.judge_echo` holds whatever
follows.
-/
namespace HttpServer

open Bytes

variable {limits : RequestLimits} {s : Service} {n : Nat}

/-! ## The request -/

namespace Request

/-- The head of a request to echo `n` bytes, by its parts. -/
def echoHead (n : Nat) : HeadText :=
  { method := .ofString "POST"
    spacesBefore := 1
    path := .ofString "/api/echo"
    spacesAfter := 1
    fields := [⟨.ofString "Content-Length", 1, Decimal.write n⟩] }

/-- A request to echo a body. -/
def echo (body : Bytes) : Bytes :=
  .ofString "POST /api/echo HTTP/1.1\r\nContent-Length: " ++ Decimal.write body.length ++ blankLine
    ++ body

theorem echo_eq (body : Bytes) : echo body = (echoHead body.length).render ++ crlf ++ body := by
  have start : ofString "POST /api/echo HTTP/1.1\r\nContent-Length: " =
      (echoHead 0).requestLine ++ crlf ++ ofString "Content-Length" ++ Field.colon :: spacing 1 := by
    decide
  rw [echo, start]
  simp [HeadText.render, HeadText.requestLine, FieldText.line, echoHead, blankLine]

theorem digitsOf_write (n : Nat) : HeadText.digitsOf (Decimal.write n) = Decimal.write n := by
  rw [HeadText.digitsOf, List.takeWhile_eq_self_iff]
  intro b hb
  rw [bne_iff_ne]
  rintro rfl
  exact Response.cr_not_mem_write n hb

theorem contentLength_echoHead (fits : n < Decimal.wordLimit) :
    (echoHead n).contentLength = some n := by
  have values : (echoHead n).values Field.contentLength = [Decimal.write n] := rfl
  rw [HeadText.contentLength, values]
  simp only [digitsOf_write, Decimal.read?_write fits]

/-- The field for the length is well formed, since digits are no spaces and end no line. -/
theorem wellFormed_lengthField (n : Nat) :
    (FieldText.mk (ofString "Content-Length") 1 (Decimal.write n)).WellFormed := by
  have name : ofString "Content-Length" ≠ [] ∧ Field.colon ∉ ofString "Content-Length" := by decide
  refine ⟨name.1, name.2, Decimal.write_ne_nil n, ?_, ?_⟩
  · intro space
    have digit := Decimal.isDigit_of_mem_write (List.mem_of_mem_head? space)
    exact absurd digit (by decide)
  · rw [indexOf?_eq_none_iff]
    have start : cr ∉ ofString "Content-Length" ++ Field.colon :: spacing 1 := by decide
    exact not_crlf_infix_append start (not_crlf_infix_of_not_mem (.inl (Response.cr_not_mem_write n)))

theorem wellFormed_echoHead (hasFields : 1 ≤ limits.maxFields) (fits : n < Decimal.wordLimit) :
    (echoHead n).WellFormed limits := by
  -- the length stands in the only field, so all else is as for an empty body
  have method : (echoHead 0).method ≠ [] ∧ sp ∉ (echoHead 0).method := by decide
  have path : (echoHead 0).path ≠ [] ∧ sp ∉ (echoHead 0).path := by decide
  have line : indexOf? crlf (echoHead 0).requestLine = none := by decide
  have post : Method.ofToken? (echoHead 0).method = some .post := by decide
  refine ⟨method, path, ⟨Nat.one_pos, Nat.one_pos⟩, line, ⟨List.cons_ne_nil _ _, hasFields⟩, ?_, rfl,
    n, contentLength_echoHead fits, ?_⟩
  · intro f hf
    obtain rfl := List.mem_singleton.1 hf
    exact wellFormed_lengthField n
  · intro _ m known
    cases post.symm.trans known
    rfl

theorem respond_echoHead (n : Nat) (docs : DocumentRoot) (body : Bytes) :
    ∃ path, (echoHead n).request.resolvePath = .ok path ∧
      (echoHead n).request.respond docs body path.normal = .text .ok body :=
  ⟨⟨ofString "/echo", ofString "/echo"⟩, rfl, rfl⟩

end Request

/-! ## The connection -/

namespace Service

open Request

/-- A request that is there with its whole body is answered, whatever stands behind it. -/
theorem judge_render {t : HeadText} {body : Bytes} {path : ResolvedPath}
    (wellFormed : t.WellFormed s.requests) (length : t.contentLength = some body.length)
    (fits : t.render.length + 2 + body.length ≤ s.requests.maxSize)
    (resolved : t.request.resolvePath = .ok path) (rest : Bytes) :
    s.judge (t.render ++ crlf ++ body ++ rest) =
      .answered (t.request.respond s.docs body path.normal) (t.render.length + 2 + body.length) := by
  have announced : t.request.contentLength = body.length := by
    have : t.request.contentLength = t.contentLength.getD 0 := by
      unfold HeadText.request classify
      split
      · rfl
      · split <;> rfl
    rw [this, length, Option.getD_some]
  have head := indexOf?_blankLine_unlines (indexOf?_eq_none_iff.1 wellFormed.line)
    wellFormed.isLine (body ++ rest)
  have parsed := wellFormed.parse_render
  obtain ⟨text, ends⟩ := exists_unlines_cons t.requestLine (t.fields.map FieldText.line)
  rw [← HeadText.render_eq_unlines] at head ends
  rw [ends] at head parsed fits ⊢
  have size : (text ++ crlf).length = text.length + 2 := List.length_append
  rw [size] at head fits ⊢
  rw [Nat.add_sub_cancel, ← List.append_assoc] at head
  have before : (text ++ crlf ++ crlf ++ body ++ rest).take (text.length + 2) = text ++ crlf := by
    rw [List.append_assoc, List.append_assoc, List.take_left' size]
  have behind : (text ++ crlf ++ crlf ++ body ++ rest).drop (text.length + 4) = body ++ rest := by
    rw [List.append_assoc, List.drop_left' (by simp [crlf])]
  have own : t.request.body (body ++ rest) = body := by
    rw [Request.body, announced, List.take_left]
  have there : text.length + 4 + body.length ≤ (text ++ crlf ++ crlf ++ body ++ rest).length := by
    simp [crlf]
    omega
  rw [judge, head]
  simp only [before, parsed]
  rw [judgeBody, announced, if_neg (by omega), if_neg (by omega), resolved]
  simp only [behind, own]

/-- A request to echo is answered with its body. -/
theorem judge_echo (hasFields : 1 ≤ s.requests.maxFields)
    (small : s.requests.maxSize < ReceiveBuffer.allocationLimit) {body : Bytes}
    (fits : (echo body).length ≤ s.requests.maxSize) (rest : Bytes) :
    s.judge (echo body ++ rest) = .answered (.text .ok body) (echo body).length := by
  have size : (echo body).length = (echoHead body.length).render.length + 2 + body.length := by
    simp [echo_eq, crlf]
    omega
  have word : body.length < Decimal.wordLimit := by
    have limit : ReceiveBuffer.allocationLimit < Decimal.wordLimit := by decide
    omega
  obtain ⟨path, resolved, response⟩ := respond_echoHead body.length s.docs body
  rw [size] at fits ⊢
  rw [echo_eq, judge_render (wellFormed_echoHead hasFields word) (contentLength_echoHead word) fits
    resolved, response]

/-- The transcript of some requests to echo has the bodies, and nothing else. -/
theorem transcript_echo (hasFields : 1 ≤ s.requests.maxFields)
    (small : s.requests.maxSize < ReceiveBuffer.allocationLimit) {bodies : List Bytes}
    (fits : ∀ body ∈ bodies, (echo body).length ≤ s.requests.maxSize) :
    s.transcript .ended (bodies.flatMap echo) = ⟨bodies.map (Response.text .ok), none⟩ := by
  induction bodies with
  | nil =>
    apply transcript_of_missing
    left
    refine ⟨rfl, ?_⟩
    rw [List.flatMap_nil, headLimit, List.length_nil]
    omega
  | cons body bodies ih =>
    obtain ⟨first, fits⟩ := List.forall_mem_cons.1 fits
    have verdict := judge_echo hasFields small first (bodies.flatMap echo)
    have rest : (echo body ++ bodies.flatMap echo).drop (echo body).length = bodies.flatMap echo :=
      List.drop_left
    rw [List.flatMap_cons, transcript_of_answered verdict, answersTo, rest, ih fits]
    rfl

/-- Requests to echo some bodies, sent one behind the other and in any pieces before the client ends
its side, are answered by the bodies, in order and with nothing else, and the connection ends without
a failure. This is so for every peer to which no write fails, and there is such a peer. -/
theorem run_echo (s : Service) (hasFields : 1 ≤ s.requests.maxFields)
    (small : s.requests.maxSize < ReceiveBuffer.allocationLimit) (bodies : List Bytes)
    (fits : ∀ body ∈ bodies, (echo body).length ≤ s.requests.maxSize) (chunks : List Bytes)
    (whole : chunks.flatten = bodies.flatMap echo) :
    (s.run ⟨chunks, .ended⟩ .attentive).IsComplete ∧
      ∀ peer, (s.run ⟨chunks, .ended⟩ peer).IsComplete →
        (s.run ⟨chunks, .ended⟩ peer).result = .ok () ∧
          Reply.readAll? (s.run ⟨chunks, .ended⟩ peer).wire =
            some (bodies.map fun body => ⟨200, some (ofString "text/plain"), false, body⟩) := by
  refine ⟨s.isComplete_run_attentive _, fun peer complete => ⟨?_, ?_⟩⟩
  · exact result_converse small (ReceiveBuffer.fits_new s.requests) (fun _ => nofun) complete
  · have transcript := transcript_run small complete.responses
    simp only at transcript
    rw [whole, transcript_echo hasFields small fits] at transcript
    have answered : (s.run ⟨chunks, .ended⟩ peer).answered = bodies.map (Response.text .ok) := by
      have responses := congrArg Transcript.responses transcript
      have rejection := congrArg Transcript.rejection transcript
      simp only [Session.transcript] at responses rejection
      rw [Session.answered, responses, rejection]
      exact List.append_nil _
    have wire := (wire_converse complete).trans (Session.answers_eq_stream _)
    rw [← run] at wire
    rw [wire, Reply.readAll?_stream (s.isReadable_answered _ peer), answered, List.map_map]
    rfl

/-- A service whose storage starts with nothing and that takes a single field line. -/
def narrow : Service :=
  { requests := { initialSize := 0, maxFields := 1, maxSize := 100 }
    docs := ⟨⟨.directory true [], []⟩, false⟩ }

/-- Bodies that look like the end of a head, like a request to echo, and like nothing. -/
def oddBodies : List Bytes := [ofString "\r\n\r\n", echo (ofString "abc"), []]

theorem run_echo_oddBodies :
    1 ≤ narrow.requests.maxFields ∧
      (∀ body ∈ oddBodies, (echo body).length ≤ narrow.requests.maxSize) ∧
      (narrow.run ⟨(oddBodies.flatMap echo).map ([·]), .ended⟩ .attentive).result = .ok () ∧
      Reply.readAll? (narrow.run ⟨(oddBodies.flatMap echo).map ([·]), .ended⟩ .attentive).wire =
        some [⟨200, some (ofString "text/plain"), false, ofString "\r\n\r\n"⟩,
          ⟨200, some (ofString "text/plain"), false, echo (ofString "abc")⟩,
          ⟨200, some (ofString "text/plain"), false, []⟩] := by
  have fits : ∀ body ∈ oddBodies, (echo body).length ≤ narrow.requests.maxSize := by decide
  have single (l : Bytes) : (l.map ([·])).flatten = l := by
    induction l with
    | nil => rfl
    | cons b l ih => rw [List.map_cons, List.flatten_cons, ih, List.singleton_append]
  obtain ⟨complete, all⟩ := run_echo narrow (by decide) (by decide) oddBodies fits _ (single _)
  obtain ⟨result, replies⟩ := all .attentive complete
  exact ⟨by decide, fits, result, replies⟩

end Service
end HttpServer
