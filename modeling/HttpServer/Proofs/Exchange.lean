import HttpServer.Exchange
import HttpServer.Proofs.Dispatch
import HttpServer.Proofs.Replies
/-!
# Clients in step

A client that asked for `HEAD` reads the next response right behind the empty line. It stays in step
with the connection as long as every response has a body exactly when the client expects one
(`Reply.readFor?_responses`). Every response to `HEAD` is a refusal, though, and its text is written
like any other body (`Service.response_of_isBodiless`), so the client looks for a head where that text
stands, finds none and is lost (`Reply.readFor?_ne`).
-/
namespace HttpServer

open Bytes

/-- What stands before the first empty line is a run of lines, if the end of the last is with it. -/
theorem Bytes.exists_lines_of_cut? {s text rest : Bytes} (h : cut? blankLine s = some (text, rest)) :
    ∃ l ls, text ++ crlf = unlines (l :: ls) ∧ ¬ crlf <:+: l ∧ ∀ x ∈ ls, IsLine x := by
  obtain ⟨hs, first⟩ := cut?_eq_some_iff.1 h
  have head : s.take (text.length + 2) = text ++ crlf := by
    have length : (text ++ crlf).length = text.length + 2 := by rw [List.length_append]; rfl
    rw [hs, blankLine, ← List.append_assoc text, List.append_assoc, ← length, List.take_left]
  obtain ⟨ends, noBlank⟩ := head_of_indexOf? first
  rw [← head]
  exact exists_eq_unlines _ ends noBlank

variable {s : Service} {bytes : Bytes} {r : Response} {n : Nat}

/-! ## The exchanges of a connection -/

namespace Service

/-- A request that is answered makes up the first exchange. -/
theorem exchanges_of_answered (h : s.judge bytes = .answered r n) :
    ∃ i request body path, indexOf? blankLine bytes = some i ∧
      Request.parse s.requests (bytes.take (i + 2)) = .ok request ∧
      r = request.respond s.docs body path ∧
      s.exchanges bytes =
        ⟨request, r⟩ :: if r.shouldClose then [] else s.exchanges (bytes.drop n) := by
  cases judged_iff.2 h with
  | @answered i request path head parsed admissible there resolved =>
    refine ⟨i, request, _, _, head, parsed, rfl, ?_⟩
    rw [exchanges]
    simp only [head, parsed, if_neg (Nat.not_lt.2 admissible), if_neg (Nat.not_lt.2 there), resolved]

/-- Without such a request there is none. -/
theorem exchanges_of_not_answered (h : ∀ r n, s.judge bytes ≠ .answered r n) :
    s.exchanges bytes = [] := by
  rw [exchanges]
  cases verdict : s.judge bytes with
  | answered r n => exact absurd verdict (h r n)
  | headMissing =>
    cases judged_iff.2 verdict with
    | headMissing head => simp only [head]
  | bodyMissing total =>
    cases judged_iff.2 verdict with
    | bodyMissing head parsed admissible missing => simp [head, parsed, missing]
  | refused e =>
    cases judged_iff.2 verdict with
    | badHead head parsed => simp only [head, parsed]
    | tooLarge head parsed large => simp only [head, parsed, if_pos large]
    | badPath head parsed admissible there resolved => simp [head, parsed, resolved]

theorem responses_transcript_of_not_answered (h : ∀ r n, s.judge bytes ≠ .answered r n)
    (ending : Ending) : (s.transcript ending bytes).responses = [] := by
  cases head : indexOf? blankLine (bytes.take s.headLimit) with
  | none =>
    rw [transcript]
    split
    · rfl
    · rename_i i found
      rw [head] at found
      cases found
  | some i =>
    rw [transcript_of_head head]
    cases verdict : s.judge bytes with
    | answered r n => exact absurd verdict (h r n)
    | _ => rfl

/-- Induction over the requests at the start of a stream that are answered, one behind the other. -/
theorem answered_induction {motive : Bytes → Prop}
    (last : ∀ bytes, (∀ r n, s.judge bytes ≠ .answered r n) → motive bytes)
    (next : ∀ bytes r n, s.judge bytes = .answered r n → motive (bytes.drop n) → motive bytes)
    (bytes : Bytes) : motive bytes := by
  induction left : bytes.length using Nat.strongRecOn generalizing bytes with
  | ind k ih =>
    by_cases answered : ∃ r n, s.judge bytes = .answered r n
    · obtain ⟨r, n, answered⟩ := answered
      obtain ⟨pos, le, -⟩ := total_le_of_answered answered
      have shorter : (bytes.drop n).length < k := by
        rw [List.length_drop]
        omega
      exact next bytes r n answered (ih _ shorter (bytes.drop n) rfl)
    · exact last bytes fun r n h => answered ⟨r, n, h⟩

/-- The responses of the exchanges are those that the transcript tells. -/
theorem map_response_exchanges (s : Service) (ending : Ending) (bytes : Bytes) :
    (s.exchanges bytes).map Exchange.response = (s.transcript ending bytes).responses := by
  induction bytes using s.answered_induction with
  | last bytes unanswered =>
    rw [exchanges_of_not_answered unanswered, responses_transcript_of_not_answered unanswered]
    rfl
  | next bytes r n answered ih =>
    obtain ⟨i, request, body, path, -, -, -, exchanges⟩ := exchanges_of_answered answered
    rw [exchanges, transcript_of_answered answered, answersTo, List.map_cons]
    cases r.shouldClose with
    | true => rfl
    | false => simp only [Bool.false_eq_true, if_false, ih]

/-- The response of an exchange is the one that its request is routed to. -/
theorem exists_of_mem_exchanges {e : Exchange} (he : e ∈ s.exchanges bytes) :
    ∃ body path, e.response = e.request.respond s.docs body path := by
  induction bytes using s.answered_induction with
  | last bytes unanswered =>
    rw [exchanges_of_not_answered unanswered] at he
    cases he
  | next bytes r n answered ih =>
    obtain ⟨i, request, body, path, -, -, routed, exchanges⟩ := exchanges_of_answered answered
    rw [exchanges] at he
    rcases List.mem_cons.1 he with rfl | he
    · exact ⟨body, path, routed⟩
    · cases close : r.shouldClose with
      | true =>
        rw [close] at he
        cases he
      | false =>
        rw [close] at he
        exact ih he

/-- `HEAD` is no method that a route serves, and the refusal says so in a body. -/
theorem response_of_isBodiless {e : Exchange} (he : e ∈ s.exchanges bytes)
    (bodiless : e.isBodiless = true) :
    e.response = (Response.text .methodNotAllowed Route.unsupportedMethodText).withKeepAlive
      e.request.keepAlive := by
  obtain ⟨body, path, routed⟩ := exists_of_mem_exchanges he
  rw [Exchange.isBodiless, beq_iff_eq] at bodiless
  rw [routed, Request.respond, bodiless]
  cases e.request.isApi <;> rfl

end Service

/-! ## Reading in step -/

namespace Reply

/-- A head is read from the front of a stream, and the rest is what stands behind it. -/
theorem head?_response (h : r.IsReadable) (rest : Bytes) :
    head? (r.head ++ rest) =
      some (⟨r.status.code, r.contentType, r.shouldClose, r.body.length⟩, rest) := by
  have areLines := Response.isLine_lines h
  obtain ⟨text, cut, whole⟩ := cut?_blankLine_unlines r.not_crlf_infix_statusLine
    (List.forall_mem_cons.1 areLines).2 rest
  rw [head?, Response.head, r.headInto_eq, cut]
  simp only [Option.bind_some, whole, lines_unlines areLines, ofLines?_head, Option.map_some]

/-- A response is read in step if it has a body exactly when one is expected. -/
theorem readOne?_response {bodiless : Bool} (h : r.IsReadable)
    (empty : bodiless = true → r.body.bytes = []) (rest : Bytes) :
    readOne? bodiless (r.bytes ++ rest) = some (r.reply, rest) := by
  have size : (if bodiless then 0 else r.body.length) = r.body.bytes.length := by
    cases bodiless with
    | true => rw [empty rfl]; rfl
    | false => exact h.body.length_bytes.symm
  rw [readOne?, Response.bytes, List.append_assoc, head?_response h]
  simp only [Option.bind_some, size]
  rw [if_neg (by simp), List.take_left, List.drop_left]
  rfl

/-- Behind a head whose body is not expected, the body is still to be read. -/
theorem readOne?_bodiless (h : r.IsReadable) (rest : Bytes) :
    readOne? true (r.bytes ++ rest) =
      some (⟨r.status.code, r.contentType, r.shouldClose, []⟩, r.body.bytes ++ rest) := by
  rw [readOne?, Response.bytes, List.append_assoc, head?_response h]
  rfl

theorem readFor?_cons {bodiless : Bool} {stream rest : Bytes} {reply : Reply}
    (h : readOne? bodiless stream = some (reply, rest)) (asked : List Bool) :
    readFor? (bodiless :: asked) stream =
      (readFor? asked rest).map fun (replies, rest) => (reply :: replies, rest) := by
  rw [readFor?, h]
  rfl

/-- Responses are read in step if each has a body exactly when one is expected. -/
theorem readFor?_responses {ps : List (Bool × Response)} (h : ∀ p ∈ ps, p.2.IsReadable)
    (empty : ∀ p ∈ ps, p.1 = true → p.2.body.bytes = []) :
    readFor? (ps.map (·.1)) (ps.flatMap (·.2.bytes)) = some (ps.map (·.2.reply), []) := by
  induction ps with
  | nil => rfl
  | cons p ps ih =>
    obtain ⟨hp, h⟩ := List.forall_mem_cons.1 h
    obtain ⟨emptyp, empty⟩ := List.forall_mem_cons.1 empty
    rw [List.map_cons, List.flatMap_cons, readFor?_cons (readOne?_response hp emptyp _), ih h empty]
    rfl

/-! ## Reading out of step -/

theorem code?_eq_none {line : Bytes} (h : line.head? ≠ statusStart.head?) : code? line = none := by
  refine if_neg fun start => h ?_
  obtain ⟨rest, rfl⟩ := List.isPrefixOf_iff_prefix.1 start
  rfl

/-- No head begins with anything but the version. -/
theorem head?_eq_none {stream : Bytes} {b : UInt8} (start : stream.head? = some b) (notCr : b ≠ cr)
    (notVersion : statusStart.head? ≠ some b) : head? stream = none := by
  cases cut : cut? blankLine stream with
  | none => rw [head?, cut]; rfl
  | some parts =>
    obtain ⟨text, rest⟩ := parts
    obtain ⟨cutText, first⟩ := cut?_eq_some_iff.1 cut
    obtain ⟨l, ls, hlines, whole, areLines⟩ := exists_lines_of_cut? cut
    have first : l.head? = some b := by
      rw [cutText, blankLine, ← List.append_assoc text, hlines, unlines_cons] at start
      cases l with
      | nil => exact absurd (Option.some.inj start).symm notCr
      | cons c l => exact start
    have nonempty : l ≠ [] := by
      rintro rfl
      cases first
    have line : IsLine l := ⟨nonempty, whole⟩
    have noHead : Head.ofLines? (lines (text ++ crlf)) = none := by
      rw [hlines, lines_unlines (List.forall_mem_cons.2 ⟨line, areLines⟩), Head.ofLines?,
        code?_eq_none (by rw [first]; exact notVersion.symm)]
      rfl
    rw [head?, cut]
    exact congrArg (Option.map (·, rest)) noHead

/-- A client that looks for a head where there is none is never done. -/
theorem readFor?_ne_of_start {stream : Bytes} {b : UInt8} (start : stream.head? = some b)
    (notCr : b ≠ cr) (notVersion : statusStart.head? ≠ some b) (asked : List Bool)
    (replies : List Reply) : readFor? asked stream ≠ some (replies, []) := by
  cases asked with
  | nil =>
    intro h
    cases h
    cases start
  | cons bodiless asked =>
    rw [readFor?, readOne?, head?_eq_none start notCr notVersion]
    exact Option.some_ne_none _ ∘ Eq.symm

/-- A body that is not expected leaves the client out of step. -/
theorem readFor?_ne {xs : List Exchange} (h : ∀ e ∈ xs, e.response.IsReadable)
    (text : ∀ e ∈ xs, e.isBodiless = true → e.response.body = .owned Route.unsupportedMethodText)
    (bodiless : ∃ e ∈ xs, e.isBodiless = true) (asked : List Bool) (rest : Bytes)
    (replies : List Reply) :
    readFor? (xs.map Exchange.isBodiless ++ asked) (xs.flatMap (·.response.bytes) ++ rest) ≠
      some (replies, []) := by
  induction xs generalizing replies with
  | nil =>
    obtain ⟨e, he, -⟩ := bodiless
    cases he
  | cons e xs ih =>
    obtain ⟨he, h⟩ := List.forall_mem_cons.1 h
    obtain ⟨texte, text⟩ := List.forall_mem_cons.1 text
    rw [List.map_cons, List.flatMap_cons, List.cons_append, List.append_assoc]
    intro all
    cases here : e.isBodiless with
    | true =>
      have body : e.response.body.bytes = Route.unsupportedMethodText := by rw [texte here]; rfl
      rw [here, readFor?_cons (readOne?_bodiless he _), body] at all
      obtain ⟨⟨replies', rest'⟩, read, done⟩ := Option.map_eq_some_iff.1 all
      obtain ⟨-, rfl⟩ := Prod.mk.inj done
      exact readFor?_ne_of_start (b := 0x54) rfl (by decide) (by decide) _ _ read
    | false =>
      have expected : false = true → e.response.body.bytes = [] := (absurd · Bool.false_ne_true)
      rw [here, readFor?_cons (readOne?_response he expected _)] at all
      obtain ⟨⟨replies', rest'⟩, read, done⟩ := Option.map_eq_some_iff.1 all
      obtain ⟨-, rfl⟩ := Prod.mk.inj done
      refine ih h text ?_ replies' read
      obtain ⟨e', he', bodiless⟩ := bodiless
      rcases List.mem_cons.1 he' with rfl | he'
      · rw [here] at bodiless
        cases bodiless
      · exact ⟨e', he', bodiless⟩

end Reply

/-! ## Connections -/

/-- A client that never asked for `HEAD` reads all replies in order, with nothing left over. The answer
to a rejected request has no body, so it does not matter whether one is expected. -/
theorem Reply.readFor?_exchanges {xs : List Exchange} {rejection : Option Rejection} (last : Bool)
    (readable : ∀ e ∈ xs, e.response.IsReadable) (bodied : ∀ e ∈ xs, e.isBodiless = false) :
    readFor? (xs.map Exchange.isBodiless ++ rejection.toList.map fun _ => last)
        (xs.flatMap (·.response.bytes) ++ rejection.elim [] Rejection.wire) =
      some ((xs.map Exchange.response ++ rejection.toList.map Rejection.response).map
        Response.reply, []) := by
  -- what is expected of each answer, with the answer
  let ps : List (Bool × Response) := xs.map (fun e => (e.isBodiless, e.response)) ++
    rejection.toList.map fun e => (last, e.response)
  have expected : ps.map (·.1) = xs.map Exchange.isBodiless ++ rejection.toList.map fun _ => last := by
    simp only [ps, List.map_append, List.map_map, Function.comp_def]
  have answers : ps.map (·.2) =
      xs.map Exchange.response ++ rejection.toList.map Rejection.response := by
    simp only [ps, List.map_append, List.map_map, Function.comp_def]
  have sentBytes : ps.flatMap (·.2.bytes) =
      xs.flatMap (·.response.bytes) ++ rejection.elim [] Rejection.wire := by
    simp only [ps, List.flatMap_append, List.flatMap_map]
    cases rejection with
    | none => rfl
    | some e => simp [e.wire_eq_bytes]
  have read : readFor? (ps.map (·.1)) (ps.flatMap (·.2.bytes)) =
      some (ps.map (·.2.reply), []) := by
    refine readFor?_responses (fun p hp => ?_) (fun p hp bodiless => ?_)
    · rcases List.mem_append.1 hp with hp | hp
      · obtain ⟨e, he, rfl⟩ := List.mem_map.1 hp
        exact readable e he
      · obtain ⟨e, -, rfl⟩ := List.mem_map.1 hp
        exact ⟨nofun, trivial⟩
    · rcases List.mem_append.1 hp with hp | hp
      · obtain ⟨e, he, rfl⟩ := List.mem_map.1 hp
        rw [bodied e he] at bodiless
        cases bodiless
      · obtain ⟨e, -, rfl⟩ := List.mem_map.1 hp
        rfl
  rw [expected, sentBytes] at read
  rw [read, ← answers, List.map_map]
  rfl

/-- If no write fails, what a connection writes are the responses of its exchanges, and each of them to
`HEAD` is a refusal with its text behind the head. A client that expects no body there reads all
replies in order with nothing left over if it never asked for `HEAD`, and otherwise it never gets
through, whatever it expects of the answer to a rejected request. -/
theorem Reply.readFor?_wire_run (s : Service)
    (small : s.requests.maxSize < ReceiveBuffer.allocationLimit) (incoming : Incoming) (peer : Peer)
    (complete : (s.run incoming peer).IsComplete) (last : Bool) :
    let t := s.run incoming peer
    let made := s.exchanges incoming.chunks.flatten
    let asked := made.map Exchange.isBodiless ++ t.rejection.toList.map fun _ => last
    t.wire = made.flatMap (·.response.bytes) ++ t.rejection.elim [] Rejection.wire ∧
    (∀ e ∈ made, e.isBodiless = true → e.response =
      (Response.text .methodNotAllowed Route.unsupportedMethodText).withKeepAlive
        e.request.keepAlive) ∧
    ((∀ e ∈ made, e.isBodiless = false) →
      readFor? asked t.wire = some (t.answered.map Response.reply, [])) ∧
    ((∃ e ∈ made, e.isBodiless = true) → ∀ replies, readFor? asked t.wire ≠ some (replies, [])) := by
  intro t made asked
  have responses : t.responses = made.map Exchange.response :=
    (congrArg Transcript.responses (Service.transcript_run small complete.responses)).trans
      (s.map_response_exchanges _ _).symm
  have answers : t.wire = t.answers := Service.wire_converse complete
  have wire : t.wire = made.flatMap (·.response.bytes) ++ t.rejection.elim [] Rejection.wire := by
    rw [answers, Session.answers, responses, List.flatMap_map]
  have readable : ∀ e ∈ made, e.response.IsReadable := fun e he =>
    s.isReadable_answered incoming peer _
      (List.mem_append_left _ (responses ▸ List.mem_map_of_mem he))
  refine ⟨wire, fun e he => Service.response_of_isBodiless he, fun bodied => ?_,
    fun bodiless replies => ?_⟩
  · rw [wire, Session.answered, responses]
    exact readFor?_exchanges last readable bodied
  · rw [wire]
    refine readFor?_ne readable (fun e he head => ?_) bodiless _ _ replies
    rw [Service.response_of_isBodiless he head]
    rfl

/-- A `HEAD` request and another one behind it. -/
def Incoming.sampleHeads : Incoming :=
  ⟨[ofString "HEAD / HTTP/1.1\r\nA: b\r\n\r\nGET /api/ HTTP/1.1\r\nA: b\r\n\r\n"], .ended⟩

/-- The response to `HEAD`. -/
def Response.sampleRefusal : Response := .text .methodNotAllowed Route.unsupportedMethodText

theorem Response.isReadable_sampleRefusal : sampleRefusal.IsReadable := by
  refine ⟨fun type typed => ?_, trivial⟩
  cases typed
  exact not_crlf_infix_of_not_mem (by decide)

namespace Service

theorem judge_sampleHeads :
    sample.judge Incoming.sampleHeads.chunks.flatten = .answered .sampleRefusal 25 ∧
      sample.judge (Incoming.sampleHeads.chunks.flatten.drop 25) = .answered sampleResponse 28 ∧
      sample.judge ((Incoming.sampleHeads.chunks.flatten.drop 25).drop 28) = .headMissing :=
  ⟨rfl, rfl, rfl⟩

theorem transcript_sampleHeads : (sample.run .sampleHeads .attentive).transcript =
    ⟨[.sampleRefusal, sampleResponse], none⟩ := by
  obtain ⟨first, second, last⟩ := judge_sampleHeads
  rw [transcript_run (by decide) (sample.isComplete_run_attentive _).responses,
    transcript_of_answered first, answersTo, transcript_of_answered second, answersTo,
    transcript_of_missing (.inl ⟨last, by decide⟩)]
  rfl

theorem wire_sampleHeads : (sample.run .sampleHeads .attentive).wire =
    Response.sampleRefusal.bytes ++ sampleResponse.bytes := by
  have responses := congrArg Transcript.responses transcript_sampleHeads
  have rejection := congrArg Transcript.rejection transcript_sampleHeads
  refine (wire_converse (sample.isComplete_run_attentive .sampleHeads)).trans ?_
  simp only [Session.transcript] at responses rejection
  rw [← run, Session.answers, responses, rejection, Option.elim_none, List.append_nil,
    List.flatMap_cons, List.flatMap_singleton]

end Service

/-- The text of the refusal stands between the empty line behind its head and the next response, and a
client that expects a head there finds none. -/
theorem Reply.readFor?_sampleHeads :
    (Service.sample.run .sampleHeads .attentive).IsComplete ∧
      (Service.sample.run .sampleHeads .attentive).wire = Response.sampleRefusal.head ++
        Route.unsupportedMethodText ++ Service.sampleResponse.bytes ∧
      readFor? [true, false] (Service.sample.run .sampleHeads .attentive).wire = none := by
  refine ⟨Service.sample.isComplete_run_attentive .sampleHeads, ?_, ?_⟩
  · rw [Service.wire_sampleHeads]
    rfl
  · rw [Service.wire_sampleHeads, readFor?_cons (readOne?_bodiless Response.isReadable_sampleRefusal _),
      readFor?, readOne?, head?_eq_none (b := 0x54) rfl (by decide) (by decide)]
    rfl

namespace Service

/-- What a client expects behind the head of the first response. -/
theorem isBodiless_of_answered {i : Nat} {m : Option Method}
    (answered : s.judge bytes = .answered r n) (keep : r.shouldClose = false)
    (head : indexOf? blankLine bytes = some i)
    (known : (Request.parse s.requests (bytes.take (i + 2))).map Request.knownMethod = .ok m) :
    (s.exchanges bytes).map Exchange.isBodiless =
      (m == some .head) :: (s.exchanges (bytes.drop n)).map Exchange.isBodiless := by
  obtain ⟨j, request, body, path, head', parsed, -, exchanges⟩ := exchanges_of_answered answered
  obtain rfl : i = j := Option.some.inj (head.symm.trans head')
  rw [parsed] at known
  rw [exchanges, keep, List.map_cons, Exchange.isBodiless, Except.ok.inj known]
  rfl

theorem isBodiless_sampleHeads :
    (sample.exchanges Incoming.sampleHeads.chunks.flatten).map Exchange.isBodiless =
      [true, false] := by
  obtain ⟨first, second, last⟩ := judge_sampleHeads
  rw [isBodiless_of_answered (i := 21) (m := some .head) first rfl rfl rfl,
    isBodiless_of_answered (i := 24) (m := some .get) second rfl rfl rfl,
    exchanges_of_not_answered fun r n h => by rw [last] at h; cases h]
  rfl

theorem isBodiless_sampleTail :
    (sample.exchanges sampleTail.chunks.flatten).map Exchange.isBodiless = [false] := by
  have first : sample.judge sampleTail.chunks.flatten = .answered sampleResponse 28 := rfl
  have second : sample.judge (sampleTail.chunks.flatten.drop 28) = .refused .badRequestLine := rfl
  rw [isBodiless_of_answered (i := 24) (m := some .get) first rfl rfl rfl,
    exchanges_of_not_answered fun r n h => by rw [second] at h; cases h]
  rfl

end Service

theorem Reply.readFor?_sampleTail :
    (∀ replies, readFor? [true, false] (Service.sample.run .sampleHeads .attentive).wire ≠
      some (replies, [])) ∧
    readFor? [false, true] (Service.sample.run Service.sampleTail .attentive).wire =
      some ([Service.sampleResponse.reply, ⟨400, none, true, []⟩], []) := by
  have small : Service.sample.requests.maxSize < ReceiveBuffer.allocationLimit := by decide
  have bodiless := Service.isBodiless_sampleHeads
  have bodied := Service.isBodiless_sampleTail
  have unrejected : (Service.sample.run .sampleHeads .attentive).rejection = none :=
    congrArg Transcript.rejection Service.transcript_sampleHeads
  have responses : (Service.sample.run Service.sampleTail .attentive).responses =
      [Service.sampleResponse] := congrArg Transcript.responses Service.transcript_sampleTail
  have rejection : (Service.sample.run Service.sampleTail .attentive).rejection =
      some .badRequestLine := congrArg Transcript.rejection Service.transcript_sampleTail
  refine ⟨?_, ?_⟩
  · have outOfStep := (readFor?_wire_run Service.sample small .sampleHeads .attentive
      (Service.sample.isComplete_run_attentive _) false).2.2.2
    simp only [bodiless, unrejected] at outOfStep
    obtain ⟨e, he, head⟩ := List.mem_map.1 (bodiless ▸ List.mem_cons_self : true ∈ _)
    exact outOfStep ⟨e, he, head⟩
  · have inStep := (readFor?_wire_run Service.sample small Service.sampleTail .attentive
      (Service.sample.isComplete_run_attentive _) true).2.2.1
    simp only [bodied, Session.answered, responses, rejection] at inStep
    refine inStep fun e he => ?_
    have mem := List.mem_map_of_mem (f := Exchange.isBodiless) he
    rw [bodied] at mem
    exact List.mem_singleton.1 mem

end HttpServer
