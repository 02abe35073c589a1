import HttpServer.Proofs.Session
import HttpServer.Transcript
/-!
# A connection answers what its transcript says

However the bytes of a client are cut into reads, and whatever buffer receives them, a session in
which no write fails writes the answers of the transcript of the whole stream.

Between two reads the buffer *waits*: its pending bytes do not make up a request yet, and if the
head of one is there, the storage reaches to its end. So the bytes that are pending together with
those still to come have the same transcript before and after every turn of the loop, up to the
responses of the turn (`accounts_answerPending`), and when the stream ends or the buffer is full, the
transcript of what is pending is what the connection does then (`transcript_of_fill`).
-/
namespace HttpServer

open Bytes

variable {s : Service} {b : ReceiveBuffer} {p q bytes : Bytes} {r : Response} {e : Rejection}
  {ending : Ending} {n : Nat}

namespace Service

/-! ## The transcript by verdicts -/

/-- The answers to a stream about whose start this is told. -/
def answersTo (s : Service) (ending : Ending) (bytes : Bytes) : Verdict → Transcript
  | .headMissing | .bodyMissing _ => ⟨[], ending.rejection⟩
  | .refused e => ⟨[], some e⟩
  | .answered r n =>
    if r.shouldClose then ⟨[r], none⟩
    else { s.transcript ending (bytes.drop n) with
      responses := r :: (s.transcript ending (bytes.drop n)).responses }

/-- When the first head ends in time, the verdict on all bytes says what comes first. -/
theorem transcript_of_head {i : Nat} (h : indexOf? blankLine (bytes.take s.headLimit) = some i) :
    s.transcript ending bytes = s.answersTo ending bytes (s.judge bytes) := by
  rw [transcript]
  split
  · rename_i noEnd
    rw [h] at noEnd
    cases noEnd
  · rename_i j found
    obtain rfl : i = j := Option.some.inj (h.symm.trans found)
    simp only [judge, indexOf?_of_take h]
    cases Request.parse s.requests (bytes.take (i + 2)) with
    | error e => rfl
    | ok request =>
      simp only [judgeBody]
      by_cases large : i + 4 + request.contentLength > s.requests.maxSize
      · rw [if_pos large, if_pos large]
        rfl
      · rw [if_neg large, if_neg large]
        by_cases missing : bytes.length < i + 4 + request.contentLength
        · rw [if_pos missing, if_pos missing]
          rfl
        · rw [if_neg missing, if_neg missing]
          cases request.resolvePath <;> rfl

/-- A request that is answered is answered first. -/
theorem transcript_of_answered (h : s.judge bytes = .answered r n) :
    s.transcript ending bytes = s.answersTo ending bytes (.answered r n) := by
  cases judged_iff.2 h with
  | answered head parsed admissible there resolved =>
    have length : blankLine.length = 4 := rfl
    rw [transcript_of_head (indexOf?_take head (by rw [headLimit]; omega)), h]

/-- A request that is refused is refused, unless its head ends too late. -/
theorem transcript_of_refused (h : s.judge p = .refused e) (le : p.length ≤ s.headLimit)
    (q : Bytes) : s.transcript ending (p ++ q) = ⟨[], some e⟩ := by
  obtain ⟨i, head⟩ : ∃ i, indexOf? blankLine p = some i := by
    cases judged_iff.2 h <;> exact ⟨_, ‹_›⟩
  rw [transcript_of_head (indexOf?_take (indexOf?_append head q)
    ((add_length_le_of_indexOf? head).trans le)), judge_append_of_refused h]
  rfl

/-- A head that fills the largest buffer without an end is too large, whatever follows. -/
theorem transcript_of_full (h : s.judge p = .headMissing) (full : p.length = s.headLimit)
    (q : Bytes) : s.transcript ending (p ++ q) = ⟨[], some .headerTooLarge⟩ := by
  cases judged_iff.2 h with
  | headMissing head =>
    have start : (p ++ q).take s.headLimit = p := by rw [← full, List.take_left]
    rw [transcript]
    split
    · rw [if_pos (by rw [List.length_append]; omega)]
    · rename_i i found
      rw [start, head] at found
      cases found

/-- What the end of the stream cuts off is answered by the way in which the stream ends. -/
theorem transcript_of_missing
    (h : (s.judge bytes = .headMissing ∧ bytes.length < s.headLimit) ∨
      ∃ total, s.judge bytes = .bodyMissing total) :
    s.transcript ending bytes = ⟨[], ending.rejection⟩ := by
  rcases h with ⟨verdict, small⟩ | ⟨total, verdict⟩
  · cases judged_iff.2 verdict with
    | headMissing head =>
      rw [transcript]
      split
      · rw [if_neg (Nat.not_le.2 small)]
      · rename_i i found
        rw [List.take_of_length_le (Nat.le_of_lt small), head] at found
        cases found
  · cases judged_iff.2 verdict with
    | bodyMissing head parsed admissible missing =>
      have small : bytes.length ≤ s.headLimit := by
        rw [headLimit]
        omega
      rw [transcript_of_head (by rw [List.take_of_length_le small]; exact head), verdict]
      rfl

/-! ## Between two reads -/

/-- The pending bytes do not make up a request, and if they tell how long it is, the storage reaches
to its end. -/
def Waits (s : Service) (b : ReceiveBuffer) : Prop :=
  s.judge b.pending = .headMissing ∨
    ∃ total, s.judge b.pending = .bodyMissing total ∧ b.consumed + total ≤ b.size

theorem waits_new (s : Service) : s.Waits (.new s.requests) := .inl rfl

theorem Waits.shift (h : s.Waits b) : s.Waits b.shift :=
  h.imp_right fun ⟨total, verdict, reach⟩ =>
    ⟨total, verdict, by simp only [ReceiveBuffer.shift]; omega⟩

/-- No more bytes are pending than a head may have. -/
theorem pending_le (fits : b.Fits s.requests) : b.pending.length ≤ s.headLimit := by
  have received := fits.received_le
  have size := fits.size_le
  rw [ReceiveBuffer.received] at received
  rw [headLimit]
  omega

/-- A buffer that waits and is full, from its first byte to the largest size, holds a head without
an end. -/
theorem Waits.headMissing_of_full (h : s.Waits b) (fits : b.Fits s.requests)
    (front : b.consumed = 0) (full : b.received = b.size) (largest : s.requests.maxSize ≤ b.size) :
    s.judge b.pending = .headMissing ∧ b.pending.length = s.headLimit := by
  have pos := fits.size_pos
  have le := fits.size_le
  rw [ReceiveBuffer.received] at full
  rw [headLimit]
  rcases h with verdict | ⟨total, verdict, reach⟩
  · exact ⟨verdict, by omega⟩
  · -- a body that is missing would still fit
    have := total_of_bodyMissing verdict
    omega

section

variable (small : s.requests.maxSize < ReceiveBuffer.allocationLimit)
include small

/-- A pending request fails only if it is refused. -/
theorem refused_of_processNext (fits : b.Fits s.requests)
    (h : (s.processNext b).result = .error e) : s.judge b.pending = .refused e := by
  rw [processNext_eq] at h
  cases verdict : s.judge b.pending with
  | headMissing => rw [verdict] at h; cases h
  | bodyMissing total =>
    obtain ⟨b', reserved, -⟩ := fits.reserve small (total_of_bodyMissing verdict).2
    simp only [verdict, obey, reserved, Except.map] at h
    cases h
  | refused e' => rw [verdict] at h; cases h; rfl
  | answered response total => rw [verdict] at h; cases h

/-- If there is no answer, the buffer waits with the same pending bytes. -/
theorem waits_of_processNext (fits : b.Fits s.requests)
    (h : (s.processNext b).result = .ok none) :
    (s.processNext b).buffer.Fits s.requests ∧ s.Waits (s.processNext b).buffer ∧
      (s.processNext b).buffer.pending = b.pending := by
  rw [processNext_eq] at h ⊢
  cases verdict : s.judge b.pending with
  | headMissing => exact ⟨fits, .inl verdict, rfl⟩
  | bodyMissing total =>
    obtain ⟨b', reserved, same, fits', reach, -⟩ := fits.reserve small (total_of_bodyMissing verdict).2
    simp only [obey, reserved]
    exact ⟨fits', .inr ⟨total, by rw [same]; exact verdict, reach⟩, same⟩
  | refused e => rw [verdict] at h; cases h
  | answered response total => rw [verdict] at h; cases h

end
end Service

/-! ## One turn -/

/-- The transcript that goes on with `last` behind these responses. -/
def Transcript.behind (last : Transcript) (responses : List Response) : Transcript :=
  { last with responses := responses ++ last.responses }

theorem Transcript.behind_last (responses : List Response) (rejection : Option Rejection) :
    Transcript.behind ⟨[], rejection⟩ responses = ⟨responses, rejection⟩ := by
  rw [behind, List.append_nil]

namespace Service

/-- What a turn over these pending bytes has answered, and what it leaves to do, make up the
transcript of these bytes with any others behind them. -/
def Progress.Accounts (s : Service) (pending : Bytes) (done : Progress) : Prop :=
  match done.turn with
  | .receive => done.buffer.Fits s.requests ∧ s.Waits done.buffer ∧
    ∀ ending q, s.transcript ending (pending ++ q) =
      (s.transcript ending (done.buffer.pending ++ q)).behind done.responses
  | .close => ∀ ending q, s.transcript ending (pending ++ q) = ⟨done.responses, none⟩
  | .reject e => e.OfRequest ∧
    ∀ ending q, s.transcript ending (pending ++ q) = ⟨done.responses, some e⟩
  | .drop _ => True

/-- The first request of a turn, which is answered without the end of the connection, and the turn
that goes on behind it. -/
theorem Progress.Accounts.cons {done : Progress} (verdict : s.judge p = .answered r n)
    (keep : r.shouldClose = false) (h : done.Accounts s (p.drop n)) (wire : Bytes) :
    Progress.Accounts s p { done with wire, responses := r :: done.responses } := by
  have first (ending : Ending) (q : Bytes) : s.transcript ending (p ++ q) =
      (s.transcript ending (p.drop n ++ q)).behind [r] := by
    rw [transcript_of_answered (judge_append_of_answered verdict q), answersTo, keep,
      List.drop_append_of_le_length (total_le_of_answered verdict).2.1]
    rfl
  unfold Accounts at h ⊢
  simp only
  split at h
  · obtain ⟨fits, waits, rest⟩ := h
    exact ⟨fits, waits, fun ending q => by rw [first, rest]; rfl⟩
  · exact fun ending q => by rw [first, h]; rfl
  · exact ⟨h.1, fun ending q => by rw [first, h.2]; rfl⟩
  · trivial

/-- A turn accounts for the bytes that are pending when it begins. -/
theorem accounts_answerPending (small : s.requests.maxSize < ReceiveBuffer.allocationLimit)
    (b : ReceiveBuffer) (peer : Peer) (fits : b.Fits s.requests) :
    (s.answerPending b peer).Accounts s b.pending := by
  fun_induction answerPending s b peer with
  | case1 b peer e refused =>
    have verdict := refused_of_processNext small fits refused
    exact ⟨ofRequest_of_judge verdict, fun _ => transcript_of_refused verdict (pending_le fits)⟩
  | case2 b peer waiting =>
    obtain ⟨fits', waits, same⟩ := waits_of_processNext small fits waiting
    exact ⟨fits', waits, fun ending q => by rw [same]; rfl⟩
  | case3 => trivial
  | case4 b peer response answered sent ok close =>
    obtain ⟨n, verdict, -⟩ := judge_of_processNext answered
    intro ending q
    rw [transcript_of_answered (judge_append_of_answered verdict q), answersTo, if_pos close]
  | case5 b peer response answered sent ok keep rest ih =>
    obtain ⟨n, verdict, buffer⟩ := judge_of_processNext answered
    have left : (s.processNext b).buffer.pending = b.pending.drop n := by rw [buffer]; rfl
    have fits' : (s.processNext b).buffer.Fits s.requests := by rw [buffer]; exact fits.consume n
    exact (left ▸ ih fits').cons verdict (Bool.not_eq_true _ ▸ keep) _

end Service

/-! ## The whole connection -/

/-- The answers of a session. -/
def Session.transcript (t : Session) : Transcript := ⟨t.responses, t.rejection⟩

theorem Session.transcript_behind (last : Session) (done : Service.Progress) :
    (last.behind done).transcript = last.transcript.behind done.responses := rfl

theorem Rejection.OfRequest.transcript_session (h : e.OfRequest) (peer : Peer) :
    (e.session peer).transcript = ⟨[], some e⟩ := by
  rw [h.session_eq]
  rfl

/-- The session after a failed read answers as the ending of the stream demands. -/
theorem Ending.transcript_session (h : ending.outcome = .error e) (peer : Peer) :
    (e.session peer).transcript = ⟨[], ending.rejection⟩ := by
  cases ending with
  | ended => cases h
  | silent => cases h; rfl
  | failed kind => cases kind <;> cases h <;> rfl

theorem Ending.rejection_eq_none (h : ending.outcome = .ok n) : ending.rejection = none := by
  cases ending with
  | ended => rfl
  | silent => cases h
  | failed kind => cases h

namespace Service

variable {incoming rest : Incoming} {filled : ReceiveBuffer} {peer : Peer}

section

variable (small : s.requests.maxSize < ReceiveBuffer.allocationLimit)
include small

/-- What is received moves from the stream to the pending bytes. -/
theorem fits_of_fill (fits : b.Fits s.requests) (h : b.fill incoming = (⟨.ok (n + 1), filled⟩, rest)) :
    filled.Fits s.requests ∧ rest.ending = incoming.ending ∧
      filled.pending ++ rest.chunks.flatten = b.pending ++ incoming.chunks.flatten := by
  rcases fits.fill_cases small incoming with ⟨failed, -⟩ | ⟨size, fits', le, room, h'⟩
  · rw [failed] at h
    cases h
  · rcases h' with ⟨nothing, ended⟩ | ⟨bytes, rest', nonempty, len, chunks, read⟩
    · rw [h] at ended
      cases he : incoming.ending <;> rw [he] at ended <;> cases ended
    · obtain ⟨outcome, rfl⟩ := Prod.mk.inj (h.symm.trans read)
      obtain ⟨-, rfl⟩ := ReceiveBuffer.Outcome.mk.inj outcome
      exact ⟨fits'.receive len, rfl, by simp only [chunks, List.append_assoc]⟩

/-- When nothing is received, the buffer is full or the stream has ended, and what is pending is
answered for that reason. -/
theorem transcript_of_fill {outcome : Except Rejection Nat} (fits : b.Fits s.requests)
    (front : b.consumed = 0) (waits : s.Waits b) (h : (b.fill incoming).1.result = outcome)
    (nothing : ∀ n, outcome ≠ .ok (n + 1)) :
    ∃ rejection, s.transcript incoming.ending (b.pending ++ incoming.chunks.flatten) =
      ⟨[], rejection⟩ ∧
        ((outcome = .error .headerTooLarge ∧ rejection = some .headerTooLarge) ∨
          (outcome = incoming.ending.outcome ∧ rejection = incoming.ending.rejection)) := by
  rcases fits.fill_cases small incoming with ⟨failed, full, largest⟩ | ⟨size, fits', le, room, h'⟩
  · obtain ⟨verdict, len⟩ := waits.headMissing_of_full fits front full largest
    refine ⟨_, transcript_of_full verdict len _, .inl ⟨?_, rfl⟩⟩
    rw [← h, failed]
  · rcases h' with ⟨drained, ended⟩ | ⟨bytes, rest, nonempty, len, chunks, read⟩
    · refine ⟨_, ?_, .inr ⟨?_, rfl⟩⟩
      · rw [drained, List.append_nil]
        have short : b.pending.length < s.headLimit := by
          rw [ReceiveBuffer.received, front, Nat.zero_add] at room
          exact Nat.lt_of_lt_of_le room fits'.size_le
        rcases waits with verdict | ⟨total, verdict, -⟩
        · exact transcript_of_missing (.inl ⟨verdict, short⟩)
        · exact transcript_of_missing (.inr ⟨total, verdict⟩)
      · rw [← h, ended]
    · obtain ⟨n, hn⟩ : ∃ n, bytes.length = n + 1 :=
        Nat.exists_eq_succ_of_ne_zero (by simpa using nonempty)
      exact absurd (by rw [← h, read, hn]) (nothing n)

end

/-- A session in which no response was cut off answers what the transcript of the stream says. -/
theorem transcript_converse (small : s.requests.maxSize < ReceiveBuffer.allocationLimit)
    (fits : b.Fits s.requests) (front : b.consumed = 0) (waits : s.Waits b)
    (whole : (s.converse b incoming peer).1.dropped = none) :
    (s.converse b incoming peer).1.transcript =
      s.transcript incoming.ending (b.pending ++ incoming.chunks.flatten) := by
  -- by induction on what is left to read; `Fits` and `Waits` hold again before every read
  fun_induction converse s b incoming peer with
  | case1 b incoming peer e filled rest fill =>
    obtain ⟨rejection, transcript, outcome⟩ := transcript_of_fill small fits front waits
      (congrArg (·.1.result) fill) (fun _ ok => by cases ok)
    rw [transcript]
    rcases outcome with ⟨full, rfl⟩ | ⟨ended, rfl⟩
    · cases full
      rfl
    · exact Ending.transcript_session ended.symm peer
  | case2 b incoming peer filled rest fill =>
    obtain ⟨rejection, transcript, outcome⟩ := transcript_of_fill small fits front waits
      (congrArg (·.1.result) fill) (fun _ ok => by cases ok)
    rw [transcript]
    rcases outcome with ⟨full, -⟩ | ⟨ended, rfl⟩
    · cases full
    · rw [Ending.rejection_eq_none ended.symm]
      rfl
  | case3 b incoming peer n filled rest fill done close =>
    obtain ⟨fits', -, same⟩ := fits_of_fill small fits fill
    have turn := accounts_answerPending small filled peer fits'
    rw [Progress.Accounts, close] at turn
    rw [← same, turn, Session.transcript_behind]
    exact Transcript.behind_last _ _
  | case4 b incoming peer n filled rest fill done failure drop => cases whole
  | case5 b incoming peer n filled rest fill done e reject =>
    obtain ⟨fits', -, same⟩ := fits_of_fill small fits fill
    have turn := accounts_answerPending small filled peer fits'
    rw [Progress.Accounts, reject] at turn
    rw [← same, turn.2, Session.transcript_behind, turn.1.transcript_session]
    exact Transcript.behind_last _ _
  | case6 b incoming peer n filled rest fill done receive ih =>
    obtain ⟨fits', ending, same⟩ := fits_of_fill small fits fill
    have turn := accounts_answerPending small filled peer fits'
    rw [Progress.Accounts, receive] at turn
    obtain ⟨fits'', waits', turn⟩ := turn
    rw [← same, turn, ← ending, Prod.map_fst, Session.transcript_behind,
      ih fits''.shift rfl waits'.shift whole]
    rfl

/-- The answers of a connection are those of the transcript of all bytes of its client. -/
theorem transcript_run (small : s.requests.maxSize < ReceiveBuffer.allocationLimit)
    (whole : (s.run incoming peer).dropped = none) :
    (s.run incoming peer).transcript =
      s.transcript incoming.ending incoming.chunks.flatten :=
  transcript_converse small (ReceiveBuffer.fits_new s.requests) rfl s.waits_new whole

/-- If reading does not fail and no write does, there is no failure to report. -/
theorem result_converse (small : s.requests.maxSize < ReceiveBuffer.allocationLimit)
    (fits : b.Fits s.requests) (reads : ∀ kind, incoming.ending ≠ .failed kind)
    (complete : (s.converse b incoming peer).1.IsComplete) :
    (s.converse b incoming peer).1.result = .ok () := by
  fun_induction converse s b incoming peer with
  | case1 b incoming peer e filled rest fill =>
    have request : e.OfRequest := by
      rcases fits.fill_cases small incoming with ⟨failed, -⟩ | ⟨size, -, -, -, h⟩
      · rw [fill] at failed
        cases failed
        intro kind same
        cases same
      · rcases h with ⟨-, ended⟩ | ⟨bytes, rest', -, -, -, read⟩
        · rw [fill] at ended
          cases ending : incoming.ending with
          | ended =>
            rw [ending] at ended
            cases ended
          | silent =>
            rw [ending] at ended
            cases ended
            intro kind same
            cases same
          | failed kind => exact absurd ending (reads kind)
        · rw [fill] at read
          cases read
    exact complete.rejection (by rw [request.session_eq]; exact Option.some_ne_none e)
  | case2 => rfl
  | case3 => rfl
  | case4 => rfl
  | case5 b incoming peer n filled rest fill done e reject =>
    obtain ⟨fits', -, -⟩ := fits_of_fill small fits fill
    have turn := accounts_answerPending small filled peer fits'
    rw [Progress.Accounts, reject] at turn
    refine complete.rejection ?_
    rw [turn.1.session_eq]
    exact Option.some_ne_none e
  | case6 b incoming peer n filled rest fill done receive ih =>
    obtain ⟨fits', ending, -⟩ := fits_of_fill small fits fill
    have turn := accounts_answerPending small filled peer fits'
    rw [Progress.Accounts, receive] at turn
    exact ih turn.1.shift (ending ▸ reads) ⟨complete.responses, complete.rejection⟩

/-- A client that reads everything gets the answers of the transcript of all its bytes. -/
theorem wire_run_attentive (small : s.requests.maxSize < ReceiveBuffer.allocationLimit)
    (incoming : Incoming) : (s.run incoming .attentive).wire =
      (s.transcript incoming.ending incoming.chunks.flatten).wire := by
  have complete := s.isComplete_run_attentive incoming
  rw [run, wire_converse complete]
  exact congrArg Transcript.wire (transcript_run small complete.responses)

/-- If no write fails, a connection writes the answers of the transcript of all bytes of its client,
however they were cut into reads. -/
theorem wire_run_eq_transcript (s : Service)
    (small : s.requests.maxSize < ReceiveBuffer.allocationLimit) (incoming : Incoming) (peer : Peer)
    (complete : (s.run incoming peer).IsComplete) :
    (s.run incoming peer).wire =
      (s.transcript incoming.ending incoming.chunks.flatten).wire := by
  rw [run, wire_converse complete]
  exact congrArg Transcript.wire (transcript_run small complete.responses)

/-- A service without files, whose storage starts with one byte. -/
def sample : Service :=
  { requests := { initialSize := 1, maxSize := 64 }, docs := ⟨⟨.directory true [], []⟩, false⟩ }

/-- Two requests, both cut in the empty line behind their heads, and a third without an end. -/
def sampleChunks : List Bytes :=
  [.ofString "GET /api/ HTTP/1.1\r\nA: b\r\n\r", .ofString "\nGET /api/ HTTP/1.1\r\nA: b\r",
   .ofString "\n\r\nG"]

/-- The response to each of the two requests. -/
def sampleResponse : Response := .text .ok Route.helloText

theorem wire_run_sampleChunks :
    sample.requests.maxSize < ReceiveBuffer.allocationLimit ∧
      (sample.run ⟨sampleChunks, .ended⟩ .attentive).IsComplete ∧
      (sample.run ⟨sampleChunks, .ended⟩ .attentive).wire =
        sampleResponse.bytes ++ sampleResponse.bytes := by
  have small : sample.requests.maxSize < ReceiveBuffer.allocationLimit := by decide
  have complete := sample.isComplete_run_attentive ⟨sampleChunks, .ended⟩
  have first : sample.judge sampleChunks.flatten = .answered sampleResponse 28 := rfl
  have second : sample.judge (sampleChunks.flatten.drop 28) = .answered sampleResponse 28 := rfl
  have last : sample.judge ((sampleChunks.flatten.drop 28).drop 28) = .headMissing := rfl
  refine ⟨small, complete, ?_⟩
  rw [wire_run_eq_transcript sample small _ _ complete, transcript_of_answered first, answersTo,
    transcript_of_answered second, answersTo, transcript_of_missing (.inl ⟨last, by decide⟩)]
  rfl

end Service
end HttpServer
