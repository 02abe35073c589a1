import HttpServer.Proofs.Dispatch
import HttpServer.Proofs.Echo
import HttpServer.ReceiveBuffer.Storage
/-!
# A request takes at least 21 bytes

The shortest head that is accepted has a method, a path, and a name and a value of one byte each. With
the version, the separators between them and the empty line behind it, it has 21 bytes
(`Service.le_of_answered`), and every request that is answered takes its head and its body from the
pending bytes. So a connection can be made to work only as far as it is sent bytes: it answers at most
one request for every 21 of them (`Service.responses_converse`), and a rejection at the end.

No request of 21 bytes is refused for its size alone, so the bound is reached (`Service.responses_smallest`).
-/
namespace HttpServer

open Bytes

/-! ## The shortest head -/

namespace Request

variable {limits : RequestLimits} {p : Bytes} {r : Request} {i : Nat}

theorem FieldText.WellFormed.length_line {f : FieldText} (h : f.WellFormed) : 3 ≤ f.line.length := by
  obtain ⟨name, -, value, -⟩ := h
  have := List.length_pos_iff.2 name
  have := List.length_pos_iff.2 value
  simp only [line, List.length_append, List.length_cons]
  omega

theorem HeadText.WellFormed.length_requestLine {t : HeadText} (h : t.WellFormed limits) :
    12 ≤ t.requestLine.length := by
  have := List.length_pos_iff.2 h.method.1
  have := List.length_pos_iff.2 h.path.1
  obtain ⟨before, after⟩ := h.separated
  have version : servedVersion.length = 8 := by decide
  simp only [requestLine, spacing, List.length_append, List.length_replicate]
  omega

/-- A head has a request line and at least one field line, each with its end. -/
theorem HeadText.WellFormed.length_render {t : HeadText} (h : t.WellFormed limits) :
    19 ≤ t.render.length := by
  obtain ⟨f, fs, fields⟩ := List.exists_cons_of_ne_nil h.count.1
  have first := (h.fields f (fields ▸ List.mem_cons_self)).length_line
  have requestLine := h.length_requestLine
  have crlfLength : crlf.length = 2 := rfl
  simp only [render, fields, List.flatMap_cons, List.length_append, crlfLength]
  omega

/-- An accepted head has at least 21 bytes, up to the end of the empty line behind it. -/
theorem le_of_accepted (head : indexOf? blankLine p = some i)
    (parsed : parse limits (p.take (i + 2)) = .ok r) : 21 ≤ i + 4 := by
  obtain ⟨t, text, wellFormed, -⟩ := exists_headText head parsed
  have length := wellFormed.length_render
  rw [text, List.length_take] at length
  omega

end Request

theorem Incoming.remaining_read_le (i : Incoming) (room : Nat) :
    (i.read room).2.remaining ≤ i.remaining := by
  cases read : (i.read room).1 with
  | received bytes =>
    have := remaining_read read
    omega
  | _ =>
    unfold Incoming.read at read ⊢
    cases chunks : i.chunks.dropWhile List.isEmpty with
    | nil => exact Nat.zero_le _
    | cons chunk rest =>
      rw [chunks] at read
      cases read

namespace ReceiveBuffer

variable {b b' filled : ReceiveBuffer} {incoming rest : Incoming} {n : Nat}

theorem pending_makeRoom (h : b.makeRoom = .ok b') : b'.pending = b.pending := by
  unfold makeRoom grow resize at h
  split at h
  · split at h
    · cases h
    · split at h
      · cases h
      · cases h
        rfl
  · cases h
    rfl

theorem pending_reserve (b : ReceiveBuffer) (total : Nat) :
    (b.reserve total).buffer.pending = b.pending := by
  unfold reserve resize
  split
  · rfl
  · split
    · rfl
    · simp only
      split
      · split
        · rfl
        · rename_i resized
          split at resized
          · cases resized
          · cases resized
            rfl
      · rfl

/-- The bytes that a read gives leave the stream and are pending. -/
theorem length_pending_fill (h : b.fill incoming = (⟨.ok n, filled⟩, rest)) :
    filled.pending.length = b.pending.length + n ∧ rest.remaining + n = incoming.remaining := by
  unfold fill at h
  split at h
  · cases h
  · rename_i b' made
    cases read : (incoming.read b'.room).1 with
    | received bytes =>
      have left := Incoming.remaining_read read
      simp only [read] at h
      cases h
      exact ⟨by rw [List.length_append, pending_makeRoom made], left⟩
    | silence =>
      simp only [read] at h
      cases h
    | failure kind =>
      simp only [read] at h
      cases h

/-- Nothing comes back to the stream, whatever becomes of a read. -/
theorem remaining_le_of_fill {outcome : Outcome Nat} (h : b.fill incoming = (outcome, rest)) :
    rest.remaining ≤ incoming.remaining := by
  obtain rfl : (b.fill incoming).2 = rest := congrArg Prod.snd h
  unfold fill
  split
  · exact Nat.le_refl _
  · rename_i b' _
    have le := incoming.remaining_read_le b'.room
    split <;> exact le

end ReceiveBuffer

namespace Service

variable {s : Service} {b : ReceiveBuffer} {p : Bytes} {r : Response} {n : Nat}

/-! ## What a connection can be made to answer -/

theorem le_of_answered (h : s.judge p = .answered r n) : 21 ≤ n := by
  cases judged_iff.2 h with
  | answered head parsed =>
    have := Request.le_of_accepted head parsed
    omega

/-- An answer takes at least 21 of the pending bytes. -/
theorem exists_of_processNext (h : (s.processNext b).result = .ok (some r)) :
    ∃ n, 21 ≤ n ∧ n ≤ b.pending.length ∧
      (s.processNext b).buffer.pending = b.pending.drop n := by
  obtain ⟨n, verdict, buffer⟩ := judge_of_processNext h
  exact ⟨n, le_of_answered verdict, (total_le_of_answered verdict).2.1, by rw [buffer]; rfl⟩

theorem length_pending_le (h : (s.processNext b).result = .ok (some r)) :
    21 + (s.processNext b).buffer.pending.length ≤ b.pending.length := by
  obtain ⟨n, enough, there, left⟩ := exists_of_processNext h
  rw [left, List.length_drop]
  omega

theorem length_pending_processNext_le (s : Service) (b : ReceiveBuffer) :
    (s.processNext b).buffer.pending.length ≤ b.pending.length := by
  rw [processNext_eq]
  cases s.judge b.pending with
  | bodyMissing total => exact Nat.le_of_eq (congrArg List.length (b.pending_reserve total))
  | answered r n => exact (List.drop_sublist n b.pending).length_le
  | _ => exact Nat.le_refl _

/-- The answers of a turn, at 21 bytes each, and what the turn leaves pending were pending before. -/
theorem responses_answerPending (s : Service) (b : ReceiveBuffer) (peer : Peer) :
    21 * (s.answerPending b peer).responses.length + (s.answerPending b peer).buffer.pending.length ≤
      b.pending.length := by
  fun_induction answerPending s b peer with
  | case1 b peer => simpa using s.length_pending_processNext_le b
  | case2 b peer => simpa using s.length_pending_processNext_le b
  | case3 b peer response answered => exact length_pending_le answered
  | case4 b peer response answered => exact length_pending_le answered
  | case5 b peer response answered sent ok keep rest ih =>
    have first := length_pending_le answered
    simp only [rest, List.length_cons]
    omega

/-- The answers of the turn after a read were received or pending before the read. -/
theorem responses_answerPending_fill {incoming rest : Incoming} {filled : ReceiveBuffer}
    (fill : b.fill incoming = (⟨.ok n, filled⟩, rest)) (s : Service) (peer : Peer) :
    21 * (s.answerPending filled peer).responses.length +
        (s.answerPending filled peer).buffer.pending.length + rest.remaining ≤
      b.pending.length + incoming.remaining := by
  have turn := s.responses_answerPending filled peer
  obtain ⟨pending, left⟩ := ReceiveBuffer.length_pending_fill fill
  omega

/-- All answers of a connection but a rejection, at 21 bytes each, and what is left of the stream were
pending or to be received before. -/
theorem responses_converse (s : Service) (b : ReceiveBuffer) (incoming : Incoming) (peer : Peer) :
    21 * (s.converse b incoming peer).1.responses.length +
        (s.converse b incoming peer).2.remaining ≤ b.pending.length + incoming.remaining := by
  fun_induction converse s b incoming peer with
  | case1 b incoming peer e filled rest fill =>
    rw [e.responses_session]
    exact Nat.le_add_left_of_le (by simpa using ReceiveBuffer.remaining_le_of_fill fill)
  | case2 b incoming peer filled rest fill =>
    exact Nat.le_add_left_of_le (by simpa using ReceiveBuffer.remaining_le_of_fill fill)
  | case3 b incoming peer n filled rest fill done close =>
    have turn := responses_answerPending_fill fill s peer
    simp only [Session.behind, List.append_nil, done]
    omega
  | case4 b incoming peer n filled rest fill done failure drop =>
    have turn := responses_answerPending_fill fill s peer
    simp only [Session.behind, List.append_nil, done]
    omega
  | case5 b incoming peer n filled rest fill done e reject =>
    have turn := responses_answerPending_fill fill s peer
    simp only [Session.behind, e.responses_session, List.append_nil, done]
    omega
  | case6 b incoming peer n filled rest fill done receive ih =>
    have turn := responses_answerPending_fill fill s peer
    simp only [Prod.map_fst, Prod.map_snd, id, Session.behind, List.length_append, done]
    simp only [ReceiveBuffer.shift, done] at ih ⊢
    omega

/-! ## The bound is reached -/

/-- The parts of the shortest head. -/
def smallestHead : Request.HeadText :=
  { method := .ofString "A", spacesBefore := 1, path := .ofString "/", spacesAfter := 1
    fields := [⟨.ofString "A", 0, .ofString "b"⟩] }

/-- A request of 21 bytes. -/
def smallest : Bytes := .ofString "A / HTTP/1.1\r\nA:b\r\n\r\n"

/-- The shortest request asks for something that no method stands for. -/
def smallestResponse : Response := .text .methodNotAllowed Route.unsupportedMethodText

theorem wellFormed_smallestHead {limits : RequestLimits} (hasFields : 1 ≤ limits.maxFields) :
    smallestHead.WellFormed limits := by
  have unknown : Method.ofToken? smallestHead.method = none := by decide
  refine ⟨by decide, by decide, by decide, by decide, ⟨List.cons_ne_nil _ _, hasFields⟩, ?_, by decide,
    0, by decide, fun other => absurd rfl other⟩
  intro f hf
  obtain rfl := List.mem_singleton.1 hf
  exact ⟨by decide, by decide, by decide, by decide, by decide⟩

/-- The shortest request is answered, whatever follows. -/
theorem judge_smallest (fits : 21 ≤ s.requests.maxSize) (hasFields : 1 ≤ s.requests.maxFields)
    (rest : Bytes) : s.judge (smallest ++ rest) = .answered smallestResponse 21 := by
  have text : smallest = smallestHead.render ++ crlf ++ [] := by decide
  have size : smallestHead.render.length + 2 = 21 := by decide
  have noBody : smallestHead.contentLength = some ([] : Bytes).length := rfl
  have resolved : smallestHead.request.resolvePath = .ok ⟨[slash], [slash]⟩ := rfl
  rw [text, judge_render (wellFormed_smallestHead hasFields) noBody (by rw [size]; exact fits) resolved rest,
    size]
  rfl

/-- Requests of 21 bytes each are all answered. -/
theorem responses_smallest (fits : 21 ≤ s.requests.maxSize) (hasFields : 1 ≤ s.requests.maxFields)
    (h : b.pending = (List.replicate n smallest).flatten) :
    (s.answerPending b .attentive).responses = List.replicate n smallestResponse := by
  induction n generalizing b with
  | zero =>
    have waiting : (s.processNext b).result = .ok none := by
      rw [processNext_eq, h]
      rfl
    rw [answerPending_eq, waiting]
    rfl
  | succ n ih =>
    rw [List.replicate_succ, List.flatten_cons] at h
    have next : s.processNext b = ⟨.ok (some smallestResponse), b.consume 21⟩ := by
      rw [processNext_eq, h, judge_smallest fits hasFields]
      rfl
    have rest : (b.consume 21).pending = (List.replicate n smallest).flatten := by
      change b.pending.drop 21 = _
      have size : smallest.length = 21 := by decide
      rw [h, ← size, List.drop_left]
    rw [answerPending_attentive_of_answered (congrArg (·.result) next), next]
    exact congrArg (smallestResponse :: ·) (ih rest)

/-- Every request that is answered takes at least 21 of the pending bytes. So a turn answers at most one
request for every 21 pending bytes, whatever becomes of the responses, and a connection at most one for
every 21 bytes that it has received, and a rejection behind them. As many are answered if the requests
are as short as that. -/
theorem answered_le_received (s : Service) :
    (∀ b r, (s.processNext b).result = .ok (some r) →
      ∃ n, 21 ≤ n ∧ n ≤ b.pending.length ∧ (s.processNext b).buffer.pending = b.pending.drop n) ∧
    (∀ b peer, (s.answerPending b peer).responses.length ≤ b.pending.length / 21) ∧
    (∀ incoming peer,
      let received := (incoming.taken (s.converse (.new s.requests) incoming peer).2).length
      (s.run incoming peer).responses.length ≤ received / 21 ∧
        (s.run incoming peer).answered.length ≤ received / 21 + 1) ∧
    (21 ≤ s.requests.maxSize → 1 ≤ s.requests.maxFields → ∀ b n,
      b.pending = (List.replicate n smallest).flatten →
        b.pending.length = 21 * n ∧ (s.answerPending b .attentive).responses.length = n) := by
  refine ⟨fun b r => exists_of_processNext, fun b peer => ?_, fun incoming peer => ?_,
    fun fits hasFields b n pending => ?_⟩
  · have := s.responses_answerPending b peer
    omega
  · have all := s.responses_converse (.new s.requests) incoming peer
    have received : (incoming.taken (s.converse (.new s.requests) incoming peer).2).length =
        incoming.remaining - (s.converse (.new s.requests) incoming peer).2.remaining := by
      rw [Incoming.taken, List.length_take]
      exact Nat.min_eq_left (Nat.sub_le _ _)
    have responses : (s.run incoming peer).responses.length ≤
        (incoming.taken (s.converse (.new s.requests) incoming peer).2).length / 21 := by
      rw [received, run]
      simp only [ReceiveBuffer.new, List.length_nil] at all ⊢
      omega
    have last : ((s.run incoming peer).rejection.toList.map Rejection.response).length ≤ 1 := by
      cases (s.run incoming peer).rejection <;> simp
    refine ⟨responses, ?_⟩
    rw [Session.answered, List.length_append]
    exact Nat.add_le_add responses last
  · rw [responses_smallest fits hasFields pending, pending]
    have size : smallest.length = 21 := by decide
    exact ⟨by simp [size, Nat.mul_comm], List.length_replicate⟩

/-- A buffer with three of the shortest requests. -/
def sampleThree : ReceiveBuffer :=
  { pending := (List.replicate 3 smallest).flatten, size := 64, maxSize := 64 }

theorem answered_sampleThree :
    (sample.processNext sampleThree).result = .ok (some smallestResponse) ∧
      (∃ n, 21 ≤ n ∧ n ≤ sampleThree.pending.length ∧
        (sample.processNext sampleThree).buffer.pending = sampleThree.pending.drop n) ∧
      sampleThree.pending.length = 21 * 3 ∧
      (sample.answerPending sampleThree .attentive).responses.length = 3 := by
  obtain ⟨takes, -, -, reached⟩ := answered_le_received sample
  have next : (sample.processNext sampleThree).result = .ok (some smallestResponse) := rfl
  exact ⟨next, takes _ _ next, reached (by decide) (by decide) sampleThree 3 rfl⟩

end Service
end HttpServer
