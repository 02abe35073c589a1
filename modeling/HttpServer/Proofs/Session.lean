import HttpServer.Proofs.Framing
import HttpServer.Proofs.Sending
/-!
# What a session writes

A session is complete if none of its writes failed. It has written its responses one behind the
other and the rejection behind them (`wire_converse`). Of the responses only the last can ask for the
end of the connection, and none does before a rejection (`orderly_converse`).

To a peer that accepts everything every session is complete (`isComplete_run_attentive`): the files
that are served hold what was announced.
-/
namespace HttpServer

/-! ## Complete sessions -/

/-- No write of the session failed: no response was cut off, and the rejection, if there was one, was
sent. -/
structure Session.IsComplete (t : Session) : Prop where
  responses : t.dropped = none
  rejection : t.rejection ≠ none → t.result = .ok ()

/-- The bytes of all answers that the session began. -/
def Session.answers (t : Session) : Bytes :=
  t.responses.flatMap Response.bytes ++ t.rejection.elim [] Rejection.wire

/-- No response stands before a rejection that is answered at once. -/
theorem Rejection.responses_session (e : Rejection) (peer : Peer) :
    (e.session peer).responses = [] := by
  cases e <;> rfl

/-- The session of a rejection that lies in the request. -/
theorem Rejection.OfRequest.session_eq {e : Rejection} (h : e.OfRequest) (peer : Peer) :
    e.session peer =
      { wire := e.wire.take (e.send peer).sent
        rejection := some e
        peer := (e.send peer).peer
        result := (e.send peer).result.mapError IoError.kind } := by
  cases e with
  | io kind => exact absurd rfl (h kind)
  | _ => rfl

/-- A rejection that is sent without a failure is sent as a whole. -/
theorem Rejection.wire_session {e : Rejection} {peer : Peer} (h : (e.session peer).IsComplete) :
    (e.session peer).wire = (e.session peer).answers := by
  by_cases request : e.OfRequest
  · rw [request.session_eq] at h ⊢
    have ok : (e.send peer).result = .ok () := by
      have mapped := h.rejection (by simp)
      cases done : (e.send peer).result with
      | error failure =>
        rw [done] at mapped
        cases mapped
      | ok => rfl
    simp only [Session.answers, List.flatMap_nil, List.nil_append, Option.elim_some]
    rw [Rejection.send, sent_of_sendAll_ok ok, List.take_length]
  · obtain ⟨kind, rfl⟩ : ∃ kind, e = .io kind := by
      simpa only [Rejection.OfRequest, not_forall, not_not] using request
    rfl

namespace Service

variable {s : Service} {b : ReceiveBuffer} {incoming : Incoming} {peer : Peer}

/-! ## Rounds of a connection -/

/-- One round of answering, without the proof that it ends. -/
theorem answerPending_eq (s : Service) (b : ReceiveBuffer) (peer : Peer) :
    s.answerPending b peer =
      match (s.processNext b).result with
      | .error e => ⟨[], [], (s.processNext b).buffer, peer, .reject e⟩
      | .ok none => ⟨[], [], (s.processNext b).buffer, peer, .receive⟩
      | .ok (some response) =>
        let sent := response.send s.responses peer
        match sent.result with
        | .error e => ⟨sent.wire, [response], (s.processNext b).buffer, sent.peer, .drop e⟩
        | .ok () =>
          if response.shouldClose then
            ⟨sent.wire, [response], (s.processNext b).buffer, sent.peer, .close⟩
          else
            let rest := answerPending s (s.processNext b).buffer sent.peer
            { rest with wire := sent.wire ++ rest.wire, responses := response :: rest.responses } := by
  rw [answerPending]
  split
  · rename_i e h
    rw [h]
  · rename_i h
    rw [h]
  · rename_i response h
    rewrite [h]
    rfl

/-- One round of receiving and answering, without the proof that it ends. -/
theorem converse_eq (s : Service) (b : ReceiveBuffer) (incoming : Incoming) (peer : Peer) :
    s.converse b incoming peer =
      match b.fill incoming with
      | (⟨.error e, _⟩, rest) => (e.session peer, rest)
      | (⟨.ok 0, _⟩, rest) => ({ wire := [], peer }, rest)
      | (⟨.ok (_ + 1), filled⟩, rest) =>
        let done := s.answerPending filled peer
        match done.turn with
        | .close => (Session.behind { wire := [], peer := done.peer } done, rest)
        | .drop e => (Session.behind { wire := [], dropped := some e, peer := done.peer } done, rest)
        | .reject e => ((e.session done.peer).behind done, rest)
        | .receive => (converse s done.buffer.shift rest done.peer).map (·.behind done) id := by
  rw [converse]
  split
  · rename_i h
    rw [h]
  · rename_i h
    rw [h]
  · rename_i h
    rewrite [h]
    rfl

/-! ## Complete sessions on the wire -/

/-- What is answered is on the wire, unless a response was cut off. -/
theorem wire_answerPending (s : Service) (b : ReceiveBuffer) (peer : Peer)
    (h : ∀ failure, (s.answerPending b peer).turn ≠ .drop failure) :
    (s.answerPending b peer).wire = (s.answerPending b peer).responses.flatMap Response.bytes := by
  fun_induction answerPending s b peer with
  | case1 => rfl
  | case2 => rfl
  | case3 b peer response answered sent e failed => exact absurd rfl (h e)
  | case4 b peer response answered sent ok close =>
    simp only [sent, Response.wire_of_send_ok ok, List.flatMap_singleton]
  | case5 b peer response answered sent ok keep rest ih =>
    simp only [sent, Response.wire_of_send_ok ok, List.flatMap_cons, rest, ih h]

/-- A complete session has written all its answers and nothing else. -/
theorem wire_converse (h : (s.converse b incoming peer).1.IsComplete) :
    (s.converse b incoming peer).1.wire = (s.converse b incoming peer).1.answers := by
  fun_induction converse s b incoming peer with
  | case1 b incoming peer e => exact Rejection.wire_session h
  | case2 => rfl
  | case3 b incoming peer n filled rest fill done close =>
    have wire := s.wire_answerPending filled peer (fun e => by rw [close]; simp)
    simp only [Session.behind, Session.answers, done, wire, List.append_nil, Option.elim_none]
  | case4 b incoming peer n filled rest fill done failure drop =>
    have := h.responses
    cases this
  | case5 b incoming peer n filled rest fill done e reject =>
    have wire := s.wire_answerPending filled peer (fun e => by rw [reject]; simp)
    have last : (e.session done.peer).wire = (e.session done.peer).answers :=
      Rejection.wire_session ⟨h.responses, h.rejection⟩
    simp only [Session.behind, Session.answers, done, wire, last, List.flatMap_append,
      List.append_assoc]
  | case6 b incoming peer n filled rest fill done receive ih =>
    have wire := s.wire_answerPending filled peer (fun e => by rw [receive]; simp)
    have last := ih ⟨h.responses, h.rejection⟩
    simp only [Prod.map_fst, Session.behind, last, Session.answers, done, wire, List.flatMap_append,
      List.append_assoc]

/-! ## The order of answers -/

/-- Only the last of the responses can ask for the end of the connection, and even that does not if
more is to come. -/
structure Orderly (responses : List Response) (more : Prop) : Prop where
  before : ∀ r ∈ responses.dropLast, r.shouldClose = false
  last : more → ∀ r ∈ responses, r.shouldClose = false

theorem Orderly.append {rs rs' : List Response} {more : Prop}
    (keep : ∀ r ∈ rs, r.shouldClose = false) (h : Orderly rs' more) : Orderly (rs ++ rs') more := by
  refine ⟨fun r hr => ?_, fun hm => List.forall_mem_append.2 ⟨keep, h.last hm⟩⟩
  rw [List.dropLast_append] at hr
  split at hr
  · exact keep r (List.mem_of_mem_dropLast hr)
  · rcases List.mem_append.1 hr with hr | hr
    · exact keep r hr
    · exact h.before r hr

/-- Another answer can follow. -/
def Turn.GoesOn : Turn → Prop
  | receive | reject _ => True
  | close | drop _ => False

theorem orderly_answerPending (s : Service) (b : ReceiveBuffer) (peer : Peer) :
    Orderly (s.answerPending b peer).responses (s.answerPending b peer).turn.GoesOn := by
  fun_induction answerPending s b peer with
  | case1 => exact ⟨by simp, by simp⟩
  | case2 => exact ⟨by simp, by simp⟩
  | case3 => exact ⟨by simp, False.elim⟩
  | case4 => exact ⟨by simp, False.elim⟩
  | case5 b peer response answered sent ok keep rest ih =>
    exact Orderly.append (List.forall_mem_singleton.2 (Bool.not_eq_true _ ▸ keep)) ih

theorem orderly_converse (s : Service) (b : ReceiveBuffer) (incoming : Incoming) (peer : Peer) :
    Orderly (s.converse b incoming peer).1.responses ((s.converse b incoming peer).1.rejection ≠ none) := by
  fun_induction converse s b incoming peer with
  | case1 b incoming peer e =>
    rw [e.responses_session]
    exact ⟨by simp, by simp⟩
  | case2 => exact ⟨by simp, by simp⟩
  | case3 b incoming peer n filled rest fill done close =>
    simp only [Session.behind, List.append_nil]
    exact ⟨(s.orderly_answerPending filled peer).before, fun h => absurd rfl h⟩
  | case4 b incoming peer n filled rest fill done failure drop =>
    simp only [Session.behind, List.append_nil]
    exact ⟨(s.orderly_answerPending filled peer).before, fun h => absurd rfl h⟩
  | case5 b incoming peer n filled rest fill done e reject =>
    have keep := (s.orderly_answerPending filled peer).last (show done.turn.GoesOn by rw [reject]; trivial)
    simp only [Session.behind, e.responses_session, List.append_nil]
    exact ⟨fun r hr => keep r (List.mem_of_mem_dropLast hr), fun _ => keep⟩
  | case6 b incoming peer n filled rest fill done receive ih =>
    have keep := (s.orderly_answerPending filled peer).last (show done.turn.GoesOn by rw [receive]; trivial)
    exact Orderly.append keep ih

/-! ## What is answered -/

/-- What holds of every answer to a pending request holds of all responses of a session. -/
theorem forall_responses_answerPending {P : Response → Prop}
    (h : ∀ b r, (s.processNext b).result = .ok (some r) → P r) (b : ReceiveBuffer) (peer : Peer) :
    ∀ r ∈ (s.answerPending b peer).responses, P r := by
  fun_induction answerPending s b peer with
  | case1 => exact List.forall_mem_nil _
  | case2 => exact List.forall_mem_nil _
  | case3 b peer response answered => exact List.forall_mem_singleton.2 (h b response answered)
  | case4 b peer response answered => exact List.forall_mem_singleton.2 (h b response answered)
  | case5 b peer response answered sent ok keep rest ih =>
    exact List.forall_mem_cons.2 ⟨h b response answered, ih⟩

theorem forall_responses_converse {P : Response → Prop}
    (h : ∀ b r, (s.processNext b).result = .ok (some r) → P r) (b : ReceiveBuffer)
    (incoming : Incoming) (peer : Peer) : ∀ r ∈ (s.converse b incoming peer).1.responses, P r := by
  fun_induction converse s b incoming peer with
  | case1 b incoming peer e =>
    rw [e.responses_session]
    exact List.forall_mem_nil _
  | case2 => exact List.forall_mem_nil _
  | case3 b incoming peer n filled rest fill done close =>
    exact List.forall_mem_append.2
      ⟨forall_responses_answerPending h filled peer, List.forall_mem_nil _⟩
  | case4 b incoming peer n filled rest fill done failure drop =>
    exact List.forall_mem_append.2
      ⟨forall_responses_answerPending h filled peer, List.forall_mem_nil _⟩
  | case5 b incoming peer n filled rest fill done e reject =>
    rw [Session.behind, e.responses_session]
    exact List.forall_mem_append.2
      ⟨forall_responses_answerPending h filled peer, List.forall_mem_nil _⟩
  | case6 b incoming peer n filled rest fill done receive ih =>
    exact List.forall_mem_append.2 ⟨forall_responses_answerPending h filled peer, ih⟩

/-! ## Peers that accept everything -/

/-- Every file that is served can be sent as announced. -/
theorem isSendable_serve (root : DocumentRoot) (path : Bytes) :
    (StaticFile.serve root path).body.IsSendable := by
  rcases StaticFile.serve_cases root path with ⟨status, h⟩ | h | ⟨content, h⟩
  · rw [h]
    trivial
  · rw [h]
    trivial
  · rw [h]
    exact ⟨rfl, Nat.le_refl _⟩

theorem isSendable_respond (request : Request) (docs : DocumentRoot) (body path : Bytes) :
    (request.respond docs body path).body.IsSendable := by
  unfold Request.respond Response.withKeepAlive
  simp only
  cases Route.resolve request.knownMethod request.isApi path with
  | staticFile => exact isSendable_serve docs path
  | _ => trivial

theorem isSendable_processNext {r : Response} (h : (s.processNext b).result = .ok (some r)) :
    r.body.IsSendable := by
  obtain ⟨n, verdict, -⟩ := judge_of_processNext h
  cases judged_iff.2 verdict with
  | answered => exact isSendable_respond _ _ _ _

theorem answerPending_attentive (s : Service) (b : ReceiveBuffer) (hp : peer = .attentive) :
    (s.answerPending b peer).peer = .attentive ∧
      ∀ failure, (s.answerPending b peer).turn ≠ .drop failure := by
  fun_induction answerPending s b peer with
  | case1 => exact ⟨hp, by simp⟩
  | case2 => exact ⟨hp, by simp⟩
  | case3 b peer response answered sent e failed =>
    subst hp
    have ok := (Response.send_attentive (isSendable_processNext answered) s.responses).1
    rw [ok] at failed
    cases failed
  | case4 b peer response answered sent ok close =>
    subst hp
    exact ⟨(Response.send_attentive (isSendable_processNext answered) s.responses).2, by simp⟩
  | case5 b peer response answered sent ok keep rest ih =>
    subst hp
    exact ih (Response.send_attentive (isSendable_processNext answered) s.responses).2

theorem isComplete_session_attentive (e : Rejection) : (e.session .attentive).IsComplete := by
  by_cases request : e.OfRequest
  · rw [request.session_eq]
    refine ⟨rfl, fun _ => ?_⟩
    rw [Rejection.send, (sendAll_attentive _).1]
    rfl
  · obtain ⟨kind, rfl⟩ : ∃ kind, e = .io kind := by
      simpa only [Rejection.OfRequest, not_forall, not_not] using request
    exact ⟨rfl, fun h => absurd rfl h⟩

theorem isComplete_converse (s : Service) (b : ReceiveBuffer) (incoming : Incoming)
    (hp : peer = .attentive) : (s.converse b incoming peer).1.IsComplete := by
  fun_induction converse s b incoming peer with
  | case1 b incoming peer e => exact hp ▸ isComplete_session_attentive e
  | case2 => exact ⟨rfl, fun h => absurd rfl h⟩
  | case3 => exact ⟨rfl, fun h => absurd rfl h⟩
  | case4 b incoming peer n filled rest fill done failure drop =>
    exact absurd drop ((s.answerPending_attentive filled hp).2 failure)
  | case5 b incoming peer n filled rest fill done e reject =>
    have last := isComplete_session_attentive e
    rw [← (s.answerPending_attentive filled hp).1] at last
    exact ⟨last.responses, last.rejection⟩
  | case6 b incoming peer n filled rest fill done receive ih =>
    have last := ih (s.answerPending_attentive filled hp).1
    exact ⟨last.responses, last.rejection⟩

/-- No write to a peer that accepts everything fails. -/
theorem isComplete_run_attentive (s : Service) (incoming : Incoming) :
    (s.run incoming .attentive).IsComplete :=
  s.isComplete_converse _ incoming rfl

end Service
end HttpServer
