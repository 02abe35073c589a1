import HttpServer.Connection.Dispatch
import HttpServer.Proofs.Script
import HttpServer.Proofs.Transcript
/-!
# A failing write is the last

What a connection answers is found before it is sent, and sending never changes it: a session with any
peer is what that peer takes of the session with one that accepts everything
(`Service.run_eq_sentTo`). So its bytes are the start of the bytes of that session, and its writes are
those of a dispatch and of the rejection behind it, which follow the script of the peer
(`Session.followsScript_sentTo`).
-/
namespace HttpServer

variable {limits : ResponseLimits} {r : Response} {rs : List Response} {peer : Peer} {e : SendError}

/-! ## Dispatches -/

theorem dispatch_cons_of_error (h : (r.send limits peer).result = .error e) (rs : List Response) :
    dispatch limits (r :: rs) peer =
      ⟨(r.send limits peer).wire, [r], (r.send limits peer).peer, some e⟩ := by
  simp only [dispatch, h]

theorem dispatch_cons_of_ok (h : (r.send limits peer).result = .ok ()) (rs : List Response) :
    dispatch limits (r :: rs) peer =
      (Dispatch.mk (r.send limits peer).wire [r] (r.send limits peer).peer none).followedBy
        (dispatch limits rs (r.send limits peer).peer) := by
  simp only [dispatch, h]

/-- Nothing follows a response that was cut off. -/
theorem dispatch_append_of_failure (h : (dispatch limits rs peer).failure = some e)
    (rs' : List Response) : dispatch limits (rs ++ rs') peer = dispatch limits rs peer := by
  induction rs generalizing peer with
  | nil => cases h
  | cons r rs ih =>
    rw [List.cons_append]
    cases sent : (r.send limits peer).result with
    | error e => rw [dispatch_cons_of_error sent, dispatch_cons_of_error sent]
    | ok =>
      rw [dispatch_cons_of_ok sent] at h ⊢
      rw [dispatch_cons_of_ok sent, ih h]

theorem dispatch_append_of_none (h : (dispatch limits rs peer).failure = none)
    (rs' : List Response) :
    dispatch limits (rs ++ rs') peer =
      (dispatch limits rs peer).followedBy (dispatch limits rs' (dispatch limits rs peer).peer) := by
  induction rs generalizing peer with
  | nil => rfl
  | cons r rs ih =>
    rw [List.cons_append]
    cases sent : (r.send limits peer).result with
    | error e =>
      rw [dispatch_cons_of_error sent] at h
      cases h
    | ok =>
      rw [dispatch_cons_of_ok sent] at h ⊢
      rw [dispatch_cons_of_ok sent, ih h]
      simp only [Dispatch.followedBy, List.append_assoc]

/-- What is accepted is the start of the responses, and all of them if none is cut off. -/
theorem wire_dispatch_prefix (limits : ResponseLimits) (rs : List Response) (peer : Peer) :
    (dispatch limits rs peer).wire <+: rs.flatMap Response.bytes ∧
      ((dispatch limits rs peer).failure = none →
        (dispatch limits rs peer).wire = rs.flatMap Response.bytes) := by
  induction rs generalizing peer with
  | nil => exact ⟨List.prefix_rfl, fun _ => rfl⟩
  | cons r rs ih =>
    rw [List.flatMap_cons]
    cases sent : (r.send limits peer).result with
    | error e =>
      rw [dispatch_cons_of_error sent]
      exact ⟨(r.wire_send_prefix limits peer).trans (List.prefix_append _ _), nofun⟩
    | ok =>
      obtain ⟨start, whole⟩ := ih (r.send limits peer).peer
      rw [dispatch_cons_of_ok sent]
      simp only [Dispatch.followedBy, Response.wire_of_send_ok sent]
      exact ⟨(List.prefix_append_right_inj _).2 start, fun h => by rw [whole h]⟩

/-- What becomes of the writes of a dispatch. -/
def Dispatch.writes (d : Dispatch) : Bool × Peer := (d.failure.isNone, d.peer)

theorem writes_dispatch_cons (limits : ResponseLimits) (r : Response) (rs : List Response) :
    (fun peer => (dispatch limits (r :: rs) peer).writes) =
      Writes.andThen (fun peer => (r.send limits peer).writes)
        (fun peer => (dispatch limits rs peer).writes) := by
  funext peer
  cases sent : (r.send limits peer).result with
  | error e =>
    rw [dispatch_cons_of_error sent, Writes.andThen_of_false (by rw [Delivery.writes, sent]; rfl)]
    rfl
  | ok =>
    rw [dispatch_cons_of_ok sent, Writes.andThen_of_true (by rw [Delivery.writes, sent]; rfl)]
    rfl

theorem followsScript_dispatch (h : ∀ r ∈ rs, r.body.IsSendable) (limits : ResponseLimits) :
    FollowsScript fun peer => (dispatch limits rs peer).writes := by
  induction rs with
  | nil => exact followsScript_nothing
  | cons r rs ih =>
    obtain ⟨hr, h⟩ := List.forall_mem_cons.1 h
    rw [writes_dispatch_cons]
    exact (Response.followsScript_send hr limits).andThen (ih h)

namespace Service

variable {s : Service} {b : ReceiveBuffer} {incoming : Incoming}

/-- What a turn would do with a peer that accepts everything, and what it does when a dispatch of the
same responses goes so: it ends as it would then, unless a response cannot be sent. -/
structure Progress.SentTo (all done : Progress) (sent : Dispatch) : Prop where
  wire : done.wire = sent.wire
  responses : done.responses = sent.begun
  peer : done.peer = sent.peer
  turn : done.turn = sent.failure.elim all.turn .drop
  buffer : sent.failure = none → done.buffer = all.buffer

/-- A turn that is not given up has sent everything. -/
theorem Progress.SentTo.whole {all done : Progress} {sent : Dispatch} (h : all.SentTo done sent)
    (kept : ∀ e, done.turn ≠ .drop e) :
    sent.failure = none ∧ all.turn = done.turn ∧ done.buffer = all.buffer := by
  have turn := h.turn
  cases failure : sent.failure with
  | some e =>
    rw [failure] at turn
    exact absurd turn (kept e)
  | none =>
    rw [failure] at turn
    exact ⟨rfl, turn.symm, h.buffer failure⟩

/-- With a peer that accepts everything, an answered request is followed by the next. -/
theorem answerPending_attentive_of_answered (answered : (s.processNext b).result = .ok (some r)) :
    s.answerPending b .attentive =
      if r.shouldClose then ⟨r.bytes, [r], (s.processNext b).buffer, .attentive, .close⟩
      else
        let rest := s.answerPending (s.processNext b).buffer .attentive
        { rest with wire := r.bytes ++ rest.wire, responses := r :: rest.responses } := by
  obtain ⟨ok, peer⟩ := Response.send_attentive (isSendable_processNext answered) s.responses
  rw [answerPending_eq, answered]
  simp only [ok, peer, Response.wire_of_send_ok ok]

theorem sentTo_answerPending (s : Service) (b : ReceiveBuffer) (peer : Peer) :
    (s.answerPending b .attentive).SentTo (s.answerPending b peer)
      (dispatch s.responses (s.answerPending b .attentive).responses peer) := by
  fun_induction answerPending s b peer with
  | case1 b peer e refused =>
    rw [answerPending_eq, refused]
    exact ⟨rfl, rfl, rfl, rfl, fun _ => rfl⟩
  | case2 b peer waiting =>
    rw [answerPending_eq, waiting]
    exact ⟨rfl, rfl, rfl, rfl, fun _ => rfl⟩
  | case3 b peer response answered sent e failed =>
    rw [answerPending_attentive_of_answered answered]
    split <;> simp only [dispatch_cons_of_error failed] <;>
      exact ⟨rfl, rfl, rfl, rfl, fun h => absurd h (Option.some_ne_none e)⟩
  | case4 b peer response answered sent ok close =>
    rw [answerPending_attentive_of_answered answered, if_pos close, dispatch_cons_of_ok ok]
    refine ⟨(List.append_nil _).symm, rfl, rfl, rfl, fun _ => rfl⟩
  | case5 b peer response answered sent ok keep rest ih =>
    rw [answerPending_attentive_of_answered answered, if_neg keep]
    simp only [dispatch_cons_of_ok ok]
    obtain ⟨wire, responses, peer', turn, buffer⟩ := ih
    refine ⟨?_, ?_, peer', turn, buffer⟩
    · simp only [Dispatch.followedBy, rest, wire]
      rfl
    · simp only [Dispatch.followedBy, rest, responses]
      rfl

end Service

/-! ## Sessions -/

namespace Session

variable {t : Session} {all : Service.Progress}

/-- The session that goes on with `t` behind the responses of a dispatch. -/
def after (t : Session) (done : Dispatch) : Session :=
  { t with wire := done.wire ++ t.wire, responses := done.begun ++ t.responses }

theorem sentTo_behind_of_failure (h : (dispatch limits all.responses peer).failure = some e) :
    (t.behind all).sentTo limits peer =
      { wire := (dispatch limits all.responses peer).wire
        responses := (dispatch limits all.responses peer).begun
        dropped := some e
        peer := (dispatch limits all.responses peer).peer } := by
  simp only [sentTo, behind, dispatch_append_of_failure h, h]

theorem sentTo_behind_of_none (h : (dispatch limits all.responses peer).failure = none) :
    (t.behind all).sentTo limits peer =
      (t.sentTo limits (dispatch limits all.responses peer).peer).after
        (dispatch limits all.responses peer) := by
  simp only [sentTo, behind, dispatch_append_of_none h, Dispatch.followedBy]
  cases (dispatch limits t.responses (dispatch limits all.responses peer).peer).failure with
  | some e => rfl
  | none => simp only [after, List.append_assoc]; rfl

end Session

theorem Rejection.sentTo_session (reason : Rejection) (limits : ResponseLimits) (peer : Peer) :
    (reason.session .attentive).sentTo limits peer = reason.session peer := by
  cases reason <;> rfl

namespace Service

variable {s : Service} {b : ReceiveBuffer} {incoming : Incoming}

theorem Progress.SentTo.behind_eq_after {all done : Progress} {sent : Dispatch}
    (h : all.SentTo done sent) (t : Session) : t.behind done = t.after sent := by
  rw [Session.behind, Session.after, h.wire, h.responses]

theorem Progress.SentTo.failure_of_drop {all done : Progress} {sent : Dispatch}
    (h : all.SentTo done sent) (kept : ∀ e, all.turn ≠ .drop e) (drop : done.turn = .drop e) :
    sent.failure = some e := by
  have turn := h.turn
  rw [drop] at turn
  cases failure : sent.failure with
  | some e' =>
    rw [failure] at turn
    cases turn
    rfl
  | none =>
    rw [failure] at turn
    exact absurd turn.symm (kept e)

/-- How a session goes on after a turn. -/
def afterTurn (s : Service) (rest : Incoming) (done : Progress) : Session :=
  match done.turn with
  | .close => { wire := [], peer := done.peer }
  | .drop e => { wire := [], dropped := some e, peer := done.peer }
  | .reject e => e.session done.peer
  | .receive => (s.converse done.buffer.shift rest done.peer).1

theorem converse_of_received {n : Nat} {filled : ReceiveBuffer} {rest : Incoming}
    (fill : b.fill incoming = (⟨.ok (n + 1), filled⟩, rest)) (peer : Peer) :
    (s.converse b incoming peer).1 =
      (s.afterTurn rest (s.answerPending filled peer)).behind (s.answerPending filled peer) := by
  rw [converse_eq, fill, afterTurn]
  simp only
  cases (s.answerPending filled peer).turn <;> rfl

/-- The peer decides nothing but how far the answers get. -/
theorem converse_eq_sentTo (s : Service) (b : ReceiveBuffer) (incoming : Incoming) (peer : Peer) :
    (s.converse b incoming peer).1 =
      (s.converse b incoming .attentive).1.sentTo s.responses peer := by
  -- by induction on what is left to read; a turn that is not given up has left the same buffer
  fun_induction converse s b incoming peer with
  | case1 b incoming peer e filled rest fill =>
    rw [converse_eq, fill]
    exact (e.sentTo_session s.responses peer).symm
  | case2 b incoming peer filled rest fill =>
    rw [converse_eq, fill]
    rfl
  | case3 b incoming peer n filled rest fill done close =>
    have sends := s.sentTo_answerPending filled peer
    obtain ⟨sent, turn, -⟩ := sends.whole (fun _ drop => by cases close.symm.trans drop)
    rw [converse_of_received fill, Session.sentTo_behind_of_none sent, ← sends.behind_eq_after,
      ← sends.peer, afterTurn, turn.trans close]
    rfl
  | case4 b incoming peer n filled rest fill done failure drop =>
    have sends := s.sentTo_answerPending filled peer
    have cut := sends.failure_of_drop (s.answerPending_attentive filled rfl).2 drop
    rw [converse_of_received fill, Session.sentTo_behind_of_failure cut, ← sends.wire,
      ← sends.responses, ← sends.peer, Session.behind, List.append_nil, List.append_nil]
  | case5 b incoming peer n filled rest fill done e reject =>
    have sends := s.sentTo_answerPending filled peer
    obtain ⟨sent, turn, -⟩ := sends.whole (fun _ drop => by cases reject.symm.trans drop)
    rw [converse_of_received fill, Session.sentTo_behind_of_none sent, ← sends.behind_eq_after,
      ← sends.peer, afterTurn, turn.trans reject]
    simp only [(s.answerPending_attentive filled rfl).1, e.sentTo_session]
    rfl
  | case6 b incoming peer n filled rest fill done receive ih =>
    have sends := s.sentTo_answerPending filled peer
    obtain ⟨sent, turn, buffer⟩ := sends.whole (fun _ drop => by cases receive.symm.trans drop)
    rw [converse_of_received fill, Session.sentTo_behind_of_none sent, ← sends.behind_eq_after,
      ← sends.peer, afterTurn, turn.trans receive]
    simp only [(s.answerPending_attentive filled rfl).1, ← buffer]
    rw [← ih, Prod.map_fst]

/-- A session with any peer is what its peer takes of the session with one that accepts everything. -/
theorem run_eq_sentTo (s : Service) (incoming : Incoming) (peer : Peer) :
    s.run incoming peer = (s.run incoming .attentive).sentTo s.responses peer :=
  s.converse_eq_sentTo _ incoming peer

end Service

/-! ## Where a session is cut off -/

namespace Session

/-- Whether no write of the session failed. -/
def succeeded (t : Session) : Bool := t.dropped.isNone && (t.rejection.isNone || t.result.isOk)

theorem isComplete_iff_succeeded {t : Session} : t.IsComplete ↔ t.succeeded = true := by
  have ok : t.result.isOk = true ↔ t.result = .ok () := by
    cases t.result with
    | error e => exact iff_of_false Bool.false_ne_true nofun
    | ok => exact iff_of_true rfl rfl
  rw [succeeded, Bool.and_eq_true, Bool.or_eq_true, Option.isNone_iff_eq_none,
    Option.isNone_iff_eq_none, ok]
  exact ⟨fun h => ⟨h.responses, Decidable.or_iff_not_imp_left.2 h.rejection⟩,
    fun h => ⟨h.1, Decidable.or_iff_not_imp_left.1 h.2⟩⟩

/-- What becomes of the writes of a session. -/
def writes (t : Session) : Bool × Peer := (t.succeeded, t.peer)

theorem writes_sentTo (t : Session) (limits : ResponseLimits) :
    (fun peer => (t.sentTo limits peer).writes) =
      Writes.andThen (fun peer => (dispatch limits t.responses peer).writes)
        (fun peer => (t.last peer).writes) := by
  funext peer
  rw [sentTo]
  cases failure : (dispatch limits t.responses peer).failure with
  | some e =>
    rw [Writes.andThen_of_false (by rw [Dispatch.writes, failure]; rfl)]
    rfl
  | none =>
    rw [Writes.andThen_of_true (by rw [Dispatch.writes, failure]; rfl)]
    rfl

theorem followsScript_last (t : Session) : FollowsScript fun peer => (t.last peer).writes := by
  unfold last
  cases t.rejection with
  | none => exact followsScript_nothing
  | some e =>
    by_cases request : e.OfRequest
    · have same : (fun peer => (e.session peer).writes) =
          fun peer => (sendAll e.wire.length peer).writes := by
        funext peer
        rw [request.session_eq, Transfer.writes, writes, succeeded, Rejection.send]
        cases (sendAll e.wire.length peer).result <;> rfl
      simp only [same]
      exact followsScript_sendAll _
    · obtain ⟨kind, rfl⟩ : ∃ kind, e = .io kind := by
        simpa only [Rejection.OfRequest, not_forall, not_not] using request
      exact followsScript_nothing

theorem followsScript_sentTo {t : Session} (h : ∀ r ∈ t.responses, r.body.IsSendable)
    (limits : ResponseLimits) : FollowsScript fun peer => (t.sentTo limits peer).writes := by
  rw [t.writes_sentTo]
  exact (followsScript_dispatch h limits).andThen t.followsScript_last

/-- Only what a rejection has to say stands behind the responses. -/
theorem wire_last_prefix (t : Session) (peer : Peer) :
    (t.last peer).wire <+: t.rejection.elim [] Rejection.wire := by
  unfold last
  cases t.rejection with
  | none => exact List.prefix_rfl
  | some e =>
    cases e with
    | io kind => exact List.nil_prefix
    | _ => exact List.take_prefix _ _

/-- A session sends the start of what it has to answer, and nothing behind a response that was cut
off. -/
theorem wire_sentTo_prefix (t : Session) (limits : ResponseLimits) (peer : Peer) :
    (t.sentTo limits peer).wire <+: t.answers := by
  obtain ⟨start, whole⟩ := wire_dispatch_prefix limits t.responses peer
  rw [sentTo, answers]
  cases failure : (dispatch limits t.responses peer).failure with
  | some e => exact start.trans (List.prefix_append _ _)
  | none =>
    simp only [whole failure]
    exact (List.prefix_append_right_inj _).2 (t.wire_last_prefix _)

/-- What is answered last lies in a request, since a failed transport takes no answer. -/
def AnswersRequest (t : Session) : Prop := ∀ e, t.rejection = some e → e.OfRequest

/-- A session in which no write fails sends all that it has to answer. -/
theorem wire_sentTo_of_isComplete {t : Session} {limits : ResponseLimits} {peer : Peer}
    (request : t.AnswersRequest) (h : (t.sentTo limits peer).IsComplete) :
    (t.sentTo limits peer).wire = t.answers := by
  obtain ⟨start, whole⟩ := wire_dispatch_prefix limits t.responses peer
  rw [sentTo] at h ⊢
  rw [answers]
  cases failure : (dispatch limits t.responses peer).failure with
  | some e =>
    rw [failure] at h
    cases h.responses
  | none =>
    simp only [failure] at h
    simp only [whole failure]
    congr 1
    unfold last at h ⊢
    cases rejected : t.rejection with
    | none => rfl
    | some e =>
      simp only [rejected] at h
      have sent := Rejection.wire_session ⟨h.responses, h.rejection⟩
      refine sent.trans ?_
      rw [answers, (request e rejected).session_eq]
      rfl

theorem rejection_sentTo (t : Session) (limits : ResponseLimits) (peer : Peer)
    (cut : (t.sentTo limits peer).dropped ≠ none) : (t.sentTo limits peer).rejection = none := by
  rw [sentTo] at cut ⊢
  cases failure : (dispatch limits t.responses peer).failure with
  | some e => rfl
  | none =>
    simp only [failure, last] at cut
    cases rejected : t.rejection with
    | none =>
      rw [rejected] at cut
      exact absurd rfl cut
    | some e =>
      rw [rejected] at cut
      cases e <;> exact absurd rfl cut

end Session

theorem Rejection.answersRequest_session (e : Rejection) (peer : Peer) :
    (e.session peer).AnswersRequest := by
  intro e' h
  cases e <;> cases h <;> exact fun _ => nofun

namespace Service

variable {s : Service}

theorem answersRequest_converse (s : Service) (b : ReceiveBuffer) (incoming : Incoming)
    (peer : Peer) : (s.converse b incoming peer).1.AnswersRequest := by
  fun_induction converse s b incoming peer with
  | case1 b incoming peer e => exact e.answersRequest_session peer
  | case2 b incoming peer filled rest fill => exact fun e h => by cases h
  | case3 b incoming peer n filled rest fill done close => exact fun e h => by cases h
  | case4 b incoming peer n filled rest fill done failure drop => exact fun e h => by cases h
  | case5 b incoming peer n filled rest fill done e reject => exact e.answersRequest_session _
  | case6 b incoming peer n filled rest fill done receive ih => exact ih

theorem isSendable_responses_run (s : Service) (incoming : Incoming) (peer : Peer) :
    ∀ r ∈ (s.run incoming peer).responses, r.body.IsSendable :=
  forall_responses_converse (fun _ _ answered => isSendable_processNext answered) _ incoming peer

/-- Whatever becomes of the writes of a connection, its wire is the start of what it would write if
none failed, and all of it if none fails; nothing stands behind a response that was cut off. The
write that fails for good is the last one: of a script exactly the outcomes up to that write are used,
and with only those before it no write would fail. -/
theorem wire_run_upTo_failure (s : Service) (incoming : Incoming) :
    (∀ peer, (s.run incoming peer).wire <+: (s.run incoming .attentive).wire ∧
      ((s.run incoming peer).IsComplete →
        (s.run incoming peer).wire = (s.run incoming .attentive).wire) ∧
      ((s.run incoming peer).dropped ≠ none → (s.run incoming peer).rejection = none)) ∧
    ∀ script, ¬ (s.run incoming (.scripted script)).IsComplete →
      ∃ before outcome rest, script = before ++ outcome :: rest ∧
        (s.run incoming (.scripted before)).IsComplete ∧
        (s.run incoming (.scripted script)).peer = .scripted rest := by
  have all : (s.run incoming .attentive).wire = (s.run incoming .attentive).answers :=
    wire_converse (s.isComplete_run_attentive incoming)
  refine ⟨fun peer => ?_, fun script incomplete => ?_⟩
  · rw [s.run_eq_sentTo incoming peer, all]
    exact ⟨Session.wire_sentTo_prefix _ _ _,
      Session.wire_sentTo_of_isComplete (s.answersRequest_converse _ incoming _),
      Session.rejection_sentTo _ _ _⟩
  · have follows := Session.followsScript_sentTo (s.isSendable_responses_run incoming .attentive)
      s.responses
    simp only [← s.run_eq_sentTo] at follows
    rw [Session.isComplete_iff_succeeded, Bool.not_eq_true] at incomplete
    obtain ⟨before, outcome, rest, rfl, peer, ok⟩ :=
      follows.fails script _ (Prod.ext incomplete rfl)
    refine ⟨before, outcome, rest, rfl, Session.isComplete_iff_succeeded.2 ?_, peer⟩
    exact congrArg Prod.fst ok

/-- A request and a line that is no request, sent at once. -/
def sampleTail : Incoming :=
  ⟨[.ofString "GET /api/ HTTP/1.1\r\nA: b\r\n\r\nBAD\r\n\r\n"], .ended⟩

/-- Ten bytes are accepted, a write is interrupted, and the next one takes nothing. -/
def sampleScript : List WriteOutcome :=
  [.accepts 10, .fails (.transport .interrupted ""), .accepts 0, .accepts 1000]

theorem send_sampleScript :
    sampleResponse.send sample.responses (.scripted sampleScript) =
      ⟨sampleResponse.head.take 10, .scripted [.accepts 1000], .error ⟨.header, .writeZero⟩⟩ := by
  have size : sampleResponse.head.length = 88 := by decide
  have cut : sendAll sampleResponse.head.length (.scripted sampleScript) =
      ⟨10, #[88, 78, 78], .scripted [.accepts 1000], .error .writeZero⟩ := by
    rw [size, sendAll]
    -- one step for each of the three outcomes
    refine (offerRest_of_lt (by decide) _ _).trans ?_
    refine (offerRest_of_lt (by decide) _ _).trans ?_
    exact (offerRest_of_lt (by decide) _ _).trans rfl
  simp only [Response.send, cut, Transfer.delivery]
  rfl

theorem transcript_sampleTail :
    (sample.run sampleTail .attentive).transcript = ⟨[sampleResponse], some .badRequestLine⟩ := by
  have first : sample.judge sampleTail.chunks.flatten = .answered sampleResponse 28 := rfl
  have second : sample.judge (sampleTail.chunks.flatten.drop 28) = .refused .badRequestLine := rfl
  have refused : sample.transcript .ended (sampleTail.chunks.flatten.drop 28 ++ []) =
      ⟨[], some .badRequestLine⟩ := transcript_of_refused second (by decide) []
  rw [List.append_nil] at refused
  rw [transcript_run (by decide) (sample.isComplete_run_attentive sampleTail).responses]
  exact (transcript_of_answered first).trans
    (congrArg (Transcript.behind · [sampleResponse]) refused)

theorem wire_run_sampleTail :
    ¬ (sample.run sampleTail (.scripted sampleScript)).IsComplete ∧
    (sample.run sampleTail (.scripted sampleScript)).dropped ≠ none ∧
    (sample.run sampleTail (.scripted sampleScript)).rejection = none ∧
    (sample.run sampleTail (.scripted sampleScript)).wire = sampleResponse.head.take 10 ∧
    (sample.run sampleTail (.scripted (sampleScript.take 2))).IsComplete ∧
    (sample.run sampleTail (.scripted (sampleScript.take 2))).wire =
      sampleResponse.bytes ++ Rejection.wire .badRequestLine := by
  have responses : (sample.run sampleTail .attentive).responses = [sampleResponse] :=
    congrArg Transcript.responses transcript_sampleTail
  have rejection : (sample.run sampleTail .attentive).rejection = some .badRequestLine :=
    congrArg Transcript.rejection transcript_sampleTail
  have cut : sample.run sampleTail (.scripted sampleScript) =
      { wire := sampleResponse.head.take 10
        responses := [sampleResponse]
        dropped := some ⟨.header, .writeZero⟩
        peer := .scripted [.accepts 1000] } := by
    have sent := dispatch_cons_of_error (congrArg Delivery.result send_sampleScript) []
    rw [run_eq_sentTo, Session.sentTo, responses, sent, send_sampleScript]
  have incomplete : ¬ (sample.run sampleTail (.scripted sampleScript)).IsComplete := fun h => by
    have kept := h.responses
    rw [cut] at kept
    cases kept
  have dropped : (sample.run sampleTail (.scripted sampleScript)).dropped ≠ none := by
    rw [cut]
    exact Option.some_ne_none _
  obtain ⟨start, rejected⟩ := (wire_run_upTo_failure sample sampleTail).1 (.scripted sampleScript)
  obtain ⟨before, outcome, rest, parts, complete, peer⟩ :=
    (wire_run_upTo_failure sample sampleTail).2 sampleScript incomplete
  rw [cut] at peer
  cases peer
  obtain rfl : before = sampleScript.take 2 := by
    have known : sampleScript = sampleScript.take 2 ++ [.accepts 0, .accepts 1000] := rfl
    exact (List.append_inj' (parts.symm.trans known) rfl).1
  refine ⟨incomplete, dropped, rejected.2 dropped, by rw [cut], complete, ?_⟩
  rw [((wire_run_upTo_failure sample sampleTail).1 _).2.1 complete]
  refine (wire_converse (sample.isComplete_run_attentive sampleTail)).trans ?_
  rw [← run, Session.answers, responses, rejection]
  rfl

end Service
end HttpServer
