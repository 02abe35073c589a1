import HttpServer.Connection.Stage
import HttpServer.Proofs.Session
/-!
# Steps of a connection add up to a session

Between two steps, what is still to be sent is decided by the stage of the connection and by what will
be read (`Stage.future`). A step moves bytes from there to the wire, or gives some up, and it never
adds any (`Link.Step.behind`). So what a connection has sent at any time is the start of what a session
sends to a client from whom the same is read (`Link.Within.step`).
-/
namespace HttpServer

variable {s : Service} {b : ReceiveBuffer} {rest incoming : Incoming} {l l' : Link} {e : Rejection}

/-! ## Sessions by rounds -/

namespace ReceiveBuffer

/-- A read takes the start of the first chunk that has any bytes. -/
theorem fill_of_first {roomy : ReceiveBuffer} {chunk : Bytes} {chunks later : List Bytes}
    (room : b.makeRoom = .ok roomy) (first : chunks.dropWhile List.isEmpty = chunk :: later)
    (ending : Ending) :
    b.fill ⟨chunks, ending⟩ =
      (⟨.ok (chunk.take roomy.room).length,
          { roomy with pending := roomy.pending ++ chunk.take roomy.room }⟩,
        ⟨if chunk.length ≤ roomy.room then later else chunk.drop roomy.room :: later, ending⟩) := by
  unfold fill
  simp only [room, Incoming.read, first]

theorem fill_chunk {roomy : ReceiveBuffer} {chunk : Bytes} (room : b.makeRoom = .ok roomy)
    (nonempty : chunk ≠ []) (fits : chunk.length ≤ roomy.room) (chunks : List Bytes) (ending : Ending) :
    b.fill ⟨chunk :: chunks, ending⟩ =
      (⟨.ok chunk.length, { roomy with pending := roomy.pending ++ chunk }⟩, ⟨chunks, ending⟩) := by
  have first : (chunk :: chunks).dropWhile List.isEmpty = chunk :: chunks :=
    List.dropWhile_cons_of_neg (by simpa using nonempty)
  rw [fill_of_first room first, if_pos fits, List.take_of_length_le fits]

/-- A read of nothing tells how the stream ends. -/
theorem fill_of_empty {roomy : ReceiveBuffer} {chunks : List Bytes} (room : b.makeRoom = .ok roomy)
    (empty : chunks.dropWhile List.isEmpty = []) (ending : Ending) :
    b.fill ⟨chunks, ending⟩ = (⟨ending.outcome, roomy⟩, ⟨[], ending⟩) := by
  unfold fill
  cases ending <;> simp [room, Incoming.read, empty, Ending.reading, Ending.outcome]

theorem fill_full (full : b.makeRoom = .error e) (incoming : Incoming) :
    b.fill incoming = (⟨.error e, b⟩, incoming) := by
  rw [fill, full]

end ReceiveBuffer

namespace Service

/-- What is sent from the pending requests on, if `rest` is read behind them. -/
def resume (s : Service) (b : ReceiveBuffer) (rest : Incoming) : Bytes :=
  let done := s.answerPending b .attentive
  done.wire ++
    match done.turn with
    | .close | .drop _ => []
    | .reject e => (e.session .attentive).wire
    | .receive => (s.converse done.buffer.shift rest .attentive).1.wire

/-- A session reads once and goes on with what is pending then. -/
theorem wire_converse_attentive (s : Service) (b : ReceiveBuffer) (incoming : Incoming) :
    (s.converse b incoming .attentive).1.wire =
      match b.fill incoming with
      | (⟨.error e, _⟩, _) => (e.session .attentive).wire
      | (⟨.ok 0, _⟩, _) => []
      | (⟨.ok (_ + 1), filled⟩, rest) => s.resume filled rest := by
  rw [converse_eq]
  generalize b.fill incoming = fill
  obtain ⟨⟨result, filled⟩, rest⟩ := fill
  cases result with
  | error e => rfl
  | ok n =>
    cases n with
    | zero => rfl
    | succ n =>
      have peer := (s.answerPending_attentive filled rfl).1
      simp only [resume]
      cases turn : (s.answerPending filled .attentive).turn <;>
        simp only [Prod.map_fst, Session.behind, peer]

theorem resume_eq (s : Service) (b : ReceiveBuffer) (rest : Incoming) :
    s.resume b rest =
      match (s.processNext b).result with
      | .error e => (e.session .attentive).wire
      | .ok none => (s.converse (s.processNext b).buffer.shift rest .attentive).1.wire
      | .ok (some response) =>
        response.bytes ++
          if response.shouldClose then [] else s.resume (s.processNext b).buffer rest := by
  rw [resume, answerPending_eq]
  cases next : (s.processNext b).result with
  | error e => rfl
  | ok answer =>
    cases answer with
    | none => rfl
    | some response =>
      obtain ⟨ok, peer⟩ := Response.send_attentive (isSendable_processNext next) s.responses
      simp only [ok, peer, Response.wire_of_send_ok ok]
      by_cases close : response.shouldClose
      · simp only [if_pos close]
      · simp only [if_neg close, resume, List.append_assoc]

end Service

/-! ## What is still to be sent -/

namespace Stage

/-- What is sent from a stage on, if `rest` is still read and no write fails. -/
def future (s : Service) (rest : Incoming) : Stage → Bytes
  | idle => []
  | receiving b => (s.converse b rest .attentive).1.wire
  | answering b => s.resume b rest
  | sending left none => left
  | sending left (some b) => left ++ s.resume b rest

/-- Nothing is read any more. -/
def IsLast : Stage → Prop
  | idle | sending _ none => True
  | _ => False

theorem future_sending (s : Service) (rest : Incoming) (left : Bytes) (next : Option ReceiveBuffer) :
    (sending left next).future s rest = left ++ (sent next).future s rest := by
  cases next with
  | none => exact (List.append_nil left).symm
  | some b => rfl

end Stage

theorem Rejection.isLast_stage (e : Rejection) : e.stage.IsLast := by
  cases e <;> trivial

theorem Rejection.future_stage (s : Service) (rest : Incoming) (e : Rejection) :
    e.stage.future s rest = (e.session .attentive).wire := by
  rw [Rejection.wire_session (Service.isComplete_session_attentive e)]
  cases e with
  | io kind => rfl
  | _ => exact (List.nil_append _).symm

namespace Stage

/-- What is sent after a read is what a session sends that reads the same. -/
theorem future_received {filled : ReceiveBuffer.Outcome Nat} (fill : b.fill incoming = (filled, rest)) :
    (received filled).future s rest = (receiving b).future s incoming := by
  change _ = (s.converse b incoming .attentive).1.wire
  rw [s.wire_converse_attentive, fill]
  unfold received
  split
  · exact Rejection.future_stage s rest _
  · rfl
  · rfl

theorem future_answered (s : Service) (b : ReceiveBuffer) (rest : Incoming) :
    (answered s b).future s rest = s.resume b rest := by
  rw [s.resume_eq, answered]
  cases (s.processNext b).result with
  | error e => exact Rejection.future_stage s rest e
  | ok answer =>
    cases answer with
    | none => rfl
    | some response =>
      simp only [future_sending]
      cases response.shouldClose <;> rfl

theorem isLast_received_ending (ending : Ending) (b : ReceiveBuffer) :
    (received ⟨ending.outcome, b⟩).IsLast := by
  cases ending with
  | ended => trivial
  | silent => trivial
  | failed kind => cases kind <;> trivial

end Stage

/-! ## Links -/

namespace Link

/-- What may still be read: nothing if reading has ended. -/
def Foresees (l : Link) (rest : Incoming) : Prop :=
  ∀ e, l.readEnd = some e → rest = ⟨[], e⟩

/-- All that is read, if `rest` is still to come. -/
def whole (l : Link) (rest : Incoming) : Incoming := ⟨l.reads ++ rest.chunks, rest.ending⟩

/-- What is known of a link at any time. -/
structure Faithful (l : Link) : Prop where
  /-- Nothing that the client sent is lost or read twice. -/
  sent : l.reads.flatten ++ l.held = l.sent
  /-- Reading has ended as the client ended, and then nothing is left for which to read. -/
  ended : l.readEnd = some .ended → l.held = [] ∧ l.ended = true
  broken : ∀ kind, l.readEnd = some (.failed kind) → l.broken = some kind
  last : l.readEnd ≠ none → l.stage.IsLast

/-- The server has not touched the connection. -/
structure Untouched (l : Link) : Prop where
  stage : l.stage = .idle
  reads : l.reads = []
  readEnd : l.readEnd = none
  wire : l.wire = []

/-- What is sent, and what would still be, is the start of what the bound says of all that is
read. -/
def Within (s : Service) (bound : Incoming → Bytes) (l : Link) : Prop :=
  ∀ rest, l.Foresees rest → l.wire ++ l.stage.future s rest <+: bound (l.whole rest)

theorem Faithful.readEnd_eq_none (h : l.Faithful) (reading : ¬ l.stage.IsLast) : l.readEnd = none :=
  Decidable.byContradiction fun ended => reading (h.last ended)

theorem Step.faithful (h : l.Faithful) (step : l.Step s l') : l'.Faithful := by
  obtain ⟨sent, ended, broken, last⟩ := h
  have reading (more : ¬ l.stage.IsLast) : l.readEnd = none :=
    Faithful.readEnd_eq_none ⟨sent, ended, broken, last⟩ more
  cases step with
  | @read b roomy n stage room known there fits =>
    have unended := reading (by rw [stage]; exact id)
    refine ⟨?_, ?_, ?_, ?_⟩
    · simp only [List.flatten_append, List.flatten_singleton, List.append_assoc,
        List.take_append_drop, sent]
    all_goals simp [unended]
  | @readEnd b roomy e stage room can =>
    refine ⟨sent, ?_, ?_, fun _ => ?_⟩
    · intro same
      cases same
      exact can
    · intro kind same
      cases same
      exact can
    · simp only [ReceiveBuffer.fill_of_empty room List.dropWhile_nil]
      exact Stage.isLast_received_ending e roomy
  | @full b e stage full => exact ⟨sent, ended, broken, fun _ => e.isLast_stage⟩
  | @answer b stage =>
    have unended := reading (by rw [stage]; exact id)
    exact ⟨sent, ended, broken, fun known => absurd unended known⟩
  | @write left next n stage =>
    refine ⟨sent, ended, broken, fun known => ?_⟩
    have last := last known
    rw [stage] at last
    cases next with
    | none => trivial
    | some b => exact last
  | @sent next stage =>
    refine ⟨sent, ended, broken, fun known => ?_⟩
    have last := last known
    rw [stage] at last
    cases next with
    | none => trivial
    | some b => exact last
  | @cut left next stage => exact ⟨sent, ended, broken, fun _ => trivial⟩

/-- Whatever is read after a step could have been read with the step before it, and the step has not
added anything that would be sent then. -/
theorem Step.behind (h : l.Faithful) (step : l.Step s l') (rest : Incoming) (next : l'.Foresees rest) :
    ∃ before, l.Foresees before ∧ l.whole before = l'.whole rest ∧
      l'.wire ++ l'.stage.future s rest <+: l.wire ++ l.stage.future s before := by
  have reading := h.readEnd_eq_none
  cases step with
  | @read b roomy n stage room known there fits =>
    have unended := reading (by rw [stage]; exact id)
    have chunk : l.held.take n ≠ [] := by
      rw [← List.length_pos_iff, List.length_take]
      omega
    have len : (l.held.take n).length ≤ roomy.room := by
      rw [List.length_take]
      omega
    have fill := ReceiveBuffer.fill_chunk room chunk len
    refine ⟨⟨l.held.take n :: rest.chunks, rest.ending⟩, fun e known => ?_, ?_, ?_⟩
    · rw [unended] at known
      cases known
    · simp [whole]
    · rw [stage, fill, Stage.future_received (fill rest.chunks rest.ending)]
  | @readEnd b roomy e stage room can =>
    have unended := reading (by rw [stage]; exact id)
    obtain rfl : rest = ⟨[], e⟩ := next e rfl
    refine ⟨⟨[], e⟩, fun e' known => ?_, rfl, ?_⟩
    · rw [unended] at known
      cases known
    · have fill := ReceiveBuffer.fill_of_empty room List.dropWhile_nil e
      rw [stage, fill, Stage.future_received fill]
  | @full b e stage full =>
    refine ⟨rest, next, rfl, ?_⟩
    rw [stage, ← Stage.future_received (ReceiveBuffer.fill_full full rest)]
    exact List.prefix_rfl
  | @answer b stage =>
    refine ⟨rest, next, rfl, ?_⟩
    rw [stage, Stage.future_answered]
    exact List.prefix_rfl
  | @write left after n stage =>
    refine ⟨rest, next, rfl, ?_⟩
    simp only [stage, Stage.future_sending, List.append_assoc]
    rw [← List.append_assoc (left.take n), List.take_append_drop]
  | @sent after stage =>
    refine ⟨rest, next, rfl, ?_⟩
    rw [stage, Stage.future_sending, List.nil_append]
  | @cut left after stage =>
    refine ⟨rest, next, rfl, ?_⟩
    simp only [Stage.future, List.append_nil]
    exact List.prefix_append _ _

variable {bound : Incoming → Bytes}

/-- No step leads beyond a bound. -/
theorem Within.step (h : l.Within s bound) (faithful : l.Faithful) (step : l.Step s l') :
    l'.Within s bound := by
  intro rest next
  obtain ⟨before, foresees, same, le⟩ := step.behind faithful rest next
  rw [← same]
  exact le.trans (h before foresees)

theorem Within.giveUp (h : l.Within s bound) : Within s bound { l with stage := .idle } := by
  intro rest next
  simp only [Stage.future, List.append_nil]
  exact (List.prefix_append _ _).trans (h rest next)

theorem Faithful.giveUp (h : l.Faithful) : Faithful { l with stage := .idle } :=
  ⟨h.sent, h.ended, h.broken, fun _ => trivial⟩

theorem Untouched.faithful (h : l.Untouched) (faithful : l.Faithful) (stage : Stage) :
    Faithful { l with stage } :=
  ⟨faithful.sent, faithful.ended, faithful.broken, fun known => absurd h.readEnd known⟩

theorem Untouched.within (h : l.Untouched) : l.Within s bound := by
  intro rest next
  rw [h.wire, h.stage]
  exact List.nil_prefix

/-- A connection that is served from its first byte on sends what a session sends. -/
theorem Untouched.within_run (h : l.Untouched) :
    Within s (fun incoming => (s.run incoming .attentive).wire)
      { l with stage := .receiving (.new s.requests) } := by
  intro rest next
  simp only [h.wire, whole, h.reads, List.nil_append, Stage.future]
  exact List.prefix_rfl

theorem heard_reads (l : Link) (e : Ending) : l.Heard ⟨l.reads, l.readEnd.getD e⟩ := by
  refine ⟨[], (List.append_nil _).symm, fun e known => ⟨rfl, ?_⟩⟩
  rw [known, Option.getD_some]

/-- What was sent is the start of what a session sends that reads the same. -/
theorem Within.wire_of_heard (h : l.Within s bound) {incoming : Incoming} (heard : l.Heard incoming) :
    l.wire <+: bound incoming := by
  obtain ⟨rest, chunks, ended⟩ := heard
  have whole : l.whole ⟨rest, incoming.ending⟩ = incoming := by
    rw [Link.whole]
    simp only [← chunks]
  rw [← whole]
  refine (List.prefix_append _ _).trans (h ⟨rest, incoming.ending⟩ fun e known => ?_)
  obtain ⟨rfl, rfl⟩ := ended e known
  rfl

end Link
end HttpServer
