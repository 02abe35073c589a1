import HttpServer.Proofs.Server
import HttpServer.Proofs.Stage
import HttpServer.Proofs.Tasks
import HttpServer.Proofs.Transcript
import HttpServer.Traffic
/-!
# Clients are isolated from each other

The tasks share only the queues, and a connection is in one place at a time. So nobody has touched a
connection before it is taken, a worker that takes it serves it from its first byte on, and from then
on only that worker does steps on it (`Traffic.Sound`). What the others do decides when and whether
that happens, and nothing else (`Traffic.wire_isolated`).
-/
namespace HttpServer

/-! ## Connections that are taken -/

namespace Tasks

variable {limits : ServerLimits} {t t' : Tasks} {move : Move} {c : Nat}

/-- The connections that some worker or refuser has taken. -/
def taken (t : Tasks) : List Nat := held t.workers ++ held t.refusers ++ t.finished

theorem Step.mem_taken (step : t.Step limits move t') (mem : c ∈ t.taken) : c ∈ t'.taken := by
  cases step with
  | accept | count | queue | turnAway => exact mem
  | start idle first | refuse idle first =>
    simp only [taken, List.mem_append, (held_set_some idle _).mem_iff, List.mem_cons] at mem ⊢
    tauto
  | finish busy | dismiss busy =>
    simp only [taken, List.mem_append, (held_set_none busy).mem_iff, List.mem_cons,
      List.not_mem_nil] at mem ⊢
    tauto

theorem Sound.not_mem_taken (h : t.Sound limits) (waits : c ∈ t.waiting ++ t.overflow) :
    c ∉ t.taken := by
  intro taken
  have once := h.count_known_le c
  have waits := List.count_pos_iff.2 waits
  have taken := List.count_pos_iff.2 taken
  rw [count_known] at once
  simp only [Tasks.taken, List.count_append] at waits taken
  omega

theorem Sound.mem_accepted (h : t.Sound limits) (taken : c ∈ t.taken) : c ∈ t.accepted := by
  rw [← (Sound.known h).mem_iff, Tasks.known]
  simp only [Tasks.taken, List.mem_append] at taken ⊢
  tauto

/-- All that are taken were taken by a worker or had overflowed. -/
theorem Sound.started_or_overflowed (h : t.Sound limits) (taken : c ∈ t.taken) :
    c ∈ t.started ∨ c ∈ t.overflowed.map Prod.fst := by
  rcases List.mem_append.1 (h.split.mem_iff.2 (h.mem_accepted taken)) with queued | away
  · rw [← h.first] at queued
    rcases List.mem_append.1 queued with started | waits
    · exact .inl started
    · exact absurd taken (h.not_mem_taken (List.mem_append_left _ waits))
  · exact .inr away

theorem Sound.not_mem_overflowed (h : t.Sound limits) (queued : c ∈ t.started ++ t.waiting) :
    c ∉ t.overflowed.map Prod.fst := by
  intro away
  obtain ⟨⟨d, n⟩, mem, rfl⟩ := List.mem_map.1 away
  rw [h.first] at queued
  exact h.not_mem_queued mem queued

end Tasks

namespace Traffic

variable {s : Service} {limits : ServerLimits} {w w' : Traffic} {c : Nat} {l : Link}

/-! ## What every step keeps -/

/-- What holds of the traffic at any time. -/
structure Sound (s : Service) (limits : ServerLimits) (w : Traffic) : Prop where
  tasks : w.tasks.Reachable limits
  faithful : ∀ c, (w.links c).Faithful
  untouched : ∀ c, c ∉ w.tasks.taken → (w.links c).Untouched
  /-- A connection that a worker has taken gets what a session sends. -/
  served : ∀ c ∈ w.tasks.started,
    (w.links c).Within s fun incoming => (s.run incoming .attentive).wire
  /-- A connection that has overflowed gets a refusal. -/
  refused : ∀ c ∈ w.tasks.overflowed.map Prod.fst,
    (w.links c).Within s fun _ => Admission.refusalBytes limits

theorem sound_initial (s : Service) (limits : ServerLimits) : (initial limits).Sound s limits :=
  ⟨.initial, fun _ => ⟨rfl, nofun, nofun, fun _ => trivial⟩, fun _ _ => ⟨rfl, rfl, rfl, rfl⟩,
    nofun, nofun⟩

/-- A change of one connection keeps all that is known of the others. -/
theorem Sound.change {t : Tasks} (h : w.Sound s limits) (tasks : t.Reachable limits)
    (taken : ∀ d ∈ w.tasks.taken, d ∈ t.taken)
    (started : ∀ d ∈ t.started, d ≠ c → d ∈ w.tasks.started)
    (overflowed : t.overflowed = w.tasks.overflowed) (faithful : l.Faithful)
    (untouched : c ∉ t.taken → l.Untouched)
    (served : c ∈ t.started → l.Within s fun incoming => (s.run incoming .attentive).wire)
    (refused : c ∈ t.overflowed.map Prod.fst → l.Within s fun _ => Admission.refusalBytes limits) :
    Sound s limits { w.update c l with tasks := t } := by
  have links (d : Nat) : (w.update c l).links d = if d = c then l else w.links d := rfl
  refine ⟨tasks, fun d => ?_, fun d untaken => ?_, fun d mem => ?_, fun d mem => ?_⟩ <;>
    rw [links] <;> split <;> rename_i same
  · exact faithful
  · exact h.faithful d
  · exact untouched (same ▸ untaken)
  · exact h.untouched d fun mem => untaken (taken d mem)
  · exact served (same ▸ mem)
  · exact h.served d (started d mem same)
  · exact refused (same ▸ mem)
  · exact h.refused d (overflowed ▸ mem)

/-- A change that adds nothing to what may be sent. -/
theorem Sound.update (h : w.Sound s limits) (faithful : l.Faithful)
    (untouched : c ∉ w.tasks.taken → l.Untouched)
    (within : ∀ bound, (w.links c).Within s bound → l.Within s bound) :
    (w.update c l).Sound s limits :=
  h.change h.tasks (fun _ => id) (fun _ mem _ => mem) rfl faithful untouched
    (fun started => within _ (h.served c started)) (fun away => within _ (h.refused c away))

theorem Sound.giveUp {t : Tasks} (h : w.Sound s limits) (tasks : t.Reachable limits)
    (taken : ∀ d ∈ w.tasks.taken, d ∈ t.taken) (gone : c ∈ t.taken)
    (started : t.started = w.tasks.started) (overflowed : t.overflowed = w.tasks.overflowed) :
    Sound s limits { w.update c { w.links c with stage := .idle } with tasks := t } := by
  refine h.change tasks taken (fun d mem _ => started ▸ mem) overflowed (h.faithful c).giveUp
    (fun untaken => absurd gone untaken) (fun mem => ?_) (fun mem => ?_)
  · exact (h.served c (started ▸ mem)).giveUp
  · exact (h.refused c (overflowed ▸ mem)).giveUp

theorem Sound.move {move : Tasks.Move} {t : Tasks} (h : w.Sound s limits)
    (step : w.tasks.Step limits move t) : Sound s limits { w.move s limits move with tasks := t } := by
  have tasks := h.tasks.step step
  have now := h.tasks.sound
  have taken (d : Nat) (mem : d ∈ w.tasks.taken) : d ∈ t.taken := step.mem_taken mem
  cases step with
  | accept | count | queue => exact ⟨tasks, h.faithful, h.untouched, h.served, h.refused⟩
  | @turnAway c n placing full =>
    refine ⟨tasks, h.faithful, h.untouched, h.served, fun d mem => ?_⟩
    rw [List.map_append, List.mem_append] at mem
    rcases mem with mem | mem
    · exact h.refused d mem
    · obtain rfl : d = c := List.mem_singleton.1 mem
      have new : d ∉ w.tasks.accepted :=
        now.not_mem_accepted (by rw [placing]; exact List.mem_singleton_self d)
      exact (h.untouched d (new ∘ now.mem_accepted)).within
  | @start i c rest idle first =>
    have waits : c ∈ w.tasks.waiting := by rw [first]; exact List.mem_cons_self
    have untouched := h.untouched c (now.not_mem_taken (List.mem_append_left _ waits))
    refine h.change tasks taken ?_ rfl (untouched.faithful (h.faithful c) _) ?_
      (fun _ => untouched.within_run) ?_
    · exact fun d mem other => (List.mem_append.1 mem).resolve_right (other ∘ List.mem_singleton.1)
    · refine fun untaken => absurd ?_ untaken
      simp [Tasks.taken, (Tasks.held_set_some idle c).mem_iff]
    · exact fun away => absurd away (now.not_mem_overflowed (List.mem_append_right _ waits))
  | @refuse i c rest idle first =>
    have waits : c ∈ w.tasks.overflow := by rw [first]; exact List.mem_cons_self
    have untouched := h.untouched c (now.not_mem_taken (List.mem_append_right _ waits))
    refine h.change tasks taken (fun d mem _ => mem) rfl (untouched.faithful (h.faithful c) _) ?_ ?_ ?_
    · refine fun untaken => absurd ?_ untaken
      simp [Tasks.taken, (Tasks.held_set_some idle c).mem_iff]
    · intro started
      have away := now.refusing c (List.mem_append_left _ waits)
      exact absurd away (now.not_mem_overflowed (List.mem_append_left _ started))
    · intro _ rest _
      rw [untouched.wire, List.nil_append, refusal, Admission.refusalBytes]
      split <;> exact List.prefix_rfl
  | @finish i c busy | @dismiss i c busy =>
    exact h.giveUp tasks taken (List.mem_append_right _ (by simp)) rfl rfl

theorem Sound.work (h : w.Sound s limits) (has : c ∈ w.tasks.taken) (step : (w.links c).Step s l) :
    (w.update c l).Sound s limits :=
  h.update (step.faithful (h.faithful c)) (fun untaken => absurd has untaken)
    fun _ within => within.step (h.faithful c) step

/-- What a client does changes nothing on the side of the server. -/
theorem Sound.client (h : w.Sound s limits) (stage : l.stage = (w.links c).stage)
    (reads : l.reads = (w.links c).reads) (readEnd : l.readEnd = (w.links c).readEnd)
    (wire : l.wire = (w.links c).wire) (faithful : l.Faithful) : (w.update c l).Sound s limits := by
  refine h.update faithful (fun untaken => ?_) fun bound within rest next => ?_
  · obtain ⟨stage', reads', readEnd', wire'⟩ := h.untouched c untaken
    exact ⟨stage.trans stage', reads.trans reads', readEnd.trans readEnd', wire.trans wire'⟩
  · have whole : l.whole rest = (w.links c).whole rest := by rw [Link.whole, Link.whole, reads]
    rw [stage, wire, whole]
    exact within rest fun e known => next e (readEnd.trans known)

theorem Sound.step (h : w.Sound s limits) (step : Step s limits w w') : w'.Sound s limits := by
  cases step with
  | connect c =>
    obtain ⟨sent, ended, broken, last⟩ := h.faithful c
    exact h.client rfl rfl rfl rfl ⟨sent, ended, broken, last⟩
  | send c bytes connected alive =>
    obtain ⟨sent, ended, broken, last⟩ := h.faithful c
    refine h.client rfl rfl rfl rfl ⟨?_, fun told => ?_, broken, last⟩
    · rw [← List.append_assoc, sent]
    · rw [alive.1] at ended
      exact absurd (ended told).2 Bool.false_ne_true
  | finish c connected =>
    obtain ⟨sent, ended, broken, last⟩ := h.faithful c
    exact h.client rfl rfl rfl rfl ⟨sent, fun told => ⟨(ended told).1, rfl⟩, broken, last⟩
  | drop c kind whole =>
    obtain ⟨sent, ended, broken, last⟩ := h.faithful c
    refine h.client rfl rfl rfl rfl ⟨sent, ended, fun kind told => ?_, last⟩
    rw [whole] at broken
    cases broken kind told
  | move step connected => exact h.move step
  | @work i c l has step =>
    refine h.work (List.mem_append_left _ (List.mem_append_left _ ?_)) step
    exact Tasks.mem_held_iff.2 ⟨i, has⟩
  | @turnAway i c l has step =>
    refine h.work (List.mem_append_left _ (List.mem_append_right _ ?_)) step
    exact Tasks.mem_held_iff.2 ⟨i, has⟩

theorem Reachable.sound (h : Reachable s limits w) : w.Sound s limits := by
  induction h with
  | initial => exact sound_initial s limits
  | step _ next ih => exact ih.step next

/-! ## Isolation -/

/-- Whatever the other clients do and in whatever order the tasks take their steps: a client is sent
the start of what a session with it alone sends if a worker takes its connection, the start of the
refusal if it overflows, and nothing otherwise. The session reads what the server has read from this
client, which is the start of what the client has sent; more may follow unless reading has ended, and
then it has ended as the client ended. How the bytes were cut does not matter if a storage for the
largest request can be allocated. So whenever two clients are served from whom the same is read, on
whatever servers, what one of them is sent starts with what the other is sent.

A server that does all it can before every step of its clients gives them the start of the same bytes,
and what the session receives there are bytes that the client has sent. -/
theorem wire_isolated (s : Service) :
    (∀ limits w, Reachable s limits w → ∀ c,
      (c ∈ w.tasks.started → ∀ incoming, (w.links c).Heard incoming →
        (w.links c).wire <+: (s.run incoming .attentive).wire ∧
          (s.requests.maxSize < ReceiveBuffer.allocationLimit →
            ∀ chunks, chunks.flatten = incoming.chunks.flatten →
              (w.links c).wire <+: (s.run ⟨chunks, incoming.ending⟩ .attentive).wire)) ∧
      (c ∈ w.tasks.overflowed.map Prod.fst → (w.links c).wire <+: Admission.refusalBytes limits) ∧
      (c ∉ w.tasks.started → c ∉ w.tasks.overflowed.map Prod.fst → (w.links c).wire = []) ∧
      ¬ (c ∈ w.tasks.started ∧ c ∈ w.tasks.overflowed.map Prod.fst) ∧
      (w.links c).reads.flatten ++ (w.links c).held = (w.links c).sent ∧
      ((w.links c).readEnd = some .ended → (w.links c).held = [] ∧ (w.links c).ended = true) ∧
      ∀ kind, (w.links c).readEnd = some (.failed kind) → (w.links c).broken = some kind) ∧
    (∀ limits limits' w w' c c', Reachable s limits w → Reachable s limits' w' →
      c ∈ w.tasks.started → c' ∈ w'.tasks.started →
      ∀ incoming, (w.links c).Heard incoming → (w'.links c').Heard incoming →
        (w.links c).wire <+: (w'.links c').wire ∨ (w'.links c').wire <+: (w.links c).wire) ∧
    ∀ limits steps c,
      let server : Server := { service := s, limits }
      server.delivered c steps <+:
          (if ((server.after steps).client c).overflowed then Admission.refusalBytes limits
          else (s.run ((server.after steps).client c).incoming .attentive).wire) ∧
        ((server.after steps).client c).chunks.Sublist (Server.sentBy c steps) := by
  refine ⟨fun limits w reachable c => ?_, ?_, fun limits steps c => Server.delivered_le s limits steps c⟩
  · have h := reachable.sound
    have now := h.tasks.sound
    obtain ⟨sent, ended, broken, -⟩ := h.faithful c
    refine ⟨fun started incoming heard => ?_, fun away => ?_, fun started away => ?_,
      fun ⟨started, away⟩ => ?_, sent, ended, broken⟩
    · have alone := (h.served c started).wire_of_heard heard
      refine ⟨alone, fun small chunks same => ?_⟩
      rw [s.wire_run_attentive small] at alone ⊢
      rw [same]
      exact alone
    · have incoming := (w.links c).heard_reads .silent
      exact (h.refused c away).wire_of_heard incoming
    · have untaken : c ∉ w.tasks.taken := fun taken =>
        (now.started_or_overflowed taken).elim started away
      exact (h.untouched c untaken).wire
    · exact now.not_mem_overflowed (List.mem_append_left _ started) away
  · intro limits limits' w w' c c' reachable reachable' started started' incoming heard heard'
    exact List.prefix_or_prefix_of_prefix ((reachable.sound.served c started).wire_of_heard heard)
      ((reachable'.sound.served c' started').wire_of_heard heard')

/-- A service without files whose storage takes a small request at once. -/
def smallService : Service :=
  { requests := { initialSize := 64, maxSize := 64 }, docs := ⟨⟨.directory true [], []⟩, false⟩ }

/-- One worker, one place to wait and one refuser. -/
def narrowLimits : ServerLimits := { workers := 1, maxPending := 1, refusers := 1 }

/-- A request in two parts. -/
def helloParts : Bytes × Bytes := (.ofString "GET /api/ HTTP/1.1\r\n", .ofString "A: b\r\n\r\n")

def hello : Response := .text .ok Route.helloText

/-- The storage of the service with these bytes in it. -/
def holding (pending : Bytes) : ReceiveBuffer := { pending, size := 64, maxSize := 64 }

theorem wire_isolated_between :
    ∃ w, Reachable smallService narrowLimits w ∧
      (w.links 7).Heard ⟨[helloParts.1, helloParts.2], .ended⟩ ∧
      (w.links 7).wire = hello.bytes.take 30 ∧
      (w.links 7).wire <+:
        (smallService.run ⟨[helloParts.1 ++ helloParts.2], .ended⟩ .attentive).wire ∧
      (w.links 8).sent = helloParts.1 ∧ (w.links 8).wire = [] ∧
      (w.links 9).wire = Rejection.serviceUnavailable.wire.take 12 ∧
      (w.links 9).wire <+: Admission.refusalBytes narrowLimits := by
  have first : 20 ≤ helloParts.1.length ∧ 20 ≤ (holding []).room := by decide
  have second : 8 ≤ helloParts.2.length ∧ 8 ≤ (holding helloParts.1).room := by decide
  have partly : Stage.answered smallService (holding helloParts.1) =
      .receiving (holding helloParts.1) := rfl
  have answered : Stage.answered smallService (holding (helloParts.1 ++ helloParts.2)) =
      .sending hello.bytes (some { consumed := 28, size := 64, maxSize := 64 }) := rfl
  have start : Reachable smallService narrowLimits (initial narrowLimits) := .initial
  have seven := start.step (.connect 7)
    |>.step (.move (.accept (c := 7) rfl (by decide)) (by rintro c ⟨⟩; rfl))
    |>.step (.move (.count rfl) nofun)
    |>.step (.move (.queue rfl (by decide)) nofun)
    |>.step (.move (.start (i := 0) rfl rfl) nofun)
    |>.step (.send 7 helloParts.1 rfl ⟨rfl, rfl⟩)
    |>.step (.work (i := 0) (c := 7) rfl
      (.read (b := holding []) (n := 20) rfl rfl (by decide) first.1 first.2))
    |>.step (.work (i := 0) (c := 7) rfl (.answer (b := holding helloParts.1) rfl))
  have eight := seven.step (.connect 8)
    |>.step (.move (.accept (c := 8) rfl (by decide)) (by rintro c ⟨⟩; rfl))
    |>.step (.move (.count rfl) nofun)
    |>.step (.move (.queue rfl (by decide)) nofun)
    |>.step (.send 8 helloParts.1 rfl ⟨rfl, rfl⟩)
  have nine := eight.step (.connect 9)
    |>.step (.move (.accept (c := 9) rfl (by decide)) (by rintro c ⟨⟩; rfl))
    |>.step (.move (.count rfl) nofun)
    |>.step (.move (.turnAway rfl (by decide)) nofun)
    |>.step (.move (.refuse (i := 0) rfl rfl) nofun)
    |>.step (.turnAway (i := 0) (c := 9) rfl (.write 12 rfl))
  have last := nine.step (.send 7 helloParts.2 rfl ⟨rfl, rfl⟩)
    |>.step (.work (i := 0) (c := 7) rfl
      (.read (b := holding helloParts.1) (n := 8) partly rfl (by decide) second.1 second.2))
    |>.step (.work (i := 0) (c := 7) rfl
      (.answer (b := holding (helloParts.1 ++ helloParts.2)) rfl))
    |>.step (.work (i := 0) (c := 7) rfl (.write 30 answered))
  obtain ⟨w, reachable, started, overflowed, reads, readEnd, wire, sent, cut⟩ :
      ∃ w, Reachable smallService narrowLimits w ∧ w.tasks.started = [7] ∧
        w.tasks.overflowed = [(9, 1)] ∧ (w.links 7).reads = [helloParts.1, helloParts.2] ∧
        (w.links 7).readEnd = none ∧ (w.links 7).wire = hello.bytes.take 30 ∧
        (w.links 8).sent = helloParts.1 ∧
        (w.links 9).wire = Rejection.serviceUnavailable.wire.take 12 :=
    ⟨_, last, rfl, rfl, rfl, rfl, rfl, rfl, rfl⟩
  have heard := (w.links 7).heard_reads .ended
  rw [reads, readEnd, Option.getD_none] at heard
  have isolated := (wire_isolated smallService).1 narrowLimits w reachable
  rw [started, overflowed] at isolated
  refine ⟨w, reachable, heard, wire, ?_, sent, ?_, cut, ?_⟩
  · exact ((isolated 7).1 (by decide) _ heard).2 (by decide) _ rfl
  · exact (isolated 8).2.2.1 (by decide) (by decide)
  · exact (isolated 9).2.1 (by decide)

end Traffic
end HttpServer
