import HttpServer.Proofs.Admission
import HttpServer.Proofs.Stage
import HttpServer.Server
/-!
# What a client reads

A server that has done all it can computes what a client was sent from what the client did. When more
happens, this only grows (`Server.Grows`): a session that goes on does not take back what it has sent
(`Service.wire_converse_le`). So what a client has read by and by is the start of it
(`Server.delivered_le`).
-/
namespace HttpServer

/-! ## Sessions that go on -/

namespace Service

variable {s : Service}

/-- Only what is received later can make a difference to the requests that are answered. -/
theorem resume_le {rest rest' : Incoming} (b : ReceiveBuffer)
    (later : ∀ b, (s.converse b rest .attentive).1.wire <+: (s.converse b rest' .attentive).1.wire) :
    s.resume b rest <+: s.resume b rest' := by
  simp only [resume]
  rw [List.prefix_append_right_inj]
  split
  · exact List.prefix_rfl
  · exact List.prefix_rfl
  · exact List.prefix_rfl
  · exact later _

/-- A session with a client that has not said all yet has sent the start of what it sends later. -/
theorem wire_converse_le (s : Service) (b : ReceiveBuffer) (chunks more : List Bytes)
    (ending : Ending) :
    (s.converse b ⟨chunks, .failed .wouldBlock⟩ .attentive).1.wire <+:
      (s.converse b ⟨chunks ++ more, ending⟩ .attentive).1.wire := by
  induction left : chunks.flatten.length using Nat.strongRecOn generalizing b chunks with
  | ind n ih =>
    rw [wire_converse_attentive, wire_converse_attentive]
    cases room : b.makeRoom with
    | error e =>
      rw [ReceiveBuffer.fill_full room, ReceiveBuffer.fill_full room]
    | ok roomy =>
      cases first : chunks.dropWhile List.isEmpty with
      | nil =>
        rw [ReceiveBuffer.fill_of_empty room first]
        exact List.nil_prefix
      | cons chunk rest =>
        have both : (chunks ++ more).dropWhile List.isEmpty = chunk :: (rest ++ more) := by
          rw [List.dropWhile_append, first]
          rfl
        have fill := ReceiveBuffer.fill_of_first room first (.failed .wouldBlock)
        rw [fill, ReceiveBuffer.fill_of_first room both]
        cases size : (chunk.take roomy.room).length with
        | zero => exact List.prefix_rfl
        | succ k =>
          rw [size] at fill
          have fewer := ReceiveBuffer.remaining_fill fill
          have same : (if chunk.length ≤ roomy.room then rest ++ more
              else chunk.drop roomy.room :: (rest ++ more)) =
              (if chunk.length ≤ roomy.room then rest else chunk.drop roomy.room :: rest) ++ more := by
            split <;> rfl
          rw [same]
          exact resume_le _ fun b => ih _ (left ▸ fewer) b _ rfl

theorem wire_run_nothing (s : Service) : (s.run ⟨[], .failed .wouldBlock⟩ .attentive).wire = [] := by
  have room : (ReceiveBuffer.new s.requests).makeRoom = .ok (.new s.requests) := by
    have fresh : (ReceiveBuffer.new s.requests).received ≠ (ReceiveBuffer.new s.requests).size := by
      simp [ReceiveBuffer.new, ReceiveBuffer.received]
      omega
    rw [ReceiveBuffer.makeRoom, if_neg fresh]
  rw [run, wire_converse_attentive, ReceiveBuffer.fill_of_empty room List.dropWhile_nil]
  rfl

end Service

/-! ## Clients that go on -/

/-- The second is the same client later, when it may have sent more and ended its side. -/
structure Client.Continues (client client' : Client) : Prop where
  overflowed : client'.overflowed = client.overflowed
  taken : client'.taken = client.taken
  chunks : ∃ more, client'.chunks = client.chunks ++ more ∧
    (client.ending ≠ none → more = [] ∧ client'.ending = client.ending)

namespace Client

variable {client client' : Client}

theorem Continues.refl (client : Client) : client.Continues client :=
  ⟨rfl, rfl, [], (List.append_nil _).symm, fun _ => ⟨rfl, rfl⟩⟩

theorem continues_send (client : Client) (bytes : Bytes) :
    client.Continues (client.send bytes) := by
  unfold Client.send
  split
  · exact .refl client
  · rename_i going
    refine ⟨rfl, rfl, [bytes], rfl, fun ended => absurd ?_ going⟩
    exact Option.isSome_iff_ne_none.2 ended

theorem continues_finish (client : Client) (ending : Ending) :
    client.Continues (client.finish ending) := by
  refine ⟨rfl, rfl, [], (List.append_nil _).symm, fun ended => ⟨rfl, ?_⟩⟩
  obtain ⟨e, gone⟩ := Option.ne_none_iff_exists'.1 ended
  simp [Client.finish, gone]

theorem Continues.wire_le (h : client.Continues client') (s : Service) :
    (s.run client.incoming .attentive).wire <+: (s.run client'.incoming .attentive).wire := by
  obtain ⟨more, chunks, ended⟩ := h.chunks
  unfold incoming
  by_cases going : client.ending = none
  · rw [going, chunks]
    exact s.wire_converse_le _ _ _ _
  · obtain ⟨rfl, same⟩ := ended going
    rw [chunks, same, List.append_nil]

end Client

/-! ## The server -/

namespace Server

variable {s s' s'' : Server} {c d : Nat} {f : Client → Client} {sent : Nat → List Bytes}

theorem lookup_update (s : Server) (c d : Nat) (f : Client → Client) :
    (s.update c f).clients.lookup d =
      if d = c then (s.clients.lookup d).map f else s.clients.lookup d := by
  unfold update
  simp only
  induction s.clients with
  | nil => simp
  | cons entry clients ih =>
    obtain ⟨k, client⟩ := entry
    simp only [List.map_cons, List.lookup_cons, ih]
    by_cases same : d = k
    · subst same
      by_cases this : d = c <;> simp [this]
    · rw [beq_eq_false_iff_ne.2 same]

theorem client_update (s : Server) (c d : Nat) (f : Client → Client) :
    (s.update c f).client d =
      if d = c ∧ (s.clients.lookup d).isSome then f (s.client d) else s.client d := by
  rw [client, lookup_update, client]
  by_cases same : d = c
  · cases s.clients.lookup d <;> simp [same]
  · simp [same]

/-- Only clients that were accepted are known. -/
def Listed (s : Server) : Prop := ∀ c, s.clients.lookup c ≠ none → c ∈ s.admission.known

/-- More has happened on the server: what a client was sent is the start of what it is sent then, and
the clients have sent no more than these bytes. -/
structure Grows (s s' : Server) (sent : Nat → List Bytes := fun _ => []) : Prop where
  shared : s'.service = s.service ∧ s'.limits = s.limits
  listed : s.Listed → s'.Listed
  wire : ∀ c, s.wire c <+: s'.wire c
  taken : ∀ c, (s'.client c).taken = (s.client c).taken
  chunks : ∀ c, (s'.client c).chunks.Sublist ((s.client c).chunks ++ sent c)

theorem Grows.refl (s : Server) : s.Grows s :=
  ⟨⟨rfl, rfl⟩, id, fun _ => List.prefix_rfl, fun _ => rfl, fun _ => List.sublist_append_left _ _⟩

theorem Grows.trans (h : s.Grows s' sent) (h' : s'.Grows s'') : s.Grows s'' sent := by
  refine ⟨⟨h'.shared.1.trans h.shared.1, h'.shared.2.trans h.shared.2⟩, h'.listed ∘ h.listed,
    fun c => (h.wire c).trans (h'.wire c), fun c => (h'.taken c).trans (h.taken c), fun c => ?_⟩
  have chunks := h'.chunks c
  rw [List.append_nil] at chunks
  exact chunks.trans (h.chunks c)

/-- A client that goes on, and waits only if it did before, is sent more. -/
theorem wire_le (shared : s'.service = s.service ∧ s'.limits = s.limits)
    (continues : (s.client c).Continues (s'.client c))
    (waits : c ∈ s'.admission.waiting → c ∈ s.admission.waiting) : s.wire c <+: s'.wire c := by
  unfold wire
  rw [continues.overflowed, shared.2]
  split
  · exact List.prefix_rfl
  · by_cases waiting : s.admission.waiting.contains c = true
    · rw [if_pos waiting]
      exact List.nil_prefix
    · have served : ¬ s'.admission.waiting.contains c = true := by
        rw [List.contains_iff_mem] at waiting ⊢
        exact waiting ∘ waits
      rw [if_neg waiting, if_neg served, session, session, shared.1]
      exact continues.wire_le s.service

theorem listed_update (h : s.Listed) (c : Nat) (f : Client → Client) : (s.update c f).Listed := by
  intro d listed
  apply h d
  rw [lookup_update] at listed
  split at listed
  · simpa using listed
  · exact listed

theorem grows_update (s : Server) (c : Nat) (continues : ∀ client, Client.Continues client (f client))
    (own : ∀ client, (f client).chunks.Sublist (client.chunks ++ sent c)) :
    s.Grows (s.update c f) sent := by
  have all (d : Nat) : (s.client d).Continues ((s.update c f).client d) ∧
      ((s.update c f).client d).chunks.Sublist ((s.client d).chunks ++ sent d) := by
    rw [client_update]
    split
    · rename_i this
      obtain rfl := this.1
      exact ⟨continues _, own _⟩
    · exact ⟨.refl _, List.sublist_append_left _ _⟩
  exact ⟨⟨rfl, rfl⟩, fun h => listed_update h c f, fun d => wire_le ⟨rfl, rfl⟩ (all d).1 id,
    fun d => (all d).1.taken, fun d => (all d).2⟩

theorem grows_finish (s : Server) (c : Nat) (ending : Ending) :
    s.Grows (s.update c fun client => client.finish ending) :=
  s.grows_update c (fun client => client.continues_finish ending) fun _ =>
    List.sublist_append_left _ _

/-! ## What the server does by itself -/

theorem nextMove?_ne_accept (s : Server) (c : Nat) : s.nextMove? ≠ some (.accept c) := by
  unfold nextMove?
  split
  · simp
  · split
    · split
      · simp
      · split <;> simp
    all_goals simp

theorem grows_advance (s : Server) : s.Grows s.advance := by
  unfold advance
  split
  · exact .refl s
  · rename_i event next
    split
    · exact .refl s
    · rename_i admission moved
      have moved := Admission.moved_of_step? moved
      refine ⟨⟨rfl, rfl⟩, fun h c listed => moved.known (h c listed), fun c => ?_, fun _ => rfl,
        fun _ => List.sublist_append_left _ _⟩
      refine wire_le ⟨rfl, rfl⟩ (.refl _) fun waits => ?_
      rcases moved.waiting waits with old | accepted
      · exact old
      · rw [accepted] at next
        exact absurd next (s.nextMove?_ne_accept c)

theorem grows_settled (s : Server) : s.Grows s.settled := by
  have moves (n : Nat) (s : Server) : s.Grows (advanceBy n s) := by
    induction n generalizing s with
    | zero => exact .refl s
    | succ n ih => exact s.grows_advance.trans (ih s.advance)
  exact moves _ s

theorem grows_pass (s : Server) : s.Grows s.pass := by
  have silent (cs : List Nat) (s : Server) : s.Grows
      (cs.foldl (fun s c => s.update c fun client => client.finish .silent) s) := by
    induction cs generalizing s with
    | nil => exact .refl s
    | cons c cs ih => exact (s.grows_finish c .silent).trans (ih _)
  exact (silent _ s).trans (grows_settled _)

theorem grows_awaiting (c n rounds : Nat) (s : Server) : s.Grows (awaiting c n rounds s) := by
  induction rounds generalizing s with
  | zero => exact .refl s
  | succ rounds ih =>
    unfold awaiting
    split
    · exact .refl s
    · exact s.grows_pass.trans (ih s.pass)

theorem wire_of_unlisted (unlisted : s.clients.lookup c = none) : s.wire c = [] := by
  have client : s.client c = {} := by rw [Server.client, unlisted, Option.getD_none]
  unfold wire
  rw [session, client]
  split
  · contradiction
  · split
    · rfl
    · exact s.service.wire_run_nothing

theorem grows_connect {admission : Admission} (h : s.Listed)
    (moved : s.admission.Moved s.limits (.accept c) admission) (full : Bool) :
    s.Grows { s with admission, clients := s.clients ++ [(c, { overflowed := full })] } := by
  obtain ⟨new, known⟩ := moved.accept
  have unlisted : s.clients.lookup c = none := by
    by_contra listed
    exact new (h c listed)
  have lookup (d : Nat) (other : d ≠ c) :
      (s.clients ++ [(c, Client.mk [] none full 0)]).lookup d = s.clients.lookup d := by
    rw [List.lookup_append, List.lookup_cons, beq_eq_false_iff_ne.2 other]
    exact Option.or_none
  have client (d : Nat) (other : d ≠ c) :
      Server.client { s with admission, clients := s.clients ++ [(c, { overflowed := full })] } d =
        s.client d := by
    rw [Server.client, Server.client, lookup d other]
  have mine : s.client c = {} ∧
      Server.client { s with admission, clients := s.clients ++ [(c, { overflowed := full })] } c =
        { overflowed := full } := by
    simp [Server.client, List.lookup_append, unlisted]
  refine ⟨⟨rfl, rfl⟩, fun h d listed => ?_, fun d => ?_, fun d => ?_, fun d => ?_⟩ <;>
    by_cases same : d = c
  · exact same ▸ known
  · rw [lookup d same] at listed
    exact moved.known (h d listed)
  · rw [same, wire_of_unlisted unlisted]
    exact List.nil_prefix
  · refine wire_le ⟨rfl, rfl⟩ (client d same ▸ .refl _) fun waits => ?_
    rcases moved.waiting waits with old | accepted
    · exact old
    · cases accepted
      exact absurd rfl same
  · rw [same, mine.1, mine.2]
  · rw [client d same]
  · rw [same, mine.1, mine.2]
    exact List.nil_sublist _
  · rw [client d same]
    exact List.sublist_append_left _ _

/-! ## What a client reads -/

/-- The bytes that each client has read are the first of those it was sent, and nothing was received
from it that it has not sent. -/
structure Sound (s start : Server) (got : Nat → Bytes) (sent : Nat → List Bytes) : Prop where
  shared : s.service = start.service ∧ s.limits = start.limits
  listed : s.Listed
  read : ∀ c, got c = (s.wire c).take (s.client c).taken ∧ (s.client c).taken ≤ (s.wire c).length
  own : ∀ c, (s.client c).chunks.Sublist (sent c)

variable {start : Server} {got : Nat → Bytes} {more : Nat → List Bytes}

theorem Sound.grows (h : s.Sound start got sent) (grows : s.Grows s' more) :
    s'.Sound start got fun c => sent c ++ more c := by
  refine ⟨⟨grows.shared.1.trans h.shared.1, grows.shared.2.trans h.shared.2⟩,
    grows.listed h.listed, fun c => ?_, fun c => ?_⟩
  · obtain ⟨read, le⟩ := h.read c
    obtain ⟨rest, wire⟩ := grows.wire c
    rw [grows.taken, ← wire]
    refine ⟨?_, ?_⟩
    · rw [read, List.take_append_of_le_length le]
    · rw [List.length_append]
      omega
  · exact (grows.chunks c).trans ((h.own c).append_right (more c))

theorem wire_update (s : Server) (c d : Nat)
    (same : ∀ client, (f client).overflowed = client.overflowed ∧
      (f client).incoming = client.incoming) : (s.update c f).wire d = s.wire d := by
  have both : ((s.update c f).client d).overflowed = (s.client d).overflowed ∧
      ((s.update c f).client d).incoming = (s.client d).incoming := by
    rw [client_update]
    split
    · exact same _
    · exact ⟨rfl, rfl⟩
  unfold wire session
  rw [both.1, both.2]
  rfl

theorem Sound.deliver (h : s.Sound start got sent) (c n : Nat) :
    (s.deliver c n).2.Sound start (fun d => if c = d then got d ++ (s.deliver c n).1 else got d) sent := by
  simp only [Server.deliver]
  generalize next : ((s.wire c).drop (s.client c).taken).take n = bytes
  refine ⟨h.shared, listed_update h.listed c _, fun d => ?_, fun d => ?_⟩
  · obtain ⟨read, le⟩ := h.read d
    rw [wire_update]
    case same => exact fun _ => ⟨rfl, rfl⟩
    split
    · rename_i same
      subst same
      have start : bytes <+: (s.wire c).drop (s.client c).taken := next ▸ List.take_prefix _ _
      have taken : ((s.update c fun client =>
          { client with taken := client.taken + bytes.length }).client c).taken =
            (s.client c).taken + bytes.length := by
        rw [client_update]
        split
        · rfl
        · rename_i unlisted
          have unlisted : s.clients.lookup c = none :=
            Option.not_isSome_iff_eq_none.1 fun listed => unlisted ⟨rfl, listed⟩
          rw [wire_of_unlisted unlisted, List.drop_nil, List.prefix_nil] at start
          rw [start]
          rfl
      have fits := start.length_le
      rw [List.length_drop] at fits
      rw [taken, List.take_add, ← read, ← List.prefix_iff_eq_take.1 start]
      exact ⟨rfl, by omega⟩
    · rename_i other
      rw [client_update, if_neg (fun this => other this.1.symm)]
      exact ⟨read, le⟩
  · rw [client_update]
    split <;> exact h.own d

theorem Sound.congr {got' : Nat → Bytes} {sent' : Nat → List Bytes} (h : s.Sound start got sent)
    (gets : ∀ d, got' d = got d) (sends : ∀ d, sent' d = sent d) : s.Sound start got' sent' := by
  obtain rfl := funext gets
  obtain rfl := funext sends
  exact h

theorem Sound.step (h : s.Sound start got sent) (step : ClientStep) :
    (s.step step).2.Sound start
      (fun d => if step.client = d then got d ++ (s.step step).1.getD [] else got d)
      (fun d => sent d ++ if step.client = d then step.bytes?.toList else []) := by
  cases step with
  | connect c =>
    simp only [Server.step]
    split
    · exact h.congr (by simp) (by simp [ClientStep.bytes?])
    · rename_i admission moved
      have connected := grows_connect h.listed (Admission.moved_of_step? moved)
        (admission.overflow.contains c)
      exact (h.grows (connected.trans (grows_settled _))).congr (by simp)
        (by simp [ClientStep.bytes?])
  | send c bytes =>
    have update : s.Grows (s.update c fun client => client.send bytes)
        (fun d => if c = d then [bytes] else []) := by
      refine s.grows_update c (fun client => client.continues_send bytes) fun client => ?_
      unfold Client.send
      split <;> simp
    exact (h.grows (update.trans (grows_settled _))).congr (by simp [Server.step]) fun d => rfl
  | drop c =>
    have dropped := (s.grows_finish c (.failed .connectionReset)).trans (grows_settled _)
    exact (h.grows dropped).congr (by simp [Server.step]) (by simp [ClientStep.bytes?])
  | read c n =>
    have waited := s.grows_awaiting c n (s.admission.known.length + 1)
    exact ((h.grows waited).deliver c n).congr (fun d => rfl) (by simp [ClientStep.bytes?])
  | finish c =>
    have finished := (s.grows_finish c .ended).trans (grows_settled _)
    exact ((h.grows (finished.trans (grows_awaiting c _ _ _))).deliver c _).congr (fun d => rfl)
      (by simp [ClientStep.bytes?])

/-! ## All steps -/

theorem delivered_cons (s : Server) (c : Nat) (step : ClientStep) (steps : List ClientStep) :
    s.delivered c (step :: steps) =
      (if step.client = c then (s.step step).1.getD [] else []) ++
        (s.step step).2.delivered c steps := by
  rw [delivered, run, List.zip_cons_cons, List.flatMap_cons, delivered]

theorem Sound.after (h : s.Sound start got sent) (steps : List ClientStep) :
    (s.after steps).Sound start (fun c => got c ++ s.delivered c steps)
      (fun c => sent c ++ sentBy c steps) := by
  induction steps generalizing s got sent with
  | nil => exact h.congr (fun c => List.append_nil _) (fun c => List.append_nil _)
  | cons step steps ih =>
    refine (ih (h.step step)).congr (fun c => ?_) fun c => ?_
    · rw [delivered_cons]
      split <;> simp
    · rw [sentBy, List.flatMap_cons, List.append_assoc, sentBy]

/-- What a client reads by its steps is the start of what a session with it alone sends, or of the
refusal if its connection overflowed. The session receives nothing that the client has not sent. -/
theorem delivered_le (service : Service) (limits : ServerLimits) (steps : List ClientStep) (c : Nat) :
    let last := Server.after { service, limits } steps
    Server.delivered { service, limits } c steps <+:
        (if (last.client c).overflowed then Admission.refusalBytes limits
        else (service.run (last.client c).incoming .attentive).wire) ∧
      (last.client c).chunks.Sublist (sentBy c steps) := by
  intro last
  have fresh : Sound { service, limits } { service, limits } (fun _ => []) (fun _ => []) := by
    refine ⟨⟨rfl, rfl⟩, fun c listed => absurd rfl listed, fun c => ⟨rfl, Nat.zero_le _⟩, fun c => ?_⟩
    exact List.Sublist.refl []
  have h := fresh.after steps
  refine ⟨?_, h.own c⟩
  have read := (h.read c).1
  rw [List.nil_append] at read
  rw [read]
  refine (List.take_prefix _ _).trans ?_
  change last.wire c <+: _
  unfold wire
  rw [h.shared.2]
  split
  · exact List.prefix_rfl
  · split
    · exact List.nil_prefix
    · rw [session, h.shared.1]

end Server
end HttpServer
