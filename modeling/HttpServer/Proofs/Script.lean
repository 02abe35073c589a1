import HttpServer.Proofs.Sending
/-!
# The last write that is made

A scripted peer answers each write with the next outcome of its script, so what is left of the script
tells how many writes were made. What makes writes *follows the script* if the first of them that
fails for good is the last: the outcomes behind it are all left (`FollowsScript.fails`), and if there
were none but those before it, all writes would succeed.

A loop of writes follows the script if each of its steps does (`followsScript_of_step`), and so do two
sequences of writes of which the second begins when the first has succeeded (`FollowsScript.andThen`).
-/
namespace HttpServer

/-- What becomes of some writes, by their peer: whether they all succeed, and the peer afterwards. -/
abbrev Writes := Peer → Bool × Peer

/-- The first write that fails for good is the last. -/
structure FollowsScript (f : Writes) : Prop where
  attentive : f .attentive = (true, .attentive)
  scripted : ∀ script, ∃ rest, (f (.scripted script)).2 = .scripted rest
  /-- Writes that succeed and leave some outcomes have used those before them, and they would use the
  same if others followed. -/
  succeeds : ∀ script rest, f (.scripted script) = (true, .scripted rest) → rest ≠ [] →
    ∃ used, script = used ++ rest ∧ ∀ other, f (.scripted (used ++ other)) = (true, .scripted other)
  /-- Writes that fail have used the outcomes up to one, and would succeed with those before it. -/
  fails : ∀ script peer, f (.scripted script) = (false, peer) →
    ∃ before outcome rest, script = before ++ outcome :: rest ∧ peer = .scripted rest ∧
      f (.scripted before) = (true, .attentive)

variable {f g : Writes}

/-- The peer after writes with a script, by whether they succeed. -/
theorem FollowsScript.cases (hf : FollowsScript f) (script : List WriteOutcome) :
    ∃ ok rest, f (.scripted script) = (ok, .scripted rest) := by
  obtain ⟨rest, h⟩ := hf.scripted script
  exact ⟨_, rest, Prod.ext rfl h⟩

/-! ## One write after the other -/

/-- A step of a loop of writes: it makes none and is done, or it makes one that fails for good or
after which the loop goes on. -/
inductive LoopStep {α : Type} (f : α → Writes) (a : α) : Prop where
  | done (h : ∀ script, f a (.scripted script) = (true, .scripted script))
  | write (h : ∀ outcome, (∀ rest, f a (.scripted (outcome :: rest)) = (false, .scripted rest)) ∨
      ∃ a', ∀ rest, f a (.scripted (outcome :: rest)) = f a' (.scripted rest))

theorem followsScript_of_step {α : Type} {f : α → Writes}
    (attentive : ∀ a, f a .attentive = (true, .attentive)) (step : ∀ a, LoopStep f a) (a : α) :
    FollowsScript (f a) := by
  refine ⟨attentive a, fun script => ?_, fun script rest h nonempty => ?_, fun script peer h => ?_⟩
  · induction script generalizing a with
    | nil => exact ⟨[], congrArg Prod.snd (attentive a)⟩
    | cons outcome script ih =>
      cases step a with
      | done done => exact ⟨_, congrArg Prod.snd (done _)⟩
      | write write =>
        rcases write outcome with final | ⟨a', next⟩
        · exact ⟨script, congrArg Prod.snd (final script)⟩
        · rw [next]
          exact ih a'
  · induction script generalizing a with
    | nil =>
      cases (attentive a).symm.trans h
      exact absurd rfl nonempty
    | cons outcome script ih =>
      cases step a with
      | done done =>
        cases (done _).symm.trans h
        exact ⟨[], rfl, done⟩
      | write write =>
        rcases write outcome with final | ⟨a', next⟩
        · cases (final script).symm.trans h
        · rw [next] at h
          obtain ⟨used, rfl, same⟩ := ih a' h
          exact ⟨outcome :: used, rfl, fun other => by rw [List.cons_append, next, same]⟩
  · induction script generalizing a with
    | nil => cases (attentive a).symm.trans h
    | cons outcome script ih =>
      cases step a with
      | done done => cases (done _).symm.trans h
      | write write =>
        rcases write outcome with final | ⟨a', next⟩
        · cases (final script).symm.trans h
          exact ⟨[], outcome, script, rfl, rfl, attentive a⟩
        · rw [next] at h
          obtain ⟨before, last, rest, rfl, peer, ok⟩ := ih a' h
          exact ⟨outcome :: before, last, rest, rfl, peer, by rw [next, ok]⟩

theorem followsScript_nothing : FollowsScript fun peer => (true, peer) :=
  followsScript_of_step (f := fun (_ : Unit) peer => (true, peer)) (fun _ => rfl)
    (fun _ => .done fun _ => rfl) ()

/-! ## One sequence of writes after the other -/

/-- Writes that begin when others have succeeded. -/
def Writes.andThen (f g : Writes) : Writes := fun peer =>
  if (f peer).1 then g (f peer).2 else f peer

theorem Writes.andThen_of_true {peer peer' : Peer} (h : f peer = (true, peer')) :
    f.andThen g peer = g peer' := by
  rw [andThen, h]
  rfl

theorem Writes.andThen_of_false {peer peer' : Peer} (h : f peer = (false, peer')) :
    f.andThen g peer = (false, peer') := by
  rw [andThen, h]
  rfl

theorem FollowsScript.andThen (hf : FollowsScript f) (hg : FollowsScript g) :
    FollowsScript (f.andThen g) := by
  refine ⟨?_, fun script => ?_, fun script rest h nonempty => ?_, fun script peer h => ?_⟩
  · rw [Writes.andThen_of_true hf.attentive, hg.attentive]
  · obtain ⟨ok, left, first⟩ := hf.cases script
    cases ok with
    | false => exact ⟨left, by rw [Writes.andThen_of_false first]⟩
    | true =>
      rw [Writes.andThen_of_true first]
      exact hg.scripted left
  · obtain ⟨ok, left, first⟩ := hf.cases script
    cases ok with
    | false =>
      rw [Writes.andThen_of_false first] at h
      cases h
    | true =>
      rw [Writes.andThen_of_true first] at h
      obtain ⟨used, rfl, same⟩ := hg.succeeds left rest h nonempty
      obtain ⟨used', rfl, same'⟩ := hf.succeeds script _ first (by simp [nonempty])
      refine ⟨used' ++ used, (List.append_assoc _ _ _).symm, fun other => ?_⟩
      rw [List.append_assoc, Writes.andThen_of_true (same' _), same]
  · obtain ⟨ok, left, first⟩ := hf.cases script
    cases ok with
    | false =>
      rw [Writes.andThen_of_false first] at h
      cases h
      obtain ⟨before, outcome, rest, rfl, left, all⟩ := hf.fails script _ first
      refine ⟨before, outcome, rest, rfl, left, ?_⟩
      rw [Writes.andThen_of_true all, hg.attentive]
    | true =>
      rw [Writes.andThen_of_true first] at h
      obtain ⟨before, outcome, rest, rfl, left, all⟩ := hg.fails left peer h
      obtain ⟨used, rfl, same⟩ := hf.succeeds script _ first (by simp)
      refine ⟨used ++ before, outcome, rest, (List.append_assoc _ _ _).symm, left, ?_⟩
      rw [Writes.andThen_of_true (same before), all]

/-! ## Bytes and files -/

/-- What becomes of the writes of a transfer. -/
def Transfer.writes (t : Transfer) : Bool × Peer := (t.result.isOk, t.peer)

/-- One write of bytes, without the proof that the loop ends. -/
theorem offerRest_of_lt {size sent : Nat} (more : sent < size) (peer : Peer) (offered : Array Nat) :
    offerRest size peer sent offered =
      match peer.offer (size - sent) with
      | (.accepts 0, next) => ⟨sent, offered.push (size - sent), next, .error .writeZero⟩
      | (.accepts (k + 1), next) => offerRest size next (sent + (k + 1)) (offered.push (size - sent))
      | (.fails e, next) =>
        if e.kind = .interrupted then offerRest size next sent (offered.push (size - sent))
        else ⟨sent, offered.push (size - sent), next, .error e⟩
      | (.stalls, next) => ⟨sent, offered.push (size - sent), next, .error .writeTimeout⟩ := by
  rw [offerRest, if_pos more]
  simp only
  split <;> rename_i h <;> rewrite [h] <;> rfl

/-- The loop over the writes of bytes, by what is accepted and what was offered. -/
theorem followsScript_offerRest (size sent : Nat) (offered : Array Nat) :
    FollowsScript fun peer => (offerRest size peer sent offered).writes := by
  refine followsScript_of_step (f := fun (reached : Nat × Array Nat) peer =>
    (offerRest size peer reached.1 reached.2).writes) (fun ⟨sent, offered⟩ => ?_) (fun ⟨sent, offered⟩ => ?_)
    (sent, offered)
  · obtain ⟨ok, peer⟩ := offerRest_attentive size sent offered
    simp only [Transfer.writes, ok, peer]
    rfl
  · by_cases more : sent < size
    · refine .write fun outcome => ?_
      have step rest := offerRest_of_lt more (.scripted (outcome :: rest)) offered
      cases outcome with
      | accepts n =>
        simp only [Peer.offer] at step
        cases taken : min n (size - sent) with
        | zero => exact .inl fun rest => by simp only [step rest, taken]; rfl
        | succ k =>
          exact .inr ⟨(sent + (k + 1), offered.push (size - sent)),
            fun rest => by simp only [step rest, taken]⟩
      | fails e =>
        simp only [Peer.offer] at step
        by_cases again : e.kind = .interrupted
        · exact .inr ⟨(sent, offered.push (size - sent)),
            fun rest => by simp only [step rest, if_pos again]⟩
        · exact .inl fun rest => by simp only [step rest, if_neg again]; rfl
      | stalls => exact .inl fun rest => by simp only [step rest, Peer.offer]; rfl
    · refine .done fun script => ?_
      simp only
      rw [offerRest, if_neg more]
      rfl

theorem followsScript_sendAll (size : Nat) : FollowsScript fun peer => (sendAll size peer).writes :=
  followsScript_offerRest size 0 #[]

/-- One write of a file, without the proof that the loop ends. -/
theorem offerFile_of_lt {size sent : Nat} (more : sent < size) (readable : Bool)
    (available chunk : Nat) (peer : Peer) (offered : Array Nat) :
    offerFile readable available size chunk peer sent offered =
      let count := min (size - sent) (max chunk 1)
      match peer.offer count with
      | (.accepts k, next) =>
        if !readable then ⟨sent, offered.push count, next, .error (.system .badDescriptor)⟩
        else if 0 < min k (available - sent) then
          offerFile readable available size chunk next (sent + min k (available - sent))
            (offered.push count)
        else ⟨sent, offered.push count, next, .error (.fileEnded sent size)⟩
      | (.fails e, next) =>
        if e.kind = .interrupted ∨ e.kind = .wouldBlock then
          offerFile readable available size chunk next sent (offered.push count)
        else ⟨sent, offered.push count, next, .error e⟩
      | (.stalls, next) => ⟨sent, offered.push count, next, .error .writeTimeout⟩ := by
  rw [offerFile, if_pos more]
  simp only
  split <;> rename_i h <;> rewrite [h] <;> rfl

/-- The loop over the writes of a file that holds what was announced. -/
theorem followsScript_offerFile {available size : Nat} (enough : size ≤ available)
    (chunk sent : Nat) (offered : Array Nat) :
    FollowsScript fun peer => (offerFile true available size chunk peer sent offered).writes := by
  refine followsScript_of_step (f := fun (reached : Nat × Array Nat) peer =>
    (offerFile true available size chunk peer reached.1 reached.2).writes) (fun ⟨sent, offered⟩ => ?_)
    (fun ⟨sent, offered⟩ => ?_) (sent, offered)
  · obtain ⟨ok, peer⟩ := offerFile_attentive enough chunk sent offered
    simp only [Transfer.writes, ok, peer]
    rfl
  · by_cases more : sent < size
    · refine .write fun outcome => ?_
      have step rest := offerFile_of_lt more true available chunk (.scripted (outcome :: rest)) offered
      simp only [Bool.not_true, Bool.false_eq_true, if_false] at step
      generalize min (size - sent) (max chunk 1) = count at step
      cases outcome with
      | accepts n =>
        simp only [Peer.offer] at step
        by_cases progress : 0 < min (min n count) (available - sent)
        · exact .inr ⟨(sent + min (min n count) (available - sent), offered.push count),
            fun rest => by simp only [step rest, if_pos progress]⟩
        · exact .inl fun rest => by simp only [step rest, if_neg progress]; rfl
      | fails e =>
        simp only [Peer.offer] at step
        by_cases again : e.kind = .interrupted ∨ e.kind = .wouldBlock
        · exact .inr ⟨(sent, offered.push count), fun rest => by simp only [step rest, if_pos again]⟩
        · exact .inl fun rest => by simp only [step rest, if_neg again]; rfl
      | stalls => exact .inl fun rest => by simp only [step rest, Peer.offer]; rfl
    · refine .done fun script => ?_
      simp only
      rw [offerFile, if_neg more]
      rfl

/-! ## Responses -/

/-- What becomes of the writes of a response. -/
def Delivery.writes (d : Delivery) : Bool × Peer := (d.result.isOk, d.peer)

theorem Transfer.writes_delivery (t : Transfer) (before bytes : Bytes) (phase : Phase) :
    (t.delivery before bytes phase).writes = t.writes := by
  unfold Delivery.writes Transfer.writes delivery
  cases t.result <;> rfl

/-- The writes of a body. -/
def Body.writes (limits : ResponseLimits) : Body → Writes
  | .owned bytes => fun peer => (sendAll bytes.length peer).writes
  | .file f size => fun peer => (sendFile f size limits.fileChunk peer).writes

theorem Response.writes_send (r : Response) (limits : ResponseLimits) :
    (fun peer => (r.send limits peer).writes) =
      Writes.andThen (fun peer => (sendAll r.head.length peer).writes) (r.body.writes limits) := by
  funext peer
  unfold send Writes.andThen
  simp only
  cases sent : (sendAll r.head.length peer).result with
  | error e => simp only [Transfer.writes_delivery, Transfer.writes, sent]; rfl
  | ok =>
    simp only [Transfer.writes, sent, Body.writes]
    cases r.body <;> exact Transfer.writes_delivery _ _ _ _

theorem Body.IsSendable.followsScript {b : Body} (h : b.IsSendable) (limits : ResponseLimits) :
    FollowsScript (b.writes limits) := by
  cases b with
  | owned bytes => exact followsScript_sendAll bytes.length
  | file f size =>
    obtain ⟨readable, enough⟩ := h
    unfold writes sendFile
    simp only [readable]
    exact followsScript_offerFile enough limits.fileChunk 0 #[]

/-- Sending a response whose file holds what was announced follows the script. -/
theorem Response.followsScript_send {r : Response} (h : r.body.IsSendable) (limits : ResponseLimits) :
    FollowsScript fun peer => (r.send limits peer).writes := by
  rw [r.writes_send]
  exact (followsScript_sendAll _).andThen (h.followsScript limits)

end HttpServer
