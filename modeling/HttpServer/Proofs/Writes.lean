import HttpServer.Proofs.Script
import HttpServer.Sending.Calls
/-!
# Every byte is written once

Each write is offered what the writes before it have left of the data (`follows_of_calls_writeFrom`).
So the bytes taken are the start of the data, and sending succeeds exactly if they are all of it
(`wire_writeFrom`). It fails with the first answer of the peer that is neither a positive number nor an
interruption (`script_of_writeFrom_error`). The loop that only counts does the same writes
(`offerRest_eq_writeFrom`).
-/
namespace HttpServer

open Bytes

variable {data : Bytes} {offset : Nat} {peer : Peer} {outcome : WriteOutcome} {e : IoError}

/-! ## Answers -/

namespace WriteOutcome

/-- A write that ends the sending took nothing. -/
theorem count_of_failure? (h : outcome.failure? = some e) : outcome.count = 0 := by
  cases outcome with
  | accepts n =>
    cases n with
    | zero => rfl
    | succ n => cases h
  | _ => rfl

theorem failure?_eq_none_iff :
    outcome.failure? = none ↔
      (∃ n, outcome = accepts (n + 1)) ∨ ∃ e, outcome = fails e ∧ e.kind = .interrupted := by
  cases outcome with
  | accepts n => cases n <;> simp [failure?]
  | fails e => simp [failure?]
  | stalls => simp [failure?]

theorem failure?_eq_some_iff :
    outcome.failure? = some e ↔
      (outcome = accepts 0 ∧ e = .writeZero) ∨ (outcome = fails e ∧ e.kind ≠ .interrupted) ∨
        (outcome = stalls ∧ e = .writeTimeout) := by
  cases outcome with
  | accepts n => cases n <;> simp [failure?, eq_comm]
  | fails e' =>
    by_cases again : e'.kind = .interrupted
    · simp [failure?, again]
      rintro rfl
      exact again
    · simp [failure?, again]
      rintro rfl
      exact again
  | stalls => simp [failure?, eq_comm]

end WriteOutcome

/-- The next answer of a script decides about a write that offers something. -/
theorem Peer.offer_scripted_cons (outcome : WriteOutcome) (rest : List WriteOutcome) {n : Nat}
    (pos : 0 < n) :
    ∃ answer, (scripted (outcome :: rest)).offer n = (answer, scripted rest) ∧
      answer.failure? = outcome.failure? := by
  cases outcome with
  | accepts k =>
    refine ⟨.accepts (min k n), rfl, ?_⟩
    cases k with
    | zero => rw [Nat.zero_min]
    | succ k =>
      obtain ⟨m, hm⟩ : ∃ m, min (k + 1) n = m + 1 := ⟨min (k + 1) n - 1, by omega⟩
      rw [hm]
      rfl
  | fails e => exact ⟨.fails e, rfl, rfl⟩
  | stalls => exact ⟨.stalls, rfl, rfl⟩

/-- Each write uses up one answer of a script. -/
theorem Peer.snd_offer_scripted (outcomes : List WriteOutcome) (n : Nat) :
    ((scripted outcomes).offer n).2 = scripted outcomes.tail := by
  cases outcomes with
  | nil => rfl
  | cons outcome rest => cases outcome <;> rfl

/-! ## Writes -/

/-- What can be said of a write when others have been made before it: it is offered what they left of
the data, which is something, and it gets the next answer of the script. -/
def WriteCall.Follows (data : Bytes) (outcomes : List WriteOutcome) (before : List WriteCall)
    (call : WriteCall) : Prop :=
  call.offered ≠ [] ∧ before.flatMap taken ++ call.offered = data ∧
    call.outcome = ((Peer.scripted (outcomes.drop before.length)).offer call.offered.length).1

/-- From each place in the data on, each write follows those before it. -/
theorem follows_of_calls_writeFrom (data : Bytes) (offset : Nat) (peer : Peer) :
    ∀ outcomes, peer = .scripted outcomes →
      ∀ before call after, (writeFrom data offset peer).calls = before ++ call :: after →
        call.Follows (data.drop offset) outcomes before := by
  have first {offset : Nat} {outcomes : List WriteOutcome} {outcome : WriteOutcome} {next : Peer}
      (more : offset < data.length)
      (offer : (Peer.scripted outcomes).offer (data.drop offset).length = (outcome, next)) :
      (WriteCall.mk (data.drop offset) outcome).Follows (data.drop offset) outcomes [] := by
    refine ⟨?_, rfl, by rw [List.length_nil, List.drop_zero, offer]⟩
    rw [ne_eq, List.drop_eq_nil_iff]
    omega
  -- A write is the first one, or it follows the others behind the first, to which the rest of the data
  -- and of the script is left.
  fun_induction writeFrom data offset peer with
  | case1 offset peer more rest outcome next offer e failed =>
    rintro outcomes rfl before call after h
    cases before with
    | nil =>
      obtain ⟨rfl, -⟩ := List.cons.inj h
      exact first more offer
    | cons other before => simp at h
  | case2 offset peer more rest outcome next offer on ih =>
    rintro outcomes rfl before call after h
    cases before with
    | nil =>
      obtain ⟨rfl, -⟩ := List.cons.inj h
      exact first more offer
    | cons other before =>
      obtain ⟨rfl, behind⟩ := List.cons.inj h
      have left : next = .scripted outcomes.tail := by
        rw [← Peer.snd_offer_scripted outcomes rest.length, offer]
      obtain ⟨pos, all, answer⟩ := ih outcomes.tail left before call after behind
      refine ⟨pos, ?_, ?_⟩
      · rw [List.flatMap_cons, List.append_assoc, all, WriteCall.taken, ← List.drop_drop,
          List.take_append_drop]
      · rw [answer, List.drop_tail, List.length_cons]
  | case3 offset peer done =>
    intro outcomes same before call after h
    simp at h

/-- What is taken is the start of the data, and sending succeeds exactly if it is all of it. -/
theorem wire_writeFrom (peer : Peer) (le : offset ≤ data.length) :
    (writeFrom data offset peer).wire <+: data.drop offset ∧
      ((writeFrom data offset peer).result = .ok () ↔
        (writeFrom data offset peer).wire = data.drop offset) := by
  fun_induction writeFrom data offset peer with
  | case1 offset peer more rest outcome next offer e failed =>
    have nothing : (Writing.mk [⟨rest, outcome⟩] next (.error e)).wire = [] := by
      simp [Writing.wire, WriteCall.taken, WriteOutcome.count_of_failure? failed]
    have unsent : [] ≠ data.drop offset := by
      rw [ne_eq, eq_comm, List.drop_eq_nil_iff]
      omega
    rw [nothing]
    exact ⟨List.nil_prefix, iff_of_false (by simp) unsent⟩
  | case2 offset peer more rest outcome next offer on ih =>
    have room := Peer.count_le_of_offer offer
    have length : rest.length = data.length - offset := List.length_drop
    obtain ⟨start, all⟩ := ih (by omega)
    have parts : data.drop offset = rest.take outcome.count ++ data.drop (offset + outcome.count) := by
      rw [← List.drop_drop, List.take_append_drop]
    have wire : ((writeFrom data (offset + outcome.count) next).behind ⟨rest, outcome⟩).wire =
        rest.take outcome.count ++ (writeFrom data (offset + outcome.count) next).wire := by
      simp [Writing.wire, Writing.behind, WriteCall.taken]
    rw [wire, parts, List.prefix_append_right_inj, List.append_cancel_left_eq]
    exact ⟨start, all⟩
  | case3 offset peer done =>
    have allSent : data.drop offset = [] := List.drop_eq_nil_iff.2 (Nat.le_of_not_lt done)
    rw [allSent]
    exact ⟨List.prefix_rfl, iff_of_true rfl rfl⟩

/-! ## The answer that decides -/

/-- One write, by its answer. -/
theorem writeFrom_of_offer {next : Peer} (more : offset < data.length)
    (offer : peer.offer (data.drop offset).length = (outcome, next)) :
    writeFrom data offset peer =
      match outcome.failure? with
      | some e => ⟨[⟨data.drop offset, outcome⟩], next, .error e⟩
      | none => (writeFrom data (offset + outcome.count) next).behind ⟨data.drop offset, outcome⟩ := by
  rw [writeFrom, if_pos more]
  simp only
  split <;> rename_i failed <;> rw [offer] at failed <;> rw [failed, offer]

/-- To a peer that accepts everything no write fails. -/
theorem result_writeFrom_attentive (data : Bytes) (offset : Nat) :
    (writeFrom data offset .attentive).result = .ok () := by
  by_cases more : offset < data.length
  · have length : (data.drop offset).length = data.length - offset := List.length_drop
    obtain ⟨k, hk⟩ : ∃ k, (data.drop offset).length = k + 1 := ⟨data.length - offset - 1, by omega⟩
    rw [writeFrom_of_offer more (offer_attentive _), hk]
    simp only [WriteOutcome.failure?, Writing.behind, WriteOutcome.count]
    rw [writeFrom, if_neg (by omega)]
  · rw [writeFrom, if_neg more]

/-- Sending fails with the first answer of the script that is a failure, and the write that got it is
the last. -/
theorem script_of_writeFrom_error (data : Bytes) (offset : Nat) (outcomes : List WriteOutcome)
    (h : (writeFrom data offset (.scripted outcomes)).result = .error e) :
    ∃ before outcome after, outcomes = before ++ outcome :: after ∧
      (∀ o ∈ before, o.failure? = none) ∧ outcome.failure? = some e ∧
      (writeFrom data offset (.scripted outcomes)).calls.length = before.length + 1 := by
  induction outcomes generalizing offset with
  | nil =>
    have ok := result_writeFrom_attentive data offset
    rw [Peer.attentive, h] at ok
    cases ok
  | cons outcome rest ih =>
    by_cases more : offset < data.length
    · have length : (data.drop offset).length = data.length - offset := List.length_drop
      obtain ⟨answer, offer, decides⟩ :=
        Peer.offer_scripted_cons outcome rest (n := (data.drop offset).length) (by omega)
      rw [writeFrom_of_offer more offer] at h ⊢
      cases failed : answer.failure? with
      | some e' =>
        simp only [failed] at h ⊢
        cases h
        exact ⟨[], outcome, rest, rfl, List.forall_mem_nil _, decides ▸ failed, rfl⟩
      | none =>
        simp only [failed] at h ⊢
        obtain ⟨before, last, after, rfl, passed, final, calls⟩ := ih _ h
        refine ⟨outcome :: before, last, after, rfl, ?_, final, ?_⟩
        · exact List.forall_mem_cons.2 ⟨decides ▸ failed, passed⟩
        · simp only [Writing.behind, List.length_cons, calls]
    · rw [writeFrom, if_neg more] at h
      cases h

/-! ## Counting -/

/-- One turn of the loop that counts, by the answer. -/
theorem offerRest_of_offer {size sent : Nat} {next : Peer} (more : sent < size)
    (offer : peer.offer (size - sent) = (outcome, next)) (offered : Array Nat) :
    offerRest size peer sent offered =
      match outcome.failure? with
      | some e => ⟨sent, offered.push (size - sent), next, .error e⟩
      | none => offerRest size next (sent + outcome.count) (offered.push (size - sent)) := by
  rw [offerRest_of_lt more, offer]
  cases outcome with
  | accepts n => cases n <;> rfl
  | fails e =>
    by_cases again : e.kind = .interrupted
    · simp only [WriteOutcome.failure?, if_pos again]
      rfl
    · simp only [WriteOutcome.failure?, if_neg again]
  | stalls => rfl

theorem Writing.transfer_behind (w : Writing) {offered : Bytes} (room : outcome.count ≤ offered.length) :
    (w.behind ⟨offered, outcome⟩).transfer =
      ⟨outcome.count + w.transfer.sent, #[offered.length] ++ w.transfer.offered, w.peer, w.result⟩ := by
  have taken : (WriteCall.mk offered outcome).taken.length = outcome.count := by
    rw [WriteCall.taken, List.length_take, Nat.min_eq_left room]
  simp [transfer, wire, behind, taken]

/-- The loop that counts does the same writes. -/
theorem offerRest_eq_writeFrom (data : Bytes) (offset : Nat) (peer : Peer) :
    ∀ offered, offerRest data.length peer offset offered =
      let t := (writeFrom data offset peer).transfer
      ⟨offset + t.sent, offered ++ t.offered, t.peer, t.result⟩ := by
  fun_induction writeFrom data offset peer with
  | case1 offset peer more rest outcome next offer e failed =>
    intro offered
    have length : rest.length = data.length - offset := List.length_drop
    rw [offerRest_of_offer more (length ▸ offer), failed]
    simp [Writing.transfer, Writing.wire, WriteCall.taken, WriteOutcome.count_of_failure? failed, length]
  | case2 offset peer more rest outcome next offer on ih =>
    intro offered
    have length : rest.length = data.length - offset := List.length_drop
    have room := Peer.count_le_of_offer offer
    rw [offerRest_of_offer more (length ▸ offer), on]
    simp only [ih, Writing.transfer_behind _ room]
    rw [length, Array.push_eq_append, Array.append_assoc, Nat.add_assoc]
    rfl
  | case3 offset peer done =>
    intro offered
    rw [offerRest, if_neg done]
    simp [Writing.transfer, Writing.wire]

theorem sendAll_eq_writeAll (data : Bytes) (peer : Peer) :
    sendAll data.length peer = (writeAll data peer).transfer := by
  rw [sendAll, offerRest_eq_writeFrom data 0 peer #[]]
  simp only [Nat.zero_add, Array.empty_append]
  rfl

/-! ## All writes of some data -/

/-- What is taken is the start of the data. -/
theorem wire_writeAll_isPrefix (data : Bytes) (peer : Peer) : (writeAll data peer).wire <+: data := by
  obtain ⟨start, -⟩ := wire_writeFrom peer (Nat.zero_le data.length)
  exact start

/-- All is taken, or a proper start of the data and a write fails. -/
theorem writeAll_cases (data : Bytes) (peer : Peer) :
    ((writeAll data peer).result = .ok () ∧ (writeAll data peer).wire = data) ∨
      ∃ e, (writeAll data peer).result = .error e ∧ (writeAll data peer).wire ≠ data := by
  obtain ⟨-, all⟩ := wire_writeFrom peer (Nat.zero_le data.length)
  rw [List.drop_zero] at all
  unfold writeAll
  cases ended : (writeFrom data 0 peer).result with
  | ok => exact .inl ⟨rfl, all.1 ended⟩
  | error e =>
    refine .inr ⟨e, rfl, fun whole => ?_⟩
    rw [all.2 whole] at ended
    cases ended

/-- However the writes of some data are answered, each is offered exactly what those before it left of
the data, and something is left. So what was taken is the start of the data at any time, and no write
is made when all is taken. The sending succeeds exactly if all is taken. Otherwise it fails with the
first answer that is neither a positive number nor an interruption, and makes no further write. The loop
that counts does these writes. -/
theorem writeAll_scripted (data : Bytes) (outcomes : List WriteOutcome) :
    let w := writeAll data (.scripted outcomes)
    (∀ before call after, w.calls = before ++ call :: after →
      call.offered ≠ [] ∧ before.flatMap WriteCall.taken ++ call.offered = data ∧
      call.outcome =
        ((Peer.scripted (outcomes.drop before.length)).offer call.offered.length).1) ∧
    (∀ before after, w.calls = before ++ after → before.flatMap WriteCall.taken <+: data) ∧
    (w.result = .ok () ↔ w.wire = data) ∧
    (∀ e, w.result = .error e → ∃ before outcome after, outcomes = before ++ outcome :: after ∧
      (∀ o ∈ before, (∃ n, o = .accepts (n + 1)) ∨ ∃ e, o = .fails e ∧ e.kind = .interrupted) ∧
      ((outcome = .accepts 0 ∧ e = .writeZero) ∨ (outcome = .fails e ∧ e.kind ≠ .interrupted) ∨
        (outcome = .stalls ∧ e = .writeTimeout)) ∧
      w.calls.length = before.length + 1) ∧
    sendAll data.length (.scripted outcomes) = w.transfer := by
  intro w
  have follows : ∀ before call after, w.calls = before ++ call :: after →
      call.Follows data outcomes before :=
    follows_of_calls_writeFrom data 0 _ outcomes rfl
  obtain ⟨start, all⟩ := wire_writeFrom (.scripted outcomes) (Nat.zero_le data.length)
  refine ⟨follows, ?_, all, ?_, ?_⟩
  · intro before after h
    cases after with
    | nil =>
      rw [List.append_nil] at h
      rw [← h]
      exact start
    | cons call after =>
      obtain ⟨-, left, -⟩ := follows before call after h
      rw [← left]
      exact List.prefix_append _ _
  · intro e h
    obtain ⟨before, outcome, after, parts, passed, failed, calls⟩ :=
      script_of_writeFrom_error data 0 outcomes h
    refine ⟨before, outcome, after, parts, ?_, WriteOutcome.failure?_eq_some_iff.1 failed, calls⟩
    intro o mem
    exact WriteOutcome.failure?_eq_none_iff.1 (passed o mem)
  · exact sendAll_eq_writeAll data _

/-- Two bytes are taken, then a write is interrupted, then one does not end: the last answer is not
used. -/
theorem writeAll_scripted_hello :
    let again : WriteOutcome := .fails (.transport .interrupted "again")
    let w := writeAll (ofString "hello") (.scripted [.accepts 2, again, .stalls, .accepts 9])
    w.calls = [⟨ofString "hello", .accepts 2⟩] ++ ⟨ofString "llo", again⟩ :: [⟨ofString "llo", .stalls⟩] ∧
    [⟨ofString "hello", .accepts 2⟩].flatMap WriteCall.taken <+: ofString "hello" ∧
    w.result = .error .writeTimeout ∧
    ∃ before outcome after, [.accepts 2, again, .stalls, .accepts 9] = before ++ outcome :: after ∧
      w.calls.length = before.length + 1 := by
  intro again w
  have run : w = ⟨[⟨ofString "hello", .accepts 2⟩, ⟨ofString "llo", again⟩, ⟨ofString "llo", .stalls⟩],
      .scripted [.accepts 9], .error .writeTimeout⟩ := by
    have third : writeFrom (ofString "hello") 2 (.scripted [.stalls, .accepts 9]) =
        ⟨[⟨ofString "llo", .stalls⟩], .scripted [.accepts 9], .error .writeTimeout⟩ :=
      writeFrom_of_offer (by decide) rfl
    have second : writeFrom (ofString "hello") 2 (.scripted [again, .stalls, .accepts 9]) =
        (writeFrom (ofString "hello") 2 (.scripted [.stalls, .accepts 9])).behind
          ⟨ofString "llo", again⟩ :=
      writeFrom_of_offer (by decide) rfl
    have first : w = (writeFrom (ofString "hello") 2 (.scripted [again, .stalls, .accepts 9])).behind
        ⟨ofString "hello", .accepts 2⟩ :=
      writeFrom_of_offer (by decide) rfl
    rw [first, second, third]
    rfl
  obtain ⟨-, prefixes, -, failed, -⟩ :=
    writeAll_scripted (ofString "hello") [.accepts 2, again, .stalls, .accepts 9]
  have calls : w.calls = [⟨ofString "hello", .accepts 2⟩] ++ ⟨ofString "llo", again⟩ ::
      [⟨ofString "llo", .stalls⟩] := by
    rw [run]
    rfl
  have result : w.result = .error .writeTimeout := by rw [run]
  obtain ⟨before, outcome, after, parts, -, -, length⟩ := failed _ result
  exact ⟨calls, prefixes _ _ calls, result, before, outcome, after, parts, length⟩

end HttpServer
