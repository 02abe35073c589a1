import HttpServer.Proofs.Script
import HttpServer.Sending.Calls
/-!
# A file is streamed from its beginning

At any time the place in the file is the number of bytes sent, and the bytes sent are so many from the
beginning of the file, of which no more are sent than announced (`Streaming.Sound`, kept by each turn).

If the system goes on moving bytes, each turn ends the loop or sends something, so it ends
(`exists_ended_of_moves`): with success when as much is sent as was announced, or with the whole file
when that is shorter (`FailsAtEnd.ended`). The loop that counts comes to the same end (`run_script`).
-/
namespace HttpServer

open Bytes

variable {file : OpenFile} {content : Bytes} {size chunk : Nat} {st : Streaming} {round : Round}
  {rounds : Nat → Round}

namespace Streaming

/-! ## The parts of a turn -/

@[simp] theorem offset_settle : (settle size st).offset = st.offset := by
  unfold settle; split <;> rfl

@[simp] theorem sent_settle : (settle size st).sent = st.sent := by
  unfold settle; split <;> rfl

@[simp] theorem wire_settle : (settle size st).wire = st.wire := by
  unfold settle; split <;> rfl

@[simp] theorem calls_settle : (settle size st).calls = st.calls := by
  unfold settle; split <;> rfl

/-- A loop that runs ends with success exactly if all is sent, and does not fail. -/
theorem result_settle (st : Streaming) (running : st.result = none) (le : st.sent ≤ size) :
    (settle size st).result = if st.sent = size then some (.ok ()) else none := by
  unfold settle
  by_cases more : st.sent < size
  · rw [if_pos more, if_neg (Nat.ne_of_lt more), running]
  · rw [if_neg more, if_pos (by omega)]

theorem result_settle_ne_error (st : Streaming) (running : st.result = none) (le : st.sent ≤ size)
    (e : IoError) : (settle size st).result ≠ some (.error e) := by
  rw [result_settle st running le]
  split <;> simp

/-- What a call asks for is something, no more than a chunk and no more than is left. -/
theorem next_count (chunk : Nat) (more : st.sent < size) :
    0 < (st.next size chunk).count ∧ (st.next size chunk).count ≤ max chunk 1 ∧
      (st.next size chunk).count ≤ size - st.sent := by
  have word : 0 < Decimal.wordLimit - 1 := by decide
  simp only [next]
  omega

/-- A turn of a loop that runs. -/
theorem step_running (running : st.result = none) :
    step file size chunk st round =
      match round with
      | .unready e => st.fail e
      | .stalls => st.fail .writeTimeout
      | .moves n =>
        if file.readable then
          (st.ask size chunk).move file.content size (min n (st.next size chunk).count)
        else (st.ask size chunk).fail (.system .badDescriptor)
      | .fails e =>
        if e.kind = .interrupted ∨ e.kind = .wouldBlock then st.ask size chunk
        else (st.ask size chunk).fail e := by
  cases round <;> simp only [step, running]

/-- A loop that has ended makes no more turns. -/
theorem step_ended {result : Except IoError Unit} (ended : st.result = some result) :
    step file size chunk st round = st := by
  unfold step
  rw [ended]

/-! ## What each turn keeps -/

/-- The place in the file and the number of bytes sent agree, the peer has so many bytes from the
beginning, calls ask for no more than a chunk and nothing behind the announced size, and the loop has
ended with success exactly if all is sent. -/
structure Sound (content : Bytes) (size chunk : Nat) (st : Streaming) : Prop where
  offset_eq : st.offset = st.sent
  wire_eq : st.wire = content.take st.sent
  sent_le_length : st.sent ≤ content.length
  sent_le_size : st.sent ≤ size
  calls : ∀ call ∈ st.calls,
    0 < call.count ∧ call.count ≤ max chunk 1 ∧ call.offset + call.count ≤ size
  whole : st.result = some (.ok ()) ↔ st.sent = size

/-- Unless the loop has ended with success, something is left. -/
theorem Sound.sent_lt_of_ne (h : Sound content size chunk st) (other : st.result ≠ some (.ok ())) :
    st.sent < size := by
  apply Nat.lt_of_le_of_ne h.sent_le_size
  intro all
  exact other (h.whole.2 all)

theorem Sound.sent_lt (h : Sound content size chunk st) (running : st.result = none) :
    st.sent < size := by
  apply h.sent_lt_of_ne
  rw [running]
  simp

theorem Sound.length_wire (h : Sound content size chunk st) : st.wire.length = st.sent := by
  rw [h.wire_eq, List.length_take, Nat.min_eq_left h.sent_le_length]

/-- If the loop ends with success, the file holds what was announced, and that was sent. -/
theorem Sound.wire_of_ok (h : Sound content size chunk st) (ok : st.result = some (.ok ())) :
    st.wire = content.take size ∧ st.wire.length = size := by
  have all := h.whole.1 ok
  exact ⟨by rw [h.wire_eq, all], h.length_wire.trans all⟩

/-- Otherwise less than announced was sent. -/
theorem Sound.wire_of_ne (h : Sound content size chunk st) (other : st.result ≠ some (.ok ())) :
    st.wire <+: content.take size ∧ st.wire.length < size := by
  have more := h.sent_lt_of_ne other
  refine ⟨?_, by rw [h.length_wire]; exact more⟩
  rw [h.wire_eq]
  exact List.take_prefix_take_left (Nat.le_of_lt more)

theorem sound_start (content : Bytes) (size chunk : Nat) :
    Sound content size chunk (settle size {}) where
  offset_eq := by simp
  wire_eq := by simp
  sent_le_length := by simp
  sent_le_size := by simp
  calls := by simp
  whole := by simp [result_settle {} rfl (Nat.zero_le size)]

theorem Sound.fail (h : Sound content size chunk st) (more : st.sent < size) (e : IoError) :
    Sound content size chunk (st.fail e) :=
  { h with whole := iff_of_false (by simp [Streaming.fail]) (Nat.ne_of_lt more) }

theorem Sound.ask (h : Sound content size chunk st) (more : st.sent < size) :
    Sound content size chunk (st.ask size chunk) := by
  refine { h with calls := ?_ }
  intro call mem
  rcases List.mem_append.1 mem with before | last
  · exact h.calls call before
  · obtain rfl := List.mem_singleton.1 last
    obtain ⟨pos, chunked, left⟩ := next_count chunk more
    have place : (st.next size chunk).offset = st.sent := h.offset_eq
    exact ⟨pos, chunked, by omega⟩

/-- A call moves the next bytes of the file, as many as it asks for or all there are if there are fewer.
If there are none, the loop fails. -/
theorem Sound.move_cases (h : Sound content size chunk st) {count : Nat} (le : count ≤ size - st.sent) :
    (∃ bytes, 0 < bytes.length ∧ bytes.length = min count (content.length - st.sent) ∧
      content.take st.sent ++ bytes = content.take (st.sent + bytes.length) ∧
      (st.advance bytes).sent ≤ size ∧
      st.move content size count = settle size (st.advance bytes)) ∨
    (min count (content.length - st.sent) = 0 ∧
      st.move content size count = st.fail (.fileEnded st.sent size)) := by
  generalize moved : (content.drop st.offset).take count = bytes
  have length : bytes.length = min count (content.length - st.sent) := by
    rw [← moved, List.length_take, List.length_drop, h.offset_eq]
  by_cases empty : bytes = []
  · right
    refine ⟨by rw [← length, empty, List.length_nil], ?_⟩
    rw [Streaming.move, moved, if_pos empty]
  · left
    refine ⟨bytes, List.length_pos_iff.2 empty, length, ?_, ?_, ?_⟩
    · rw [List.take_add, length, ← List.length_drop, ← List.take_eq_take_min, ← h.offset_eq, moved]
    · have within := h.sent_le_size
      simp only [advance]
      omega
    · rw [Streaming.move, moved, if_neg empty]

theorem Sound.move (h : Sound content size chunk st) (running : st.result = none) {count : Nat}
    (le : count ≤ size - st.sent) : Sound content size chunk (st.move content size count) := by
  rcases h.move_cases le with ⟨bytes, -, length, next, room, moved⟩ | ⟨-, failed⟩
  · have sent : (st.advance bytes).sent = st.sent + bytes.length := rfl
    rw [moved]
    constructor
    · rw [offset_settle, sent_settle, sent, ← h.offset_eq]
      rfl
    · rw [wire_settle, sent_settle, sent, ← next, ← h.wire_eq]
      rfl
    · have within := h.sent_le_length
      rw [sent_settle]
      omega
    · rw [sent_settle]
      exact room
    · rw [calls_settle]
      exact h.calls
    · rw [result_settle (st.advance bytes) running room, sent_settle]
      simp
  · rw [failed]
    exact h.fail (h.sent_lt running) _

theorem Sound.step (h : Sound file.content size chunk st) (round : Round) :
    Sound file.content size chunk (step file size chunk st round) := by
  cases running : st.result with
  | some result =>
    rw [step_ended running]
    exact h
  | none =>
    have more := h.sent_lt running
    have asked := h.ask more
    obtain ⟨-, -, left⟩ := next_count chunk more
    rw [step_running running]
    cases round with
    | unready e => exact h.fail more e
    | stalls => exact h.fail more _
    | moves n =>
      simp only
      split
      · exact asked.move running (Nat.le_trans (Nat.min_le_right _ _) left)
      · exact asked.fail more _
    | fails e =>
      simp only
      split
      · exact asked
      · exact asked.fail more e

theorem Sound.foldl (h : Sound file.content size chunk st) (rounds : List Round) :
    Sound file.content size chunk (rounds.foldl (Streaming.step file size chunk) st) := by
  induction rounds generalizing st with
  | nil => exact h
  | cons round rounds ih => exact ih (h.step round)

theorem sound_run (file : OpenFile) (size chunk : Nat) (rounds : List Round) :
    Sound file.content size chunk (run file size chunk rounds) :=
  (sound_start file.content size chunk).foldl rounds

/-! ## Turns in which the system goes on -/

/-- In a turn in which the system moves bytes, something is sent and no failure ends the loop, or the
whole file is sent already and that is the failure. -/
theorem Sound.step_moves (h : Sound file.content size chunk st) (running : st.result = none)
    (readable : file.readable = true) (moves : round.Moves) :
    (st.sent < (Streaming.step file size chunk st round).sent ∧
        ∀ e, (Streaming.step file size chunk st round).result ≠ some (.error e)) ∨
      (st.sent = file.content.length ∧ Streaming.step file size chunk st round =
        (st.ask size chunk).fail (.fileEnded file.content.length size)) := by
  obtain ⟨pos, -, left⟩ := next_count chunk (h.sent_lt running)
  have asked := h.ask (h.sent_lt running)
  cases round with
  | moves n =>
    have turn : Streaming.step file size chunk st (.moves n) =
        (st.ask size chunk).move file.content size (min n (st.next size chunk).count) := by
      rw [step_running running]
      exact if_pos readable
    rw [turn]
    rcases asked.move_cases (Nat.le_trans (Nat.min_le_right n _) left) with
      ⟨bytes, any, -, -, room, moved⟩ | ⟨exhausted, failed⟩
    · left
      rw [moved, sent_settle]
      exact ⟨Nat.lt_add_of_pos_right any,
        result_settle_ne_error ((st.ask size chunk).advance bytes) running room⟩
    · right
      have positive : 0 < n := moves
      have within := h.sent_le_length
      have all : st.sent = file.content.length := by
        have : (st.ask size chunk).sent = st.sent := rfl
        omega
      exact ⟨all, by rw [failed, ← all]; rfl⟩
  | _ => cases moves

/-- In a turn that is retried, nothing changes but the calls. -/
theorem step_retried (running : st.result = none) (again : round.Retried) :
    step file size chunk st round = st.ask size chunk := by
  cases round with
  | fails e =>
    rw [step_running running]
    exact if_pos again
  | _ => cases again

/-- The loop has not failed unless the file had ended. -/
def FailsAtEnd (content : Bytes) (size : Nat) (st : Streaming) : Prop :=
  ∀ e, st.result = some (.error e) →
    e = .fileEnded content.length size ∧ st.sent = content.length

theorem FailsAtEnd.step (h : FailsAtEnd file.content size st)
    (sound : Sound file.content size chunk st) (readable : file.readable = true)
    (calm : st.result = none → round.Moves ∨ round.Retried) :
    FailsAtEnd file.content size (Streaming.step file size chunk st round) := by
  cases running : st.result with
  | some result =>
    rw [step_ended running]
    exact h
  | none =>
    rcases calm running with moves | again
    · rcases sound.step_moves running readable moves with ⟨-, well⟩ | ⟨all, failed⟩
      · intro e failed
        exact absurd failed (well e)
      · rw [failed]
        intro e same
        cases same
        exact ⟨rfl, all⟩
    · rw [step_retried running again]
      intro e failed
      exact h e failed

/-- A loop that has ended so has sent as much as announced, or the whole file. -/
theorem FailsAtEnd.ended (h : FailsAtEnd content size st) (sound : Sound content size chunk st)
    (ended : st.result ≠ none) :
    st.result = some (if size ≤ content.length then .ok () else .error (.fileEnded content.length size)) ∧
      st.wire = content.take size := by
  obtain ⟨result, known⟩ := Option.ne_none_iff_exists'.1 ended
  rw [known]
  cases result with
  | ok =>
    have enough : size ≤ content.length := sound.whole.1 known ▸ sound.sent_le_length
    exact ⟨by rw [if_pos enough], (sound.wire_of_ok known).1⟩
  | error e =>
    obtain ⟨rfl, all⟩ := h e known
    have short : content.length < size := all ▸ sound.sent_lt_of_ne (by simp [known])
    refine ⟨by rw [if_neg (Nat.not_le.2 short)], ?_⟩
    rw [sound.wire_eq, all, List.take_length, List.take_of_length_le (Nat.le_of_lt short)]

/-! ## Runs -/

theorem after_succ (file : OpenFile) (size chunk : Nat) (rounds : Nat → Round) (n : Nat) :
    after file size chunk rounds (n + 1) =
      step file size chunk (after file size chunk rounds n) (rounds n) := by
  simp only [after, run, List.range_succ, List.map_append, List.foldl_append, List.map_cons,
    List.map_nil, List.foldl_cons, List.foldl_nil]

theorem sound_after (file : OpenFile) (size chunk : Nat) (rounds : Nat → Round) (n : Nat) :
    Sound file.content size chunk (after file size chunk rounds n) :=
  sound_run file size chunk _

theorem failsAtEnd_after (readable : file.readable = true)
    (calm : ∀ i, (after file size chunk rounds i).result = none → (rounds i).Moves ∨ (rounds i).Retried)
    (n : Nat) : FailsAtEnd file.content size (after file size chunk rounds n) := by
  induction n with
  | zero =>
    intro e failed
    exact absurd failed (result_settle_ne_error {} rfl (Nat.zero_le size) e)
  | succ n ih =>
    rw [after_succ]
    exact ih.step (sound_after file size chunk rounds n) readable (calm n)

/-- If turns are retried only finitely often, the loop ends: after the last of them each turn sends
something, and there is no more to send than announced. -/
theorem exists_ended_of_moves (readable : file.readable = true)
    (calm : ∀ i, (after file size chunk rounds i).result = none → (rounds i).Moves ∨ (rounds i).Retried)
    (last : Nat)
    (finite : ∀ i ≥ last, (after file size chunk rounds i).result = none → ¬ (rounds i).Retried) :
    ∃ n, (after file size chunk rounds n).result ≠ none := by
  -- While the loop runs, each turn after the last that is retried has sent at least one byte.
  have progress (k : Nat) : (after file size chunk rounds (last + k)).result = none →
      k ≤ (after file size chunk rounds (last + k)).sent := by
    induction k with
    | zero => exact fun _ => Nat.zero_le _
    | succ k ih =>
      rw [← Nat.add_assoc, after_succ]
      intro running
      cases before : (after file size chunk rounds (last + k)).result with
      | some result =>
        rw [step_ended before, before] at running
        cases running
      | none =>
        have moves := (calm _ before).resolve_right (finite _ (Nat.le_add_right _ _) before)
        have sound := sound_after file size chunk rounds (last + k)
        rcases sound.step_moves before readable moves with ⟨further, -⟩ | ⟨-, failed⟩
        · have := ih before
          omega
        · rw [failed] at running
          cases running
  refine ⟨last + size, fun running => ?_⟩
  have more := (sound_after file size chunk rounds (last + size)).sent_lt running
  exact absurd (progress size running) (Nat.not_le.2 more)

/-! ## Counting -/

/-- The system moves no more than it is asked for. -/
theorem step_moves_min (n : Nat) (running : st.result = none) :
    step file size chunk st (.moves (min n (st.next size chunk).count)) =
      step file size chunk st (.moves n) := by
  rw [step_running running, step_running running]
  simp only [Nat.min_assoc, Nat.min_self]

theorem foldl_ended {result : Except IoError Unit} (ended : st.result = some result)
    (rounds : List Round) : rounds.foldl (step file size chunk) st = st := by
  induction rounds with
  | nil => rfl
  | cons round rounds ih => rw [List.foldl_cons, step_ended ended, ih]

/-- The call asks for as much as the loop that counts offers. -/
theorem count_next (word : chunk < Decimal.wordLimit) (st : Streaming) :
    (st.next size chunk).count = min (size - st.sent) (max chunk 1) := by
  have limit : 1 < Decimal.wordLimit := by decide
  simp only [next]
  omega

/-- One turn of the loop that counts. -/
theorem Sound.offerFile_of_offer (h : Sound file.content size chunk st) (running : st.result = none)
    (word : chunk < Decimal.wordLimit) {peer next : Peer} {answer : WriteOutcome}
    (offer : peer.offer (st.next size chunk).count = (answer, next)) (offered : Array Nat) :
    ∃ offered',
      offerFile file.readable file.content.length size chunk peer st.sent offered =
        match (Streaming.step file size chunk st (.ofOutcome answer)).result with
        | some (.error e) =>
          ⟨(Streaming.step file size chunk st (.ofOutcome answer)).sent, offered', next, .error e⟩
        | _ =>
          offerFile file.readable file.content.length size chunk next
            (Streaming.step file size chunk st (.ofOutcome answer)).sent offered' := by
  have more := h.sent_lt running
  obtain ⟨-, -, left⟩ := next_count chunk more
  refine ⟨offered.push (st.next size chunk).count, ?_⟩
  rw [offerFile_of_lt more, ← count_next word st, step_running running]
  simp only [offer]
  cases answer with
  | accepts k =>
    simp only [Round.ofOutcome, Nat.min_eq_left (Peer.le_of_offer offer)]
    by_cases readable : file.readable = true
    · simp only [readable, if_true, Bool.not_true, Bool.false_eq_true, if_false]
      rcases (h.ask more).move_cases (Nat.le_trans (Peer.le_of_offer offer) left) with
        ⟨bytes, pos, length, -, room, moved⟩ | ⟨exhausted, failed⟩
      · have length : bytes.length = min k (file.content.length - st.sent) := length
        rw [moved, ← length, if_pos pos, sent_settle]
        split
        · rename_i e failed
          exact absurd failed
            (result_settle_ne_error ((st.ask size chunk).advance bytes) running room e)
        · rfl
      · have exhausted : ¬ 0 < min k (file.content.length - st.sent) := Nat.not_lt.2 (Nat.le_of_eq exhausted)
        rw [failed, if_neg exhausted]
        rfl
    · simp only [readable, Bool.not_false, if_true]
      rfl
  | fails e =>
    simp only [Round.ofOutcome]
    split
    · simp only [Streaming.ask, running]
    · rfl
  | stalls => rfl

/-- These turns come to the same end as the loop that counts comes to with this peer. -/
def Agrees (file : OpenFile) (size chunk : Nat) (st : Streaming) (rounds : List Round) (peer : Peer) :
    Prop :=
  ∀ offered,
    let done := rounds.foldl (step file size chunk) st
    let t := offerFile file.readable file.content.length size chunk peer st.sent offered
    done.result = some t.result ∧ done.sent = t.sent

/-- If all is sent, there are no turns to make. -/
theorem Sound.agrees_ok (h : Sound file.content size chunk st) (ok : st.result = some (.ok ()))
    (rounds : List Round) (peer : Peer) : Agrees file size chunk st rounds peer := by
  intro offered
  have all := h.whole.1 ok
  rw [foldl_ended ok, offerFile, if_neg (by omega)]
  exact ⟨ok, rfl⟩

/-- One turn, if the others agree with what is left of the peer. -/
theorem Sound.agrees_cons (h : Sound file.content size chunk st) (running : st.result = none)
    (word : chunk < Decimal.wordLimit) {peer next : Peer} {answer : WriteOutcome}
    (offer : peer.offer (st.next size chunk).count = (answer, next))
    (same : Streaming.step file size chunk st round =
      Streaming.step file size chunk st (.ofOutcome answer)) (rest : List Round)
    (others : (∀ e, (Streaming.step file size chunk st round).result ≠ some (.error e)) →
      Agrees file size chunk (Streaming.step file size chunk st round) rest next) :
    Agrees file size chunk st (round :: rest) peer := by
  intro offered
  obtain ⟨offered', turn⟩ := h.offerFile_of_offer running word offer offered
  rw [← same] at turn
  rw [List.foldl_cons, turn]
  split
  · rename_i e failed
    rw [foldl_ended failed]
    exact ⟨failed, rfl⟩
  · rename_i well
    exact others well offered'

/-- To a peer that accepts everything each turn sends something. -/
theorem Sound.agrees_attentive (h : Sound file.content size chunk st) (word : chunk < Decimal.wordLimit)
    (well : ∀ e, st.result ≠ some (.error e)) {extra : Nat} (enough : size - st.sent ≤ extra) :
    Agrees file size chunk st (List.replicate extra (.moves size)) .attentive := by
  -- Each turn ends the loop or lowers what is left, so there are enough of them.
  induction extra generalizing st with
  | zero =>
    have all : st.sent = size := Nat.le_antisymm h.sent_le_size (by omega)
    exact h.agrees_ok (h.whole.2 all) _ _
  | succ extra ih =>
    match running : st.result with
    | some (.error e) => exact absurd running (well e)
    | some (.ok ()) => exact h.agrees_ok running _ _
    | none =>
      have more := h.sent_lt running
      obtain ⟨-, -, left⟩ := next_count chunk more
      have same : Streaming.step file size chunk st (.moves size) =
          Streaming.step file size chunk st (.moves (st.next size chunk).count) := by
        rw [← step_moves_min size running, Nat.min_eq_right (by omega)]
      refine h.agrees_cons running word (offer_attentive _) same _ fun well' => ?_
      have further : st.sent < (Streaming.step file size chunk st (.moves size)).sent := by
        by_cases readable : file.readable = true
        · have positive : (Round.moves size).Moves := Nat.zero_lt_of_lt more
          rcases h.step_moves running readable positive with ⟨further, -⟩ | ⟨-, failed⟩
          · exact further
          · exact absurd (congrArg result failed) (well' _)
        · refine absurd ?_ (well' (.system .badDescriptor))
          rw [step_running running]
          simp only [if_neg readable]
          rfl
      exact ih (h.step _) well' (by omega)

theorem Sound.agrees_script (h : Sound file.content size chunk st) (word : chunk < Decimal.wordLimit)
    (well : ∀ e, st.result ≠ some (.error e)) (outcomes : List WriteOutcome) :
    Agrees file size chunk st (Round.script size outcomes) (.scripted outcomes) := by
  induction outcomes generalizing st with
  | nil => exact h.agrees_attentive word well (Nat.sub_le size st.sent)
  | cons outcome outcomes ih =>
    match running : st.result with
    | some (.error e) => exact absurd running (well e)
    | some (.ok ()) => exact h.agrees_ok running _ _
    | none =>
      obtain ⟨answer, offer, same⟩ :
          ∃ answer, (Peer.scripted (outcome :: outcomes)).offer (st.next size chunk).count =
              (answer, .scripted outcomes) ∧
            Streaming.step file size chunk st (.ofOutcome outcome) =
              Streaming.step file size chunk st (.ofOutcome answer) := by
        cases outcome with
        | accepts n => exact ⟨_, rfl, (step_moves_min n running).symm⟩
        | fails e => exact ⟨_, rfl, rfl⟩
        | stalls => exact ⟨_, rfl, rfl⟩
      exact h.agrees_cons running word offer same _ fun well' => ih (h.step _) well'

/-- The loop that counts comes to the same end. -/
theorem run_script (file : OpenFile) (size : Nat) (word : chunk < Decimal.wordLimit)
    (outcomes : List WriteOutcome) :
    let done := run file size chunk (Round.script size outcomes)
    let t := sendFile file size chunk (.scripted outcomes)
    done.result = some t.result ∧ done.sent = t.sent := by
  have agrees := (sound_start file.content size chunk).agrees_script word
    (result_settle_ne_error {} rfl (Nat.zero_le size)) outcomes #[]
  rwa [sent_settle] at agrees

/-! ## All turns -/

/-- Whatever the file holds, wherever it is positioned and whatever becomes of the turns, the bytes sent
are the first ones of the file, as many as its place says, and never more than announced; no call asks
for more than a chunk or for what lies behind the announced size. If the system goes on moving bytes and
is to be asked again only finitely often, the loop ends, with the announced number of bytes sent or with
the whole file and the failure that it is shorter. Neither the chunks nor the numbers of bytes moved
matter for that. The loop that counts comes to the same end. -/
theorem after_eq_take (file : OpenFile) (size chunk : Nat) (rounds : Nat → Round) :
    let st := after file size chunk rounds
    (∀ n, (st n).wire = file.content.take (st n).sent ∧ (st n).wire.length = (st n).sent ∧
      (st n).sent ≤ size ∧ (st n).offset = (st n).sent ∧
      ∀ call ∈ (st n).calls,
        0 < call.count ∧ call.count ≤ max chunk 1 ∧ call.offset + call.count ≤ size) ∧
    (file.readable = true →
      (∀ i, (st i).result = none → (rounds i).Moves ∨ (rounds i).Retried) →
      (∃ last, ∀ i ≥ last, (st i).result = none → ¬ (rounds i).Retried) →
      (∃ n, (st n).result ≠ none) ∧
      ∀ n, (st n).result ≠ none →
        (st n).result = some (if size ≤ file.content.length then .ok ()
          else .error (.fileEnded file.content.length size)) ∧
        (st n).wire = file.content.take size) ∧
    (chunk < Decimal.wordLimit → ∀ outcomes,
      let done := run file size chunk (Round.script size outcomes)
      let t := sendFile file size chunk (.scripted outcomes)
      done.result = some t.result ∧ done.sent = t.sent) := by
  intro st
  refine ⟨fun n => ?_, fun readable calm finite => ⟨?_, fun n ended => ?_⟩, ?_⟩
  · have sound := sound_after file size chunk rounds n
    exact ⟨sound.wire_eq, sound.length_wire, sound.sent_le_size, sound.offset_eq, sound.calls⟩
  · obtain ⟨last, finite⟩ := finite
    exact exists_ended_of_moves readable calm last finite
  · exact (failsAtEnd_after readable calm n).ended (sound_after file size chunk rounds n) ended
  · intro word outcomes
    exact run_script file size word outcomes

/-- A file that is positioned in its middle, with a turn that is retried at first: too short for what
was announced, and long enough. -/
theorem after_eq_take_welcome :
    let file : OpenFile := ⟨ofString "welcome", 3, true⟩
    let rounds (i : Nat) : Round :=
      if i = 0 then .fails (.transport .wouldBlock "busy") else .moves 2
    (∃ n, (after file 10 3 rounds n).result = some (.error (.fileEnded 7 10)) ∧
      (after file 10 3 rounds n).wire = ofString "welcome") ∧
    (∃ n, (after file 4 0 rounds n).result = some (.ok ()) ∧
      (after file 4 0 rounds n).wire = ofString "welc") ∧
    (run file 4 0 (Round.script 4 [.accepts 1])).result =
      some (sendFile file 4 0 (.scripted [.accepts 1])).result := by
  intro file rounds
  have calm (i : Nat) : (rounds i).Moves ∨ (rounds i).Retried := by
    by_cases first : i = 0
    · exact .inr (by simp [rounds, first, Round.Retried, IoError.kind])
    · exact .inl (by simp [rounds, first, Round.Moves])
  have finite (i : Nat) (later : i ≥ 1) : ¬ (rounds i).Retried := by
    have first : i ≠ 0 := by omega
    simp [rounds, first, Round.Retried]
  obtain ⟨-, short, -⟩ := after_eq_take file 10 3 rounds
  obtain ⟨-, long, same⟩ := after_eq_take file 4 0 rounds
  obtain ⟨⟨n, ended⟩, all⟩ := short rfl (fun i _ => calm i) ⟨1, fun i later _ => finite i later⟩
  obtain ⟨⟨m, ended'⟩, all'⟩ := long rfl (fun i _ => calm i) ⟨1, fun i later _ => finite i later⟩
  exact ⟨⟨n, all n ended⟩, ⟨m, all' m ended'⟩, (same (by decide) [.accepts 1]).1⟩

end Streaming

end HttpServer
