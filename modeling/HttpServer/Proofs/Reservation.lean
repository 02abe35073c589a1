import HttpServer.Proofs.Exchange
import HttpServer.Proofs.Fill
/-!
# A request for which room was made

Once a storage reaches to the end of a request (`Storage.Reserves`), nothing that is done while the
request is incomplete changes that: there is room behind the received bytes as long as one byte of the
request is missing, so a `fill` has no reason to grow the storage (`Storage.fill_of_room`), and to move
the pending bytes to the front only adds to the room.

So a connection has only one reason to answer that a head is too large: at the request where it stands
the largest buffer is full, and no empty line is in it (`Service.rejection_of_full`).
-/
namespace HttpServer

open Bytes

/-! ## Storages with room for a request -/

/-- What a connection does to its storage while a request of `total` bytes is incomplete: it receives, it
moves the pending bytes to the front, and it asks again for the room that the request needs. -/
inductive BufferOp.Awaits (total : Nat) : BufferOp → Prop where
  | fill (incoming : Incoming) : Awaits total (.fill incoming)
  | shift : Awaits total .shift
  | reserve : Awaits total (.reserve total)

namespace Storage

variable {s : Storage} {limits : RequestLimits} {total : Nat} {memory : Memory}

/-- The storage reaches to the end of a request of `total` bytes that starts with the pending ones. -/
structure Reserves (s : Storage) (limits : RequestLimits) (total : Nat) : Prop where
  bounded : s.Bounded limits
  admissible : total ≤ limits.maxSize
  reaches : s.consumed + total ≤ s.size

/-- A `fill` with room for a byte neither fails for lack of room nor grows the storage, and asks for no
memory. -/
theorem fill_of_room (room : s.received < s.size) (memory : Memory) (incoming : Incoming) :
    (incoming.chunks.flatten = [] ∧ (s.fill memory incoming).1 = ⟨incoming.ending.outcome, s⟩) ∨
      ∃ bytes, bytes ≠ [] ∧ bytes.length ≤ s.size - s.received ∧
        bytes = incoming.chunks.flatten.take bytes.length ∧
        (s.fill memory incoming).1 = ⟨.ok bytes.length, s.receive bytes⟩ := by
  have made : s.makeRoom memory = .ok s := if_neg (Nat.ne_of_lt room)
  rcases fill_of_makeRoom made incoming with ⟨nonempty, filled⟩ | ⟨nothing, ended⟩
  · obtain ⟨-, bytes, -⟩ := incoming.read_of_available nonempty (s.size - s.received)
    refine .inr ⟨_, ?_, List.length_take_le _ _, ?_, congrArg Prod.fst filled⟩
    · simp [nonempty]
      omega
    · rw [← bytes, List.take_left]
  · exact .inl ⟨Incoming.available_eq_nil_iff.1 nothing, ended⟩

namespace Reserves

/-- As long as a byte of the request is missing, there is room behind the received bytes. -/
theorem room (h : s.Reserves limits total) (missing : s.pending.length < total) :
    s.received < s.size := by
  have reaches := h.reaches
  have consumed := h.bounded.consumed_le
  rw [h.bounded.length_pending] at missing
  omega

theorem reserve_eq (h : s.Reserves limits total) (memory : Memory) :
    s.reserve memory total = ⟨.ok (), s⟩ := by
  have admissible := h.admissible
  rw [reserve, h.bounded.maxSize, if_neg (by omega), if_pos h.reaches]

theorem receive (h : s.Reserves limits total) {bytes : Bytes}
    (fits : bytes.length ≤ s.size - s.received) : (s.receive bytes).Reserves limits total := by
  obtain ⟨bounded, size⟩ := h.bounded.receive fits
  refine ⟨bounded, h.admissible, ?_⟩
  rw [size]
  exact h.reaches

theorem shift (h : s.Reserves limits total) : s.shift.Reserves limits total := by
  obtain ⟨bounded, size⟩ := h.bounded.shift
  have reaches := h.reaches
  refine ⟨bounded, h.admissible, ?_⟩
  rw [consumed_shift, size]
  omega

/-- What is done while the request is incomplete keeps the room for it, and the size of the storage. -/
theorem after (h : s.Reserves limits total) (missing : s.pending.length < total) (memory : Memory)
    {op : BufferOp} (awaits : op.Awaits total) :
    (s.after memory op).Reserves limits total ∧ (s.after memory op).size = s.size := by
  cases awaits with
  | fill incoming =>
    rw [Storage.after]
    rcases fill_of_room (h.room missing) memory incoming with ⟨-, done⟩ | ⟨bytes, -, fits, -, done⟩
    · rw [done]
      exact ⟨h, rfl⟩
    · rw [done]
      exact ⟨h.receive fits, (h.bounded.receive fits).2⟩
  | shift => exact ⟨h.shift, h.bounded.shift.2⟩
  | reserve =>
    rw [Storage.after, h.reserve_eq]
    exact ⟨h, rfl⟩

/-- A `fill` while the request is incomplete fails only as its stream does, and receives at least one
byte if there is one. -/
theorem fill (h : s.Reserves limits total) (missing : s.pending.length < total) (memory : Memory)
    (incoming : Incoming) :
    let read := (s.fill memory incoming).1
    (∀ e, read.result = .error e → e ≠ .headerTooLarge ∧ e ≠ .outOfMemory) ∧
      read.storage.size = s.size ∧
      (incoming.chunks.flatten ≠ [] → ∃ n, read.result = .ok (n + 1) ∧
        read.storage.pending = s.pending ++ incoming.chunks.flatten.take (n + 1)) := by
  intro read
  rcases fill_of_room (h.room missing) memory incoming
    with ⟨nothing, done⟩ | ⟨bytes, nonempty, fits, start, done⟩
  · have read_eq : read = ⟨incoming.ending.outcome, s⟩ := done
    rw [read_eq]
    refine ⟨fun e failed => ?_, rfl, fun sent => absurd nothing sent⟩
    cases ending : incoming.ending with
    | ended =>
      rw [ending] at failed
      cases failed
    | silent =>
      rw [ending] at failed
      cases failed
      exact ⟨nofun, nofun⟩
    | failed kind =>
      rw [ending] at failed
      cases kind <;> cases failed <;> exact ⟨nofun, nofun⟩
  · have read_eq : read = ⟨.ok bytes.length, s.receive bytes⟩ := done
    obtain ⟨n, length⟩ := Nat.exists_eq_succ_of_ne_zero (mt List.length_eq_zero_iff.1 nonempty)
    rw [read_eq]
    refine ⟨nofun, (h.bounded.receive fits).2, fun _ => ⟨n, by rw [length], ?_⟩⟩
    rw [h.bounded.pending_receive, ← Nat.succ_eq_add_one, ← length, ← start]

end Reserves

/-- Nothing is answered while a request is incomplete. -/
theorem answered_of_awaits {steps : List (Memory × BufferOp)}
    (awaits : ∀ step ∈ steps, step.2.Awaits total) (s : Storage) : s.answered steps = [] := by
  induction steps generalizing s with
  | nil => rfl
  | cons step steps ih =>
    obtain ⟨memory, op⟩ := step
    rw [List.forall_mem_cons] at awaits
    rw [answered, ih awaits.2, List.append_nil]
    cases awaits.1 <;> rfl

/-- The pending bytes only become more. -/
theorem Bounded.pending_run_of_awaits (h : s.Bounded limits) {steps : List (Memory × BufferOp)}
    (awaits : ∀ step ∈ steps, step.2.Awaits total) :
    (s.run steps).pending = s.pending ++ s.delivered steps := by
  have bytes := (h.run steps).2.2
  rwa [answered_of_awaits awaits, List.nil_append] at bytes

theorem Reserves.run (h : s.Reserves limits total) {steps : List (Memory × BufferOp)}
    (awaits : ∀ step ∈ steps, step.2.Awaits total)
    (missing : (s.run steps).pending.length < total) :
    (s.run steps).Reserves limits total ∧ (s.run steps).size = s.size := by
  induction steps generalizing s with
  | nil => exact ⟨h, rfl⟩
  | cons step steps ih =>
    -- what is missing after the run was missing before it
    have before : s.pending.length < total := by
      rw [h.bounded.pending_run_of_awaits awaits, List.length_append] at missing
      omega
    rw [List.forall_mem_cons] at awaits
    obtain ⟨reserves, size⟩ := h.after before step.1 awaits.1
    obtain ⟨reserves', size'⟩ := ih reserves awaits.2 missing
    exact ⟨reserves', size'.trans size⟩

end Storage

/-! ## Where a connection stands -/

/-- The end of a stream says nothing about the size of a head. -/
theorem Ending.rejection_ne_headerTooLarge (ending : Ending) :
    ending.rejection ≠ some .headerTooLarge := by
  cases ending with
  | ended => nofun
  | silent => nofun
  | failed kind => cases kind <;> nofun

namespace Service

variable {s : Service} {bytes : Bytes} {ending : Ending} {r : Response} {e : Rejection} {n : Nat}

/-- The bytes of a stream that no response answers: those behind the last request that is answered. -/
def unanswered (s : Service) (bytes : Bytes) : Bytes :=
  match _h : s.judge bytes with
  | .answered r n => if r.shouldClose then bytes.drop n else unanswered s (bytes.drop n)
  | _ => bytes
termination_by bytes.length
decreasing_by
  obtain ⟨pos, le, -⟩ := total_le_of_answered _h
  rw [List.length_drop]
  omega

theorem unanswered_of_answered (h : s.judge bytes = .answered r n) (keep : r.shouldClose = false) :
    s.unanswered bytes = s.unanswered (bytes.drop n) := by
  rw [unanswered]
  split
  · rename_i r' n' answered
    cases h.symm.trans answered
    rw [keep, if_neg Bool.false_ne_true]
  · rename_i other
    exact absurd h (other r n)

theorem unanswered_of_not_answered (h : ∀ r n, s.judge bytes ≠ .answered r n) :
    s.unanswered bytes = bytes := by
  rw [unanswered]
  split
  · rename_i r n answered
    exact absurd answered (h r n)
  · rfl

/-- That a head is too large is not found by reading a request, however large. -/
theorem ne_headerTooLarge_of_judge (h : s.judge bytes = .refused e) : e ≠ .headerTooLarge := by
  rintro rfl
  rcases refused_cases h with other | other | other | other | other <;> cases other

/-- A head that is too large, according to the transcript, fills the largest buffer without an end. -/
theorem full_of_transcript (h : (s.transcript ending bytes).rejection = some .headerTooLarge) :
    indexOf? blankLine ((s.unanswered bytes).take s.headLimit) = none ∧
      s.headLimit ≤ (s.unanswered bytes).length := by
  induction bytes using s.answered_induction with
  | last bytes undecided =>
    rw [unanswered_of_not_answered undecided]
    cases head : indexOf? blankLine (bytes.take s.headLimit) with
    | none =>
      refine ⟨rfl, Nat.le_of_not_lt fun short => ?_⟩
      rw [List.take_of_length_le (Nat.le_of_lt short)] at head
      rw [transcript_of_missing (.inl ⟨judged_iff.1 (.headMissing head), short⟩)] at h
      exact absurd h ending.rejection_ne_headerTooLarge
    | some i =>
      rw [transcript_of_head head] at h
      cases verdict : s.judge bytes with
      | answered r n => exact absurd verdict (undecided r n)
      | refused e =>
        rw [verdict] at h
        exact absurd (Option.some.inj h) (ne_headerTooLarge_of_judge verdict)
      | _ =>
        rw [verdict] at h
        exact absurd h ending.rejection_ne_headerTooLarge
  | next bytes r n answered ih =>
    rw [transcript_of_answered answered, answersTo] at h
    cases keep : r.shouldClose with
    | true =>
      rw [keep] at h
      cases h
    | false =>
      rw [keep] at h
      rw [unanswered_of_answered answered keep]
      exact ih h

/-- A head is too large for a connection only if it fills the largest buffer without an end. -/
theorem rejection_of_full (small : s.requests.maxSize < ReceiveBuffer.allocationLimit)
    {incoming : Incoming} {peer : Peer}
    (h : (s.run incoming peer).rejection = some .headerTooLarge) :
    indexOf? blankLine ((s.unanswered incoming.chunks.flatten).take s.headLimit) = none ∧
      s.headLimit ≤ (s.unanswered incoming.chunks.flatten).length := by
  have whole : (s.run incoming peer).dropped = none := by
    by_contra cut
    rw [run_eq_sentTo] at h cut
    rw [Session.rejection_sentTo _ _ _ cut] at h
    cases h
  have rejected : (s.transcript incoming.ending incoming.chunks.flatten).rejection =
      some .headerTooLarge := by
    rw [← transcript_run small whole]
    exact h
  exact full_of_transcript rejected

/-- No response of a route speaks of the size of a head. -/
theorem status_respond_ne (request : Request) (docs : DocumentRoot) (body path : Bytes) :
    (request.respond docs body path).status ≠ .requestHeaderFieldsTooLarge := by
  intro same
  change (Route.respond docs body path _).status = _ at same
  cases route : Route.resolve request.knownMethod request.isApi path with
  | staticFile =>
    rw [route, Route.respond, StaticFile.serve] at same
    split at same
    · cases same
    · split at same
      · rename_i e _
        cases e <;> cases same
      · split at same <;> cases same
  | _ =>
    rw [route] at same
    cases same

/-- An answer that speaks of the size of a head is the answer to a rejection for that reason. -/
theorem rejection_of_status {incoming : Incoming} {peer : Peer}
    (hr : r ∈ (s.run incoming peer).answered) (status : r.status = .requestHeaderFieldsTooLarge) :
    (s.run incoming peer).rejection = some .headerTooLarge := by
  rcases List.mem_append.1 hr with hr | hr
  · refine absurd status (forall_responses_converse
      (P := (·.status ≠ .requestHeaderFieldsTooLarge)) (fun b r answered => ?_) _ incoming peer r hr)
    obtain ⟨n, verdict, -⟩ := judge_of_processNext answered
    cases judged_iff.2 verdict with
    | answered => exact status_respond_ne _ _ _ _
  · obtain ⟨e, he, rfl⟩ := List.mem_map.1 hr
    rw [Option.mem_toList.1 he]
    cases e <;> first | rfl | cases status

/-- Once room is made for a request, with enough memory, its body always fits: the pending bytes stay,
the storage grows no further than to the end of the request, and as long as the request is incomplete
whatever arrives is received behind them, with no need for more cells or memory. So a connection does
not answer that a head is too large where it stands at a request with a complete head and an admissible
size. -/
theorem reserved_request_fits (s : Service)
    (small : s.requests.maxSize < ReceiveBuffer.allocationLimit) :
    (∀ (steps : List (Memory × BufferOp)) (total : Nat), total ≤ s.requests.maxSize →
      let st := (Storage.new s.requests).run steps
      ∃ made, st.reserve .ample total = ⟨.ok (), made⟩ ∧ made.pending = st.pending ∧
        made.size = max st.size total ∧ made.consumed + total ≤ made.size ∧
        ∀ more : List (Memory × BufferOp), (∀ step ∈ more, step.2.Awaits total) →
          let waiting := made.run more
          waiting.pending = st.pending ++ made.delivered more ∧
          (waiting.pending.length < total → ∀ memory incoming,
            let read := (waiting.fill memory incoming).1
            waiting.size = made.size ∧
            waiting.reserve memory total = ⟨.ok (), waiting⟩ ∧
            (∀ e, read.result = .error e → e ≠ .headerTooLarge ∧ e ≠ .outOfMemory) ∧
            read.storage.size = made.size ∧
            (incoming.chunks.flatten ≠ [] → ∃ n, read.result = .ok (n + 1) ∧
              read.storage.pending = waiting.pending ++ incoming.chunks.flatten.take (n + 1)))) ∧
    ∀ (incoming : Incoming) (peer : Peer) (i : Nat) (request : Request),
      let bytes := s.unanswered incoming.chunks.flatten
      indexOf? blankLine bytes = some i →
      Request.parse s.requests (bytes.take (i + 2)) = .ok request →
      i + 4 + request.contentLength ≤ s.requests.maxSize →
      ∀ r ∈ (s.run incoming peer).answered, r.status ≠ .requestHeaderFieldsTooLarge := by
  refine ⟨fun steps total admissible => ?_, fun incoming peer i request => ?_⟩
  · intro st
    have bounded : st.Bounded s.requests := ((Storage.bounded_new s.requests).run steps).1
    obtain ⟨made, reserved, bounded', same, reaches, size⟩ := bounded.reserve_ample small admissible
    have reserves : made.Reserves s.requests total := ⟨bounded', admissible, reaches⟩
    refine ⟨made, reserved, same, size, reaches, fun more awaits => ?_⟩
    intro waiting
    refine ⟨?_, fun missing memory incoming => ?_⟩
    · rw [← same]
      exact reserves.bounded.pending_run_of_awaits awaits
    · obtain ⟨reserves', size'⟩ := reserves.run awaits missing
      obtain ⟨fails, kept, delivers⟩ := reserves'.fill missing memory incoming
      exact ⟨size', reserves'.reserve_eq memory, fails, kept.trans size', delivers⟩
  · intro bytes head parsed admissible r hr status
    obtain ⟨endless, -⟩ := rejection_of_full small (rejection_of_status hr status)
    have length : blankLine.length = 4 := rfl
    rw [indexOf?_take head (by rw [headLimit]; omega)] at endless
    cases endless

/-- A storage of two cells, with one byte answered and one pending. -/
def sampleOffset : List (Memory × BufferOp) :=
  [(.ample, .fill ⟨[ofString "ab"], .ended⟩), (.ample, .fill ⟨[ofString "b"], .ended⟩),
   (.ample, .consume 1)]

/-- More bytes arrive when no memory is left. -/
def sampleWait : List (Memory × BufferOp) :=
  [(fun _ => false, .fill ⟨[ofString "cdef"], .silent⟩), (fun _ => false, .shift),
   (fun _ => false, .reserve 40)]

/-- A request and the start of another one, whose body is cut off after five bytes. -/
def sampleUpload : Incoming :=
  ⟨[ofString "GET /api/ HTTP/1.1\r\nA: b\r\n\r\n",
    ofString "POST /api/ HTTP/1.1\r\nContent-Length: 9\r\n\r\nhello"], .silent⟩

theorem unanswered_sampleUpload : sample.unanswered sampleUpload.chunks.flatten =
    ofString "POST /api/ HTTP/1.1\r\nContent-Length: 9\r\n\r\nhello" := by
  have first : sample.judge sampleUpload.chunks.flatten = .answered sampleResponse 28 := rfl
  have second : sample.judge (sampleUpload.chunks.flatten.drop 28) = .bodyMissing 51 := rfl
  rw [unanswered_of_answered first rfl,
    unanswered_of_not_answered fun r n h => by rw [second] at h; cases h]
  rfl

theorem reserved_sampleOffset :
    let made := (((Storage.new sample.requests).run sampleOffset).reserve .ample 40).storage
    made.pending = ofString "b" ∧ made.size = 40 ∧
      ((made.run sampleWait).fill (fun _ => false) ⟨[ofString "g"], .ended⟩).1.storage.pending =
        ofString "bcdefg" ∧
      ∀ r ∈ (sample.run sampleUpload .attentive).answered, r.status ≠ .requestHeaderFieldsTooLarge := by
  intro made
  obtain ⟨fits, never⟩ := reserved_request_fits sample (by decide)
  obtain ⟨made', reserved, same, size, -, waits⟩ := fits sampleOffset 40 (by decide)
  obtain rfl : made = made' := congrArg Storage.Outcome.storage reserved
  have awaits : ∀ step ∈ sampleWait, step.2.Awaits 40 := by
    intro step hstep
    simp only [sampleWait, List.mem_cons, List.not_mem_nil, or_false] at hstep
    rcases hstep with rfl | rfl | rfl <;> constructor
  obtain ⟨pending, receives⟩ := waits sampleWait awaits
  have arrived : (made.run sampleWait).pending = ofString "bcdef" := pending.trans (by decide)
  obtain ⟨-, -, -, -, delivers⟩ := receives (by rw [arrived]; decide) (fun _ => false)
    ⟨[ofString "g"], .ended⟩
  obtain ⟨n, -, after⟩ := delivers (by decide)
  refine ⟨same, size, ?_, ?_⟩
  · rw [after, arrived, List.take_of_length_le (Nat.le_add_left 1 n)]
    rfl
  · obtain ⟨request, parsed, length⟩ : ∃ request, Request.parse sample.requests
        (ofString "POST /api/ HTTP/1.1\r\nContent-Length: 9\r\n") = .ok request ∧
          request.contentLength = 9 := ⟨_, rfl, rfl⟩
    refine never sampleUpload .attentive 38 request ?_ ?_ ?_
    · rw [unanswered_sampleUpload]
      rfl
    · rw [unanswered_sampleUpload, ← parsed]
      rfl
    · rw [length]
      decide

end Service
end HttpServer
