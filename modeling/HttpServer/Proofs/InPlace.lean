import HttpServer.Connection.InPlace
import HttpServer.Proofs.Framing
import HttpServer.Proofs.Storage
import HttpServer.Proofs.Transcript
/-!
# The next request is decided by the pending bytes

Where the pending bytes lie in a storage, how large it is and what stands in front of them decides
nothing: `processInPlace` does what `judge` says of these bytes (`processInPlace_eq`). A verdict takes
bytes only if it is an answer, and it leaves all others in their place, whether memory is refused or
not (`Storage.Bounded.pending_obey`).

The sizes of head and body are added as words, and the sum is refused when it is none. Nothing depends
on that, since an admissible sum is a word by far (`RequestLimits.total?_eq`).
-/
namespace HttpServer

open Bytes

theorem ReceiveBuffer.allocationLimit_lt_wordLimit : allocationLimit < Decimal.wordLimit := by decide

/-- Words are added as numbers are, as far as a request may be large. -/
theorem RequestLimits.total?_eq {limits : RequestLimits} (word : limits.maxSize < Decimal.wordLimit)
    (m n : Nat) : limits.total? m n = if m + n > limits.maxSize then none else some (m + n) := by
  unfold total? Decimal.add?
  by_cases large : m + n > limits.maxSize
  · rw [if_pos large]
    split
    · exact Option.filter_some_neg (by simpa using large)
    · rfl
  · rw [if_neg large, if_pos (by omega)]
    exact Option.filter_some_pos (by simpa using large)

/-! ## What a verdict does -/

namespace Verdict

/-- What a connection gives for a verdict, if there is room for the request. -/
def result : Verdict → Except Rejection (Option Response)
  | headMissing => .ok none
  | bodyMissing _ => .ok none
  | refused e => .error e
  | answered r _ => .ok (some r)

/-- The number of pending bytes that a verdict answers. -/
def taken : Verdict → Nat
  | answered _ total => total
  | _ => 0

theorem eq_answered_of_result {v : Verdict} {r : Response} (h : v.result = .ok (some r)) :
    ∃ total, v = answered r total := by
  cases v with
  | answered r' total =>
    cases h
    exact ⟨total, rfl⟩
  | _ => cases h

end Verdict

namespace Storage

variable {st : Storage} {limits : RequestLimits}

/-- What becomes of a storage by a verdict on its pending bytes. -/
def obey (memory : Memory) (st : Storage) : Verdict → Outcome (Option Response)
  | .headMissing => ⟨.ok none, st⟩
  | .bodyMissing total =>
    ⟨(st.reserve memory total).result.map fun _ => none, (st.reserve memory total).storage⟩
  | .refused e => ⟨.error e, st⟩
  | .answered response total => ⟨.ok (some response), st.consume total⟩

/-- A verdict takes the bytes that it answers, and no memory is needed for that. -/
theorem Bounded.pending_obey (h : st.Bounded limits) (memory : Memory) (v : Verdict) :
    (st.obey memory v).storage.pending = st.pending.drop v.taken := by
  cases v with
  | headMissing => rfl
  | bodyMissing total => exact (h.reserve memory total).2.2
  | refused e => rfl
  | answered r total => exact h.pending_consume total

/-- A verdict that does not wait gives the same in every storage, whatever memory there is. -/
theorem result_obey {v : Verdict} (decided : v.result ≠ .ok none) (memory : Memory) (st : Storage) :
    (st.obey memory v).result = v.result := by
  cases v with
  | bodyMissing total => exact absurd rfl decided
  | _ => rfl

theorem Bounded.view_obey (h : st.Bounded limits) (v : Verdict) :
    (st.obey .ample v).view = Service.obey st.view v := by
  cases v with
  | headMissing => rfl
  | bodyMissing total =>
    simp only [obey, Service.obey, ← h.view_reserve total]
    rfl
  | refused e => rfl
  | answered r total => simp only [obey, Service.obey, Outcome.view, h.view_consume]

/-- With enough memory there is room for every admissible request. -/
theorem Bounded.result_reserve (h : st.Bounded limits)
    (small : limits.maxSize < ReceiveBuffer.allocationLimit) {total : Nat}
    (admissible : total ≤ limits.maxSize) : (st.reserve .ample total).result = .ok () := by
  obtain ⟨st', reserved, -⟩ := h.reserve_ample small admissible
  rw [reserved]

end Storage

/-! ## One request -/

namespace Service

variable {s : Service} {p : Bytes} {st : Storage}

theorem answerInPlace_eq (word : s.requests.maxSize < Decimal.wordLimit) (memory : Memory)
    (st : Storage) (request : Request) (headSize : Nat) :
    s.answerInPlace memory st request headSize =
      st.obey memory (s.judgeBody st.pending request headSize) := by
  unfold answerInPlace judgeBody
  rw [RequestLimits.total?_eq word]
  by_cases large : headSize + request.contentLength > s.requests.maxSize
  · rw [if_pos large, if_pos large]
    rfl
  · rw [if_neg large, if_neg large]
    simp only
    by_cases missing : st.pending.length < headSize + request.contentLength
    · rw [if_pos missing, if_pos missing]
      rfl
    · rw [if_neg missing, if_neg missing]
      -- the body ends where the request ends, so cutting there first changes nothing
      have body : request.body ((st.pending.take (headSize + request.contentLength)).drop headSize) =
          request.body (st.pending.drop headSize) := by
        rw [Request.body, Request.body, List.drop_take, Nat.add_sub_cancel_left, List.take_take,
          Nat.min_self]
      cases request.resolvePath with
      | error e => rfl
      | ok path =>
        simp only [body]
        rfl

/-- A connection does what the verdict on the pending bytes of its storage says. -/
theorem processInPlace_eq (word : s.requests.maxSize < Decimal.wordLimit) (memory : Memory)
    (st : Storage) : s.processInPlace memory st = st.obey memory (s.judge st.pending) := by
  unfold processInPlace judge
  cases indexOf? blankLine st.pending with
  | none => rfl
  | some i =>
    cases parsed : Request.parse s.requests (st.pending.take (i + 2)) with
    | error e => simp only [parsed]; rfl
    | ok request =>
      simp only [parsed]
      exact answerInPlace_eq word memory st request (i + 4)

/-- With enough memory, a storage does what its receive buffer does. -/
theorem view_processInPlace (word : s.requests.maxSize < Decimal.wordLimit)
    (h : st.Bounded s.requests) :
    (s.processInPlace .ample st).view = s.processNext st.view := by
  rw [processInPlace_eq word, processNext_eq, h.view_obey]
  rfl

/-- With enough memory, a verdict gives the same in every storage. -/
theorem result_processInPlace (small : s.requests.maxSize < ReceiveBuffer.allocationLimit)
    (h : st.Bounded s.requests) :
    (s.processInPlace .ample st).result = (s.judge st.pending).result := by
  rw [processInPlace_eq (small.trans ReceiveBuffer.allocationLimit_lt_wordLimit)]
  cases verdict : s.judge st.pending with
  | bodyMissing total =>
    have room := h.result_reserve small (total_of_bodyMissing verdict).2
    simp only [Storage.obey, room]
    rfl
  | _ => rfl

theorem pending_processInPlace (word : s.requests.maxSize < Decimal.wordLimit)
    {limits : RequestLimits} (h : st.Bounded limits) (memory : Memory) :
    (s.processInPlace memory st).storage.pending =
      st.pending.drop (s.judge st.pending).taken := by
  rw [processInPlace_eq word, h.pending_obey]

theorem taken_judge_le (s : Service) (p : Bytes) : (s.judge p).taken ≤ p.length := by
  cases verdict : s.judge p with
  | answered r total => exact (total_le_of_answered verdict).2.1
  | _ => exact Nat.zero_le _

/-- A verdict that waits for nothing stays as it is when more bytes arrive. -/
theorem judge_append (decided : (s.judge p).result ≠ .ok none) (q : Bytes) :
    s.judge (p ++ q) = s.judge p := by
  cases verdict : s.judge p with
  | headMissing => exact absurd (congrArg Verdict.result verdict) decided
  | bodyMissing total => exact absurd (congrArg Verdict.result verdict) decided
  | refused e => exact judge_append_of_refused verdict q
  | answered r total => exact judge_append_of_answered verdict q

/-- An answer takes one whole request from the pending bytes. -/
theorem exists_of_processInPlace {r : Response}
    (small : s.requests.maxSize < ReceiveBuffer.allocationLimit) (h : st.Bounded s.requests)
    (answered : (s.processInPlace .ample st).result = .ok (some r)) :
    ∃ i request path, indexOf? blankLine st.pending = some i ∧
      Request.parse s.requests (st.pending.take (i + 2)) = .ok request ∧
      request.resolvePath = .ok path ∧
      i + 4 + request.contentLength ≤ min s.requests.maxSize st.pending.length ∧
      r = request.respond s.docs ((st.pending.drop (i + 4)).take request.contentLength) path.normal ∧
      (s.processInPlace .ample st).storage.pending =
        st.pending.drop (i + 4 + request.contentLength) := by
  rw [result_processInPlace small h] at answered
  obtain ⟨total, verdict⟩ := Verdict.eq_answered_of_result answered
  rw [pending_processInPlace (small.trans ReceiveBuffer.allocationLimit_lt_wordLimit) h, verdict]
  cases judged_iff.2 verdict with
  | @answered i request path head parsed admissible there resolved =>
    exact ⟨i, request, path, head, parsed, resolved, Nat.le_min.2 ⟨admissible, there⟩, rfl, rfl⟩

/-- Without an answer the pending bytes stay. -/
theorem pending_of_not_answered {limits : RequestLimits}
    (word : s.requests.maxSize < Decimal.wordLimit) (h : st.Bounded limits) (memory : Memory)
    (unanswered : ∀ r, (s.processInPlace memory st).result ≠ .ok (some r)) :
    (s.processInPlace memory st).storage.pending = st.pending := by
  rw [pending_processInPlace word h]
  cases verdict : s.judge st.pending with
  | answered r total =>
    refine absurd ?_ (unanswered r)
    rw [processInPlace_eq word, verdict]
    rfl
  | _ => rfl

/-- What does not wait for more bytes stays the same with more, which are left behind the rest. -/
theorem processInPlace_append {more : Storage} {limits : RequestLimits} {q : Bytes}
    (small : s.requests.maxSize < ReceiveBuffer.allocationLimit) (h : st.Bounded s.requests)
    (decided : (s.processInPlace .ample st).result ≠ .ok none) (h' : more.Bounded limits)
    (both : more.pending = st.pending ++ q) :
    (s.processInPlace .ample more).result = (s.processInPlace .ample st).result ∧
      (s.processInPlace .ample more).storage.pending =
        (s.processInPlace .ample st).storage.pending ++ q := by
  have word := small.trans ReceiveBuffer.allocationLimit_lt_wordLimit
  rw [result_processInPlace small h] at decided ⊢
  have same : s.judge more.pending = s.judge st.pending := by rw [both, judge_append decided]
  refine ⟨?_, ?_⟩
  · rw [processInPlace_eq word, same, Storage.result_obey decided]
  · rw [pending_processInPlace word h', pending_processInPlace word h, same, both,
      List.drop_append_of_le_length (s.taken_judge_le st.pending)]

/-- Whatever was done to the storage of a new connection, and whatever memory it was refused: what
becomes of its next request is what becomes of the request in its receive buffer. The pending bytes
decide it alone. An answer takes head and body from them, whose sizes add up to an admissible one, and
a request for which they do not is refused. Otherwise nothing is taken, even if there is no memory.
What does not wait for more bytes stays the same with more, and these are left behind the rest. -/
theorem processInPlace_decided (s : Service)
    (small : s.requests.maxSize < ReceiveBuffer.allocationLimit) (steps : List (Memory × BufferOp)) :
    let st := (Storage.new s.requests).run steps
    let done := s.processInPlace .ample st
    done.view = s.processNext st.view ∧
    (∀ steps', let other := (Storage.new s.requests).run steps'
      other.pending = st.pending →
        (s.processInPlace .ample other).result = done.result ∧
          (s.processInPlace .ample other).storage.pending = done.storage.pending) ∧
    (∀ r, done.result = .ok (some r) → ∃ i request path,
      indexOf? blankLine st.pending = some i ∧
        Request.parse s.requests (st.pending.take (i + 2)) = .ok request ∧
        request.resolvePath = .ok path ∧
        i + 4 + request.contentLength ≤ min s.requests.maxSize st.pending.length ∧
        r = request.respond s.docs ((st.pending.drop (i + 4)).take request.contentLength) path.normal ∧
        done.storage.pending = st.pending.drop (i + 4 + request.contentLength)) ∧
    (∀ i request, indexOf? blankLine st.pending = some i →
      Request.parse s.requests (st.pending.take (i + 2)) = .ok request →
      s.requests.maxSize < i + 4 + request.contentLength →
        done.result = .error .payloadTooLarge) ∧
    (∀ memory, (∀ r, (s.processInPlace memory st).result ≠ .ok (some r)) →
      (s.processInPlace memory st).storage.pending = st.pending) ∧
    (done.result ≠ .ok none → ∀ limits steps' q,
      let more := (Storage.new limits).run steps'
      more.pending = st.pending ++ q →
        (s.processInPlace .ample more).result = done.result ∧
          (s.processInPlace .ample more).storage.pending = done.storage.pending ++ q) := by
  intro st done
  have word := small.trans ReceiveBuffer.allocationLimit_lt_wordLimit
  have bounded (limits : RequestLimits) (steps) : ((Storage.new limits).run steps).Bounded limits :=
    ((Storage.bounded_new limits).run steps).1
  have h : st.Bounded s.requests := bounded s.requests steps
  refine ⟨view_processInPlace word h, ?_, fun r => exists_of_processInPlace small h,
    fun i request head parsed large => ?_, pending_of_not_answered word h, ?_⟩
  · intro steps' other same
    have h' : other.Bounded s.requests := bounded s.requests steps'
    rw [result_processInPlace small h', result_processInPlace small h,
      pending_processInPlace word h', pending_processInPlace word h, same]
    exact ⟨rfl, rfl⟩
  · rw [result_processInPlace small h, judged_iff.1 (.tooLarge head parsed large)]
    rfl
  · intro decided limits steps' q more both
    exact processInPlace_append small h decided (bounded limits steps') both

/-- Some bytes are read into a storage of 64, and the first of them are answered. -/
def sampleSteps (bytes : Bytes) (answered : Nat) : List (Memory × BufferOp) :=
  [(.ample, .reserve 64), (.ample, .fill ⟨[bytes], .ended⟩), (.ample, .consume answered)]

/-- The storage after these steps. -/
def sampleStorage (bytes : Bytes) (answered : Nat) : Storage :=
  (Storage.new sample.requests).run (sampleSteps bytes answered)

/-- A request of 28 bytes. -/
def sampleRequest : Bytes := .ofString "GET /api/ HTTP/1.1\r\nA: b\r\n\r\n"

/-- A request with the largest body that its head can announce. -/
def sampleGiant : Bytes :=
  .ofString "POST /api HTTP/1.1\r\nContent-Length: 18446744073709551615\r\n\r\n"

theorem processInPlace_sampleStorage :
    let done := sample.processInPlace .ample (sampleStorage sampleRequest 0)
    let behind := sample.processInPlace .ample (sampleStorage (ofString "BAD" ++ sampleRequest) 3)
    let more := sample.processInPlace .ample (sampleStorage (sampleRequest ++ ofString "G") 0)
    done.view = sample.processNext (sampleStorage sampleRequest 0).view ∧
    (∃ request, Request.parse sample.requests (sampleRequest.take 26) = .ok request ∧
      done.storage.pending = sampleRequest.drop (28 + request.contentLength)) ∧
    (behind.result = .ok (some sampleResponse) ∧ behind.storage.pending = done.storage.pending) ∧
    (more.result = .ok (some sampleResponse) ∧
      more.storage.pending = done.storage.pending ++ ofString "G") ∧
    (sample.processInPlace .ample (sampleStorage sampleGiant 0)).result =
      .error .payloadTooLarge ∧
    (sample.processInPlace (fun _ => false) (sampleStorage sampleGiant 0)).storage.pending =
      sampleGiant := by
  intro done behind more
  have small : sample.requests.maxSize < ReceiveBuffer.allocationLimit := by decide
  have answered : done.result = .ok (some sampleResponse) := rfl
  have decided : done.result ≠ .ok none := by
    rw [answered]
    exact fun h => by cases h
  have known : indexOf? blankLine sampleRequest = some 24 := rfl
  obtain ⟨view, same, taken, -, -, stable⟩ := processInPlace_decided sample small
    (sampleSteps sampleRequest 0)
  obtain ⟨-, -, -, large, kept, -⟩ := processInPlace_decided sample small
    (sampleSteps sampleGiant 0)
  refine ⟨view, ?_, ?_, ?_, ?_, ?_⟩
  · obtain ⟨i, request, path, head, parsed, -, -, -, rest⟩ := taken sampleResponse answered
    obtain rfl : 24 = i := Option.some.inj (known.symm.trans head)
    exact ⟨request, parsed, rest⟩
  · exact same (sampleSteps (ofString "BAD" ++ sampleRequest) 3) rfl
  · exact stable decided sample.requests (sampleSteps (sampleRequest ++ ofString "G") 0) _ rfl
  · exact large 56 _ rfl rfl (by decide)
  · exact kept _ (fun r h => by cases h)

end Service
end HttpServer
