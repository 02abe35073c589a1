import HttpServer.Connection
import HttpServer.Proofs.NormalForms
import HttpServer.Proofs.Offences
import HttpServer.Proofs.Percent
import HttpServer.Proofs.ReceiveBuffer
import HttpServer.Proofs.Search
/-!
# Framing is decided by the pending bytes

`Service.judge` says what a run of bytes tells about the request at its start: whether its head or
its body still misses bytes, whether it is refused, or how it is answered and how long it is. It
knows of no buffer, and `processNext_eq` says that a connection asks for nothing else.

A request that is answered or refused stays so when more bytes arrive (`judge_append_of_answered`,
`judge_append_of_refused`), so it does not matter how much of what follows is there already.
-/
namespace HttpServer

open Bytes

/-- What bytes tell about the request at their start. -/
inductive Verdict where
  | headMissing
  /-- The head ends in them, but not the whole request of `total` bytes. -/
  | bodyMissing (total : Nat)
  | refused (reason : Rejection)
  /-- The request makes up the first `total` bytes and gets this response. -/
  | answered (response : Response) (total : Nat)

namespace Service

variable {s : Service} {b : ReceiveBuffer} {p : Bytes} {r : Response} {e : Rejection} {n : Nat}

/-- What the bytes tell about a request with this head of `headSize` bytes. -/
def judgeBody (s : Service) (p : Bytes) (request : Request) (headSize : Nat) : Verdict :=
  if headSize + request.contentLength > s.requests.maxSize then .refused .payloadTooLarge
  else if p.length < headSize + request.contentLength then
    .bodyMissing (headSize + request.contentLength)
  else match request.resolvePath with
    | .error e => .refused e
    | .ok path =>
      .answered (request.respond s.docs (request.body (p.drop headSize)) path.normal)
        (headSize + request.contentLength)

/-- What the bytes tell about the request at their start. -/
def judge (s : Service) (p : Bytes) : Verdict :=
  match indexOf? blankLine p with
  | none => .headMissing
  | some i =>
    match Request.parse s.requests (p.take (i + 2)) with
    | .error e => .refused e
    | .ok request => s.judgeBody p request (i + 4)

/-- What a connection does about a verdict on its pending bytes. -/
def obey (b : ReceiveBuffer) : Verdict → ReceiveBuffer.Outcome (Option Response)
  | .headMissing => ⟨.ok none, b⟩
  | .bodyMissing total => ⟨(b.reserve total).result.map fun _ => none, (b.reserve total).buffer⟩
  | .refused e => ⟨.error e, b⟩
  | .answered response total => ⟨.ok (some response), b.consume total⟩

theorem answerRequest_eq (s : Service) (b : ReceiveBuffer) (request : Request) (headSize : Nat) :
    s.answerRequest b request headSize = obey b (s.judgeBody b.pending request headSize) := by
  unfold answerRequest judgeBody
  by_cases large : headSize + request.contentLength > s.requests.maxSize
  · rw [if_pos large, if_pos large]
    rfl
  · rw [if_neg large, if_neg large]
    by_cases missing : b.pending.length < headSize + request.contentLength
    · rw [if_pos missing, if_pos missing]
      rfl
    · rw [if_neg missing, if_neg missing]
      cases request.resolvePath <;> rfl

/-- A connection looks at nothing but the verdict on its pending bytes. -/
theorem processNext_eq (s : Service) (b : ReceiveBuffer) :
    s.processNext b = obey b (s.judge b.pending) := by
  unfold processNext judge
  cases indexOf? blankLine b.pending with
  | none => rfl
  | some i =>
    cases parsed : Request.parse s.requests (b.pending.take (i + 2)) with
    | error e => simp only [parsed]; rfl
    | ok request =>
      simp only [parsed]
      exact s.answerRequest_eq b request (i + 4)

/-! ## Verdicts -/

/-- The reasons for a verdict. -/
inductive Judged (s : Service) (p : Bytes) : Verdict → Prop where
  | headMissing (head : indexOf? blankLine p = none) : Judged s p .headMissing
  | badHead {i : Nat} {e : Rejection} (head : indexOf? blankLine p = some i)
      (parsed : Request.parse s.requests (p.take (i + 2)) = .error e) : Judged s p (.refused e)
  /-- Head and body together are too large, whether they are there or not. -/
  | tooLarge {i : Nat} {request : Request} (head : indexOf? blankLine p = some i)
      (parsed : Request.parse s.requests (p.take (i + 2)) = .ok request)
      (large : s.requests.maxSize < i + 4 + request.contentLength) :
      Judged s p (.refused .payloadTooLarge)
  | bodyMissing {i : Nat} {request : Request} (head : indexOf? blankLine p = some i)
      (parsed : Request.parse s.requests (p.take (i + 2)) = .ok request)
      (admissible : i + 4 + request.contentLength ≤ s.requests.maxSize)
      (missing : p.length < i + 4 + request.contentLength) :
      Judged s p (.bodyMissing (i + 4 + request.contentLength))
  | badPath {i : Nat} {request : Request} {e : Rejection} (head : indexOf? blankLine p = some i)
      (parsed : Request.parse s.requests (p.take (i + 2)) = .ok request)
      (admissible : i + 4 + request.contentLength ≤ s.requests.maxSize)
      (there : i + 4 + request.contentLength ≤ p.length)
      (resolved : request.resolvePath = .error e) : Judged s p (.refused e)
  | answered {i : Nat} {request : Request} {path : Request.ResolvedPath}
      (head : indexOf? blankLine p = some i)
      (parsed : Request.parse s.requests (p.take (i + 2)) = .ok request)
      (admissible : i + 4 + request.contentLength ≤ s.requests.maxSize)
      (there : i + 4 + request.contentLength ≤ p.length)
      (resolved : request.resolvePath = .ok path) :
      Judged s p (.answered (request.respond s.docs (request.body (p.drop (i + 4))) path.normal)
        (i + 4 + request.contentLength))

variable {v : Verdict}

theorem judged (s : Service) (p : Bytes) : Judged s p (s.judge p) := by
  unfold judge judgeBody
  split
  · rename_i head
    exact .headMissing head
  · rename_i i head
    split
    · rename_i e parsed
      exact .badHead head parsed
    · rename_i request parsed
      split
      · rename_i large
        exact .tooLarge head parsed large
      · rename_i admissible
        split
        · rename_i missing
          exact .bodyMissing head parsed (by omega) missing
        · rename_i there
          split
          · rename_i e resolved
            exact .badPath head parsed (by omega) (by omega) resolved
          · rename_i path resolved
            exact .answered head parsed (by omega) (by omega) resolved

/-- Every verdict has its reason, and no other verdict has it. -/
theorem judged_iff : Judged s p v ↔ s.judge p = v := by
  constructor
  · intro h
    cases h with
    | headMissing head => simp only [judge, head]
    | badHead head parsed => simp only [judge, head, parsed]
    | tooLarge head parsed large => simp only [judge, head, parsed, judgeBody, if_pos large]
    | bodyMissing head parsed admissible missing =>
      simp only [judge, head, parsed, judgeBody, if_neg (Nat.not_lt.2 admissible), if_pos missing]
    | badPath head parsed admissible there resolved =>
      simp only [judge, head, parsed, judgeBody, if_neg (Nat.not_lt.2 admissible),
        if_neg (Nat.not_lt.2 there), resolved]
    | answered head parsed admissible there resolved =>
      simp only [judge, head, parsed, judgeBody, if_neg (Nat.not_lt.2 admissible),
        if_neg (Nat.not_lt.2 there), resolved]
  · rintro rfl
    exact s.judged p

/-- Services with the same limits judge alike if they would answer alike. -/
theorem judge_congr {s s' : Service} (limits : s.requests = s'.requests)
    (alike : ∀ i request path, indexOf? blankLine p = some i →
      Request.parse s.requests (p.take (i + 2)) = .ok request → request.resolvePath = .ok path →
      request.respond s.docs (request.body (p.drop (i + 4))) path.normal =
        request.respond s'.docs (request.body (p.drop (i + 4))) path.normal) :
    s.judge p = s'.judge p := by
  unfold judge judgeBody
  rw [← limits]
  split
  · rfl
  · rename_i i head
    split
    · rfl
    · rename_i request parsed
      split
      · rfl
      · split
        · rfl
        · split
          · rfl
          · rename_i path resolved
            rw [alike i request path head parsed resolved]

/-- Only as many bytes are answered as there are, at least one, and no more than a request may
have. -/
theorem total_le_of_answered (h : s.judge p = .answered r n) :
    0 < n ∧ n ≤ p.length ∧ n ≤ s.requests.maxSize := by
  cases judged_iff.2 h with
  | answered head parsed admissible there resolved => exact ⟨by omega, there, admissible⟩

/-- The whole request is admissible when its body is missing. -/
theorem total_of_bodyMissing (h : s.judge p = .bodyMissing n) :
    p.length < n ∧ n ≤ s.requests.maxSize := by
  cases judged_iff.2 h with
  | bodyMissing head parsed admissible missing => exact ⟨missing, admissible⟩

/-- A connection answers only what is judged so. -/
theorem judge_of_processNext (h : (s.processNext b).result = .ok (some r)) :
    ∃ n, s.judge b.pending = .answered r n ∧ (s.processNext b).buffer = b.consume n := by
  rw [processNext_eq] at h ⊢
  cases verdict : s.judge b.pending with
  | headMissing =>
    rw [verdict] at h
    cases h
  | bodyMissing total =>
    rw [verdict] at h
    simp only [obey] at h
    cases reserved : (b.reserve total).result with
    | error e =>
      rw [reserved] at h
      cases h
    | ok =>
      rw [reserved] at h
      cases h
  | refused e =>
    rw [verdict] at h
    cases h
  | answered response total =>
    rw [verdict] at h
    cases h
    exact ⟨total, rfl, rfl⟩

/-! ## More bytes -/

/-- The head stays the same when more bytes arrive behind it. -/
theorem take_append_of_indexOf? {i : Nat} (h : indexOf? blankLine p = some i) (q : Bytes) :
    (p ++ q).take (i + 2) = p.take (i + 2) := by
  have fits := add_length_le_of_indexOf? h
  have length : blankLine.length = 4 := rfl
  rw [List.take_append_of_le_length (by omega)]

theorem judge_append_of_answered (h : s.judge p = .answered r n) (q : Bytes) :
    s.judge (p ++ q) = .answered r n := by
  cases judged_iff.2 h with
  | @answered i request path head parsed admissible there resolved =>
    have body : request.body ((p ++ q).drop (i + 4)) = request.body (p.drop (i + 4)) := by
      rw [Request.body, Request.body, List.drop_append_of_le_length (by omega),
        List.take_append_of_le_length]
      rw [List.length_drop]
      omega
    rw [← take_append_of_indexOf? head q] at parsed
    rw [← body]
    exact judged_iff.1 (.answered (indexOf?_append head q) parsed admissible
      (by rw [List.length_append]; omega) resolved)

theorem judge_append_of_refused (h : s.judge p = .refused e) (q : Bytes) :
    s.judge (p ++ q) = .refused e := by
  cases judged_iff.2 h with
  | badHead head parsed =>
    rw [← take_append_of_indexOf? head q] at parsed
    exact judged_iff.1 (.badHead (indexOf?_append head q) parsed)
  | tooLarge head parsed large =>
    rw [← take_append_of_indexOf? head q] at parsed
    exact judged_iff.1 (.tooLarge (indexOf?_append head q) parsed large)
  | badPath head parsed admissible there resolved =>
    rw [← take_append_of_indexOf? head q] at parsed
    exact judged_iff.1 (.badPath (indexOf?_append head q) parsed admissible
      (by rw [List.length_append]; omega) resolved)

end Service

/-! ## No refusal is a failure of the transport -/

/-- The reason lies in the request and not in the transport. -/
def Rejection.OfRequest (e : Rejection) : Prop := ∀ kind, e ≠ .io kind

namespace Request

variable {e : Rejection} {r : Request}

/-- A path that does not resolve has one reason, in decoding and in normalizing. -/
theorem eq_of_resolvePath (h : r.resolvePath = .error e) : e = .badRequestPath := by
  unfold resolvePath at h
  split at h
  · rename_i decoded
    cases h
    exact (Path.percentDecode_eq_error_iff.1 decoded).1
  · split at h
    · rename_i normalized
      cases h
      exact (Path.normalize_eq_error_iff.1 normalized).1
    · cases h

end Request

namespace Service

variable {s : Service} {p : Bytes} {e : Rejection}

/-- What is refused is refused for its head, for its size or for its path. -/
theorem refused_cases (h : s.judge p = .refused e) :
    e.isOfLine = true ∨ e = .missingRequiredHeaders ∨ e = .bodyNotAllowed ∨ e = .payloadTooLarge ∨
      e = .badRequestPath := by
  cases judged_iff.2 h with
  | badHead head parsed =>
    rcases Request.parse_error_cases parsed with line | missing | forbidden
    · exact .inl line
    · exact .inr (.inl missing)
    · exact .inr (.inr (.inl forbidden))
  | tooLarge => exact .inr (.inr (.inr (.inl rfl)))
  | badPath head parsed admissible there resolved =>
    exact .inr (.inr (.inr (.inr (Request.eq_of_resolvePath resolved))))

/-- What is refused is refused for what the client sent. -/
theorem ofRequest_of_judge (h : s.judge p = .refused e) : e.OfRequest := by
  rintro kind rfl
  rcases refused_cases h with other | other | other | other | other <;> cases other

end Service
end HttpServer
