import HttpServer.Connection.Checked
import HttpServer.Proofs.CheckedHead
import HttpServer.Proofs.CheckedPath
import HttpServer.Proofs.ContentType
import HttpServer.Proofs.HeadText
import HttpServer.Proofs.InPlace
/-!
# A request is answered without a fault

The places of a storage that operations lead to are in order (`Storage.Bounded`), which is all that its
own operations need, apart from the sum that asks for room: the place behind a request that is not
complete need not be a word. The places of a request come from the search for the empty line behind its
head, and its size is at most the number of pending bytes when its body is cut off (`answer_eq`).
-/
namespace HttpServer

open Bytes

variable {st : Storage} {limits : RequestLimits} {n total : Nat} {s : Service} {memory : Memory}

/-! ## Lengths -/

theorem Request.length_path_classify (r : Request) : r.classify.path.length ≤ r.path.length := by
  unfold Request.classify
  split
  · exact (List.drop_suffix _ _).length_le
  · split
    · rename_i same
      rw [same]
      change [slash].length ≤ Request.apiRoot.length
      decide
    · exact Nat.le_refl _

/-- The path of an accepted head stands in it. -/
theorem Request.length_path_le {p : Bytes} {i : Nat} {r : Request} (head : indexOf? blankLine p = some i)
    (parsed : Request.parse limits (p.take (i + 2)) = .ok r) : r.path.length ≤ p.length := by
  obtain ⟨t, text, -, rfl⟩ := Request.exists_headText head parsed
  have inside : t.path.length ≤ t.render.length := by
    simp only [Request.HeadText.render, Request.HeadText.requestLine, List.length_append]
    omega
  rw [text] at inside
  exact Nat.le_trans (length_path_classify _) (Nat.le_trans inside (List.take_prefix _ _).length_le)

theorem Request.length_normal_le {r : Request} {path : Request.ResolvedPath}
    (resolved : r.resolvePath = .ok path) : path.normal.length ≤ max r.path.length 1 := by
  unfold Request.resolvePath at resolved
  split at resolved
  · cases resolved
  · rename_i bytes decoded
    split at resolved
    · cases resolved
    · rename_i normal normalized
      cases resolved
      have short := (Path.percentDecode_eq_ok_iff.1 decoded).length_le
      have short' := Path.length_le_of_normalize normalized
      simp only
      omega

theorem RequestLimits.eq_of_total? {headSize bodySize : Nat}
    (sized : limits.total? headSize bodySize = some total) :
    total = headSize + bodySize ∧ total ≤ limits.maxSize := by
  obtain ⟨added, admissible⟩ := Option.filter_eq_some_iff.1 sized
  unfold Decimal.add? at added
  split at added
  · cases added
    exact ⟨rfl, of_decide_eq_true admissible⟩
  · cases added

theorem StaticFile.length_le_of_afterLast? {b : UInt8} {s rest : Bytes}
    (last : StaticFile.afterLast? b s = some rest) : rest.length ≤ s.length := by
  have ends := (StaticFile.afterLast?_eq_some_iff.1 last).1
  exact ((List.suffix_cons b rest).trans ends).length_le

theorem StaticFile.length_relativePath_le (path : Bytes) :
    (StaticFile.relativePath path).length ≤ max StaticFile.indexFile.length path.length := by
  unfold StaticFile.relativePath
  cases path with
  | nil => exact Nat.le_max_left _ _
  | cons b rest =>
    by_cases rooted : b = slash
    · simp only [if_pos rooted, List.length_cons]
      split <;> omega
    · simp only [if_neg rooted, List.cons_ne_nil, if_false]
      exact Nat.le_max_right _ _

namespace Checked

/-! ## Storages -/

theorem pending_eq (h : st.Bounded limits) : pending st = .ok st.pending :=
  slice_eq h.consumed_le h.received_le

theorem consume_eq (h : st.Bounded limits) (small : st.size < memoryLimit)
    (there : n ≤ st.pending.length) : consume st n = .ok (st.consume n) := by
  have consumed := h.consumed_le
  have received := h.received_le
  have word := memoryLimit_lt_wordLimit
  rw [h.length_pending] at there
  rw [consume, sum_eq (by omega), ok_bind, assert_eq (by omega)]
  rfl

theorem shift_eq (h : st.Bounded limits) : shift st = .ok st.shift := by
  unfold shift Storage.shift
  by_cases front : st.consumed = 0
  · rw [if_pos front, if_pos front]
  · rw [if_neg front, if_neg front, moveToFront, if_pos ⟨h.consumed_le, h.received_le⟩, ok_bind,
      difference_eq h.consumed_le]
    rfl

theorem reserve_eq (h : st.Bounded limits) (memory : Memory)
    (word : st.consumed + total < Decimal.wordLimit) :
    reserve memory st total = .ok (st.reserve memory total) := by
  unfold reserve Storage.reserve
  rw [sum_eq word, ok_bind, shift_eq h, ok_bind]
  split
  · rfl
  · split
    · rfl
    · simp only
      split
      · cases st.shift.resize memory total <;> rfl
      · rfl

/-- Room for an admissible request cannot even be asked for if the place behind it is no word. -/
theorem reserve_of_overflow (memory : Memory) (admissible : total ≤ st.maxSize)
    (large : Decimal.wordLimit ≤ st.consumed + total) :
    reserve memory st total = .error .overflow := by
  rw [reserve, if_neg (Nat.not_lt.2 admissible), sum, if_neg (Nat.not_lt.2 large)]
  rfl

/-! ## Responses -/

theorem afterLast?_eq {b : UInt8} {s : Bytes} (small : s.length < memoryLimit) :
    afterLast? b s = .ok (StaticFile.afterLast? b s) := by
  unfold afterLast? lastPlaceOf?
  by_cases mem : b ∈ s
  · obtain ⟨before, rest, rfl, absent⟩ := exists_last mem
    have reversed : (before ++ b :: rest).reverse = rest.reverse ++ b :: before.reverse := by simp
    have absent' : b ∉ rest.reverse := by simpa using absent
    have place : (before ++ b :: rest).length - 1 - rest.reverse.length = before.length := by
      simp only [List.length_append, List.length_cons, List.length_reverse]
      omega
    have word := memoryLimit_lt_wordLimit
    rw [List.length_append, List.length_cons] at small
    have behind : sliceFrom (before ++ b :: rest) (before.length + 1) = .ok rest := by
      have cut := sliceFrom_append (before ++ [b]) rest
      rwa [List.append_assoc, List.singleton_append, List.length_append] at cut
    rw [StaticFile.afterLast?_append absent, reversed, placeOf?_append absent']
    simp only [Option.map_some, place, sum_eq (show before.length + 1 < _ by omega), ok_bind, behind]
  · have absent : b ∉ s.reverse := fun mem' => mem (List.mem_reverse.1 mem')
    rw [StaticFile.afterLast?_eq_none_iff.2 mem, placeOf?_of_not_mem absent]
    rfl

theorem contentType_eq {path : Bytes} (small : path.length < memoryLimit) :
    contentType path = .ok (StaticFile.contentType path) := by
  have segment : ((StaticFile.afterLast? slash path).getD path).length < memoryLimit := by
    cases last : StaticFile.afterLast? slash path with
    | none => exact small
    | some rest => exact Nat.lt_of_le_of_lt (StaticFile.length_le_of_afterLast? last) small
  unfold contentType StaticFile.contentType
  simp only [afterLast?_eq small, ok_bind, afterLast?_eq segment]
  cases StaticFile.afterLast? 0x2e ((StaticFile.afterLast? slash path).getD path) <;> rfl

theorem serve_eq (root : DocumentRoot) {path : Bytes} (small : path.length < memoryLimit) :
    serve root path = .ok (StaticFile.serve root path) := by
  have small' : (StaticFile.relativePath path).length < memoryLimit :=
    Nat.lt_of_le_of_lt (StaticFile.length_relativePath_le path) (max_lt (by decide) small)
  unfold serve StaticFile.serve
  simp only [contentType_eq small', ok_bind]
  split
  · rfl
  · cases Tree.openAt root.privileged (StaticFile.relativePath path) root.place with
    | error e => rfl
    | ok place =>
      simp only
      cases place.node <;> rfl

theorem respond_eq (r : Request) (docs : DocumentRoot) (body : Bytes) {path : Bytes}
    (small : path.length < memoryLimit) :
    respond r docs body path = .ok (r.respond docs body path) := by
  unfold respond Request.respond
  cases Route.resolve r.knownMethod r.isApi path with
  | staticFile =>
    rw [routed, serve_eq docs small]
    rfl
  | _ => rfl

/-! ## One request -/

theorem length_pending_lt (h : st.Bounded limits) (small : st.size < memoryLimit) :
    st.pending.length < memoryLimit := by
  have received := h.received_le
  rw [h.length_pending]
  omega

/-- The answer to a request that was read needs no other sum than that of the place behind it, and this
one only if room has to be made for its body. -/
theorem answer_eq (h : st.Bounded limits) (small : st.size < memoryLimit) (memory : Memory)
    {request : Request} {headSize : Nat} (path : request.path.length < memoryLimit)
    (word : ∀ total, s.requests.total? headSize request.contentLength = some total →
      st.pending.length < total → st.consumed + total < Decimal.wordLimit) :
    answer s memory st st.pending request headSize =
      .ok (s.answerInPlace memory st request headSize) := by
  unfold answer Service.answerInPlace
  cases sized : s.requests.total? headSize request.contentLength with
  | none => rfl
  | some total =>
    simp only
    by_cases missing : st.pending.length < total
    · rw [if_pos missing, if_pos missing, reserve_eq h memory (word total sized missing)]
      rfl
    · have there : total ≤ st.pending.length := Nat.le_of_not_lt missing
      obtain ⟨added, -⟩ := RequestLimits.eq_of_total? sized
      have whole : request.contentLength ≤ ((st.pending.take total).drop headSize).length := by
        rw [List.length_drop, List.length_take]
        omega
      rw [if_neg missing, if_neg missing, slice_eq (by omega) there, ok_bind, body_eq whole, ok_bind,
        resolvePath_eq path, ok_bind]
      cases resolved : request.resolvePath with
      | error e => rfl
      | ok path' =>
        have normal : path'.normal.length < memoryLimit :=
          Nat.lt_of_le_of_lt (Request.length_normal_le resolved) (max_lt path (by decide))
        simp only [respond_eq _ _ _ normal, ok_bind, consume_eq h small there]

/-- A connection takes the next request from its storage without a fault, unless there is no word for the
place behind a request that is not complete. -/
theorem process_eq (h : st.Bounded limits) (small : st.size < memoryLimit) (memory : Memory)
    (word : ∀ total, s.judge st.pending = .bodyMissing total →
      st.consumed + total < Decimal.wordLimit) :
    process s memory st = .ok (s.processInPlace memory st) := by
  have short := length_pending_lt h small
  unfold process Service.processInPlace
  rw [pending_eq h, ok_bind]
  cases head : indexOf? blankLine st.pending with
  | none => rfl
  | some i =>
    have fits : i + 4 ≤ st.pending.length := add_length_le_of_indexOf? head
    have limit := memoryLimit_lt_wordLimit
    have block : (st.pending.take (i + 2)).length < memoryLimit :=
      Nat.lt_of_le_of_lt (List.take_prefix _ _).length_le short
    simp only [sum_eq (show i + 4 < Decimal.wordLimit by omega),
      sum_eq (show i + 2 < Decimal.wordLimit by omega), ok_bind,
      sliceTo_eq (show i + 2 ≤ st.pending.length by omega), parse_eq s.requests block]
    cases parsed : Request.parse s.requests (st.pending.take (i + 2)) with
    | error e => rfl
    | ok request =>
      refine answer_eq h small memory (Nat.lt_of_le_of_lt (Request.length_path_le head parsed) short) ?_
      intro total sized missing
      obtain ⟨rfl, admissible⟩ := RequestLimits.eq_of_total? sized
      exact word _ (Service.judged_iff.1 (.bodyMissing head parsed admissible missing))

/-- No request leads to a fault. Any block of bytes is read as a head by places, and any path is decoded and
normalized, and what comes of it is the same as without places: a result or a rejection. Whatever was done
to the storage of a connection, and whatever memory it was refused, its operations find their places in it,
and the next request is answered, refused or waited for. Only the place behind a request that is waited for
must be a word, or asking for room is a fault. With enough memory that is what becomes of the request in the
receive buffer. -/
theorem faultless (s : Service) :
    (∀ limits block, block.length < memoryLimit →
      parse limits block = .ok (Request.parse limits block)) ∧
    (∀ path buffer, path.length < memoryLimit →
      decodeInto path buffer = .ok (Path.decodeInto path buffer) ∧
        normalizeInto path buffer = .ok (Path.normalizeInto path buffer)) ∧
    ∀ steps, let st := (Storage.new s.requests).run steps
      st.size < memoryLimit →
        pending st = .ok st.pending ∧ shift st = .ok st.shift ∧
        (∀ n ≤ st.pending.length, consume st n = .ok (st.consume n)) ∧
        (∀ memory total,
          (st.consumed + total < Decimal.wordLimit →
            reserve memory st total = .ok (st.reserve memory total)) ∧
          (Decimal.wordLimit ≤ st.consumed + total → total ≤ s.requests.maxSize →
            reserve memory st total = .error .overflow)) ∧
        ((∀ total, s.judge st.pending = .bodyMissing total →
            st.consumed + total < Decimal.wordLimit) →
          (∀ memory, process s memory st = .ok (s.processInPlace memory st)) ∧
          (s.requests.maxSize < Decimal.wordLimit →
            (process s .ample st).map Storage.Outcome.view = .ok (s.processNext st.view))) := by
  refine ⟨fun limits block small => parse_eq limits small,
    fun path buffer small => ⟨decodeInto_eq small buffer, normalizeInto_eq small buffer⟩,
    fun steps => ?_⟩
  intro st small
  obtain ⟨h, -, -⟩ : st.Bounded s.requests ∧ _ := (Storage.bounded_new s.requests).run steps
  refine ⟨pending_eq h, shift_eq h, fun n there => consume_eq h small there,
    fun memory total => ⟨reserve_eq h memory, fun large admissible => ?_⟩,
    fun word => ⟨fun memory => process_eq h small memory word, fun limit => ?_⟩⟩
  · exact reserve_of_overflow memory (h.maxSize ▸ admissible) large
  · rw [process_eq h small .ample word, Except.map, Service.view_processInPlace limit h]

/-- A block in which bytes of a line end stand alone, and which does not end with a line. -/
def sampleBlock : Bytes := .ofString "GET  /%4  HTTP/1.1\r\n\r:\n\n: \r\r\n:"

/-- Three bytes, and a request whose body misses seven of nine bytes. -/
def sampleHalf : Bytes := .ofString "BADPOST / HTTP/1.1\r\nContent-Length: 9\r\n\r\nab"

theorem faultless_samples :
    let st := Service.sampleStorage sampleHalf 3
    (sampleBlock.length < memoryLimit ∧ st.size < memoryLimit) ∧
      (∃ r, parse {} sampleBlock = .ok (.ok r) ∧
        r.fields = #[⟨ofString "\r", ofString "\n\n: \r"⟩]) ∧
      normalizeInto (ofString "/a//../b") #[0] = .ok ⟨.ok (), #[0x2f, 0x62]⟩ ∧
      pending st = .ok (sampleHalf.drop 3) ∧ consume st 40 = .ok (st.consume 40) ∧
      Service.sample.judge st.pending = .bodyMissing 47 ∧ st.consumed + 47 < Decimal.wordLimit ∧
      process Service.sample .ample st = .ok ⟨.ok none, st⟩ := by
  intro st
  obtain ⟨heads, paths, storages⟩ := faultless Service.sample
  have block : sampleBlock.length < memoryLimit := by decide
  have small : st.size < memoryLimit := by decide
  have verdict : Service.sample.judge st.pending = .bodyMissing 47 := rfl
  have word : st.consumed + 47 < Decimal.wordLimit := by decide
  obtain ⟨shown, -, consumes, -, answers⟩ := storages (Service.sampleSteps sampleHalf 3) small
  obtain ⟨processed, -⟩ := answers fun total waits => by
    have same : Verdict.bodyMissing 47 = .bodyMissing total := verdict.symm.trans waits
    cases same
    exact word
  refine ⟨⟨block, small⟩, ⟨_, (heads {} sampleBlock block).trans rfl, rfl⟩,
    (paths (ofString "/a//../b") #[0] (by decide)).2.trans rfl, shown.trans rfl,
    consumes 40 (by decide), verdict, word, (processed .ample).trans rfl⟩

end Checked
end HttpServer
