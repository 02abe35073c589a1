import HttpServer.Path.Checked
import HttpServer.Proofs.NormalForms
import HttpServer.Proofs.Percent
/-!
# A path is decoded and normalized without a fault

The decoder looks two places ahead only where it has seen that they lie in the source
(`tokenAt?_eq`). The text of a normal path never grows beyond the room it was given (`size_step_le`), so
the length that is tested against the room is a sum of three numbers below half a word (`push_eq`).
-/
namespace HttpServer.Checked

open Bytes HttpServer.Path

variable {s : Bytes} {room i : Nat}

/-! ## Decoding -/

/-- The place of a letter behind the first one, and ten, are a byte. -/
theorem byteSum_ten {b first : UInt8} (le : first ≤ b) (ten : 10 ≤ first.toNat) :
    byteSum (b - first) 10 = .ok (b - first + 10) := by
  have place : (b - first).toNat = b.toNat - first.toNat := UInt8.toNat_sub_of_le _ _ le
  have byte := b.toNat_lt
  have := UInt8.le_iff_toNat_le.1 le
  have : (10 : UInt8).toNat = 10 := rfl
  exact byteSum_eq (by omega)

theorem hexValue?_eq (b : UInt8) : hexValue? b = .ok (Path.hexValue? b) := by
  unfold hexValue? Path.hexValue?
  by_cases decimal : 0x30 ≤ b ∧ b ≤ 0x39
  · rw [if_pos decimal, if_pos decimal, byteDifference_eq decimal.1]
    rfl
  · rw [if_neg decimal, if_neg decimal]
    by_cases small : 0x61 ≤ b ∧ b ≤ 0x66
    · rw [if_pos small, if_pos small, byteDifference_eq small.1, ok_bind,
        byteSum_ten small.1 (by decide)]
      rfl
    · rw [if_neg small, if_neg small]
      by_cases capital : 0x41 ≤ b ∧ b ≤ 0x46
      · rw [if_pos capital, if_pos capital, byteDifference_eq capital.1, ok_bind,
          byteSum_ten capital.1 (by decide)]
        rfl
      · rw [if_neg capital, if_neg capital]

theorem escapedAt?_eq (small : s.length < memoryLimit) (first : i + 1 < s.length)
    (second : i + 2 < s.length) : escapedAt? s i = .ok (hexPair? s[i + 1] s[i + 2]) := by
  have word := memoryLimit_lt_wordLimit
  rw [escapedAt?, sum_eq (by omega), ok_bind, byteAt_eq first, ok_bind, hexValue?_eq, ok_bind, hexPair?]
  cases Path.hexValue? s[i + 1] with
  | none => rfl
  | some hi =>
    simp only [sum_eq (show i + 2 < Decimal.wordLimit by omega), ok_bind, byteAt_eq second, hexValue?_eq]
    cases Path.hexValue? s[i + 2] <;> rfl

theorem tokenAt?_eq (small : s.length < memoryLimit) (inside : i < s.length) :
    tokenAt? s i = .ok (Path.tokenAt? s i inside) := by
  have word : memoryLimit + 2 < Decimal.wordLimit := by decide
  rw [tokenAt?, byteAt_eq inside, ok_bind, Path.tokenAt?]
  by_cases escape : s[i] = percent
  · rw [if_pos escape, if_pos escape, sum_eq (by omega), ok_bind]
    by_cases ahead : i + 2 < s.length
    · rw [if_neg (Nat.not_le.2 ahead), dif_pos ahead, escapedAt?_eq small (by omega) ahead,
        ok_bind]
      cases hexPair? s[i + 1] s[i + 2] with
      | none => rfl
      | some b =>
        simp only [sum_eq (show i + 3 < Decimal.wordLimit by omega), ok_bind]
        rfl
    · rw [if_pos (Nat.le_of_not_lt ahead), dif_neg ahead]
  · rw [if_neg escape, if_neg escape, sum_eq (by omega), ok_bind]

/-- One turn of the decoder. -/
theorem decodeFrom_inside (small : s.length < memoryLimit) (inside : i < s.length) (room : Nat)
    (buffer : Array UInt8) : decodeFrom room s i buffer =
      match Path.tokenAt? s i inside with
      | none => .ok ⟨.error .badRequestPath, buffer⟩
      | some (b, j) =>
        if buffer.size ≥ room then .ok ⟨.error .badRequestPath, buffer⟩
        else decodeFrom room s j (buffer.push b) := by
  have token := tokenAt?_eq small inside
  rw [decodeFrom, dif_pos inside]
  split
  · rename_i failed
    rw [token] at failed
    cases failed
  · rename_i malformed
    rw [Except.ok.inj (token.symm.trans malformed)]
  · rename_i token'
    rw [Except.ok.inj (token.symm.trans token')]

theorem decodeFrom_eq (small : s.length < memoryLimit) (room i : Nat) (buffer : Array UInt8) :
    decodeFrom room s i buffer = .ok (Path.decodeFrom room s i buffer) := by
  fun_induction Path.decodeFrom room s i buffer with
  | case1 i buffer inside token => rw [decodeFrom_inside small inside, token]
  | case2 i buffer inside b j token full =>
    rw [decodeFrom_inside small inside, token]
    exact if_pos full
  | case3 i buffer inside b j token space ih =>
    rw [decodeFrom_inside small inside, token]
    exact (if_neg space).trans ih
  | case4 i buffer outside => rw [decodeFrom, dif_neg outside]

theorem decodeInto_eq (small : s.length < memoryLimit) (buffer : Array UInt8) :
    decodeInto s buffer = .ok (Path.decodeInto s buffer) := decodeFrom_eq small _ _ _

/-! ## Normalizing -/

/-- A path under construction does not grow beyond its room. -/
theorem size_step_le {p p' : Normal} {segment : Bytes} (size : p.text.size ≤ room)
    (stepped : p.step room segment = .ok p') : p'.text.size ≤ room := by
  unfold Normal.step at stepped
  split at stepped
  · cases stepped
    exact size
  · split at stepped
    · unfold Normal.pop at stepped
      split at stepped
      · cases stepped
      · cases stepped
        rw [Array.take_eq_extract, Array.size_extract]
        omega
    · unfold Normal.push at stepped
      by_cases long : p.text.size > 1
      · simp only [if_pos long, if_true] at stepped
        split at stepped
        · cases stepped
        · cases stepped
          rw [← Array.length_toList]
          simp
          omega
      · simp only [if_neg long, Nat.zero_ne_one, if_false] at stepped
        split at stepped
        · cases stepped
        · cases stepped
          rw [← Array.length_toList]
          simp
          omega

theorem push_eq {p : Normal} {segment : Bytes}
    (word : p.text.size + 1 + segment.length < Decimal.wordLimit) :
    push room p segment = .ok (p.push room segment) := by
  unfold push Normal.push
  by_cases long : p.text.size > 1
  · simp only [if_pos long]
    rw [sum_eq (by omega), ok_bind, sum_eq word, ok_bind]
    split <;> rfl
  · simp only [if_neg long]
    rw [sum_eq (by omega), ok_bind, sum_eq (by omega), ok_bind]
    split <;> rfl

theorem step_eq {p : Normal} {segment : Bytes}
    (word : p.text.size + 1 + segment.length < Decimal.wordLimit) :
    step room p segment = .ok (p.step room segment) := by
  unfold step Normal.step
  rw [push_eq word]
  split
  · rfl
  · split <;> rfl

/-- Neither the text nor a segment is longer than half a word, so their sum is one. -/
theorem writeSegments_eq {segments : List Bytes} {p : Normal} (small : room < memoryLimit)
    (size : p.text.size ≤ room) (short : ∀ segment ∈ segments, segment.length < memoryLimit) :
    writeSegments room segments p = .ok (Path.writeSegments room segments p) := by
  induction segments generalizing p with
  | nil => rfl
  | cons segment rest ih =>
    obtain ⟨first, short⟩ := List.forall_mem_cons.1 short
    have word : p.text.size + 1 + segment.length < Decimal.wordLimit := by
      have : memoryLimit + memoryLimit = Decimal.wordLimit := rfl
      omega
    rw [writeSegments, step_eq word, ok_bind, Path.writeSegments]
    cases stepped : p.step room segment with
    | error e => rfl
    | ok p' => exact ih (size_step_le size stepped) short

/-- A piece of a text is no longer than the text. -/
theorem length_le_of_mem_pieces {b : UInt8} {piece : Bytes} (h : piece ∈ pieces b s) :
    piece.length ≤ s.length := by
  obtain ⟨before, after, parts⟩ := List.append_of_mem h
  have total := congrArg List.length (flatMap_pieces b s)
  rw [parts] at total
  simp only [List.flatMap_append, List.flatMap_cons, List.length_append, List.length_singleton] at total
  omega

theorem normalizeInto_eq (small : s.length < memoryLimit) (buffer : Array UInt8) :
    normalizeInto s buffer = .ok (Path.normalizeInto s buffer) := by
  cases s with
  | nil => rfl
  | cons b rest =>
    have root : ((buffer.take 0).push slash).size = 1 := by simp
    have room : max (b :: rest).length 1 < memoryLimit := max_lt small (by decide)
    simp only [normalizeInto, Path.normalizeInto]
    by_cases rooted : b = slash
    · rw [if_pos rooted, if_pos rooted]
      refine writeSegments_eq room ?_ fun segment mem => ?_
      · exact root ▸ Nat.le_max_right _ _
      · exact Nat.lt_of_le_of_lt (length_le_of_mem_pieces mem) small
    · rw [if_neg rooted, if_neg rooted]

/-! ## Both -/

theorem resolvePath_eq {r : Request} (small : r.path.length < memoryLimit) :
    resolvePath r = .ok r.resolvePath := by
  rw [resolvePath, decodeInto_eq small, ok_bind, bytes_decodeInto, Request.resolvePath]
  cases decoded : percentDecode r.path with
  | error e => rfl
  | ok bytes =>
    have small' : bytes.length < memoryLimit :=
      Nat.lt_of_le_of_lt (percentDecode_eq_ok_iff.1 decoded).length_le small
    simp only [normalizeInto_eq small', ok_bind, bytes_normalizeInto]
    cases normalize bytes <;> rfl

end HttpServer.Checked
