import HttpServer.Decimal
import Mathlib.Data.Nat.Digits.Defs
/-!
# Numbers are read and written exactly

`write` gives at least one byte and only digits, so a reader that knows where they end finds the
number again (`number?_write`), and no other byte can be mistaken for a part of it.

`read?` looks for an overflow at every digit, first in the product and then in the sum. A number never
gets smaller by more digits, so some start of it is too large only if all of it is: what is read is
exactly what is written in digits and fits into a word (`read?_eq_some_iff`).
-/
namespace HttpServer.Decimal

/-- A digit is a character of one byte. -/
theorem toNat_of_isDigit {c : Char} (h : c.isDigit = true) : 0x30 ≤ c.toNat ∧ c.toNat ≤ 0x39 := by
  simp only [Char.isDigit, Bool.and_eq_true, decide_eq_true_eq] at h
  exact ⟨h.1, h.2⟩

theorem toNat_toUInt8_of_isDigit {c : Char} (h : c.isDigit = true) :
    c.toNat.toUInt8.toNat = c.toNat := by
  have := toNat_of_isDigit h
  rw [Nat.toUInt8_eq, UInt8.toNat_ofNat']
  exact Nat.mod_eq_of_lt (by omega)

theorem isDigit_of_mem_write {n : Nat} {b : UInt8} (h : b ∈ write n) : isDigit b = true := by
  obtain ⟨c, hc, rfl⟩ := List.mem_map.1 h
  have digit := Nat.isDigit_of_mem_toDigits (by decide) (by decide) hc
  have range := toNat_of_isDigit digit
  simp only [isDigit, Bool.and_eq_true, decide_eq_true_eq, UInt8.le_iff_toNat_le,
    toNat_toUInt8_of_isDigit digit]
  exact range

theorem write_ne_nil (n : Nat) : write n ≠ [] := by
  simp [write, Nat.toDigits_ne_nil]

/-- The bytes of digits have the value of the digits. -/
theorem foldl_map_of_isDigit {cs : List Char} (h : ∀ c ∈ cs, c.isDigit = true) (start : Nat) :
    (cs.map fun c => c.toNat.toUInt8).foldl (fun n b => n * 10 + digitValue b) start =
      Nat.ofDigitChars 10 cs start := by
  induction cs generalizing start with
  | nil => rw [Nat.ofDigitChars_nil, List.map_nil, List.foldl_nil]
  | cons c cs ih =>
    obtain ⟨digit, h⟩ := List.forall_mem_cons.1 h
    rw [List.map_cons, List.foldl_cons, ih h, Nat.ofDigitChars_cons, digitValue,
      toNat_toUInt8_of_isDigit digit, Nat.mul_comm]
    rfl

theorem value_write (n : Nat) : value (write n) = n := by
  rw [value, write, foldl_map_of_isDigit fun c hc =>
    Nat.isDigit_of_mem_toDigits (by decide) (by decide) hc]
  exact Nat.ofDigitChars_ten_toDigits

/-- A number of any size is read back from its digits. -/
theorem number?_write (n : Nat) : number? (write n) = some n := by
  have digits : (write n).all isDigit = true :=
    List.all_eq_true.2 fun _ hb => isDigit_of_mem_write hb
  rw [number?, if_pos ⟨write_ne_nil n, digits⟩, value_write]

theorem le_foldl (s : Bytes) (n : Nat) : n ≤ s.foldl (fun n b => n * 10 + digitValue b) n := by
  induction s generalizing n with
  | nil => exact Nat.le_refl n
  | cons b s ih =>
    have := ih (n * 10 + digitValue b)
    rw [List.foldl_cons]
    omega

/-- Digits are read as long as the number fits: no start of it is larger. -/
theorem foldlM_push? {s : Bytes} (digits : ∀ b ∈ s, isDigit b = true) {n : Nat}
    (fits : s.foldl (fun n b => n * 10 + digitValue b) n < wordLimit) :
    s.foldlM push? n = some (s.foldl (fun n b => n * 10 + digitValue b) n) := by
  induction s generalizing n with
  | nil => rfl
  | cons b s ih =>
    obtain ⟨digit, digits⟩ := List.forall_mem_cons.1 digits
    rw [List.foldl_cons] at fits ⊢
    have le := le_foldl s (n * 10 + digitValue b)
    have pushed : push? n b = some (n * 10 + digitValue b) := by
      rw [push?, if_pos digit, if_pos (by omega), if_pos (by omega)]
    rw [List.foldlM_cons, pushed]
    exact ih digits fits

/-- A number that fits into a machine word is read back from its digits. -/
theorem read?_write {n : Nat} (fits : n < wordLimit) : read? (write n) = some n := by
  have value : (write n).foldl (fun n b => n * 10 + digitValue b) 0 = n := value_write n
  rw [read?, foldlM_push? fun _ => isDigit_of_mem_write, value]
  rwa [value]

/-- Only a digit is added to a number, and it is added behind it if there is room in a word. -/
theorem eq_of_push? {n m : Nat} {b : UInt8} (h : push? n b = some m) :
    isDigit b = true ∧ m = n * 10 + digitValue b ∧ m < wordLimit := by
  unfold push? at h
  split at h
  · rename_i digit
    split at h
    · split at h
      · rename_i fits
        cases h
        exact ⟨digit, rfl, fits⟩
      · cases h
    · cases h
  · cases h

/-- What is read is a run of digits. It is what they write behind the number at the start, and fits into
a word if that does. -/
theorem eq_of_foldlM_push? {s : Bytes} {n m : Nat} (h : s.foldlM push? n = some m) :
    s.all isDigit = true ∧ m = s.foldl (fun n b => n * 10 + digitValue b) n ∧
      (n < wordLimit → m < wordLimit) := by
  induction s generalizing n with
  | nil =>
    cases h
    exact ⟨rfl, rfl, id⟩
  | cons b s ih =>
    rw [List.foldlM_cons] at h
    cases first : push? n b with
    | none =>
      rw [first] at h
      cases h
    | some k =>
      rw [first] at h
      obtain ⟨digit, rfl, fits⟩ := eq_of_push? first
      obtain ⟨digits, value, fits'⟩ := ih h
      exact ⟨by rw [List.all_cons, digit, digits]; rfl, value, fun _ => fits' fits⟩

/-- What is read of a text that is not empty is the number that it writes. -/
theorem number?_of_read? {s : Bytes} {n : Nat} (h : read? s = some n) (nonempty : s ≠ []) :
    number? s = some n := by
  obtain ⟨digits, rfl, -⟩ := eq_of_foldlM_push? h
  exact if_pos ⟨nonempty, digits⟩

/-! ## What can be read -/

/-- What is read consists of digits, and what they write fits into a word. -/
theorem read?_eq_some_iff {s : Bytes} {n : Nat} :
    read? s = some n ↔ s.all isDigit = true ∧ value s = n ∧ n < wordLimit := by
  constructor
  · intro h
    obtain ⟨digits, number, fits⟩ := eq_of_foldlM_push? h
    exact ⟨digits, number.symm, fits (by decide)⟩
  · rintro ⟨digits, rfl, fits⟩
    exact foldlM_push? (List.all_eq_true.1 digits) fits

/-- Digits cannot be read exactly if the number that they write is no word. -/
theorem read?_eq_none_iff {s : Bytes} (digits : s.all isDigit = true) :
    read? s = none ↔ wordLimit ≤ value s := by
  rw [Option.eq_none_iff_forall_ne_some]
  constructor
  · intro unread
    by_contra fits
    exact unread (value s) (read?_eq_some_iff.2 ⟨digits, rfl, Nat.lt_of_not_le fits⟩)
  · intro large n read
    obtain ⟨-, rfl, fits⟩ := read?_eq_some_iff.1 read
    omega

/-- What cannot be read cannot be read with more bytes behind it either. -/
theorem read?_append_of_none {p : Bytes} (h : read? p = none) (q : Bytes) : read? (p ++ q) = none := by
  rw [read?] at h
  rw [read?, List.foldlM_append, h]
  rfl

/-- A digit counts by its place: those behind it are worth less by powers of ten. -/
theorem foldl_eq_ofDigits (s : Bytes) (start : Nat) :
    s.foldl (fun n b => n * 10 + digitValue b) start =
      start * 10 ^ s.length + Nat.ofDigits 10 (s.map digitValue).reverse := by
  induction s generalizing start with
  | nil => simp
  | cons b s ih =>
    rw [List.foldl_cons, ih, List.map_cons, Nat.ofDigits_reverse_cons, List.length_map,
      List.length_cons]
    ring

theorem value_eq_ofDigits (s : Bytes) :
    value s = Nat.ofDigits 10 (s.map digitValue).reverse := by
  rw [value, foldl_eq_ofDigits, Nat.zero_mul, Nat.zero_add]

/-- Zeros in front are worth nothing. -/
theorem value_zeros_append (zeros : Nat) (s : Bytes) :
    value (List.replicate zeros 0x30 ++ s) = value s := by
  induction zeros with
  | zero => rfl
  | succ zeros ih => exact ih

/-- A text is read exactly if it consists of digits that write a number below the limit of a word, and
then this number is read. So reading stops at an overflow, in some start of the digits, exactly if the
whole number is too large, and what stands behind does not mend it. A number that fits is read back
from its digits behind any number of zeros. -/
theorem read?_exact :
    (∀ (s : Bytes) (n : Nat), read? s = some n ↔
      s.all isDigit = true ∧ Nat.ofDigits 10 (s.map digitValue).reverse = n ∧ n < wordLimit) ∧
    (∀ s : Bytes, s.all isDigit = true →
      ((∃ start, start <+: s ∧ read? start = none) ↔
        wordLimit ≤ Nat.ofDigits 10 (s.map digitValue).reverse)) ∧
    (∀ start rest : Bytes, read? start = none → read? (start ++ rest) = none) ∧
    ∀ n < wordLimit, ∀ zeros, read? (List.replicate zeros 0x30 ++ write n) = some n := by
  refine ⟨fun s n => ?_, fun s digits => ?_, fun _ rest h => read?_append_of_none h rest,
    fun n fits zeros => ?_⟩
  · rw [read?_eq_some_iff, value_eq_ofDigits]
  · rw [← value_eq_ofDigits, ← read?_eq_none_iff digits]
    constructor
    · rintro ⟨start, ⟨rest, rfl⟩, overflow⟩
      exact read?_append_of_none overflow rest
    · exact fun overflow => ⟨s, List.prefix_rfl, overflow⟩
  · have digits : (List.replicate zeros 0x30 ++ write n).all isDigit = true := by
      rw [List.all_append, List.all_replicate, List.all_eq_true.2 fun _ => isDigit_of_mem_write]
      cases zeros <;> rfl
    exact read?_eq_some_iff.2 ⟨digits, by rw [value_zeros_append, value_write], fits⟩

/-- The digits of the first number that is no word. -/
def sampleLimit : Bytes := .ofString "18446744073709551616"

theorem read?_sampleLimit :
    18446744073709551615 < wordLimit ∧
      read? (List.replicate 30 0x30 ++ write 18446744073709551615) = some 18446744073709551615 ∧
      sampleLimit.all isDigit = true ∧ read? (sampleLimit ++ .ofString "7x") = none := by
  obtain ⟨-, overflows, more, fits⟩ := read?_exact
  have digits : sampleLimit.all isDigit = true := by decide
  have large : wordLimit ≤ Nat.ofDigits 10 (sampleLimit.map digitValue).reverse := by decide
  obtain ⟨start, ⟨rest, all⟩, overflow⟩ := (overflows sampleLimit digits).2 large
  refine ⟨by decide, fits _ (by decide) 30, digits, ?_⟩
  rw [← all, List.append_assoc]
  exact more start _ overflow

end HttpServer.Decimal
