import HttpServer.Decimal
/-!
# Computations that can fault

Lists can be cut anywhere, and numbers have no end. On a machine a place or a range must lie in the
bytes that it is used on, a sum must be a word, and a difference must not be negative. A computation
that gets one of these wrong has a fault and gives nothing, not even a rejection.

Here are the operations that can fault, each with the condition under which it does not. A computation
that is built from them is compared with its counterpart that cannot fault, by the same name in another
namespace: the two agree exactly if there is no fault.
-/
namespace HttpServer

/-- What ends a computation without a result. -/
inductive Fault where
  | outOfRange
  /-- A sum or a difference that is no word, or no byte. -/
  | overflow
  /-- Windows without a width. -/
  | noWidth
  | assertion
  deriving DecidableEq

/-- A computation that gives something unless it faults. -/
abbrev Checked : Type → Type := Except Fault

/-- All byte strings in memory are shorter, 2 to the 63rd. -/
def Bytes.memoryLimit : Nat := 0x8000000000000000

namespace Checked

open Bytes Decimal

variable {α β : Type}

@[simp] theorem ok_bind (a : α) (f : α → Checked β) : (.ok a : Checked α) >>= f = f a := rfl

theorem exists_of_bind {x : Checked α} {f : α → Checked β} {b : β} (h : x >>= f = .ok b) :
    ∃ a, x = .ok a ∧ f a = .ok b := by
  cases x with
  | error fault => cases h
  | ok a => exact ⟨a, rfl, h⟩

theorem memoryLimit_lt_wordLimit : memoryLimit < wordLimit := by decide

/-! ## Words and bytes -/

/-- The sum of two words, which must be one. -/
def sum (m n : Nat) : Checked Nat := if m + n < wordLimit then .ok (m + n) else .error .overflow

def difference (m n : Nat) : Checked Nat := if n ≤ m then .ok (m - n) else .error .overflow

def byteSum (b c : UInt8) : Checked UInt8 :=
  if b.toNat + c.toNat < 256 then .ok (b + c) else .error .overflow

def byteDifference (b c : UInt8) : Checked UInt8 := if c ≤ b then .ok (b - c) else .error .overflow

def assert (p : Prop) [Decidable p] : Checked Unit := if p then .ok () else .error .assertion

theorem sum_eq {m n : Nat} (h : m + n < wordLimit) : sum m n = .ok (m + n) := if_pos h

theorem eq_of_sum {m n k : Nat} (h : sum m n = .ok k) : k = m + n := by
  unfold sum at h
  split at h <;> cases h
  rfl

theorem difference_eq {m n : Nat} (h : n ≤ m) : difference m n = .ok (m - n) := if_pos h

theorem byteSum_eq {b c : UInt8} (h : b.toNat + c.toNat < 256) : byteSum b c = .ok (b + c) := if_pos h

theorem byteDifference_eq {b c : UInt8} (h : c ≤ b) : byteDifference b c = .ok (b - c) := if_pos h

theorem assert_eq {p : Prop} [Decidable p] (h : p) : assert p = .ok () := if_pos h

/-! ## Places and ranges -/

def byteAt (s : Bytes) (i : Nat) : Checked UInt8 :=
  match s[i]? with
  | some b => .ok b
  | none => .error .outOfRange

def slice (s : Bytes) (start stop : Nat) : Checked Bytes :=
  if start ≤ stop ∧ stop ≤ s.length then .ok ((s.take stop).drop start) else .error .outOfRange

def sliceTo (s : Bytes) (stop : Nat) : Checked Bytes := slice s 0 stop

def sliceFrom (s : Bytes) (start : Nat) : Checked Bytes := slice s start s.length

/-- All slices of `n` bytes, in order. -/
def windows (s : Bytes) (n : Nat) : Checked (List Bytes) :=
  if n = 0 then .error .noWidth
  else .ok ((List.range (s.length + 1 - n)).map fun i => (s.drop i).take n)

theorem byteAt_eq {s : Bytes} {i : Nat} (h : i < s.length) : byteAt s i = .ok s[i] := by
  rw [byteAt, List.getElem?_eq_getElem h]

theorem slice_eq {s : Bytes} {start stop : Nat} (h : start ≤ stop) (h' : stop ≤ s.length) :
    slice s start stop = .ok ((s.take stop).drop start) := if_pos ⟨h, h'⟩

theorem sliceTo_eq {s : Bytes} {stop : Nat} (h : stop ≤ s.length) :
    sliceTo s stop = .ok (s.take stop) := slice_eq (Nat.zero_le stop) h

theorem sliceFrom_eq {s : Bytes} {start : Nat} (h : start ≤ s.length) :
    sliceFrom s start = .ok (s.drop start) := by
  rw [sliceFrom, slice_eq h (Nat.le_refl _), List.take_length]

example : sliceTo [1, 2] 2 = .ok [1, 2] ∧ sliceFrom [1, 2] 3 = .error .outOfRange := ⟨rfl, rfl⟩

end Checked
end HttpServer
