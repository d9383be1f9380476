/-
  Dumbnose.Lib.Bytes — a stretch of memory, and fixed-width integers in it.

  `poke` writes at an offset and `peek` reads there; both fail outside the memory. Memory
  that is laid out as fields, one after another, is written and read a field at a time: the
  first (`poke_first`, `peek_first`), or one past the first (`poke_skip`, `peek_skip`).

  `bytesOf w n` has the `w` lowest bytes of a number, the lowest first; `numberOf` reads
  them back (`numberOf_bytesOf`).
-/

import Mathlib.Algebra.Group.Nat.Defs
import Mathlib.Tactic.Common

namespace Dumbnose.Lib.Bytes

variable {α : Type}

/-! ## Offsets -/

def poke (offset : Nat) (values memory : List α) : Option (List α) :=
  if offset + values.length ≤ memory.length then
    some (memory.take offset ++ values ++ memory.drop (offset + values.length))
  else none

def peek (offset n : Nat) (memory : List α) : Option (List α) :=
  if offset + n ≤ memory.length then some ((memory.drop offset).take n) else none

theorem poke_first {old values after : List α} (hv : values.length = old.length) :
    poke 0 values (old ++ after) = some (values ++ after) := by
  unfold poke
  rw [if_pos (by rw [List.length_append]; omega), Nat.zero_add, hv, List.drop_left]
  rfl

theorem peek_first {values after : List α} {n : Nat} (hv : values.length = n) :
    peek 0 n (values ++ after) = some values := by
  unfold peek
  rw [if_pos (by rw [List.length_append]; omega), List.drop_zero, List.take_left' hv]

theorem poke_skip {before values rest : List α} {n : Nat} (hb : before.length = n) (offset : Nat) :
    poke (n + offset) values (before ++ rest) = (poke offset values rest).map (before ++ ·) := by
  subst hb
  unfold poke
  by_cases h : offset + values.length ≤ rest.length
  · have htake : before.take (before.length + offset) = before := List.take_of_length_le (by omega)
    have hdrop : before.drop (before.length + (offset + values.length)) = [] := List.drop_eq_nil_of_le (by omega)
    rw [if_pos h, if_pos (by rw [List.length_append]; omega)]
    simp [Nat.add_assoc, List.drop_append, List.take_append, htake, hdrop]
  · rw [if_neg h, if_neg (by rw [List.length_append]; omega)]
    rfl

theorem peek_skip {before rest : List α} {n : Nat} (hb : before.length = n) (offset k : Nat) :
    peek (n + offset) k (before ++ rest) = peek offset k rest := by
  subst hb
  unfold peek
  by_cases h : offset + k ≤ rest.length
  · have hdrop : before.drop (before.length + offset) = [] := List.drop_eq_nil_of_le (by omega)
    rw [if_pos h, if_pos (by rw [List.length_append]; omega)]
    simp [List.drop_append, hdrop]
  · rw [if_neg h, if_neg (by rw [List.length_append]; omega)]

/-! ## Integers -/

def bytesOf : Nat → Nat → List UInt8
  | 0, _ => []
  | w + 1, n => UInt8.ofNat n :: bytesOf w (n / 256)

def numberOf : List UInt8 → Nat
  | [] => 0
  | b :: bs => b.toNat + 256 * numberOf bs

@[simp] theorem length_bytesOf (w n : Nat) : (bytesOf w n).length = w := by
  induction w generalizing n with
  | zero => rfl
  | succ w ih => rw [bytesOf, List.length_cons, ih]

theorem numberOf_bytesOf {w n : Nat} (h : n < 256 ^ w) : numberOf (bytesOf w n) = n := by
  induction w generalizing n with
  | zero =>
    rw [pow_zero] at h
    rw [bytesOf, numberOf]
    omega
  | succ w ih =>
    rw [pow_succ] at h
    have hb : (UInt8.ofNat n).toNat = n % 256 := UInt8.toNat_ofNat'
    rw [bytesOf, numberOf, ih (by omega), hb]
    omega

end Dumbnose.Lib.Bytes
