/-
  Dumbnose.Strings.Wide — strings of wchar_t, and their bytes.

  A `std::wstring` is any list of 16-bit units, null characters included. A `wchar_t*`
  stands for the units before the first null character: those of a buffer (`cString`), or
  of a wstring, which ends in one (`cStr`). In memory a unit is two bytes, the low one
  first.

  `cString_units_iff`: a buffer that begins with the bytes of a string is read back as
  that string exactly if the two bytes behind are zero.
-/

import Mathlib.Data.List.TakeWhile
import Mathlib.Tactic.Common

namespace Dumbnose.Strings

abbrev WString := List UInt16

/-- What is read from a buffer as a null-terminated string; `none` where no terminator is
    in it, and the reading leaves the buffer. -/
def cString (buffer : List UInt16) : Option WString :=
  if 0 ∈ buffer then some (buffer.takeWhile (· ≠ 0)) else none

/-- What `c_str()` is to whoever looks for the terminator. -/
def cStr (s : WString) : WString := s.takeWhile (· ≠ 0)

theorem not_mem_cStr (s : WString) : 0 ∉ cStr s := by
  intro h
  have := List.mem_takeWhile_imp h
  simp at this

theorem cStr_eq {s : WString} (h : 0 ∉ s) : cStr s = s := by
  unfold cStr
  rw [List.takeWhile_eq_self_iff]
  intro c hc
  have : c ≠ 0 := fun e => h (e ▸ hc)
  simpa using this

theorem cString_eq_some_iff {buffer : List UInt16} {s : WString} :
    cString buffer = some s ↔ 0 ∉ s ∧ ∃ rest, buffer = s ++ 0 :: rest := by
  refine ⟨fun h => ?_, fun h => ?_⟩
  · unfold cString at h
    by_cases e : 0 ∈ buffer
    · rw [if_pos e] at h
      obtain rfl := Option.some.inj h
      -- what the reading stops at is a null character
      cases hd : buffer.dropWhile (fun c => decide (c ≠ 0)) with
      | nil =>
        have := List.dropWhile_eq_nil_iff.mp hd 0 e
        simp at this
      | cons c rest =>
        have hc := List.head?_dropWhile_not (fun c => decide (c ≠ 0)) buffer
        rw [hd] at hc
        obtain rfl : c = 0 := by simpa using hc
        refine ⟨not_mem_cStr buffer, rest, ?_⟩
        rw [← hd]
        exact List.takeWhile_append_dropWhile.symm
    · rw [if_neg e] at h
      cases h
  · obtain ⟨hs, rest, rfl⟩ := h
    have hall : ∀ c ∈ s, decide (c ≠ 0) = true := fun c hc => by
      have : c ≠ 0 := fun e => hs (e ▸ hc)
      simpa using this
    unfold cString
    rw [if_pos (by simp), List.takeWhile_append_of_pos hall]
    simp

/-! ## Bytes -/

def lowByte (c : UInt16) : UInt8 := UInt8.ofNat (c.toNat % 256)

def highByte (c : UInt16) : UInt8 := UInt8.ofNat (c.toNat / 256)

def unit (low high : UInt8) : UInt16 := UInt16.ofNat (low.toNat + 256 * high.toNat)

/-- The units of a string in memory. -/
def bytes (s : WString) : List UInt8 := s.flatMap fun c => [lowByte c, highByte c]

/-- The first `n` units of a memory. -/
def units (memory : Nat → UInt8) (n : Nat) : List UInt16 :=
  (List.range n).map fun j => unit (memory (2 * j)) (memory (2 * j + 1))

theorem unit_bytes (c : UInt16) : unit (lowByte c) (highByte c) = c := by
  unfold unit lowByte highByte
  have hc := c.toNat_lt
  rw [UInt8.toNat_ofNat_of_lt' (by show _ < 256; omega), UInt8.toNat_ofNat_of_lt' (by show _ < 256; omega),
    Nat.mod_add_div, UInt16.ofNat_toNat]

theorem unit_eq_zero_iff (low high : UInt8) : unit low high = 0 ↔ low = 0 ∧ high = 0 := by
  have hl := low.toNat_lt
  have hh := high.toNat_lt
  have hu : (unit low high).toNat = low.toNat + 256 * high.toNat := UInt16.toNat_ofNat_of_lt' (by show _ < 65536; omega)
  rw [← UInt16.toNat_inj, ← UInt8.toNat_inj, ← UInt8.toNat_inj, hu]
  show _ = 0 ↔ _ = 0 ∧ _ = 0
  omega

theorem length_bytes (s : WString) : (bytes s).length = 2 * s.length := by
  induction s with
  | nil => rfl
  | cons c s ih =>
    show (bytes s).length + 1 + 1 = 2 * (s.length + 1)
    omega

theorem getElem?_bytes (s : WString) (j : Nat) :
    (bytes s)[2 * j]? = s[j]?.map lowByte ∧ (bytes s)[2 * j + 1]? = s[j]?.map highByte := by
  induction s generalizing j with
  | nil => exact ⟨rfl, rfl⟩
  | cons c s ih =>
    have hcons : bytes (c :: s) = lowByte c :: highByte c :: bytes s := rfl
    cases j with
    | zero => exact ⟨rfl, rfl⟩
    | succ j =>
      rw [hcons]
      exact ih j

theorem getElem?_units {memory : Nat → UInt8} {n j : Nat} (hj : j < n) :
    (units memory n)[j]? = some (unit (memory (2 * j)) (memory (2 * j + 1))) := by
  unfold units
  rw [List.getElem?_map, List.getElem?_range hj]
  rfl

/-- A memory that begins with a string's bytes is read back as that string exactly if it
    has a terminator there. -/
theorem cString_units_iff {memory : Nat → UInt8} {s : WString} {n : Nat} (hs : 0 ∉ s) (hn : s.length < n)
    (hm : ∀ i, i < 2 * s.length → some (memory i) = (bytes s)[i]?) :
    cString (units memory n) = some s ↔ memory (2 * s.length) = 0 ∧ memory (2 * s.length + 1) = 0 := by
  rw [cString_eq_some_iff, ← unit_eq_zero_iff]
  refine ⟨fun h => ?_, fun h => ⟨hs, (units memory n).drop (s.length + 1), ?_⟩⟩
  · obtain ⟨-, rest, he⟩ := h
    have : (units memory n)[s.length]? = _ := getElem?_units hn
    rw [he, List.getElem?_append_right (Nat.le_refl _), Nat.sub_self] at this
    exact (Option.some.inj this).symm
  · apply List.ext_getElem?
    intro j
    rcases Nat.lt_trichotomy j s.length with hj | rfl | hj
    · have h1 := hm (2 * j) (by omega)
      have h2 := hm (2 * j + 1) (by omega)
      rw [(getElem?_bytes s j).1, List.getElem?_eq_getElem hj] at h1
      rw [(getElem?_bytes s j).2, List.getElem?_eq_getElem hj] at h2
      rw [getElem?_units (by omega), List.getElem?_append_left hj, List.getElem?_eq_getElem hj, Option.some.inj h1,
        Option.some.inj h2, unit_bytes]
    · rw [getElem?_units hn, List.getElem?_append_right (Nat.le_refl _), Nat.sub_self, h]
      rfl
    · rw [List.getElem?_append_right (by omega), show j - s.length = (j - s.length - 1) + 1 by omega,
        List.getElem?_cons_succ, List.getElem?_drop]
      congr 1
      omega

end Dumbnose.Strings
