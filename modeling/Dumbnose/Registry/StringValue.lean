/-
  Dumbnose.Registry.StringValue — one string in a value: `key::get_value_as_string` and
  its two writers, `key::set_value_as_string` and `reg_helper::set_reg_value` (`key.hpp`,
  `reg_helper.hpp`).

  One writer stores a string without its terminator and the other with it. The reader asks
  for the number of bytes, reads them into a buffer of so many units, rounded up, and
  looks at the last whole one. Sizes in bytes are DWORDs, those in units are `size_t`s: of
  a value without a whole unit the last one has the index `2 ^ 64 - 1`. What leaves the
  buffer is an error of its own, as the code goes on with whatever is there.

  `reads_back_iff`: what is read back from either writer, and of which values the reader
  stays inside its buffer.
-/

import Mathlib.Algebra.Group.Nat.Defs
import Dumbnose.Registry.Key

namespace Dumbnose.Registry

open Strings Lib.Overwrite

namespace StringValue

inductive Err where
  | notString
  | outside
  deriving DecidableEq, Repr

/-- What an exception is made with, where `__FUNCTION__` is the function's name. -/
def Err.what : Err → Option String
  | .notString => some "get_value_as_string: Value is not a string"
  | .outside => none

/-- `buffer[i]`. -/
def read (buffer : List UInt16) (i : Nat) : Except Err UInt16 :=
  match buffer[i]? with
  | some c => .ok c
  | none => .error .outside

/-- `value.assign(buffer, n)`. -/
def assign (buffer : List UInt16) (n : Nat) : Except Err WString :=
  if n ≤ buffer.length then .ok (buffer.take n) else .error .outside

/-- `value_len - 1`, of a `size_t`. -/
def pred (valueLen : Nat) : Nat := (valueLen + (2 ^ 64 - 1)) % 2 ^ 64

/-- What `get_value_as_string` makes of the data of a value; its length is a DWORD. -/
def stringOf (data : List UInt8) : Except Err WString := do
  -- + 1 in case the size is odd
  let size := (data.length + 1) % 2 ^ 32 / 2
  if data.length > 2 * size then throw .outside
  else
    let buffer := units (overwrite (fun _ => 0) data) size
    let valueLen := data.length / 2
    let last ← read buffer (pred valueLen)
    assign buffer (if last = 0 then pred valueLen else valueLen)

end StringValue

namespace Key

open StringValue

variable {upcase : UInt16 → UInt16}

def regQueryValueEx (k : Key upcase) (name : WString) : Option Value :=
  k.values.find? fun v => Same upcase v.name (cStr name)

def getValueAsString (k : Key upcase) (name : WString) : Except StringValue.Err (Option WString) :=
  match k.regQueryValueEx name with
  | none => .ok none
  | some v => if v.type ≠ regSz then .error .notString else some <$> stringOf v.data

/-- The number of bytes is a DWORD. -/
def setValueAsString (k : Key upcase) (name value : WString) : Key upcase :=
  k.regSetValueEx name regSz ((bytes value).take (2 * value.length % 2 ^ 32))

/-- `reg_helper::set_reg_value`, of the key it opens. -/
def setRegValue (k : Key upcase) (name value : WString) : Key upcase :=
  k.regSetValueEx name regSz ((bytes (value ++ [0])).take (2 * (value.length + 1) % 2 ^ 32))

end Key

/-! ## The buffer -/

namespace StringValue

variable {data : List UInt8}

theorem length_units (memory : Nat → UInt8) (n : Nat) : (units memory n).length = n := by simp [units]

theorem take_units (memory : Nat → UInt8) {n m : Nat} (h : m ≤ n) : (units memory n).take m = units memory m := by
  rw [units, ← List.map_take, List.take_range, Nat.min_eq_left h]
  rfl

/-- The whole units of a value. -/
def whole (data : List UInt8) : WString := units (overwrite (fun _ => 0) data) (data.length / 2)

theorem length_whole : (whole data).length = data.length / 2 := length_units _ _

theorem whole_bytes (s : WString) : whole (bytes s) = s := by
  unfold whole
  rw [length_bytes, Nat.mul_div_cancel_left _ (by decide)]
  apply List.ext_getElem?
  intro j
  rcases Nat.lt_or_ge j s.length with hj | hj
  · have hmem : ∀ i, i < (bytes s).length → some (overwrite (fun _ => 0) (bytes s) i) = (bytes s)[i]? := fun i =>
      overwrite_of_lt
    have hlow := hmem (2 * j) (by rw [length_bytes]; omega)
    have hhigh := hmem (2 * j + 1) (by rw [length_bytes]; omega)
    rw [(getElem?_bytes s j).1, List.getElem?_eq_getElem hj] at hlow
    rw [(getElem?_bytes s j).2, List.getElem?_eq_getElem hj] at hhigh
    rw [getElem?_units hj, Option.some.inj hlow, Option.some.inj hhigh, unit_bytes, List.getElem?_eq_getElem hj]
  · rw [List.getElem?_eq_none hj, List.getElem?_eq_none (by rw [length_units]; exact hj)]

theorem pred_eq {n : Nat} (h1 : 1 ≤ n) (h2 : n < 2 ^ 32) : pred n = n - 1 := by
  unfold pred
  omega

/-- The reader stays in its buffer: it returns the whole units, less a terminator. -/
theorem stringOf_inside (h1 : 2 ≤ data.length) (h2 : data.length + 1 < 2 ^ 32) :
    stringOf data = .ok (if (whole data).getLast? = some 0 then (whole data).dropLast else whole data) := by
  have hsize : (data.length + 1) % 2 ^ 32 / 2 = (data.length + 1) / 2 := by rw [Nat.mod_eq_of_lt h2]
  have hwhole : ∀ n, n ≤ data.length / 2 →
      (units (overwrite (fun _ => 0) data) ((data.length + 1) / 2)).take n = (whole data).take n := by
    intro n hn
    rw [whole, take_units _ hn, take_units _ (by omega)]
  have hlast : (units (overwrite (fun _ => 0) data) ((data.length + 1) / 2))[data.length / 2 - 1]? =
      (whole data).getLast? := by
    rw [List.getLast?_eq_getElem?, length_whole, whole, getElem?_units (by omega), getElem?_units (by omega)]
  obtain ⟨c, hc⟩ : ∃ c, (whole data).getLast? = some c := by
    cases hw : (whole data).getLast? with
    | some c => exact ⟨c, rfl⟩
    | none =>
      have := congrArg List.length (List.getLast?_eq_none_iff.mp hw)
      rw [length_whole, List.length_nil] at this
      omega
  have hlen := length_units (overwrite (fun _ => 0) data) ((data.length + 1) / 2)
  unfold stringOf
  simp only [hsize, if_neg (show ¬ data.length > 2 * ((data.length + 1) / 2) by omega),
    pred_eq (show 1 ≤ data.length / 2 by omega) (by omega), read, hlast, hc]
  show assign _ _ = _
  by_cases e : c = 0
  · subst e
    rw [if_pos rfl, if_pos rfl, assign, if_pos (by rw [hlen]; omega), hwhole _ (by omega), List.dropLast_eq_take,
      length_whole]
  · rw [if_neg e, if_neg (fun h => e (Option.some.inj h)), assign, if_pos (by rw [hlen]; omega),
      hwhole _ (Nat.le_refl _), List.take_of_length_le (Nat.le_of_eq length_whole)]

theorem stringOf_outside (h : data.length < 2 ∨ data.length + 1 = 2 ^ 32) : stringOf data = .error .outside := by
  unfold stringOf
  rcases h with h | h
  · have hnone : ∀ n,
        (units (overwrite (fun _ => 0) data) ((data.length + 1) % 2 ^ 32 / 2))[2 ^ 64 - 1 + n]? = none := by
      intro n
      rw [List.getElem?_eq_none]
      rw [length_units]
      omega
    have h0 : data.length / 2 = 0 := by omega
    simp only [if_neg (show ¬ data.length > 2 * ((data.length + 1) % 2 ^ 32 / 2) by omega), h0, read,
      show pred 0 = 2 ^ 64 - 1 + 0 from rfl, hnone]
    rfl
  · rw [if_pos (by omega)]
    rfl

/-- What is returned is no longer than what is there. -/
theorem length_of_stringOf (hd : data.length < 2 ^ 32) {s : WString} (h : stringOf data = .ok s) :
    2 ≤ data.length ∧ s.length ≤ data.length / 2 := by
  by_cases h1 : 2 ≤ data.length
  · by_cases h2 : data.length + 1 < 2 ^ 32
    · rw [stringOf_inside h1 h2] at h
      obtain rfl := Except.ok.inj h
      refine ⟨h1, ?_⟩
      split
      · rw [List.length_dropLast, length_whole]
        omega
      · rw [length_whole]
    · rw [stringOf_outside (.inr (by omega))] at h
      cases h
  · rw [stringOf_outside (.inl (by omega))] at h
    cases h

theorem stringOf_bytes {s : WString} (hs : 0 ∉ s) (h1 : s ≠ []) (h2 : 2 * s.length < 2 ^ 32) :
    stringOf (bytes s) = .ok s := by
  have hpos := List.length_pos_iff.mpr h1
  have hlast : s.getLast? ≠ some 0 := fun h => hs (List.mem_of_getLast? h)
  rw [stringOf_inside (by rw [length_bytes]; omega) (by rw [length_bytes]; omega), whole_bytes, if_neg hlast]

theorem stringOf_terminated {s : WString} (h : 2 * (s.length + 1) < 2 ^ 32) : stringOf (bytes (s ++ [0])) = .ok s := by
  have hlen : (bytes (s ++ [0])).length = 2 * (s.length + 1) := by
    rw [length_bytes, List.length_append, List.length_singleton]
  rw [stringOf_inside (by omega) (by omega), whole_bytes, if_pos (by simp), List.dropLast_concat]

end StringValue

/-! ## Through the key -/

namespace Key

open StringValue

variable {upcase : UInt16 → UInt16}

theorem query_set (k : Key upcase) (name : WString) (type : UInt32) (data : List UInt8) :
    ∃ v, (k.regSetValueEx name type data).regQueryValueEx name = some v ∧ v.type = type ∧ v.data = data := by
  show ∃ v, (withValue upcase k.values (cStr name) type data).find? _ = some v ∧ _
  unfold withValue
  by_cases e : ∃ v ∈ k.values, Same upcase v.name (cStr name)
  · rw [if_pos e, List.find?_map]
    have hname : ((fun v : Value => decide (Same upcase v.name (cStr name))) ∘ fun v =>
        if Same upcase v.name (cStr name) then { v with type := type, data := data } else v) =
        fun v => decide (Same upcase v.name (cStr name)) := by
      funext v
      by_cases h : Same upcase v.name (cStr name) <;> simp [h]
    rw [hname]
    cases hf : k.values.find? fun v => decide (Same upcase v.name (cStr name)) with
    | none =>
      obtain ⟨v, hv, hs⟩ := e
      exact absurd hs (by simpa using List.find?_eq_none.mp hf v hv)
    | some v =>
      have hs : Same upcase v.name (cStr name) := by simpa using List.find?_some hf
      exact ⟨_, rfl, by simp [hs], by simp [hs]⟩
  · rw [if_neg e, List.find?_append]
    have hf : k.values.find? (fun v => decide (Same upcase v.name (cStr name))) = none := by
      rw [List.find?_eq_none]
      intro v hv
      simpa using fun hs => e ⟨v, hv, hs⟩
    rw [hf]
    exact ⟨⟨cStr name, type, data⟩, by simp [Same], rfl, rfl⟩

theorem get_set (k : Key upcase) (name : WString) (data : List UInt8) :
    (k.regSetValueEx name regSz data).getValueAsString name = some <$> stringOf data := by
  obtain ⟨v, hv, ht, rfl⟩ := k.query_set name regSz data
  unfold getValueAsString
  rw [hv]
  exact if_neg fun h => h ht

theorem map_ok_iff {x : Except StringValue.Err WString} {s : WString} : some <$> x = .ok (some s) ↔ x = .ok s := by
  cases x with
  | ok a =>
    refine ⟨fun h => ?_, fun h => by rw [h]; rfl⟩
    have := Except.ok.inj h
    rw [Option.some.inj this]
  | error e => exact ⟨(fun h => by cases h), (fun h => by cases h)⟩

/-- Without a terminator, every string comes back but the empty one; with one, every
    string. The reader stays in its buffer on values of at least one unit. Counts of
    bytes beyond a DWORD are cut short. -/
theorem reads_back_iff (k : Key upcase) (name : WString) {s : WString} (hs : 0 ∉ s) :
    ((k.setValueAsString name s).getValueAsString name = .ok (some s) ↔ s ≠ [] ∧ 2 * s.length < 2 ^ 32) ∧
    ((k.setRegValue name s).getValueAsString name = .ok (some s) ↔ 2 * (s.length + 1) < 2 ^ 32) ∧
    ∀ v, k.regQueryValueEx name = some v → v.type = regSz → v.data.length < 2 ^ 32 →
      (k.getValueAsString name ≠ .error .outside ↔ 2 ≤ v.data.length ∧ v.data.length + 1 ≠ 2 ^ 32) := by
  refine ⟨?_, ?_, fun v hv ht hd => ?_⟩
  · rw [setValueAsString, get_set, map_ok_iff]
    refine ⟨fun h => ?_, fun h => ?_⟩
    · have hlen : ((bytes s).take (2 * s.length % 2 ^ 32)).length = 2 * s.length % 2 ^ 32 := by
        rw [List.length_take, length_bytes, Nat.min_eq_left (Nat.mod_le _ _)]
      have := length_of_stringOf (by omega) h
      rw [hlen] at this
      refine ⟨fun e => ?_, by omega⟩
      rw [e] at this
      exact absurd this.1 (by decide)
    · rw [Nat.mod_eq_of_lt h.2, List.take_of_length_le (Nat.le_of_eq (length_bytes s))]
      exact stringOf_bytes hs h.1 h.2
  · have hbytes : (bytes (s ++ [0])).length = 2 * (s.length + 1) := by
      rw [length_bytes, List.length_append, List.length_singleton]
    rw [setRegValue, get_set, map_ok_iff]
    refine ⟨fun h => ?_, fun h => ?_⟩
    · have hlen : ((bytes (s ++ [0])).take (2 * (s.length + 1) % 2 ^ 32)).length = 2 * (s.length + 1) % 2 ^ 32 := by
        rw [List.length_take, hbytes, Nat.min_eq_left (Nat.mod_le _ _)]
      have := length_of_stringOf (by omega) h
      omega
    · rw [Nat.mod_eq_of_lt h, List.take_of_length_le (Nat.le_of_eq hbytes)]
      exact stringOf_terminated h
  · unfold getValueAsString
    rw [hv]
    show (if v.type ≠ regSz then _ else some <$> stringOf v.data) ≠ _ ↔ _
    rw [if_neg fun h => h ht]
    by_cases hin : 2 ≤ v.data.length ∧ v.data.length + 1 ≠ 2 ^ 32
    · rw [stringOf_inside hin.1 (by omega)]
      exact iff_of_true (fun h => by cases h) hin
    · rw [stringOf_outside (by omega)]
      exact iff_of_false (fun h => h rfl) hin

/-- A key with one value, named a, of these bytes. -/
def single (data : List UInt8) : Key id :=
  ⟨[⟨[97], regSz, data⟩], fun v hv => by rw [List.mem_singleton.mp hv]; simp, by simp⟩

/-- The empty string, once it is stored without a terminator, is looked for before the
    buffer. -/
theorem empty_string_outside :
    ((single [120, 0]).setValueAsString [97] []).getValueAsString [97] = .error .outside ∧
    ((single [120, 0]).setValueAsString [97] []).getValueAsString [97] ≠ .ok (some []) := by
  decide +kernel

/-- A value of three bytes, and the string "b". -/
theorem reads_back_iff_odd :
    (((single [98, 0, 99]).setValueAsString [97] [98]).getValueAsString [97] = .ok (some [98]) ↔
      ([98] : WString) ≠ [] ∧ 2 * 1 < 2 ^ 32) ∧
    (((single [98, 0, 99]).setRegValue [97] [98]).getValueAsString [97] = .ok (some [98]) ↔ 2 * (1 + 1) < 2 ^ 32) ∧
    ((single [98, 0, 99]).getValueAsString [97] ≠ .error .outside ↔ 2 ≤ 3 ∧ 3 + 1 ≠ 2 ^ 32) :=
  have h := reads_back_iff (single [98, 0, 99]) [97] (s := [98]) (by decide)
  ⟨h.1, h.2.1, h.2.2 ⟨[97], regSz, [98, 0, 99]⟩ rfl rfl (by decide)⟩

end Key

end Dumbnose.Registry
