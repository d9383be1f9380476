/-
  Dumbnose.Options.NarrowText — the two ways to read an option as a `std::string`
  (`cmdline_options.hpp`).

  `as<std::string>` tells the system how long the value is, so no terminator is written,
  and an empty value is an error. What it returns is as long as the value, in bytes.
  `operator alt_string_t` is `string_utils::convert`, which needs room for a terminator.
  Both have a buffer of one byte more than the value has characters. `narrow_agree_iff`:
  they agree where the value has a byte for each unit, and where it has so many that
  neither finds room. Of a length that no int holds the system sees another one (`seen`);
  what is written then is too short to be the whole.
-/

import Dumbnose.Options.CmdlineOptions
import Dumbnose.Strings.CodePage

namespace Dumbnose.Options

open Strings

inductive NarrowErr where
  | windowsException
  | lastError (e : ConvertErr)
  deriving DecidableEq, Repr

def NarrowErr.what : NarrowErr → Option String
  | .windowsException => some "WideCharToMultiByte failed"
  | .lastError _ => none

variable {C : Type} (P : CodePage C) (fold : UInt16 → UInt16)

/-- `as<std::string>`. The format `%S` gives the value itself. -/
def asString (o : CmdlineOptions) (name : WString) : Except NarrowErr (List UInt8) :=
  let woption := (o.option fold name).1
  let written := translate P.encode woption (asInt woption.length) (asInt (woption.length + 1))
  if written.1 = 0 then .error .windowsException
  else
    -- a vector of chars is zero-filled
    let buffer := written.2 ++ List.replicate (woption.length + 1 - written.2.length) 0
    .ok (buffer.take woption.length)

def operatorAltString (o : CmdlineOptions) (name : WString) : Except NarrowErr (List UInt8) :=
  (convertWide P (o.option fold name).1).mapError .lastError

/-- Both return the encoding of the whole value, or both throw. -/
def Agree (o : CmdlineOptions) (name : WString) : Prop :=
  (asString P fold o name = .ok (P.encode (o.option fold name).1) ∧
    operatorAltString P fold o name = .ok (P.encode (o.option fold name).1)) ∨
  ((∃ e, asString P fold o name = .error e) ∧ ∃ e, operatorAltString P fold o name = .error e)

variable {P} {fold} {o : CmdlineOptions} {name : WString} {text : List C}

theorem length_pos_of_ne (h : text ≠ []) : 0 < (P.units text).length ∧ 0 < (P.bytes text).length := by
  obtain ⟨c, rest, rfl⟩ := List.exists_cons_of_ne_nil h
  unfold CodePage.units CodePage.bytes
  rw [List.flatMap_cons, List.flatMap_cons, List.length_append, List.length_append]
  have hw := List.length_pos_iff.mpr (P.wide_ne c)
  have hn := List.length_pos_iff.mpr (P.narrow_ne c)
  omega

theorem asString_eq (hv : (o.option fold name).1 = P.units text) (hshort : (P.units text).length + 1 < 2 ^ 31) :
    asString P fold o name =
      if text ≠ [] ∧ (P.bytes text).length ≤ (P.units text).length + 1 then
        .ok ((P.bytes text ++
          List.replicate ((P.units text).length + 1 - (P.bytes text).length) 0).take (P.units text).length)
      else .error .windowsException := by
  have hnil : P.units text = [] ↔ text = [] := by
    refine ⟨fun h => ?_, fun h => by rw [h]; rfl⟩
    by_contra hne
    have := (length_pos_of_ne (P := P) hne).1
    rw [h, List.length_nil] at this
    omega
  simp only [asString, hv, translate_counted hshort, encode_units, hnil]
  by_cases h0 : text = []
  · simp [h0]
  · by_cases hfit : (P.bytes text).length ≤ (P.units text).length + 1
    · have hpos := (length_pos_of_ne (P := P) h0).2
      simp only [if_neg h0, if_pos hfit, if_neg (Nat.ne_of_gt hpos), if_pos (And.intro h0 hfit)]
    · simp only [if_neg h0, if_neg hfit, if_true, if_neg fun h : text ≠ [] ∧ _ => hfit h.2]

theorem operatorAltString_ok_iff (hv : (o.option fold name).1 = P.units text) (s : List UInt8) :
    operatorAltString P fold o name = .ok s ↔
      s = P.bytes text ∧ ((P.bytes text).length + 1 : Int) ≤ asInt ((P.units text).length + 1) := by
  unfold operatorAltString
  rw [hv, ← convertWide_eq_ok_iff]
  cases convertWide P (P.units text) <;> simp [Except.mapError]

theorem operatorAltString_throws_iff (hv : (o.option fold name).1 = P.units text) :
    (∃ e, operatorAltString P fold o name = .error e) ↔
      asInt ((P.units text).length + 1) < (P.bytes text).length + 1 := by
  have hok := operatorAltString_ok_iff hv (P.bytes text)
  cases h : operatorAltString P fold o name with
  | ok s =>
    have hs := ((operatorAltString_ok_iff hv s).mp h).2
    exact iff_of_false (fun h => (by obtain ⟨e, h⟩ := h; cases h)) (by omega)
  | error e =>
    rw [h] at hok
    refine iff_of_true ⟨e, rfl⟩ ?_
    by_contra hle
    cases hok.mpr ⟨rfl, by omega⟩

/-! ## Of a value that an int counts -/

theorem agree_iff_of_short (hv : (o.option fold name).1 = P.units text)
    (hshort : (P.units text).length + 1 < 2 ^ 31) :
    Agree P fold o name ↔ text ≠ [] ∧
      ((P.bytes text).length = (P.units text).length ∨ (P.units text).length + 2 ≤ (P.bytes text).length) := by
  have henc : P.encode (o.option fold name).1 = P.bytes text := by rw [hv, encode_units]
  unfold Agree
  rw [henc, operatorAltString_ok_iff hv, operatorAltString_throws_iff hv, asString_eq hv hshort, asInt_eq hshort]
  by_cases h : text ≠ [] ∧ (P.bytes text).length ≤ (P.units text).length + 1
  · rw [if_pos h]
    constructor
    · intro hag
      rcases hag with ⟨hs, -, hle⟩ | ⟨⟨e, he⟩, -⟩
      · have hlen := congrArg List.length (Except.ok.inj hs)
        rw [List.length_take, List.length_append, List.length_replicate] at hlen
        exact ⟨h.1, .inl (by omega)⟩
      · cases he
    · intro hcond
      have heq : (P.bytes text).length = (P.units text).length := by omega
      refine .inl ⟨?_, rfl, by omega⟩
      rw [List.take_append_of_le_length (by omega), List.take_of_length_le (by omega)]
  · rw [if_neg h]
    constructor
    · intro hag
      rcases hag with ⟨hs, -⟩ | ⟨-, hlt⟩
      · cases hs
      · by_cases h0 : text = []
        · rw [h0] at hlt
          exact absurd hlt (by simp [CodePage.units, CodePage.bytes])
        · have hfit : ¬ (P.bytes text).length ≤ (P.units text).length + 1 := fun hle => h ⟨h0, hle⟩
          exact ⟨h0, .inr (by omega)⟩
    · intro hcond
      have hfit : ¬ (P.bytes text).length ≤ (P.units text).length + 1 := fun hle => h ⟨hcond.1, hle⟩
      exact .inr ⟨⟨_, rfl⟩, by omega⟩

/-! ## Of a longer one -/

/-- What is left of the length of a value as the system sees it. -/
def seen (n : Nat) : Nat := n % 2 ^ 32

theorem asInt_of_max {n : Nat} (h : seen n = 2 ^ 32 - 1) : asInt n = -1 ∧ asInt (n + 1) = 0 := by
  have hmod : n % 2 ^ 32 = 2 ^ 32 - 1 := h
  unfold asInt
  refine ⟨?_, ?_⟩
  · rw [hmod]
    rfl
  · rw [show (n + 1) % 2 ^ 32 = 0 by omega]
    rfl

theorem asInt_succ_neg {n : Nat} (h1 : 2 ^ 31 ≤ seen n + 1) (h2 : seen n ≠ 2 ^ 32 - 1) : asInt (n + 1) < 0 := by
  unfold seen at h1 h2
  unfold asInt
  split <;> omega

theorem asInt_seen {n : Nat} (h : seen n + 1 < 2 ^ 31) : asInt n = seen n ∧ asInt (n + 1) = seen n + 1 := by
  unfold seen at h ⊢
  unfold asInt
  refine ⟨?_, ?_⟩
  · rw [if_pos (by omega)]
  · rw [if_pos (by omega)]
    omega

/-- What is returned has zeros behind what was written. -/
theorem asString_ne (hv : (o.option fold name).1 = P.units text) (hlong : 2 ^ 31 ≤ (P.units text).length + 1) :
    asString P fold o name ≠ .ok (P.bytes text) := by
  intro h
  simp only [asString, hv] at h
  split at h
  · cases h
  next hne =>
    have hlen : (translate P.encode (P.units text) (asInt (P.units text).length)
        (asInt ((P.units text).length + 1))).2.length < (P.units text).length := by
      have hle := length_translate_le P.encode (P.units text) (asInt (P.units text).length)
        (asInt ((P.units text).length + 1))
      have hroom : max (asInt ((P.units text).length + 1)) 0 < (P.units text).length := by
        unfold asInt
        split <;> omega
      omega
    have hzero : (0 : UInt8) ∈ P.bytes text := by
      rw [← Except.ok.inj h, List.take_append, List.mem_append]
      refine .inr ?_
      rw [List.take_replicate, List.mem_replicate]
      exact ⟨by omega, rfl⟩
    exact zero_notMem_bytes P text hzero

theorem asString_throws_iff (hv : (o.option fold name).1 = P.units text) :
    (∃ e, asString P fold o name = .error e) ↔
      (translate P.encode (P.units text) (asInt (P.units text).length) (asInt ((P.units text).length + 1))).1 = 0 := by
  simp only [asString, hv]
  split
  next h => exact iff_of_true ⟨_, rfl⟩ h
  next h => exact iff_of_false (fun he => by obtain ⟨e, he⟩ := he; cases he) h

/-- Both readings throw: the size of the buffer is negative, or the value has no length, or
    what the system sees of it does not fit. -/
def NoRoom (P : CodePage C) (text : List C) : Prop :=
  let n := seen (P.units text).length
  let cut := (P.encode ((P.units text).take n)).length
  n ≠ 2 ^ 32 - 1 ∧ (n + 1 < 2 ^ 31 → n ≠ 0 → n < (P.bytes text).length ∧ (cut = 0 ∨ n + 1 < cut))

theorem agree_iff_of_long (hv : (o.option fold name).1 = P.units text)
    (hlong : 2 ^ 31 ≤ (P.units text).length + 1) : Agree P fold o name ↔ NoRoom P text := by
  have henc : P.encode (o.option fold name).1 = P.bytes text := by rw [hv, encode_units]
  have hne : text ≠ [] := by
    rintro rfl
    simp [CodePage.units] at hlong
  have hpos := (length_pos_of_ne (P := P) hne).2
  have hthrow : Agree P fold o name ↔
      (∃ e, asString P fold o name = .error e) ∧ ∃ e, operatorAltString P fold o name = .error e := by
    unfold Agree
    rw [henc]
    exact or_iff_right fun h => asString_ne hv hlong h.1
  rw [hthrow, asString_throws_iff hv, operatorAltString_throws_iff hv]
  unfold NoRoom
  by_cases hmax : seen (P.units text).length = 2 ^ 32 - 1
  · -- a buffer of no size: the system says what would be needed
    obtain ⟨h1, h2⟩ := asInt_of_max hmax
    refine iff_of_false (fun h => ?_) (fun h => h.1 hmax)
    have := h.1
    rw [h1, h2, translate_terminated (zero_notMem_units P text)] at this
    simp at this
  by_cases hneg : 2 ^ 31 ≤ seen (P.units text).length + 1
  · have hsize := asInt_succ_neg hneg hmax
    refine iff_of_true ⟨?_, by omega⟩ ⟨hmax, fun h => absurd h (by omega)⟩
    unfold Strings.translate
    simp [hsize]
  obtain ⟨h1, h2⟩ := asInt_seen (Nat.lt_of_not_le hneg)
  rw [h1, h2]
  by_cases h0 : seen (P.units text).length = 0
  · refine iff_of_true ⟨?_, by omega⟩ ⟨hmax, fun _ hnot => absurd h0 hnot⟩
    unfold Strings.translate
    simp [h0]
  · have hcut : (translate P.encode (P.units text) (seen (P.units text).length)
        (seen (P.units text).length + 1)).1 = 0 ↔
        (P.encode ((P.units text).take (seen (P.units text).length))).length = 0 ∨
          seen (P.units text).length + 1 < (P.encode ((P.units text).take (seen (P.units text).length))).length :=
      translate_throws_iff P.encode _ h0
    rw [hcut]
    refine ⟨fun h => ⟨hmax, fun _ _ => ⟨by omega, h.1⟩⟩, fun h => ?_⟩
    have := h.2 (by omega) h0
    exact ⟨this.2, by omega⟩

/-- The two readings agree exactly on a value that is not empty and has a byte for each of
    its units, or two more bytes than units at least; and on one that is too long for an
    int, where both throw. -/
theorem narrow_agree_iff (hv : (o.option fold name).1 = P.units text) :
    Agree P fold o name ↔
      if (P.units text).length + 1 < 2 ^ 31 then
        text ≠ [] ∧
          ((P.bytes text).length = (P.units text).length ∨ (P.units text).length + 2 ≤ (P.bytes text).length)
      else NoRoom P text := by
  by_cases h : (P.units text).length + 1 < 2 ^ 31
  · rw [if_pos h]
    exact agree_iff_of_short hv h
  · rw [if_neg h]
    exact agree_iff_of_long hv (Nat.le_of_not_lt h)

/-- The option v is not there, or its value is é. -/
theorem narrow_disagree : ¬ Agree accented id (construct id [[112]]) [118] ∧
    ¬ Agree accented id (construct id [[112], [47, 118, 58, 233]]) [118] := by
  have h1 : asString accented id (construct id [[112]]) [118] = .error .windowsException ∧
      operatorAltString accented id (construct id [[112]]) [118] = .ok [] := by decide +kernel
  have h2 : asString accented id (construct id [[112], [47, 118, 58, 233]]) [118] = .ok [195] ∧
      operatorAltString accented id (construct id [[112], [47, 118, 58, 233]]) [118] =
        .error (.lastError .lastError) := by decide +kernel
  unfold Agree
  rw [h1.1, h1.2, h2.1, h2.2]
  simp

/-- The value of v is "aa". -/
theorem narrow_agree_iff_aa : Agree accented id (construct id [[112], [47, 118, 58, 97, 97]]) [118] ↔
    if (accented.units [false, false]).length + 1 < 2 ^ 31 then
      [false, false] ≠ [] ∧ ((accented.bytes [false, false]).length = (accented.units [false, false]).length ∨
        (accented.units [false, false]).length + 2 ≤ (accented.bytes [false, false]).length)
    else NoRoom accented [false, false] :=
  narrow_agree_iff (by decide +kernel)

end Dumbnose.Options
