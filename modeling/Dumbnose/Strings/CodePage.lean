/-
  Dumbnose.Strings.CodePage — strings of wchar_t and of char, and `string_utils::convert`
  between them (`string_utils.hpp`).

  An ANSI code page has characters, each of some units and of some bytes. A text is a list
  of them. What the system makes of units that are no text, or of bytes, is left open.

  Sizes reach the system as ints (`asInt`). A buffer of size 0 asks for the size that
  would be needed: the call succeeds and nothing is written. So it is if there are `2 ^ 32`
  units and one less in the source; what the code then returns is what the heap holds.

  `convert` makes a buffer of as many units of the target as the source has of its own,
  and one more. A text comes through and back exactly if it has as many bytes as units
  (`convert_lossless_iff`).
-/

import Mathlib.Algebra.Group.Int.Defs
import Mathlib.Algebra.Group.Nat.Defs
import Mathlib.Data.UInt
import Mathlib.Tactic.Common
import Dumbnose.Strings.Wide

namespace Dumbnose.Strings

structure CodePage (C : Type) where
  wide : C → WString
  narrow : C → List UInt8
  wide_ne : ∀ c, wide c ≠ []
  narrow_ne : ∀ c, narrow c ≠ []
  wide_zero : ∀ c, 0 ∉ wide c
  narrow_zero : ∀ c, 0 ∉ narrow c
  encode : WString → List UInt8
  decode : List UInt8 → WString
  encode_text : ∀ text : List C, encode (text.flatMap wide) = text.flatMap narrow
  decode_text : ∀ text : List C, decode (text.flatMap narrow) = text.flatMap wide

variable {C α β : Type} [Zero α] [DecidableEq α] [Zero β] [DecidableEq β]

def CodePage.units (P : CodePage C) (text : List C) : WString := text.flatMap P.wide

def CodePage.bytes (P : CodePage C) (text : List C) : List UInt8 := text.flatMap P.narrow

/-- A `size_t` passed as an int. -/
def asInt (n : Nat) : Int := if n % 2 ^ 32 < 2 ^ 31 then (n % 2 ^ 32 : Nat) else (n % 2 ^ 32 : Nat) - 2 ^ 32

/-- What a pointer to the first of these stands for, where a terminator ends it. -/
def beforeNull (s : List α) : List α := s.takeWhile (· ≠ 0)

/-! ## The system -/

/-- What a call returns, and what it has written: `source` is `length` units long, or ends
    in a terminator, which is then written too. -/
def translate (code : List α → List β) (source : List α) (length size : Int) : Nat × List β :=
  let out := if length < 0 then code (beforeNull source) ++ [0] else code (source.take length.toNat)
  if length = 0 ∨ size < 0 then (0, [])
  else if size = 0 then (out.length, [])
  else if out.length ≤ size then (out.length, out)
  else (0, [])

/-! ## `convert` -/

inductive ConvertErr where
  | lastError
  | uninitialized
  deriving DecidableEq, Repr

/-- Both directions of `convert`. -/
def convertBy (code : List α → List β) (source : List α) : Except ConvertErr (List β) :=
  let buflen := source.length + 1
  let written := translate code source (-1) (asInt buflen)
  if written.1 = 0 then .error .lastError
  else if 0 ∈ written.2 then .ok (beforeNull written.2)
  else .error .uninitialized

/-- `convert`, of a `std::wstring`. -/
def convertWide (P : CodePage C) (source : WString) : Except ConvertErr (List UInt8) := convertBy P.encode source

/-- `convert`, of a `std::string`. -/
def convertNarrow (P : CodePage C) (source : List UInt8) : Except ConvertErr WString := convertBy P.decode source

/-! ## Texts -/

section Texts
variable (P : CodePage C) (text : List C)

theorem zero_notMem_units : 0 ∉ P.units text := by
  intro h
  obtain ⟨c, -, hc⟩ := List.mem_flatMap.mp h
  exact P.wide_zero c hc

theorem zero_notMem_bytes : 0 ∉ P.bytes text := by
  intro h
  obtain ⟨c, -, hc⟩ := List.mem_flatMap.mp h
  exact P.narrow_zero c hc

theorem encode_units : P.encode (P.units text) = P.bytes text := P.encode_text text

theorem decode_bytes : P.decode (P.bytes text) = P.units text := P.decode_text text

end Texts

theorem beforeNull_eq {s : List α} (h : 0 ∉ s) : beforeNull s = s := by
  unfold beforeNull
  rw [List.takeWhile_eq_self_iff]
  intro a ha
  have : a ≠ 0 := fun e => h (e ▸ ha)
  simpa using this

theorem beforeNull_terminated {s : List α} (h : 0 ∉ s) (rest : List α) : beforeNull (s ++ 0 :: rest) = s := by
  unfold beforeNull
  rw [List.takeWhile_append_of_pos]
  · simp
  · intro a ha
    have : a ≠ 0 := fun e => h (e ▸ ha)
    simpa using this

theorem asInt_le (n : Nat) : asInt n ≤ n := by
  unfold asInt
  split <;> omega

theorem asInt_eq {n : Nat} (h : n < 2 ^ 31) : asInt n = n := by
  unfold asInt
  rw [Nat.mod_eq_of_lt (by omega), if_pos h]

theorem le_asInt_iff {n : Nat} : (n : Int) ≤ asInt n ↔ n < 2 ^ 31 := by
  refine ⟨fun h => ?_, fun h => Int.le_of_eq (asInt_eq h).symm⟩
  unfold asInt at h
  split at h <;> omega

omit [DecidableEq β] in
/-- A source of which the terminator is looked for. -/
theorem translate_terminated {code : List α → List β} {source : List α} (hs : 0 ∉ source) (size : Int) :
    translate code source (-1) size =
      if size < 0 then (0, [])
      else if size = 0 then ((code source).length + 1, [])
      else if ((code source).length + 1 : Int) ≤ size then ((code source).length + 1, code source ++ [0])
      else (0, []) := by
  unfold translate
  rw [beforeNull_eq hs]
  simp

omit [DecidableEq β] in
/-- A source that is counted, into a buffer of one more than it has units. -/
theorem translate_counted {code : List α → List β} {source : List α} (h : source.length + 1 < 2 ^ 31) :
    translate code source (asInt source.length) (asInt (source.length + 1)) =
      if source = [] then (0, [])
      else if (code source).length ≤ source.length + 1 then ((code source).length, code source)
      else (0, []) := by
  unfold translate
  rw [asInt_eq h, asInt_eq (show source.length < 2 ^ 31 by omega)]
  by_cases h0 : source = []
  · simp [h0]
  · have hpos := List.length_pos_iff.mpr h0
    have hlen : ¬ ((source.length : Int) = 0 ∨ ((source.length + 1 : Nat) : Int) < 0) := by omega
    simp only [if_neg h0, if_neg hlen, Int.toNat_natCast, List.take_length,
      if_neg (show ¬ (source.length : Int) < 0 by omega),
      if_neg (show ¬ ((source.length + 1 : Nat) : Int) = 0 by omega), Int.ofNat_le]

omit [DecidableEq β] in
/-- It fails if there is nothing to write, or no room for it. -/
theorem translate_throws_iff (code : List α → List β) (source : List α) {n : Nat} (h : n ≠ 0) :
    (translate code source n (n + 1)).1 = 0 ↔
      (code (source.take n)).length = 0 ∨ n + 1 < (code (source.take n)).length := by
  have hlen : ¬ ((n : Int) = 0 ∨ (n : Int) + 1 < 0) := by omega
  unfold translate
  simp only [if_neg (show ¬ (n : Int) < 0 by omega), if_neg hlen, if_neg (show ¬ (n : Int) + 1 = 0 by omega),
    Int.toNat_natCast]
  by_cases hfit : ((code (source.take n)).length : Int) ≤ n + 1
  · rw [if_pos hfit]
    exact ⟨.inl, fun hor => hor.resolve_right (by omega)⟩
  · rw [if_neg hfit]
    exact iff_of_true rfl (.inr (by omega))

omit [DecidableEq β] in
/-- Never more than the buffer holds. -/
theorem length_translate_le (code : List α → List β) (source : List α) (length size : Int) :
    ((translate code source length size).2.length : Int) ≤ max size 0 := by
  unfold translate
  generalize (if length < 0 then code (beforeNull source) ++ [0] else code (source.take length.toNat)) = out
  dsimp only
  split_ifs with h1 h2 h3
  · exact Int.le_max_right _ _
  · exact Int.le_max_right _ _
  · exact Int.le_trans h3 (Int.le_max_left _ _)
  · exact Int.le_max_right _ _

/-- A source without a null character converts exactly if its translation and a terminator
    fit into the buffer, its size taken as an int. -/
theorem convertBy_eq_ok_iff {code : List α → List β} {source : List α} {out : List β} (hs : 0 ∉ source)
    (hc : 0 ∉ code source) :
    convertBy code source = .ok out ↔
      out = code source ∧ ((code source).length + 1 : Int) ≤ asInt (source.length + 1) := by
  simp only [convertBy, translate_terminated hs]
  by_cases hneg : asInt (source.length + 1) < 0
  · simp only [if_pos hneg, if_true]
    exact iff_of_false (fun h => by cases h) (fun h => by omega)
  · simp only [if_neg hneg]
    by_cases hzero : asInt (source.length + 1) = 0
    · simp only [if_pos hzero, Nat.succ_ne_zero, List.not_mem_nil, if_false]
      exact iff_of_false (fun h => by cases h) (fun h => by omega)
    · simp only [if_neg hzero]
      by_cases hfit : ((code source).length + 1 : Int) ≤ asInt (source.length + 1)
      · have hmem : (0 : β) ∈ code source ++ [0] := by simp
        simp only [if_pos hfit, Nat.succ_ne_zero, if_false, if_pos hmem, beforeNull_terminated hc]
        exact ⟨fun h => ⟨(Except.ok.inj h).symm, hfit⟩, fun h => by rw [h.1]⟩
      · simp only [if_neg hfit, if_true]
        exact iff_of_false (fun h => by cases h) (fun h => hfit h.2)

theorem convertWide_eq_ok_iff (P : CodePage C) (text : List C) (out : List UInt8) :
    convertWide P (P.units text) = .ok out ↔
      out = P.bytes text ∧ ((P.bytes text).length + 1 : Int) ≤ asInt ((P.units text).length + 1) := by
  have hc : 0 ∉ P.encode (P.units text) := by
    rw [encode_units]
    exact zero_notMem_bytes P text
  rw [convertWide, convertBy_eq_ok_iff (zero_notMem_units P text) hc, encode_units]

theorem convertNarrow_eq_ok_iff (P : CodePage C) (text : List C) (out : WString) :
    convertNarrow P (P.bytes text) = .ok out ↔
      out = P.units text ∧ ((P.units text).length + 1 : Int) ≤ asInt ((P.bytes text).length + 1) := by
  have hc : 0 ∉ P.decode (P.bytes text) := by
    rw [decode_bytes]
    exact zero_notMem_units P text
  rw [convertNarrow, convertBy_eq_ok_iff (zero_notMem_bytes P text) hc, decode_bytes]

/-! ## There and back -/

/-- The texts of `w` and of `s` convert, and back to themselves. -/
structure Lossless (P : CodePage C) (w : WString) (s : List UInt8) : Prop where
  wide : ∃ out, convertWide P w = .ok out
  narrow : ∃ out, convertNarrow P s = .ok out
  wideBack : (convertWide P w).bind (convertNarrow P) = .ok w
  narrowBack : (convertNarrow P s).bind (convertWide P) = .ok s

/-- As many bytes as units, and an int counts them with a terminator. -/
def Even (P : CodePage C) (text : List C) : Prop :=
  (P.bytes text).length = (P.units text).length ∧ (P.units text).length + 1 < 2 ^ 31

theorem even_iff (P : CodePage C) (text : List C) : Even P text ↔
    ((P.bytes text).length + 1 : Int) ≤ asInt ((P.units text).length + 1) ∧
      ((P.units text).length + 1 : Int) ≤ asInt ((P.bytes text).length + 1) := by
  have h1 := asInt_le ((P.units text).length + 1)
  have h2 := asInt_le ((P.bytes text).length + 1)
  have h3 := le_asInt_iff (n := (P.units text).length + 1)
  unfold Even
  constructor
  · intro h
    rw [h.1]
    have := h3.mpr h.2
    omega
  · intro h
    have heq : (P.bytes text).length = (P.units text).length := by omega
    refine ⟨heq, h3.mp ?_⟩
    rw [heq] at h
    have := h.1
    omega

theorem wideBack_iff (P : CodePage C) (text : List C) :
    (convertWide P (P.units text)).bind (convertNarrow P) = .ok (P.units text) ↔ Even P text := by
  rw [even_iff]
  constructor
  · intro h
    cases hw : convertWide P (P.units text) with
    | error e => rw [hw] at h; cases h
    | ok out =>
      rw [hw] at h
      obtain ⟨rfl, hfit⟩ := (convertWide_eq_ok_iff P text out).mp hw
      exact ⟨hfit, ((convertNarrow_eq_ok_iff P text _).mp h).2⟩
  · intro h
    rw [(convertWide_eq_ok_iff P text _).mpr ⟨rfl, h.1⟩]
    exact (convertNarrow_eq_ok_iff P text _).mpr ⟨rfl, h.2⟩

theorem narrowBack_iff (P : CodePage C) (text : List C) :
    (convertNarrow P (P.bytes text)).bind (convertWide P) = .ok (P.bytes text) ↔ Even P text := by
  rw [even_iff]
  constructor
  · intro h
    cases hn : convertNarrow P (P.bytes text) with
    | error e => rw [hn] at h; cases h
    | ok out =>
      rw [hn] at h
      obtain ⟨rfl, hfit⟩ := (convertNarrow_eq_ok_iff P text out).mp hn
      exact ⟨((convertWide_eq_ok_iff P text _).mp h).2, hfit⟩
  · intro h
    rw [(convertNarrow_eq_ok_iff P text _).mpr ⟨rfl, h.2⟩]
    exact (convertWide_eq_ok_iff P text _).mpr ⟨rfl, h.1⟩

/-- Nothing is lost exactly of texts that have as many bytes as units. -/
theorem convert_lossless_iff (P : CodePage C) (text text' : List C) :
    Lossless P (P.units text) (P.bytes text') ↔ Even P text ∧ Even P text' := by
  refine ⟨fun h => ⟨(wideBack_iff P text).mp h.wideBack, (narrowBack_iff P text').mp h.narrowBack⟩, fun h => ?_⟩
  refine ⟨⟨P.bytes text, (convertWide_eq_ok_iff P text _).mpr ⟨rfl, ((even_iff P text).mp h.1).1⟩⟩,
    ⟨P.units text', (convertNarrow_eq_ok_iff P text' _).mpr ⟨rfl, ((even_iff P text').mp h.2).2⟩⟩,
    (wideBack_iff P text).mpr h.1, (narrowBack_iff P text').mpr h.2⟩

/-! ## A code page -/

def accentedDecode : List UInt8 → WString
  | [] => []
  | b :: rest =>
    if b = 97 then 97 :: accentedDecode rest
    else if b = 195 then 233 :: accentedDecode rest
    else accentedDecode rest

/-- Of UTF-8, the letters a and é: one byte and two. -/
def accented : CodePage Bool where
  wide c := if c then [233] else [97]
  narrow c := if c then [195, 169] else [97]
  wide_ne := by decide
  narrow_ne := by decide
  wide_zero := by decide
  narrow_zero := by decide
  encode w := w.flatMap fun u => if u = 233 then [195, 169] else [97]
  decode := accentedDecode
  encode_text text := by
    induction text with
    | nil => rfl
    | cons c text ih =>
      cases c
      · exact congrArg (97 :: ·) ih
      · exact congrArg (195 :: 169 :: ·) ih
  decode_text text := by
    induction text with
    | nil => rfl
    | cons c text ih =>
      cases c
      · exact congrArg (97 :: ·) ih
      · exact congrArg (233 :: ·) ih

/-- The two bytes of é and the terminator do not fit into two bytes. -/
theorem accented_fails : convertWide accented (accented.units [true]) = .error .lastError ∧
    ¬ Lossless accented (accented.units [true]) (accented.bytes [false]) := by
  have hf : convertWide accented (accented.units [true]) = .error .lastError := by decide +kernel
  refine ⟨hf, fun h => ?_⟩
  obtain ⟨out, ho⟩ := h.wide
  rw [hf] at ho
  cases ho

end Dumbnose.Strings
