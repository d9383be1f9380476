/-
  Dumbnose.Security.Sid — security identifiers (`sid` of `wilsecurity.hpp`).

  A `Sid` is what a valid `sid` has in its `buffer_`: a revision of 1, six bytes of
  authority and at most fifteen sub-authorities. `bytes` is how it lies in memory, and
  `copy` takes one from there if `IsValidSid` says so.

  `operator<` is there so that sids can be put into sorted collections. It is a
  lexicographic order in two loops, and reads no sub-authority that is not there
  (`less_eq`), so it is a strict total order whose equality is `operator==`
  (`less_strict_total`).
-/

import Mathlib.Data.List.Lex
import Dumbnose.Lib.Bytes

namespace Dumbnose.Security

open Lib.Bytes

structure Sid where
  identifierAuthority : Vector UInt8 6
  subAuthority : List UInt32
  few : subAuthority.length ≤ 15
  deriving DecidableEq

namespace Sid

/-! ## In memory -/

def revision : UInt8 := 1

/-- `GetLengthSid`. -/
def length (s : Sid) : Nat := 8 + 4 * s.subAuthority.length

def bytes (s : Sid) : List UInt8 :=
  [revision, UInt8.ofNat s.subAuthority.length] ++ s.identifierAuthority.toList ++
    s.subAuthority.flatMap fun n => bytesOf 4 n.toNat

/-- The first bytes as an array of this size. -/
def takeVector (n : Nat) (memory : List UInt8) : Option (Vector UInt8 n) :=
  if h : n ≤ memory.length then some ⟨(memory.take n).toArray, by simp [h]⟩ else none

def takeSubAuthorities : Nat → List UInt8 → Option (List UInt32)
  | 0, _ => some []
  | n + 1, memory => do
    let word ← peek 0 4 memory
    let rest ← takeSubAuthorities n (memory.drop 4)
    some (UInt32.ofNat (numberOf word) :: rest)

/-- `sid::copy` from there, if `IsValidSid`: the revision, and a count of at most 15. -/
def copy (memory : List UInt8) : Option Sid := do
  let head ← peek 0 2 memory
  let authority ← takeVector 6 (memory.drop 2)
  let subs ← takeSubAuthorities (numberOf (head.drop 1)) (memory.drop 8)
  if h : head.head? = some revision ∧ subs.length ≤ 15 then some ⟨authority, subs, h.2⟩ else none

@[simp] theorem length_bytes (s : Sid) : s.bytes.length = s.length := by
  have hsubs : (s.subAuthority.flatMap fun n => bytesOf 4 n.toNat).length = 4 * s.subAuthority.length := by
    induction s.subAuthority with
    | nil => rfl
    | cons n subs ih =>
      rw [List.flatMap_cons, List.length_append, length_bytesOf, ih, List.length_cons]
      omega
  simp only [bytes, List.length_append, List.length_cons, List.length_nil, Vector.length_toList, hsubs, length]

theorem takeVector_append {n : Nat} (v : Vector UInt8 n) (rest : List UInt8) :
    takeVector n (v.toList ++ rest) = some v := by
  have hlen : v.toList.length = n := Vector.length_toList
  unfold takeVector
  rw [dif_pos (by rw [List.length_append]; omega)]
  congr 1
  apply Vector.toList_inj.mp
  show ((v.toList ++ rest).take n).toArray.toList = v.toList
  rw [List.toList_toArray, List.take_left' hlen]

theorem takeSubAuthorities_append (subs : List UInt32) (rest : List UInt8) :
    takeSubAuthorities subs.length ((subs.flatMap fun n => bytesOf 4 n.toNat) ++ rest) = some subs := by
  induction subs with
  | nil => rfl
  | cons n subs ih =>
    have hn : n.toNat < 256 ^ 4 := n.toNat_lt
    have hpeek : peek 0 4 (bytesOf 4 n.toNat ++ ((subs.flatMap fun n => bytesOf 4 n.toNat) ++ rest)) =
        some (bytesOf 4 n.toNat) := peek_first (length_bytesOf 4 _)
    rw [List.flatMap_cons, List.append_assoc, List.length_cons, takeSubAuthorities, hpeek,
      List.drop_left' (length_bytesOf 4 _), ih]
    simp [numberOf_bytesOf hn]

/-- What lies in memory is read back, whatever follows. -/
theorem copy_bytes (s : Sid) (rest : List UInt8) : copy (s.bytes ++ rest) = some s := by
  have hcount : numberOf [UInt8.ofNat s.subAuthority.length] = s.subAuthority.length := by
    have hb : (UInt8.ofNat s.subAuthority.length).toNat = s.subAuthority.length % 256 := UInt8.toNat_ofNat'
    have := s.few
    rw [numberOf, numberOf, hb]
    omega
  have hhead : peek 0 2 (s.bytes ++ rest) = some [revision, UInt8.ofNat s.subAuthority.length] := by
    rw [bytes, List.append_assoc, List.append_assoc]
    exact peek_first rfl
  have htwo : (s.bytes ++ rest).drop 2 = s.identifierAuthority.toList ++
      ((s.subAuthority.flatMap fun n => bytesOf 4 n.toNat) ++ rest) := by
    simp [bytes]
  have height : (s.bytes ++ rest).drop 8 = (s.subAuthority.flatMap fun n => bytesOf 4 n.toNat) ++ rest := by
    rw [show 8 = 2 + 6 from rfl, ← List.drop_drop, htwo, List.drop_left' Vector.length_toList]
  simp [copy, hhead, htwo, height, takeVector_append, takeSubAuthorities_append, hcount, s.few]

/-! ## The operators -/

/-- `operator==`: `EqualSid`. -/
def equal (lhs rhs : Sid) : Bool :=
  lhs.identifierAuthority = rhs.identifierAuthority ∧ lhs.subAuthority = rhs.subAuthority

/-- The first loop of `operator<` from `i` on: what it returns, if it does. -/
def lessAuthority (lhs rhs : Sid) (i : Nat) : Option Bool :=
  if h : i < 6 then
    if lhs.identifierAuthority[i] < rhs.identifierAuthority[i] then some true
    else if rhs.identifierAuthority[i] < lhs.identifierAuthority[i] then some false
    else lessAuthority lhs rhs (i + 1)
  else none

/-- The second; `none` if it reads a sub-authority that is not there. -/
def lessSubAuthority (lhs rhs : Sid) (i : Nat) : Option Bool :=
  if i < rhs.subAuthority.length then
    -- the left is a prefix of the right
    if lhs.subAuthority.length = i then some true
    else do
      let l ← lhs.subAuthority[i]?
      let r ← rhs.subAuthority[i]?
      if l < r then some true
      else if r < l then some false
      else lessSubAuthority lhs rhs (i + 1)
  else some false
termination_by rhs.subAuthority.length - i

/-- `operator<`. -/
def less (lhs rhs : Sid) : Option Bool :=
  match lessAuthority lhs rhs 0 with
  | some b => some b
  | none => lessSubAuthority lhs rhs 0

/-- What it compares. -/
def words (s : Sid) : List Nat := s.identifierAuthority.toList.map UInt8.toNat ++ s.subAuthority.map UInt32.toNat

theorem equal_iff {lhs rhs : Sid} : lhs.equal rhs = true ↔ lhs = rhs := by
  cases lhs
  cases rhs
  simp [equal]

theorem words_inj {lhs rhs : Sid} (h : lhs.words = rhs.words) : lhs = rhs := by
  have hlen : (lhs.identifierAuthority.toList.map UInt8.toNat).length =
      (rhs.identifierAuthority.toList.map UInt8.toNat).length := by simp
  obtain ⟨ha, hs⟩ := List.append_inj h hlen
  apply equal_iff.mp
  have ha' := (List.map_injective_iff.mpr fun _ _ => UInt8.toNat_inj.mp) ha
  have hs' := (List.map_injective_iff.mpr fun _ _ => UInt32.toNat_inj.mp) hs
  simp [equal, hs', Vector.toList_inj.mp ha']

/-- Two lists of numbers, of which the first are compared first. -/
theorem decide_cons_lt_cons (a b : Nat) (l m : List Nat) :
    decide (a :: l < b :: m) = if a < b then true else if b < a then false else decide (l < m) := by
  split
  · next h => exact decide_eq_true (List.cons_lt_cons_iff.mpr (.inl h))
  · next h =>
    split
    · next h' =>
      refine decide_eq_false fun hlt => ?_
      rcases List.cons_lt_cons_iff.mp hlt with hlt | ⟨rfl, -⟩
      · exact h hlt
      · exact h h'
    · next h' =>
      obtain rfl : a = b := by omega
      apply decide_eq_decide.mpr
      exact List.cons_lt_cons_self

theorem lessSubAuthority_eq (lhs rhs : Sid) (i : Nat) (hi : i ≤ lhs.subAuthority.length) :
    lessSubAuthority lhs rhs i = some (decide
      ((lhs.subAuthority.map UInt32.toNat).drop i < (rhs.subAuthority.map UInt32.toNat).drop i)) := by
  have hlen : ∀ s : Sid, (s.subAuthority.map UInt32.toNat).length = s.subAuthority.length :=
    fun s => List.length_map _
  induction hk : rhs.subAuthority.length - i generalizing i with
  | zero =>
    have hr : (rhs.subAuthority.map UInt32.toNat).drop i = [] := List.drop_eq_nil_of_le (by rw [hlen]; omega)
    rw [lessSubAuthority, if_neg (by omega), hr]
    simp
  | succ k ih =>
    have hr : i < rhs.subAuthority.length := by omega
    have hrdrop := List.drop_eq_getElem_cons
      (show i < (rhs.subAuthority.map UInt32.toNat).length by rw [hlen]; exact hr)
    rw [lessSubAuthority, if_pos hr, hrdrop]
    by_cases hl : lhs.subAuthority.length = i
    · rw [if_pos hl, List.drop_eq_nil_of_le (by rw [hlen]; omega)]
      simp
    · have hl' : i < lhs.subAuthority.length := by omega
      rw [if_neg hl, List.drop_eq_getElem_cons (by rw [hlen]; exact hl'), decide_cons_lt_cons,
        List.getElem?_eq_getElem hl', List.getElem?_eq_getElem hr]
      simp only [Option.bind_eq_bind, Option.bind_some, List.getElem_map, UInt32.lt_iff_toNat_lt,
        ih (i + 1) (by omega) (by omega)]
      split
      · rfl
      · split <;> rfl

theorem lessAuthority_eq (lhs rhs : Sid) (l m : List Nat) (i : Nat) (hi : i ≤ 6) :
    (lessAuthority lhs rhs i).getD (decide (l < m)) = decide
      ((lhs.identifierAuthority.toList.map UInt8.toNat).drop i ++ l <
        (rhs.identifierAuthority.toList.map UInt8.toNat).drop i ++ m) := by
  have hlen : ∀ s : Sid, (s.identifierAuthority.toList.map UInt8.toNat).length = 6 := fun s => by simp
  induction hk : 6 - i generalizing i with
  | zero =>
    rw [lessAuthority, dif_neg (by omega), List.drop_eq_nil_of_le (by rw [hlen]; omega),
      List.drop_eq_nil_of_le (by rw [hlen]; omega)]
    rfl
  | succ k ih =>
    have h6 : i < 6 := by omega
    have hcons := fun s : Sid => List.drop_eq_getElem_cons
      (show i < (s.identifierAuthority.toList.map UInt8.toNat).length by rw [hlen]; exact h6)
    rw [lessAuthority, dif_pos h6, hcons lhs, hcons rhs, List.cons_append, List.cons_append, decide_cons_lt_cons,
      ← ih (i + 1) (by omega) (by omega)]
    simp only [List.getElem_map, Vector.getElem_toList, UInt8.lt_iff_toNat_lt]
    split
    · rfl
    · split <;> rfl

/-- `operator<` returns, and compares the words in order. -/
theorem less_eq (lhs rhs : Sid) : less lhs rhs = some (decide (lhs.words < rhs.words)) := by
  have hsub := lessSubAuthority_eq lhs rhs 0 (Nat.zero_le _)
  have hauth := lessAuthority_eq lhs rhs (lhs.subAuthority.map UInt32.toNat) (rhs.subAuthority.map UInt32.toNat) 0
    (Nat.zero_le _)
  rw [List.drop_zero, List.drop_zero] at hsub hauth
  unfold words less
  rw [← hauth]
  cases lessAuthority lhs rhs 0 with
  | none => exact hsub
  | some b => rfl

theorem less_iff {lhs rhs : Sid} : less lhs rhs = some true ↔ lhs.words < rhs.words := by
  rw [less_eq, Option.some_inj, decide_eq_true_iff]

/-- `operator<` returns for any two, is irreflexive and transitive, and of any two that are
    not equal by `operator==` one is below the other. -/
theorem less_strict_total (a b c : Sid) :
    (∃ r, less a b = some r) ∧ less a a = some false ∧
      (less a b = some true → less b c = some true → less a c = some true) ∧
      (less a b = some false ∧ less b a = some false ↔ a.equal b = true) := by
  refine ⟨⟨_, less_eq a b⟩, ?_, ?_, ?_⟩
  · rw [less_eq, decide_eq_false (lt_irrefl _)]
  · intro hab hbc
    exact less_iff.mpr ((less_iff.mp hab).trans (less_iff.mp hbc))
  · rw [less_eq, less_eq, Option.some_inj, Option.some_inj, decide_eq_false_iff_not, decide_eq_false_iff_not,
      equal_iff]
    constructor
    · rintro ⟨hab, hba⟩
      exact words_inj (le_antisymm (not_lt.mp hba) (not_lt.mp hab))
    · rintro rfl
      exact ⟨lt_irrefl _, lt_irrefl _⟩

end Sid

end Dumbnose.Security
