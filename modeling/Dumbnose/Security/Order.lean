/-
  Dumbnose.Security.Order — the order of the entries in an access list
  (`CAccessAce::Order` and `CDacl::PrepareAcesForACL` of `wilsecurity.hpp`).

  Windows wants direct entries before inherited ones, of each those that deny before those
  that allow, and of each the plain ones before the object ones. `PrepareAcesForACL` sorts
  so, by Shell's method, on an array of owning pointers: to copy an entry out of its place
  moves it and leaves a null pointer.

  No null pointer is followed and none is left, and the array is as if the entries had
  changed places two at a time (`forGap_eq`). So for every list the result has the same
  entries, in order (`prepareAcesForACL_sorts`).
-/

import Dumbnose.Lib.ShellSort
import Dumbnose.Security.Ace

namespace Dumbnose.Security

open Lib.ShellSort

namespace CAccessAce

/-- `Order`. -/
def order (lhs rhs : CAccessAce) : Int :=
  if lhs.inherited ∧ ¬ rhs.inherited then -1
  else if ¬ lhs.inherited ∧ rhs.inherited then 1
  else if lhs.allow ∧ ¬ rhs.allow then -1
  else if ¬ lhs.allow ∧ rhs.allow then 1
  else if lhs.isObjectAce ∧ ¬ rhs.isObjectAce then -1
  else if ¬ lhs.isObjectAce ∧ rhs.isObjectAce then 1
  else 0

/-- The place of its kind in the list of the comment in `Order`. -/
def rank (a : CAccessAce) : Nat := 4 * a.inherited.toNat + 2 * a.allow.toNat + a.isObjectAce.toNat

theorem order_iff {lhs rhs : CAccessAce} : order lhs rhs = -1 ↔ rhs.rank < lhs.rank := by
  unfold order rank
  cases lhs.inherited <;> cases rhs.inherited <;> cases lhs.allow <;> cases rhs.allow <;>
    cases lhs.isObjectAce <;> cases rhs.isObjectAce <;> decide

end CAccessAce

open CAccessAce

namespace CDacl

variable {n : Nat}

/-! ## The sort -/

abbrev Cells (n : Nat) := Vector (Option CAccessAce) n

/-- The inner loop from `j` down, and the assignment after it. -/
def shift (h : Nat) (hpos : 0 < h) (spAce : Option CAccessAce) (acl : Cells n) (j : Nat) (hj : j < n) :
    Option (Cells n) :=
  if hh : j ≥ h then do
    let ace ← acl[j - h]
    let sp ← spAce
    if order ace sp = -1 then
      shift h hpos spAce ((acl.set j (some ace)).set (j - h) none (Nat.sub_lt_of_lt hj)) (j - h) (Nat.sub_lt_of_lt hj)
    else some (acl.set j spAce)
  else some (acl.set j spAce)
termination_by j

def forGap (h : Nat) (hpos : 0 < h) (acl : Cells n) (i : Nat) : Option (Cells n) :=
  if hi : i < n then do forGap h hpos (← shift h hpos acl[i] (acl.set i none) i hi) (i + 1)
  else some acl
termination_by n - i

def forGaps (h : Nat) (acl : Cells n) : Option (Cells n) :=
  if hpos : 0 < h then do forGaps (h / 3) (← forGap h hpos acl (h - 1)) else some acl
termination_by h

def prepareAcesForACL (aces : List CAccessAce) : Option (List CAccessAce) := do
  let acl ← forGaps (firstGap aces.length 1) (⟨(aces.map some).toArray, by simp⟩ : Cells aces.length)
  acl.toList.mapM id

/-! ## Without the holes -/

/-- To be later. -/
def later (x y : CAccessAce) : Bool := order x y = -1

/-- The array while the entry at `j` is out of it. -/
def hole (v : Vector CAccessAce n) (j : Nat) (hj : j < n) : Cells n := (v.map some).set j none

theorem hole_fill (v : Vector CAccessAce n) (j : Nat) (hj : j < n) :
    (hole v j hj).set j (some v[j]) = v.map some := by
  unfold hole
  rw [Vector.set_set]
  ext i hi : 1
  rw [Vector.getElem_set]
  split
  · next h => simp [h]
  · rfl

/-- The hole goes down by a gap as its entry would by a swap. -/
theorem hole_swap (v : Vector CAccessAce n) (j h : Nat) (hpos : 0 < h) (hh : h ≤ j) (hj : j < n) :
    ((hole v j hj).set j (some v[j - h])).set (j - h) none (by omega) =
      hole (v.swap j (j - h)) (j - h) (by omega) := by
  unfold hole
  ext i hi : 1
  simp only [Vector.getElem_set, Vector.getElem_map, Vector.getElem_swap]
  grind

theorem hole_below (v : Vector CAccessAce n) (j h : Nat) (hpos : 0 < h) (hh : h ≤ j) (hj : j < n) :
    (hole v j hj)[j - h] = some v[j - h] := by
  rw [hole, Vector.getElem_set_ne _ _ (by omega), Vector.getElem_map]

theorem shift_eq (h : Nat) (hpos : 0 < h) (v : Vector CAccessAce n) (j : Nat) (hj : j < n) :
    shift h hpos (some v[j]) (hole v j hj) j hj = some ((sink later h hpos v j hj).map some) := by
  induction v, j, hj using sink.induct later h hpos with
  | case1 v j hj hh hgt ih =>
    have hgt' : order v[j - h] v[j] = -1 := of_decide_eq_true hgt
    have hsp : (v.swap j (j - h))[j - h] = v[j] := Vector.getElem_swap_right ..
    rw [hsp] at ih
    rw [shift, dif_pos hh, hole_below v j h hpos hh hj, sink, dif_pos hh, if_pos hgt, ← ih,
      ← hole_swap v j h hpos hh hj]
    simp [hgt']
  | case2 v j hj hh hgt =>
    have hgt' : ¬ order v[j - h] v[j] = -1 := of_decide_eq_false (Bool.eq_false_iff.mpr hgt)
    rw [shift, dif_pos hh, hole_below v j h hpos hh hj, sink, dif_pos hh, if_neg hgt, ← hole_fill v j hj]
    simp [hgt']
  | case3 v j hj hh =>
    rw [shift, dif_neg hh, sink, dif_neg hh, hole_fill]

theorem forGap_eq (h : Nat) (hpos : 0 < h) (v : Vector CAccessAce n) (i : Nat) :
    forGap h hpos (v.map some) i = some ((gapPass later h hpos v i).map some) := by
  induction v, i using gapPass.induct later h hpos with
  | case1 v i hi ih =>
    rw [forGap, dif_pos hi, Vector.getElem_map, gapPass, dif_pos hi, ← ih]
    exact congrArg (Option.bind · _) (shift_eq h hpos v i hi)
  | case2 v i hi => rw [forGap, dif_neg hi, gapPass, dif_neg hi]

theorem forGaps_eq (h : Nat) (v : Vector CAccessAce n) :
    forGaps h (v.map some) = some ((passes later h v).map some) := by
  induction h, v using passes.induct later with
  | case1 h v hpos ih =>
    rw [forGaps, dif_pos hpos, forGap_eq, passes, dif_pos hpos, ← ih]
    rfl
  | case2 h v hpos => rw [forGaps, dif_neg hpos, passes, dif_neg hpos]

/-- The entries as the array has them after the sort. -/
def canonical (aces : List CAccessAce) : List CAccessAce :=
  (passes later (firstGap aces.length 1) (⟨aces.toArray, rfl⟩ : Vector CAccessAce aces.length)).toList

theorem mapM_some (l : List CAccessAce) : (l.map some).mapM id = some l := by
  induction l with
  | nil => rfl
  | cons a l ih => simp [ih]

theorem prepareAcesForACL_eq (aces : List CAccessAce) : prepareAcesForACL aces = some (canonical aces) := by
  have hcells : (⟨(aces.map some).toArray, by simp⟩ : Cells aces.length) =
      (⟨aces.toArray, rfl⟩ : Vector CAccessAce aces.length).map some := by
    apply Vector.toArray_inj.mp
    simp
  rw [prepareAcesForACL, hcells, forGaps_eq, Option.bind_eq_bind, Option.bind_some, Vector.toList_map, mapM_some]
  rfl

/-! ## The result -/

theorem later_iff {x y : CAccessAce} : later x y = true ↔ y.rank < x.rank := by
  rw [later, decide_eq_true_iff, order_iff]

theorem canonical_perm (aces : List CAccessAce) : (canonical aces).Perm aces :=
  (passes_perm later _ _).toList

theorem ordered_passes (aces : List CAccessAce) : Ordered later
    (passes later (firstGap aces.length 1) (⟨aces.toArray, rfl⟩ : Vector CAccessAce aces.length)) aces.length := by
  refine passes_ordered ?_ ?_ (Gap.firstGap .one) _
  · intro x y hxy hyx
    rw [later_iff] at hxy hyx
    omega
  · intro x y z hxy hyz hxz
    rw [later_iff] at hxy hyz hxz
    omega

theorem canonical_pairwise (aces : List CAccessAce) :
    (canonical aces).Pairwise fun x y => ¬ later x y = true :=
  (ordered_iff_pairwise later).mp (ordered_passes aces)

/-- What is sorted stays as it is. -/
theorem canonical_canonical (aces : List CAccessAce) : canonical (canonical aces) = canonical aces := by
  have ho := (ordered_iff_pairwise (v := ⟨(canonical aces).toArray, rfl⟩) later).mpr (canonical_pairwise aces)
  exact congrArg Vector.toList (passes_eq_self ho _)

theorem canonical_sorted (aces : List CAccessAce) : (canonical aces).Pairwise fun x y => x.rank ≤ y.rank := by
  refine (canonical_pairwise aces).imp ?_
  intro x y hxy
  rw [later_iff] at hxy
  omega

/-- Every list is sorted: no null pointer is followed or left, no entry is lost or doubled,
    and no entry comes before one of an earlier kind. -/
theorem prepareAcesForACL_sorts (aces : List CAccessAce) :
    ∃ sorted, prepareAcesForACL aces = some sorted ∧ sorted.Perm aces ∧
      sorted.Pairwise fun x y => x.rank ≤ y.rank :=
  ⟨canonical aces, prepareAcesForACL_eq aces, canonical_perm aces, canonical_sorted aces⟩

end CDacl

end Dumbnose.Security
