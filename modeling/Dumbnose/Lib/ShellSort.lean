/-
  Dumbnose.Lib.ShellSort — sorting by insertion over shrinking gaps.

  `gt` says which of two elements is to come later. `sink` takes the element at one place
  down over a gap by swaps, `gapPass` does so for each place in turn, `passes` for each gap
  of `h`, `h / 3`, ... down to 1.

  Every swap keeps the elements (`passes_perm`). A pass over gaps of 1 is an insertion
  sort, whatever came before it (`gapPass_ordered`), so if the gaps come down to 1 the result
  is in order (`passes_ordered`): `Gap` has the gaps 1, 4, 13, ... that do. What is in order
  is left alone (`passes_eq_self`).
-/

import Mathlib.Tactic.Common

namespace Dumbnose.Lib.ShellSort

variable {α : Type} {n : Nat} (gt : α → α → Bool)

/-! ## The algorithm -/

def sink (h : Nat) (hpos : 0 < h) (v : Vector α n) (j : Nat) (hj : j < n) : Vector α n :=
  if hh : h ≤ j then
    if gt v[j - h] v[j] then sink h hpos (v.swap j (j - h)) (j - h) (by omega) else v
  else v
termination_by j

def gapPass (h : Nat) (hpos : 0 < h) (v : Vector α n) (i : Nat) : Vector α n :=
  if hi : i < n then gapPass h hpos (sink gt h hpos v i hi) (i + 1) else v
termination_by n - i

def passes (h : Nat) (v : Vector α n) : Vector α n :=
  if hpos : 0 < h then passes (h / 3) (gapPass gt h hpos v (h - 1)) else v
termination_by h

/-- The gap to begin with. -/
def firstGap (n h : Nat) : Nat := if h * 3 + 1 < n then firstGap n (3 * h + 1) else h
termination_by n - h

/-- The gaps that come down to 1. -/
inductive Gap : Nat → Prop
  | one : Gap 1
  | next {h : Nat} : Gap h → Gap (3 * h + 1)

theorem Gap.firstGap {h : Nat} (hg : Gap h) : Gap (firstGap n h) := by
  induction h using firstGap.induct n with
  | case1 h hlt ih =>
    rw [ShellSort.firstGap, if_pos hlt]
    exact ih (.next hg)
  | case2 h hlt =>
    rw [ShellSort.firstGap, if_neg hlt]
    exact hg

/-! ## The elements stay -/

theorem sink_perm (h : Nat) (hpos : 0 < h) (v : Vector α n) (j : Nat) (hj : j < n) :
    (sink gt h hpos v j hj).Perm v := by
  induction v, j, hj using sink.induct gt h hpos with
  | case1 v j hj hh hgt ih =>
    rw [sink, dif_pos hh, if_pos hgt]
    exact ih.trans (Vector.swap_perm ..)
  | case2 v j hj hh hgt =>
    rw [sink, dif_pos hh, if_neg hgt]
  | case3 v j hj hh =>
    rw [sink, dif_neg hh]

theorem gapPass_perm (h : Nat) (hpos : 0 < h) (v : Vector α n) (i : Nat) : (gapPass gt h hpos v i).Perm v := by
  induction v, i using gapPass.induct gt h hpos with
  | case1 v i hi ih =>
    rw [gapPass, dif_pos hi]
    exact ih.trans (sink_perm ..)
  | case2 v i hi =>
    rw [gapPass, dif_neg hi]

theorem passes_perm (h : Nat) (v : Vector α n) : (passes gt h v).Perm v := by
  induction h, v using passes.induct gt with
  | case1 h v hpos ih =>
    rw [passes, dif_pos hpos]
    exact ih.trans (gapPass_perm ..)
  | case2 h v hpos =>
    rw [passes, dif_neg hpos]

/-! ## In order -/

/-- The first `m` are in order. -/
def Ordered (v : Vector α n) (m : Nat) : Prop :=
  ∀ a b, a < b → b < m → ∀ ha : a < n, ∀ hb : b < n, ¬ gt v[a] v[b]

/-- The first `m` are in order but for the one at `j`, which none of those above it is
    before. -/
structure Sinking (v : Vector α n) (j m : Nat) : Prop where
  others : ∀ a b, a < b → b < m → a ≠ j → b ≠ j → ∀ ha : a < n, ∀ hb : b < n, ¬ gt v[a] v[b]
  above : ∀ b, j < b → b < m → ∀ hj : j < n, ∀ hb : b < n, ¬ gt v[j] v[b]

section Order
variable {gt}

/-- Down by one. -/
theorem Sinking.swap (asymm : ∀ x y, gt x y → ¬ gt y x) {v : Vector α n} {j m : Nat}
    (hs : Sinking gt v (j + 1) m) (hj : j + 1 < n) (hgt : gt v[j] v[j + 1]) : Sinking gt (v.swap (j + 1) j) j m := by
  constructor
  · intro a b hab hbm ha hb han hbn
    by_cases hb1 : b = j + 1
    · subst hb1
      rw [Vector.getElem_swap_left, Vector.getElem_swap_of_ne (by omega) (by omega)]
      exact hs.others a j (by omega) (by omega) (by omega) (by omega) han (by omega)
    · by_cases ha1 : a = j + 1
      · subst ha1
        rw [Vector.getElem_swap_left, Vector.getElem_swap_of_ne (by omega) (by omega)]
        exact hs.others j b (by omega) hbm (by omega) hb1 (by omega) hbn
      · rw [Vector.getElem_swap_of_ne ha1 ha, Vector.getElem_swap_of_ne hb1 hb]
        exact hs.others a b hab hbm ha1 hb1 han hbn
  · intro b hjb hbm hjn hbn
    rw [Vector.getElem_swap_right]
    by_cases hb1 : b = j + 1
    · subst hb1
      rw [Vector.getElem_swap_left]
      exact asymm _ _ hgt
    · rw [Vector.getElem_swap_of_ne hb1 (by omega)]
      exact hs.above b (by omega) hbm hj hbn

/-- At its place. -/
theorem Sinking.ordered (trans : ∀ x y z, ¬ gt x y → ¬ gt y z → ¬ gt x z) {v : Vector α n} {j m : Nat}
    (hs : Sinking gt v j m) (hlow : ∀ hj : j < n, ∀ h : 1 ≤ j, ¬ gt v[j - 1] v[j]) : Ordered gt v m := by
  intro a b hab hbm ha hb
  by_cases haj : a = j
  · subst haj
    exact hs.above b hab hbm ha hb
  · by_cases hbj : b = j
    · subst hbj
      have hlast := hlow hb (by omega)
      by_cases h1 : a = b - 1
      · subst h1
        exact hlast
      · exact trans _ _ _ (hs.others a (b - 1) (by omega) (by omega) haj (by omega) ha (by omega)) hlast
    · exact hs.others a b hab hbm haj hbj ha hb

variable (asymm : ∀ x y, gt x y → ¬ gt y x) (trans : ∀ x y z, ¬ gt x y → ¬ gt y z → ¬ gt x z)
include asymm trans

theorem sink_ordered {v : Vector α n} {j m : Nat} (hj : j < n) (hs : Sinking gt v j m) :
    Ordered gt (sink gt 1 Nat.one_pos v j hj) m := by
  induction v, j, hj using sink.induct gt 1 Nat.one_pos with
  | case1 v j hj hh hgt ih =>
    rw [sink, dif_pos hh, if_pos hgt]
    obtain ⟨k, rfl⟩ : ∃ k, j = k + 1 := ⟨j - 1, by omega⟩
    exact ih (hs.swap asymm hj hgt)
  | case2 v j hj hh hgt =>
    rw [sink, dif_pos hh, if_neg hgt]
    exact hs.ordered trans fun _ _ => hgt
  | case3 v j hj hh =>
    rw [sink, dif_neg hh]
    exact hs.ordered trans fun _ h => absurd h hh

theorem gapPass_ordered {v : Vector α n} {i : Nat} (ho : Ordered gt v i) :
    Ordered gt (gapPass gt 1 Nat.one_pos v i) n := by
  induction v, i using gapPass.induct gt 1 Nat.one_pos with
  | case1 v i hi ih =>
    rw [gapPass, dif_pos hi]
    refine ih (sink_ordered asymm trans hi ⟨?_, ?_⟩)
    · intro a b hab hbm ha hb han hbn
      exact ho a b hab (by omega) han hbn
    · intro b hb hbm
      omega
  | case2 v i hi =>
    rw [gapPass, dif_neg hi]
    intro a b hab hb
    exact ho a b hab (by omega)

/-- With gaps that come down to 1. -/
theorem passes_ordered {h : Nat} (hg : Gap h) (v : Vector α n) : Ordered gt (passes gt h v) n := by
  induction hg generalizing v with
  | one =>
    rw [passes, dif_pos Nat.one_pos, passes, dif_neg (by decide)]
    refine gapPass_ordered asymm trans ?_
    intro a b _ hb
    omega
  | @next h _ ih =>
    rw [passes, dif_pos (Nat.succ_pos _), show (3 * h + 1) / 3 = h by omega]
    exact ih _

end Order

/-! ## What is in order already -/

section Settled
variable {gt} {v : Vector α n} (ho : Ordered gt v n)
include ho

theorem sink_eq_self (h : Nat) (hpos : 0 < h) (j : Nat) (hj : j < n) : sink gt h hpos v j hj = v := by
  rw [sink]
  split
  · rw [if_neg (ho _ _ (by omega) hj (by omega) hj)]
  · rfl

theorem gapPass_eq_self (h : Nat) (hpos : 0 < h) (i : Nat) : gapPass gt h hpos v i = v := by
  induction hk : n - i generalizing i with
  | zero => rw [gapPass, dif_neg (by omega)]
  | succ k ih => rw [gapPass, dif_pos (by omega), sink_eq_self ho, ih (i + 1) (by omega)]

theorem passes_eq_self (h : Nat) : passes gt h v = v := by
  induction h using Nat.strongRecOn with
  | _ h ih =>
    rw [passes]
    split
    · rw [gapPass_eq_self ho, ih _ (by omega)]
    · rfl

end Settled

/-- In order as a list. -/
theorem ordered_iff_pairwise {v : Vector α n} : Ordered gt v n ↔ v.toList.Pairwise fun x y => ¬ gt x y := by
  have hlen : v.toList.length = n := Vector.length_toList
  rw [List.pairwise_iff_getElem]
  simp only [Vector.getElem_toList]
  constructor
  · intro ho a b ha hb hab
    exact ho a b hab (by omega) (by omega) (by omega)
  · intro hp a b hab _ ha hb
    exact hp a b (by omega) (by omega) hab

end Dumbnose.Lib.ShellSort
