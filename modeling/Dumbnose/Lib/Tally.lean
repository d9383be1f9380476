/-
  Dumbnose.Lib.Tally — how many threads are where.

  Each thread of a finite, otherwise arbitrary type has a place, `g : T → L`. A tally adds up
  a weight of the places over all threads: with weight 1 on some places and 0 on the
  others it is the number of threads there. One thread moves at a time, so what a move
  does to a tally is the difference of two weights (`tally_update`).
-/

import Mathlib.Algebra.BigOperators.Group.Finset.Basic
import Mathlib.Algebra.Order.BigOperators.Group.Finset
import Mathlib.Data.Fintype.Basic

namespace Dumbnose.Lib.Tally

variable {T L : Type} [Fintype T]

def tally (f : L → Nat) (g : T → L) : Nat := ∑ t, f (g t)

theorem le_tally (f : L → Nat) (g : T → L) (t : T) : f (g t) ≤ tally f g :=
  Finset.single_le_sum (f := fun t => f (g t)) (fun _ _ => Nat.zero_le _) (Finset.mem_univ t)

theorem tally_eq_zero {f : L → Nat} {g : T → L} : tally f g = 0 ↔ ∀ t, f (g t) = 0 := by
  unfold tally
  simp

theorem tally_const {f : L → Nat} {l : L} (h : f l = 0) : tally f (fun _ : T => l) = 0 :=
  tally_eq_zero.mpr fun _ => h

variable [DecidableEq T]

/-- One thread moves. -/
theorem tally_update (f : L → Nat) (g : T → L) (t : T) (l : L) :
    tally f (Function.update g t l) + f (g t) = tally f g + f l := by
  have h1 := Finset.add_sum_erase Finset.univ (fun u => f (Function.update g t l u)) (Finset.mem_univ t)
  have h2 := Finset.add_sum_erase Finset.univ (fun u => f (g u)) (Finset.mem_univ t)
  have h3 : ∑ u ∈ Finset.univ.erase t, f (Function.update g t l u) = ∑ u ∈ Finset.univ.erase t, f (g u) :=
    Finset.sum_congr rfl fun u hu => by rw [Function.update_of_ne (Finset.ne_of_mem_erase hu)]
  unfold tally
  simp only [Function.update_self] at h1
  omega

/-- The same, of a thread whose place is known. -/
theorem tally_move (f : L → Nat) {g : T → L} {t : T} {k : L} (h : g t = k) (l : L) :
    tally f (Function.update g t l) + f k = tally f g + f l :=
  h ▸ tally_update f g t l

end Dumbnose.Lib.Tally
