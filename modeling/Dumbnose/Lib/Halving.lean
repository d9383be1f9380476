/-
  Dumbnose.Lib.Halving — a walk on the integers to a place `r` between `lo` and `hi`, by a
  step that halves down to one and stays there. Before each move the walker learns on
  which side of it the place is.

  While the step is 2 or more the position keeps a distance of the step from both ends,
  so no halving move leaves the range (`Near`). From step 1 on the walk goes straight to
  the place and cannot pass it. `walk` is the rule for what holds of a loop that moves so:
  what holds at the place, and is carried back over each move, holds at the start.
-/

import Mathlib.Tactic.Common

namespace Dumbnose.Lib.Halving

/-- The step after this one. -/
def next (step : Int) : Int := if step ≤ 1 then 1 else step / 2

structure Near (lo hi r c step : Int) : Prop where
  lower : lo ≤ c
  upper : c ≤ hi
  nonneg : 0 ≤ step
  /-- Only a place at the end is ever approached there. -/
  last : c = hi → r = hi
  far : 2 ≤ step → lo + step ≤ c + 1 ∧ c + step ≤ hi

/-- The moves that are left, at most. -/
def left (lo hi r c step : Int) : Nat :=
  if 2 ≤ step then step.toNat + (hi - lo).toNat + 1 else (c - r).natAbs + 1

section Walk
variable {lo hi r c step : Int}

theorem left_le (hlo : lo ≤ r) (hhi : r ≤ hi) (h : Near lo hi r c step) :
    left lo hi r c step ≤ step.toNat + (hi - lo).toNat + 1 := by
  obtain ⟨h1, h2, -, -, -⟩ := h
  unfold left
  split <;> omega

theorem Near.up (h : Near lo hi r c step) (hhi : r ≤ hi) (hlo : lo ≤ r) (hc : c < r) :
    Near lo hi r (c + next step) (next step) ∧ left lo hi r (c + next step) (next step) < left lo hi r c step := by
  obtain ⟨h1, h2, h3, h4, h5⟩ := h
  unfold next left
  constructor
  · constructor <;> split <;> omega
  · split <;> split <;> split <;> omega

theorem Near.down (h : Near lo hi r c step) (hhi : r ≤ hi) (hlo : lo ≤ r) (hc : r < c) :
    Near lo hi r (c - next step) (next step) ∧ left lo hi r (c - next step) (next step) < left lo hi r c step := by
  obtain ⟨h1, h2, h3, h4, h5⟩ := h
  unfold next left
  constructor
  · constructor <;> split <;> omega
  · split <;> split <;> split <;> omega

/-- The rule of the walk: `P f c step` is what a loop with fuel `f` does from there. -/
theorem walk {P : Nat → Int → Int → Prop} (hlo : lo ≤ r) (hhi : r ≤ hi) (here : ∀ f step, P (f + 1) r step)
    (up : ∀ f c step, 0 ≤ step → lo ≤ c → c < r → P f (c + next step) (next step) → P (f + 1) c step)
    (down : ∀ f c step, 0 ≤ step → r < c → c < hi → P f (c - next step) (next step) → P (f + 1) c step) {f : Nat}
    (h : Near lo hi r c step) (hf : left lo hi r c step ≤ f) : P f c step := by
  induction f generalizing c step with
  | zero =>
    unfold left at hf
    split at hf <;> omega
  | succ f ih =>
    rcases Int.lt_trichotomy c r with hc | rfl | hc
    · obtain ⟨h1, h2⟩ := h.up hhi hlo hc
      exact up f c step h.nonneg h.lower hc (ih h1 (by omega))
    · exact here f step
    · obtain ⟨h1, h2⟩ := h.down hhi hlo hc
      have hlt : c < hi := by
        have := h.upper
        have := h.last
        omega
      exact down f c step h.nonneg hc hlt (ih h1 (by omega))

end Walk

end Dumbnose.Lib.Halving
