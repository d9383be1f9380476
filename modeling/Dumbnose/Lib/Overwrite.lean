/-
  Dumbnose.Lib.Overwrite — a memory that is written from its start, again and again.

  A write covers the places from the first on, as many as it has, and leaves the others
  as they were. What stands at a place is what the last write that reaches it has there
  (`foldl_overwrite`).
-/

import Mathlib.Tactic.Common

namespace Dumbnose.Lib.Overwrite

variable {α : Type}

def overwrite (memory : Nat → α) (w : List α) : Nat → α := fun i => w[i]?.getD (memory i)

/-- What the last of the writes that reach this place has there. -/
def last : List (List α) → Nat → Option α
  | [], _ => none
  | w :: ws, i => (last ws i).or w[i]?

theorem overwrite_of_lt {memory : Nat → α} {w : List α} {i : Nat} (h : i < w.length) :
    some (overwrite memory w i) = w[i]? := by
  unfold overwrite
  rw [List.getElem?_eq_getElem h]
  rfl

theorem overwrite_of_ge {memory : Nat → α} {w : List α} {i : Nat} (h : w.length ≤ i) :
    overwrite memory w i = memory i := by
  unfold overwrite
  rw [List.getElem?_eq_none h]
  rfl

theorem foldl_overwrite (memory : Nat → α) (ws : List (List α)) (i : Nat) :
    ws.foldl overwrite memory i = (last ws i).getD (memory i) := by
  induction ws generalizing memory with
  | nil => rfl
  | cons w ws ih =>
    rw [List.foldl_cons, ih]
    show (last ws i).getD (w[i]?.getD (memory i)) = ((last ws i).or w[i]?).getD (memory i)
    cases last ws i <;> rfl

end Dumbnose.Lib.Overwrite
