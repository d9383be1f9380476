/-
  Dumbnose.Lib.Standing — what a history has put somewhere and not taken away since.

  An event puts at most one thing (`put`) and takes things away (`drops`). What stands
  after a history is what its events put, in that order, each as long as no later event
  takes it away. The rule is for one more event at the end (`standing_snoc`): the step of
  whatever is said to hold exactly what stands. What an event took away is gone until it
  is put again (`not_standing_drop`).
-/

import Mathlib.Tactic.Common

namespace Dumbnose.Lib.Standing

variable {E X : Type} (put : E → Option X) (drops : E → X → Bool)

/-- What was put and not taken away after that. -/
def standing : List E → List X
  | [] => []
  | e :: es =>
    match put e with
    | some x => if es.any fun f => drops f x then standing es else x :: standing es
    | none => standing es

/-- One more event takes away first and puts then. -/
theorem standing_snoc (es : List E) (e : E) :
    standing put drops (es ++ [e]) = (standing put drops es).filter (fun x => !drops e x) ++ (put e).toList := by
  induction es with
  | nil => cases h : put e <;> simp [standing, h]
  | cons f es ih =>
    cases h : put f with
    | none => simp only [List.cons_append, standing, h, ih]
    | some x =>
      simp only [List.cons_append, standing, h, List.any_append, List.any_cons, List.any_nil, Bool.or_false, ih]
      by_cases h1 : es.any (fun f => drops f x) = true
      · simp [h1]
      · by_cases h2 : drops e x = true
        · simp [h1, h2]
        · simp [h1, h2]

/-- What does not stand does not stand later, unless it is put. -/
theorem not_standing_append {es fs : List E} {x : X} (h : x ∉ standing put drops es) (hf : ∀ f ∈ fs, put f ≠ some x) :
    x ∉ standing put drops (es ++ fs) := by
  induction fs generalizing es with
  | nil =>
    rw [List.append_nil]
    exact h
  | cons f fs ih =>
    have hnext : x ∉ standing put drops (es ++ [f]) := by
      rw [standing_snoc]
      intro hx
      rcases List.mem_append.mp hx with hx | hx
      · exact h (List.mem_filter.mp hx).1
      · exact hf f List.mem_cons_self (Option.mem_toList.mp hx)
    have := ih hnext fun g hg => hf g (List.mem_cons_of_mem _ hg)
    rw [List.append_assoc] at this
    exact this

/-- What an event takes away does not stand after it. -/
theorem not_standing_drop {es fs : List E} {e : E} {x : X} (hd : drops e x = true)
    (hf : ∀ f ∈ e :: fs, put f ≠ some x) :
    x ∉ standing put drops (es ++ e :: fs) := by
  have hnext : x ∉ standing put drops (es ++ [e]) := by
    rw [standing_snoc]
    intro hx
    rcases List.mem_append.mp hx with hx | hx
    · simpa [hd] using (List.mem_filter.mp hx).2
    · exact hf e List.mem_cons_self (Option.mem_toList.mp hx)
  have := not_standing_append put drops hnext fun f hm => hf f (List.mem_cons_of_mem _ hm)
  rw [List.append_assoc] at this
  exact this

end Dumbnose.Lib.Standing
