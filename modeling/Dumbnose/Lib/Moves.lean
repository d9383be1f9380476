/-
  Dumbnose.Lib.Moves — what a program may do to its state, whether it returns or throws.

  `Moves R x`: wherever `x` starts, it ends in a state that `R` relates the start to. A
  frame condition and a bound on what a call may change are such an `R`. Where `R` is a
  preorder the parts of a program can be looked at one by one: there is one rule for each
  constructor.
-/

import Mathlib.Order.Defs.Unbundled
import Dumbnose.Lib.Exec

namespace Dumbnose.Lib.Exec

variable {ε σ α β : Type}

def Moves (R : σ → σ → Prop) (x : EStateM ε σ α) : Prop := ∀ s, wp x (fun _ t => R s t) (fun _ t => R s t) s

section Rules
variable {R : σ → σ → Prop}

/-- After a call that returned, and after one that threw. -/
theorem Moves.ok {x : EStateM ε σ α} (hx : Moves R x) {s t : σ} {a : α} (h : x s = .ok a t) : R s t :=
  (wp_ok h).mp (hx s)

theorem Moves.error {x : EStateM ε σ α} (hx : Moves R x) {s t : σ} {e : ε} (h : x s = .error e t) : R s t :=
  (wp_error h).mp (hx s)

theorem Moves.ite {c : Prop} [Decidable c] {x y : EStateM ε σ α} (hx : Moves R x) (hy : Moves R y) :
    Moves R (if c then x else y) := by
  by_cases h : c
  · rwa [if_pos h]
  · rwa [if_neg h]

variable [IsPreorder σ R]

theorem Moves.pure (a : α) : Moves R (Pure.pure a : EStateM ε σ α) := fun s => refl s

theorem Moves.throw (e : ε) : Moves R (MonadExcept.throw e : EStateM ε σ α) := fun s => refl s

theorem Moves.get : Moves R (MonadState.get : EStateM ε σ σ) := fun s => refl s

theorem Moves.bind {x : EStateM ε σ α} {f : α → EStateM ε σ β} (hx : Moves R x) (hf : ∀ a, Moves R (f a)) :
    Moves R (x >>= f) := by
  intro s
  rw [wp_bind]
  refine (hx s).mono (fun a t ht => ?_) fun _ _ ht => ht
  exact (hf a t).mono (fun _ _ hu => IsTrans.trans _ _ _ ht hu) fun _ _ hu => IsTrans.trans _ _ _ ht hu

end Rules

end Dumbnose.Lib.Exec
