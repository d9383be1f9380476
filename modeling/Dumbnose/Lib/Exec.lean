/-
  Dumbnose.Lib.Exec — what a program with state and exceptions does, as a
  predicate on its outcomes.

  A program is an `EStateM ε σ α`: it returns a value or throws, and either way
  leaves a state behind (an exception undoes nothing). `wp x Q E s` says that `x`
  started in `s` returns with `Q` or throws with `E`. Programs are deterministic
  and total here, so `wp` is also what happens, not only what is allowed
  (`wp_ok`, `wp_error`, `Returns.run`).

  The rules: one for each constructor (`wp_pure` .. `wp_ite`), consequence
  (`wp.mono`, `Returns.wp`), equality of programs (`ext_wp`), and one for each kind of
  loop (`upto`: a body run at `i, i + 1, ..`; `scan`: the same, left early by the first
  answer).
-/

import Mathlib.Tactic.Common

namespace Dumbnose.Lib.Exec

variable {ε σ α β : Type}

/-- `x` from `s` returns with `Q`, or throws with `E`. -/
def wp (x : EStateM ε σ α) (Q : α → σ → Prop) (E : ε → σ → Prop) (s : σ) : Prop :=
  match x s with
  | .ok a t => Q a t
  | .error e t => E e t

/-- `x` from `s` returns, with `Q`. -/
def Returns (x : EStateM ε σ α) (Q : α → σ → Prop) (s : σ) : Prop := wp x Q (fun _ _ => False) s

instance (x : EStateM ε σ α) (Q : α → σ → Prop) (E : ε → σ → Prop) (s : σ) [∀ a t, Decidable (Q a t)]
    [∀ e t, Decidable (E e t)] : Decidable (wp x Q E s) :=
  match h : x s with
  | .ok a t => decidable_of_iff (Q a t) (by rw [wp, h])
  | .error e t => decidable_of_iff (E e t) (by rw [wp, h])

instance (x : EStateM ε σ α) (Q : α → σ → Prop) (s : σ) [∀ a t, Decidable (Q a t)] : Decidable (Returns x Q s) :=
  inferInstanceAs (Decidable (wp x Q (fun _ _ => False) s))

/-! ## One rule for each constructor -/

section Rules
variable {Q : α → σ → Prop} {E : ε → σ → Prop} {s : σ}

@[simp] theorem wp_pure (a : α) : wp (pure a : EStateM ε σ α) Q E s ↔ Q a s := Iff.rfl

@[simp] theorem wp_throw (e : ε) : wp (throw e : EStateM ε σ α) Q E s ↔ E e s := Iff.rfl

@[simp] theorem wp_bind {R : β → σ → Prop} (x : EStateM ε σ α) (f : α → EStateM ε σ β) :
    wp (x >>= f) R E s ↔ wp x (fun a t => wp (f a) R E t) E s := by
  show wp (EStateM.bind x f) R E s ↔ _
  unfold wp EStateM.bind
  cases x s <;> rfl

@[simp] theorem wp_map {R : β → σ → Prop} (f : α → β) (x : EStateM ε σ α) :
    wp (f <$> x) R E s ↔ wp x (fun a t => R (f a) t) E s := by
  show wp (EStateM.map f x) R E s ↔ _
  unfold wp EStateM.map
  cases x s <;> rfl

@[simp] theorem wp_get {Q : σ → σ → Prop} : wp (get : EStateM ε σ σ) Q E s ↔ Q s s := Iff.rfl

@[simp] theorem wp_modify {Q : PUnit → σ → Prop} (f : σ → σ) :
    wp (modify f : EStateM ε σ PUnit) Q E s ↔ Q ⟨⟩ (f s) := Iff.rfl

@[simp] theorem wp_ite (c : Prop) [Decidable c] (x y : EStateM ε σ α) :
    wp (if c then x else y) Q E s ↔ (c → wp x Q E s) ∧ (¬ c → wp y Q E s) := by
  by_cases h : c <;> simp [h]

@[simp] theorem wp_tryCatch (x : EStateM ε σ α) (handle : ε → EStateM ε σ α) :
    wp (tryCatch x handle) Q E s ↔ wp x Q (fun e t => wp (handle e) Q E t) s := by
  show wp (EStateM.tryCatch x handle) Q E s ↔ _
  unfold wp EStateM.tryCatch
  cases x s <;> rfl

end Rules

/-! ## Consequence -/

theorem wp.mono {x : EStateM ε σ α} {Q Q' : α → σ → Prop} {E E' : ε → σ → Prop} {s : σ}
    (h : wp x Q E s) (hQ : ∀ a t, Q a t → Q' a t) (hE : ∀ e t, E e t → E' e t) : wp x Q' E' s := by
  unfold wp at h ⊢
  cases hx : x s with
  | ok a t => rw [hx] at h; exact hQ a t h
  | error e t => rw [hx] at h; exact hE e t h

theorem wp_any (x : EStateM ε σ α) (s : σ) : wp x (fun _ _ => True) (fun _ _ => True) s := by
  unfold Exec.wp
  cases x s <;> trivial

/-- Of a program whose first part does not matter. -/
theorem wp_bind_any {x : EStateM ε σ α} {f : α → EStateM ε σ β} {R : β → σ → Prop} {s : σ}
    (h : ∀ a t, wp (f a) R (fun _ _ => True) t) : wp (x >>= f) R (fun _ _ => True) s := by
  rw [wp_bind]
  exact (wp_any x s).mono (fun a t _ => h a t) fun _ _ h => h

theorem Returns.wp {x : EStateM ε σ α} {Q Q' : α → σ → Prop} {E : ε → σ → Prop} {s : σ}
    (h : Returns x Q s) (hQ : ∀ a t, Q a t → Q' a t) : wp x Q' E s :=
  wp.mono h hQ fun _ _ h => h.elim

theorem Returns.mono {x : EStateM ε σ α} {Q Q' : α → σ → Prop} {s : σ}
    (h : Returns x Q s) (hQ : ∀ a t, Q a t → Q' a t) : Returns x Q' s := h.wp hQ

/-- A returning program's run. -/
theorem Returns.run {x : EStateM ε σ α} {Q : α → σ → Prop} {s : σ} (h : Returns x Q s) :
    ∃ a t, x s = .ok a t ∧ Q a t := by
  unfold Returns Exec.wp at h
  cases hx : x s with
  | ok a t => rw [hx] at h; exact ⟨a, t, rfl, h⟩
  | error e t => rw [hx] at h; exact h.elim

/-- A program's run. -/
theorem wp.run {x : EStateM ε σ α} {Q : α → σ → Prop} {E : ε → σ → Prop} {s : σ} (h : wp x Q E s) :
    (∃ a t, x s = .ok a t ∧ Q a t) ∨ ∃ e t, x s = .error e t ∧ E e t := by
  unfold wp at h
  cases hx : x s with
  | ok a t => rw [hx] at h; exact .inl ⟨a, t, rfl, h⟩
  | error e t => rw [hx] at h; exact .inr ⟨e, t, rfl, h⟩

/-- The run of a program that never returns. -/
theorem wp.throws {x : EStateM ε σ α} {E : ε → σ → Prop} {s : σ} (h : wp x (fun _ _ => False) E s) :
    ∃ e t, x s = .error e t ∧ E e t := by
  rcases h.run with h | h
  · obtain ⟨a, t, -, hf⟩ := h
    exact hf.elim
  · exact h

theorem wp_ok {x : EStateM ε σ α} {Q : α → σ → Prop} {E : ε → σ → Prop} {s t : σ} {a : α}
    (h : x s = .ok a t) : wp x Q E s ↔ Q a t := by
  unfold wp; rw [h]

theorem wp_error {x : EStateM ε σ α} {Q : α → σ → Prop} {E : ε → σ → Prop} {s t : σ} {e : ε}
    (h : x s = .error e t) : wp x Q E s ↔ E e t := by
  unfold wp; rw [h]

/-! ## Loops -/

/-- `body i; body (i + 1); ..`, `n` times. -/
def upto (body : Nat → EStateM ε σ Unit) : Nat → Nat → EStateM ε σ Unit
  | 0, _ => pure ()
  | n + 1, i => do body i; upto body n (i + 1)

/-- The first answer of `body i`, `body (i + 1)`, .., `n` of them. -/
def scan (body : Nat → EStateM ε σ (Option α)) : Nat → Nat → EStateM ε σ (Option α)
  | 0, _ => pure none
  | n + 1, i => do
    match ← body i with
    | some a => pure (some a)
    | none => scan body n (i + 1)

/-- A loop keeps an invariant its body keeps. -/
theorem upto_returns {body : Nat → EStateM ε σ Unit} (I : Nat → σ → Prop) :
    ∀ n i s, I i s → (∀ j t, i ≤ j → j < i + n → I j t → Returns (body j) (fun _ u => I (j + 1) u) t) →
      Returns (upto body n i) (fun _ t => I (i + n) t) s := by
  intro n
  induction n with
  | zero => intro i s h _; exact h
  | succ n ih =>
    intro i s h hb
    unfold Returns upto
    rw [wp_bind]
    refine (hb i s (Nat.le_refl i) (by omega) h).wp fun _ t ht => ?_
    have := ih (i + 1) t ht fun j u h1 h2 hu => hb j u (by omega) (by omega) hu
    rwa [Nat.add_right_comm] at this

/-- A search keeps an invariant its body keeps while it has no answer, and answers
    with what its body answers. -/
theorem scan_returns {body : Nat → EStateM ε σ (Option α)} (I : Nat → σ → Prop) (Q : α → σ → Prop) :
    ∀ n i s, I i s →
      (∀ j t, i ≤ j → j < i + n → I j t →
        Returns (body j) (fun o u => match o with | some a => Q a u | none => I (j + 1) u) t) →
      Returns (scan body n i) (fun o t => match o with | some a => Q a t | none => I (i + n) t) s := by
  intro n
  induction n with
  | zero => intro i s h _; exact h
  | succ n ih =>
    intro i s h hb
    unfold Returns scan
    rw [wp_bind]
    refine (hb i s (Nat.le_refl i) (by omega) h).wp fun o t ht => ?_
    cases o with
    | some a => exact ht
    | none =>
      have := ih (i + 1) t ht fun j u h1 h2 hu => hb j u (by omega) (by omega) hu
      rwa [Nat.add_right_comm] at this

end Dumbnose.Lib.Exec
