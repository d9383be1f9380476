/-
  Dumbnose.Lib.Mirror — a program that stops at a bound, beside the same program without
  one.

  `Bound` says how the states of the two compare. `Mirrors c x y`: from a state within the
  bound `x` does what `y` does and is still within it, unless it stops (`c.stop`); and
  then `y` comes past the bound. What `y` may do is its own part of it (`moves`), since
  once past the bound it must not come back. So where `y` stays within, `x` is `y`, and
  where it does not, `x` stops (`Mirrors.ok`, `Mirrors.error`, `Mirrors.returns`).

  There is one rule for each constructor of a program and for each kind of loop. A call
  that comes past the bound and does not stop itself is looked at with what follows it
  (`Mirrors.bind_near`).
-/

import Dumbnose.Lib.Moves

namespace Dumbnose.Lib.Exec

variable {ε σ τ α β γ : Type}

structure Bound (σ τ ε : Type) where
  /-- The state as the program without the bound has it. -/
  free : σ → τ
  within : σ → Prop
  /-- What is thrown at the bound. -/
  stop : ε
  /-- What the program without the bound may do. -/
  may : τ → τ → Prop
  /-- Where that program has come to, and whether it threw, when the other stopped. -/
  past : σ → Option ε → τ → Prop
  may_refl : ∀ u, may u u
  may_trans : ∀ {u v w}, may u v → may v w → may u w
  past_may : ∀ {t u v} (o : Option ε), past t none u → may u v → past t o v

instance (c : Bound σ τ ε) : IsPreorder τ c.may where
  refl := c.may_refl
  trans _ _ _ := c.may_trans

/-- `y` from `u` comes past the bound that was reached in `t`. -/
def Past (c : Bound σ τ ε) (y : EStateM ε τ α) (t : σ) (u : τ) : Prop :=
  wp y (fun _ v => c.past t none v) (fun e v => c.past t (some e) v) u

structure Mirrors (c : Bound σ τ ε) (x : EStateM ε σ α) (y : EStateM ε τ α) : Prop where
  moves : Moves c.may y
  run : ∀ s, c.within s → wp x (fun a t => c.within t ∧ y (c.free s) = .ok a (c.free t))
    (fun e t => y (c.free s) = .error e (c.free t) ∨ e = c.stop ∧ Past c y t (c.free s)) s

section Runs
variable {c : Bound σ τ ε} {x : EStateM ε σ α} {y : EStateM ε τ α} {s t : σ} {u : τ} {a : α} {e : ε}

theorem Mirrors.ok (h : Mirrors c x y) (hs : c.within s) (hx : x s = .ok a t) :
    c.within t ∧ y (c.free s) = .ok a (c.free t) := (wp_ok hx).mp (h.run s hs)

theorem Mirrors.error (h : Mirrors c x y) (hs : c.within s) (hx : x s = .error e t) :
    y (c.free s) = .error e (c.free t) ∨ e = c.stop ∧ Past c y t (c.free s) := (wp_error hx).mp (h.run s hs)

theorem Past.ok (h : Past c y t u) {v : τ} (hy : y u = .ok a v) : c.past t none v := (wp_ok hy).mp h

/-- Where the program without the bound returns, the other does the same or stops. -/
theorem Mirrors.returns (h : Mirrors c x y) (hs : c.within s) (hy : y (c.free s) = .ok a u) :
    (∃ t, x s = .ok a t ∧ c.free t = u ∧ c.within t) ∨ ∃ t, x s = .error c.stop t ∧ c.past t none u := by
  cases hx : x s with
  | ok b t =>
    obtain ⟨ht, hy'⟩ := h.ok hs hx
    rw [hy] at hy'
    obtain ⟨rfl, rfl⟩ := EStateM.Result.ok.inj hy'
    exact .inl ⟨t, rfl, rfl, ht⟩
  | error e t =>
    rcases h.error hs hx with hy' | ⟨rfl, hp⟩
    · rw [hy] at hy'
      cases hy'
    · exact .inr ⟨t, rfl, hp.ok hy⟩

end Runs

/-! ## One rule for each constructor -/

section Rules
variable {c : Bound σ τ ε}

theorem Mirrors.pure (a : α) : Mirrors c (Pure.pure a) (Pure.pure a) := ⟨.pure a, fun _ hs => ⟨hs, rfl⟩⟩

theorem Mirrors.throw (e : ε) : Mirrors c (MonadExcept.throw e : EStateM ε σ α) (MonadExcept.throw e) :=
  ⟨.throw e, fun _ _ => .inl rfl⟩

theorem Mirrors.ite {p : Prop} [Decidable p] {x x' : EStateM ε σ α} {y y' : EStateM ε τ α} (h : Mirrors c x y)
    (h' : Mirrors c x' y') : Mirrors c (if p then x else x') (if p then y else y') := by
  by_cases hp : p
  · rwa [if_pos hp, if_pos hp]
  · rwa [if_neg hp, if_neg hp]

theorem ok_bind {y : EStateM ε τ α} {g : α → EStateM ε τ β} {u v : τ} {a : α} (h : y u = .ok a v) :
    (y >>= g) u = g a v := by
  show EStateM.bind y g u = _
  rw [EStateM.bind, h]

theorem error_bind {y : EStateM ε τ α} {g : α → EStateM ε τ β} {u v : τ} {e : ε} (h : y u = .error e v) :
    (y >>= g) u = .error e v := by
  show EStateM.bind y g u = _
  rw [EStateM.bind, h]

/-- Once past the bound a program stays there, whatever follows. -/
theorem Past.bind {y : EStateM ε τ α} {g : α → EStateM ε τ β} {t : σ} {u : τ} (h : Past c y t u)
    (hg : ∀ a, Moves c.may (g a)) : Past c (y >>= g) t u := by
  unfold Past
  rw [wp_bind]
  refine wp.mono h (fun a v hv => ?_) fun _ _ hv => hv
  exact (hg a v).mono (fun _ _ hw => c.past_may _ hv hw) fun _ _ hw => c.past_may _ hv hw

theorem Past.after {y : EStateM ε τ α} {g : α → EStateM ε τ β} {t : σ} {u v : τ} {a : α} (hy : y u = .ok a v)
    (h : Past c (g a) t v) : Past c (y >>= g) t u := by
  unfold Past
  rwa [wp_bind, wp_ok hy]

section Bind
variable {x : EStateM ε σ α} {y : EStateM ε τ α} {f : α → EStateM ε σ β} {g : α → EStateM ε τ β}

/-- A call that may come past the bound: if it does, what follows stops at once. -/
theorem Mirrors.bind_near_of {P : α → Prop} (hm : Moves c.may y)
    (hx : ∀ s, c.within s → wp x
      (fun a t => P a ∧ c.within t ∧ y (c.free s) = .ok a (c.free t) ∨
        wp (f a) (fun _ _ => False) (fun e u => e = c.stop ∧ Past c y u (c.free s)) t)
      (fun e t => y (c.free s) = .error e (c.free t) ∨ e = c.stop ∧ Past c y t (c.free s)) s)
    (hf : ∀ a, P a → Mirrors c (f a) (g a)) (hg : ∀ a, Moves c.may (g a)) : Mirrors c (x >>= f) (y >>= g) := by
  refine ⟨hm.bind hg, fun s hs => ?_⟩
  rw [wp_bind]
  rcases (hx s hs).run with ⟨a, t, h, ⟨ha, ht, hy⟩ | hstop⟩ | ⟨e, t, h, hy | ⟨rfl, hp⟩⟩
  · rw [wp_ok h]
    refine ((hf a ha).run t ht).mono (fun b u hu => ⟨hu.1, (ok_bind hy).trans hu.2⟩) fun e u hu => ?_
    exact hu.imp (ok_bind hy).trans fun hu => ⟨hu.1, .after hy hu.2⟩
  · rw [wp_ok h]
    exact wp.mono hstop (fun _ _ hf => hf.elim) fun _ _ hu => .inr ⟨hu.1, hu.2.bind hg⟩
  · rw [wp_error h]
    exact .inl (error_bind hy)
  · rw [wp_error h]
    exact .inr ⟨rfl, hp.bind hg⟩

theorem Mirrors.bind_near (hm : Moves c.may y)
    (hx : ∀ s, c.within s → wp x
      (fun a t => c.within t ∧ y (c.free s) = .ok a (c.free t) ∨
        wp (f a) (fun _ _ => False) (fun e u => e = c.stop ∧ Past c y u (c.free s)) t)
      (fun e t => y (c.free s) = .error e (c.free t)) s)
    (hf : ∀ a, Mirrors c (f a) (g a)) : Mirrors c (x >>= f) (y >>= g) :=
  .bind_near_of (P := fun _ => True) hm
    (fun s hs => (hx s hs).mono (fun _ _ h => h.imp_left fun h => ⟨trivial, h⟩) fun _ _ h => .inl h)
    (fun a _ => hf a) fun a => (hf a).moves

/-- What follows may rely on the value that was returned. -/
theorem Mirrors.bind_of {P : α → Prop} (hx : Mirrors c x y) (hP : ∀ s, wp x (fun a _ => P a) (fun _ _ => True) s)
    (hf : ∀ a, P a → Mirrors c (f a) (g a)) (hg : ∀ a, Moves c.may (g a)) : Mirrors c (x >>= f) (y >>= g) := by
  refine .bind_near_of hx.moves (fun s hs => ?_) hf hg
  rcases (hx.run s hs).run with ⟨a, t, h, hy⟩ | ⟨e, t, h, hy⟩
  · exact (wp_ok h).mpr (.inl ⟨(wp_ok h).mp (hP s), hy⟩)
  · exact (wp_error h).mpr hy

theorem Mirrors.bind (hx : Mirrors c x y) (hf : ∀ a, Mirrors c (f a) (g a)) : Mirrors c (x >>= f) (y >>= g) :=
  .bind_near_of (P := fun _ => True) hx.moves
    (fun s hs => (hx.run s hs).mono (fun _ _ h => .inl ⟨trivial, h⟩) fun _ _ h => h) (fun a _ => hf a)
    fun a => (hf a).moves

end Bind

/-- Each looks at its own state. `S` is what the two have in common. -/
theorem Mirrors.get_bind {f : σ → EStateM ε σ β} {g : τ → EStateM ε τ β} {S : σ → τ → Prop}
    (hfree : ∀ s, S s (c.free s)) (hS : ∀ u, ∃ s, S s u) (h : ∀ s u, S s u → Mirrors c (f s) (g u)) :
    Mirrors c (get >>= f) (get >>= g) := by
  refine ⟨Moves.get.bind fun u => ?_, fun s hs => ?_⟩
  · obtain ⟨s, hs⟩ := hS u
    exact (h s u hs).moves
  · have hget : (get : EStateM ε τ τ) (c.free s) = .ok (c.free s) (c.free s) := rfl
    rw [wp_bind, wp_get]
    refine ((h s _ (hfree s)).run s hs).mono (fun b t ht => ⟨ht.1, (ok_bind hget).trans ht.2⟩) fun e t ht => ?_
    exact ht.imp (ok_bind hget).trans fun ht => ⟨ht.1, .after hget ht.2⟩

theorem Mirrors.upto {body : Nat → EStateM ε σ Unit} {body' : Nat → EStateM ε τ Unit}
    (h : ∀ i, Mirrors c (body i) (body' i)) (n i : Nat) : Mirrors c (Exec.upto body n i) (Exec.upto body' n i) := by
  induction n generalizing i with
  | zero => exact .pure ()
  | succ n ih => exact (h i).bind fun _ => ih (i + 1)

theorem Mirrors.scan {body : Nat → EStateM ε σ (Option α)} {body' : Nat → EStateM ε τ (Option α)}
    (h : ∀ i, Mirrors c (body i) (body' i)) (n i : Nat) : Mirrors c (Exec.scan body n i) (Exec.scan body' n i) := by
  induction n generalizing i with
  | zero => exact .pure none
  | succ n ih =>
    refine (h i).bind fun o => ?_
    cases o with
    | some a => exact .pure (some a)
    | none => exact ih (i + 1)

end Rules

end Dumbnose.Lib.Exec
