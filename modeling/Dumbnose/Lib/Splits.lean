/-
  Dumbnose.Lib.Splits — a list taken apart at one of its members, and what comes of that
  when the list grows at its end.

  What is said of each member and of those before it is said of the splits of a list. A
  split of a longer list is one of the shorter, or is in what was added
  (`split_append`); with one more member, it is at that one (`split_snoc`). So what holds
  at each step of a longer sequence holds at each of the shorter, and at the last
  (`forall_step_snoc`); or at the first, and at each of the rest behind it
  (`forall_step_cons`). And where each step tells whether something is kept, it holds
  after every part of a sequence exactly if every step says so (`forall_prefix_iff`); or
  an invariant holds behind what is seen (`forall_prefix_iff_of_inv`,
  `forall_step_iff_of_inv`). For a run of a system (`run_concat`) all of this is about
  its states (`forall_run_iff`, `forall_run_step_iff`).
-/

import Mathlib.Data.List.Induction
import Mathlib.Tactic.Common

namespace Dumbnose.Lib.Splits

variable {α : Type}

theorem split_append {as bs before after : List α} {x : α} (e : as ++ bs = before ++ x :: after) :
    (∃ after', as = before ++ x :: after') ∨ (∃ bs', bs = bs' ++ x :: after ∧ before = as ++ bs') := by
  rcases List.append_eq_append_iff.mp e with ⟨bs', hb, ho⟩ | ⟨c, hh, hc⟩
  · exact .inr ⟨bs', ho, hb⟩
  · cases c with
    | nil => exact .inr ⟨[], hc.symm, by rw [hh, List.append_nil, List.append_nil]⟩
    | cons y c =>
      obtain rfl : x = y := (List.cons.inj hc).1
      exact .inl ⟨c, hh⟩

theorem split_snoc {as before after : List α} {x y : α} (e : as ++ [y] = before ++ x :: after) :
    (∃ after', as = before ++ x :: after') ∨ (before = as ∧ x = y) := by
  rcases split_append e with h | ⟨bs', hb, rfl⟩
  · exact .inl h
  · cases bs' with
    | nil => exact .inr ⟨List.append_nil _, (List.cons.inj hb).1.symm⟩
    | cons z bs' =>
      have := congrArg List.length hb
      simp at this

theorem forall_step_nil {P : List α → α → Prop} : ∀ p x, p ++ [x] <+: [] → P p x := by
  intro p x hp
  exact absurd (List.prefix_nil.mp hp) (List.append_ne_nil_of_right_ne_nil _ (List.cons_ne_nil _ _))

theorem forall_step_cons {P : List α → α → Prop} {a : α} {as : List α} :
    (∀ p x, p ++ [x] <+: a :: as → P p x) ↔ P [] a ∧ ∀ p x, p ++ [x] <+: as → P (a :: p) x := by
  refine ⟨fun h => ⟨h [] a (List.prefix_append [a] as), fun p x hp => h (a :: p) x ?_⟩, fun h p x hp => ?_⟩
  · exact List.cons_prefix_cons.mpr ⟨rfl, hp⟩
  · cases p with
    | nil =>
      rw [(List.cons_prefix_cons.mp hp).1]
      exact h.1
    | cons b p =>
      obtain ⟨rfl, hrest⟩ := List.cons_prefix_cons.mp hp
      exact h.2 p x hrest

theorem forall_step_snoc {P : List α → α → Prop} {as : List α} {a : α} :
    (∀ p x, p ++ [x] <+: as ++ [a] → P p x) ↔ (∀ p x, p ++ [x] <+: as → P p x) ∧ P as a := by
  refine ⟨fun h => ⟨fun p x hp => h p x (hp.trans (List.prefix_append _ _)), h as a List.prefix_rfl⟩,
    fun h p x hp => ?_⟩
  rcases List.prefix_concat_iff.mp hp with e | hp
  · obtain ⟨rfl, ha⟩ := List.append_inj' e rfl
    rw [List.singleton_inj.mp ha]
    exact h.2
  · exact h.1 p x hp

theorem prefix_of_snoc {p as : List α} {a : α} (h : p ++ [a] <+: as) : p <+: as := (List.prefix_append p [a]).trans h

/-- What an invariant `S` lets one see of every step, when each that meets `B` keeps the
    invariant and does well, and each that does not shows. -/
theorem forall_step_iff_of_inv {S : List α → Prop} {R B : List α → α → Prop} (h0 : S [])
    (hs : ∀ p a, S p → B p a → S (p ++ [a]) ∧ R p a) (hf : ∀ p a, S p → ¬ B p a → ¬ R p a) (as : List α) :
    (∀ p a, p ++ [a] <+: as → R p a) ↔ ∀ p a, p ++ [a] <+: as → B p a := by
  have hB : (∀ p a, p ++ [a] <+: as → R p a) → ∀ p a, S p → p ++ [a] <+: as → B p a := fun h p a hp ha =>
    by_contra fun hb => hf p a hp hb (h p a ha)
  have hS : (∀ p a, p ++ [a] <+: as → R p a) ∨ (∀ p a, p ++ [a] <+: as → B p a) → ∀ p, p <+: as → S p := by
    intro h p
    induction p using List.reverseRecOn with
    | nil => exact fun _ => h0
    | append_singleton p a ih =>
      intro hp
      have hSp := ih (prefix_of_snoc hp)
      rcases h with h | h
      · exact (hs p a hSp (hB h p a hSp hp)).1
      · exact (hs p a hSp (h p a hp)).1
  refine ⟨fun h p a ha => hB h p a (hS (.inl h) p (prefix_of_snoc ha)) ha, fun h p a ha => ?_⟩
  exact (hs p a (hS (.inr h) p (prefix_of_snoc ha)) (h p a ha)).2

/-- The same of what is seen after every part of the list. -/
theorem forall_prefix_iff_of_inv {S T : List α → Prop} {B : List α → α → Prop} (h0 : S []) (hT : ∀ p, S p → T p)
    (hs : ∀ p a, S p → B p a → S (p ++ [a])) (hf : ∀ p a, S p → ¬ B p a → ¬ T (p ++ [a])) (as : List α) :
    (∀ p, p <+: as → T p) ↔ ∀ p a, p ++ [a] <+: as → B p a := by
  rw [← forall_step_iff_of_inv h0 (R := fun p a => T (p ++ [a]))
    (fun p a hp hb => ⟨hs p a hp hb, hT _ (hs p a hp hb)⟩) hf]
  refine ⟨fun h p a ha => h _ ha, fun h p hp => ?_⟩
  cases p using List.reverseRecOn with
  | nil => exact hT [] h0
  | append_singleton q a => exact h q a hp

/-- What holds after every part of a list of steps, when each step tells whether it is kept. -/
theorem forall_prefix_iff {S : List α → Prop} {B : List α → α → Prop} (h0 : S [])
    (hs : ∀ p a, S p → (S (p ++ [a]) ↔ B p a)) (as : List α) :
    (∀ p, p <+: as → S p) ↔ ∀ p a, p ++ [a] <+: as → B p a :=
  forall_prefix_iff_of_inv h0 (fun _ h => h) (fun p a hp => (hs p a hp).mpr) (fun p a hp hb h => hb ((hs p a hp).mp h))
    as

/-! ## Runs -/

section Runs
variable {σ : Type}

/-- A run that is one step longer. -/
theorem run_concat (step : σ → α → σ) {run : σ → List α → σ} (hnil : ∀ s, run s [] = s)
    (hcons : ∀ s a as, run s (a :: as) = run (step s a) as) (s : σ) (as : List α) (a : α) :
    run s (as ++ [a]) = step (run s as) a := by
  induction as generalizing s with
  | nil => rw [List.nil_append, hcons, hnil, hnil]
  | cons b as ih => rw [List.cons_append, hcons, hcons, ih]

variable (run : List α → σ) (step : σ → α → σ) (hrun : ∀ p a, run (p ++ [a]) = step (run p) a) {I T : σ → Prop}
  {B R : σ → α → Prop} (h0 : I (run []))
include hrun h0

/-- What an invariant `I` lets one see of every state. -/
theorem forall_run_iff (hT : ∀ s, I s → T s) (hs : ∀ s a, I s → B s a → I (step s a))
    (hf : ∀ s a, I s → ¬ B s a → ¬ T (step s a)) (as : List α) :
    (∀ p, p <+: as → T (run p)) ↔ ∀ p a, p ++ [a] <+: as → B (run p) a := by
  refine forall_prefix_iff_of_inv (S := fun p => I (run p)) h0 (fun p => hT _) ?_ ?_ as
  · intro p a h hb
    rw [hrun]
    exact hs _ a h hb
  · intro p a h hb
    rw [hrun]
    exact hf _ a h hb

/-- And of every step. -/
theorem forall_run_step_iff (hs : ∀ s a, I s → B s a → I (step s a) ∧ R s a)
    (hf : ∀ s a, I s → ¬ B s a → ¬ R s a) (as : List α) :
    (∀ p a, p ++ [a] <+: as → R (run p) a) ↔ ∀ p a, p ++ [a] <+: as → B (run p) a := by
  refine forall_step_iff_of_inv (S := fun p => I (run p)) h0 ?_ (fun p => hf _) as
  intro p a h hb
  rw [hrun]
  exact hs _ a h hb

end Runs

end Dumbnose.Lib.Splits
