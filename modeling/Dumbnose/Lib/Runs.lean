/-
  Dumbnose.Lib.Runs — the runs of a system that moves by one action at a time, whoever
  takes it.

  A step function says of a state and an action whether the action can be taken there
  (`none`: it is blocked, or whoever takes it is elsewhere), and if so the state after
  it and what is seen of it. `Reach` has the states that runs get to, each with all that
  was seen on the way. A fact about every interleaving is a fact about `Reach`; a fact
  about the past (what was handed out, and in which order) is one about the history, so
  the states carry nothing for it.

  `only ok step` takes only the actions that `ok` allows: its runs are the runs of `step`
  whose steps all meet the condition (`Reach.of_only`), and a weaker one allows more of
  them (`Reach.only_mono`). Where the condition is about the actions before, `noted step`
  has them beside the state.

  The rules: an invariant of states and histories (`Reach.inv`), runs one after another
  (`Reach.trans`), concrete runs (`exec`, `exec_append_iff`, `reach_of_exec`), one system
  standing for another (`Reach.simulate`: each step is matched by a run, and what is seen
  of the step by what is seen of that run), one doing all that another can
  (`exec_refines`), and two that are seen to do the same (`exec_agree`).
-/

import Mathlib.Data.List.Basic

namespace Dumbnose.Lib.Runs

variable {S A O : Type}

abbrev Step (S A O : Type) := S → A → Option (S × List O)

/-- The states the system can be in from `s₀`, each with what was seen on the way. -/
inductive Reach (step : Step S A O) (s₀ : S) : S → List O → Prop
  | init : Reach step s₀ s₀ []
  | step {s t : S} {a : A} {h o : List O} : Reach step s₀ s h → step s a = some (t, o) → Reach step s₀ t (h ++ o)

/-- The run that takes these actions, if each can be taken in its turn. -/
def exec (step : Step S A O) (s : S) : List A → Option (S × List O)
  | [] => some (s, [])
  | a :: as => (step s a).bind fun r => (exec step r.1 as).map fun u => (u.1, r.2 ++ u.2)

/-- The steps that meet a condition. -/
def only (ok : S → A → Prop) [∀ s a, Decidable (ok s a)] (step : Step S A O) : Step S A O := fun s a =>
  if ok s a then step s a else none

/-- The steps, with the actions taken so far beside the state. -/
def noted (step : Step S A O) : Step (S × List A) A O := fun x a =>
  (step x.1 a).map fun r => ((r.1, x.2 ++ [a]), r.2)

section Rules
variable {step : Step S A O} {s₀ : S}

/-- What holds at the start and is kept by every step holds in every state of every run. -/
theorem Reach.inv {I : S → List O → Prop} (h0 : I s₀ [])
    (hs : ∀ s h a t o, I s h → step s a = some (t, o) → I t (h ++ o)) {s : S} {h : List O}
    (hr : Reach step s₀ s h) : I s h := by
  induction hr with
  | init => exact h0
  | step _ hst ih => exact hs _ _ _ _ _ ih hst

/-- The same for what says nothing of the history. -/
theorem Reach.inv_state {I : S → Prop} (h0 : I s₀) (hs : ∀ s a t o, I s → step s a = some (t, o) → I t) {s : S}
    {h : List O} (hr : Reach step s₀ s h) : I s :=
  hr.inv (I := fun s _ => I s) h0 fun s _ a t o hI hst => hs s a t o hI hst

theorem Reach.trans {s t : S} {h h' : List O} (hr : Reach step s₀ s h) (hr' : Reach step s t h') :
    Reach step s₀ t (h ++ h') := by
  induction hr' with
  | init => rw [List.append_nil]; exact hr
  | step _ hst ih => rw [← List.append_assoc]; exact .step ih hst

theorem reach_of_exec (as : List A) {t : S} {h : List O} (he : exec step s₀ as = some (t, h)) :
    Reach step s₀ t h := by
  induction as generalizing s₀ h with
  | nil =>
    obtain ⟨rfl, rfl⟩ : s₀ = t ∧ [] = h := by simpa [exec] using he
    exact .init
  | cons a as ih =>
    obtain ⟨r, hst, ho⟩ := Option.bind_eq_some_iff.mp he
    obtain ⟨u, hu, hw⟩ := Option.map_eq_some_iff.mp ho
    obtain ⟨rfl, rfl⟩ : u.1 = t ∧ r.2 ++ u.2 = h := by simpa using hw
    have h1 : Reach step s₀ r.1 ([] ++ r.2) := .step .init hst
    exact h1.trans (ih hu)

theorem exec_cons {a : A} {as : List A} {s t u : S} {o h : List O} (hst : step s a = some (t, o))
    (he : exec step t as = some (u, h)) : exec step s (a :: as) = some (u, o ++ h) := by
  simp [exec, hst, he]

theorem exec_append {as bs : List A} {s t u : S} {h h' : List O} (ha : exec step s as = some (t, h))
    (hb : exec step t bs = some (u, h')) : exec step s (as ++ bs) = some (u, h ++ h') := by
  induction as generalizing s h with
  | nil =>
    obtain ⟨rfl, rfl⟩ : s = t ∧ [] = h := by simpa [exec] using ha
    exact hb
  | cons a as ih =>
    obtain ⟨r, hst, ho⟩ := Option.bind_eq_some_iff.mp ha
    obtain ⟨v, hv, hw⟩ := Option.map_eq_some_iff.mp ho
    obtain ⟨rfl, rfl⟩ : v.1 = t ∧ r.2 ++ v.2 = h := by simpa using hw
    rw [List.append_assoc]
    exact exec_cons hst (ih hv)

theorem exec_append_iff {as bs : List A} {s u : S} {h : List O} : exec step s (as ++ bs) = some (u, h) ↔
    ∃ t o o', exec step s as = some (t, o) ∧ exec step t bs = some (u, o') ∧ h = o ++ o' := by
  constructor
  · intro he
    induction as generalizing s h with
    | nil => exact ⟨s, [], h, rfl, he, rfl⟩
    | cons a as ih =>
      obtain ⟨r, hst, ho⟩ := Option.bind_eq_some_iff.mp he
      obtain ⟨v, hv, hw⟩ := Option.map_eq_some_iff.mp ho
      cases hw
      obtain ⟨t, o, o', has, hbs, hh⟩ := ih hv
      exact ⟨t, r.2 ++ o, o', exec_cons hst has, hbs, by rw [hh, List.append_assoc]⟩
  · rintro ⟨t, o, o', has, hbs, rfl⟩
    exact exec_append has hbs

/-- Where every step of one system can be taken by another with the same seen, so can
    every run. -/
theorem exec_refines {S' : Type} {step' : Step S' A O} (R : S → S' → Prop)
    (hs : ∀ s s' a t' o, R s s' → step' s' a = some (t', o) → ∃ t, step s a = some (t, o) ∧ R t t') (as : List A)
    {s : S} {s' t' : S'} {h : List O} (hR : R s s') (he : exec step' s' as = some (t', h)) :
    ∃ t, exec step s as = some (t, h) ∧ R t t' := by
  induction as generalizing s s' h with
  | nil =>
    obtain ⟨rfl, rfl⟩ : s' = t' ∧ [] = h := by simpa [exec] using he
    exact ⟨s, rfl, hR⟩
  | cons a as ih =>
    obtain ⟨r, hst, ho⟩ := Option.bind_eq_some_iff.mp he
    obtain ⟨v, hv, hw⟩ := Option.map_eq_some_iff.mp ho
    obtain ⟨rfl, rfl⟩ : v.1 = t' ∧ r.2 ++ v.2 = h := by simpa using hw
    obtain ⟨u, hu, hR'⟩ := hs s s' a r.1 r.2 hR hst
    obtain ⟨t, ht, hRt⟩ := ih hR' hv
    exact ⟨t, exec_cons hu ht, hRt⟩

/-- Where two systems see the same in every step that both can take, they do so in every
    run. -/
theorem exec_agree {S' : Type} {step' : Step S' A O} (R : S → S' → Prop)
    (hs : ∀ s s' a t t' o o', R s s' → step s a = some (t, o) → step' s' a = some (t', o') → o = o' ∧ R t t')
    (as : List A) {s t : S} {s' t' : S'} {h h' : List O} (hR : R s s') (he : exec step s as = some (t, h))
    (he' : exec step' s' as = some (t', h')) : h = h' ∧ R t t' := by
  induction as generalizing s s' h h' with
  | nil =>
    obtain ⟨rfl, rfl⟩ : s = t ∧ [] = h := by simpa [exec] using he
    obtain ⟨rfl, rfl⟩ : s' = t' ∧ [] = h' := by simpa [exec] using he'
    exact ⟨rfl, hR⟩
  | cons a as ih =>
    obtain ⟨r, hst, ho⟩ := Option.bind_eq_some_iff.mp he
    obtain ⟨u, hu, hw⟩ := Option.map_eq_some_iff.mp ho
    obtain ⟨rfl, rfl⟩ : u.1 = t ∧ r.2 ++ u.2 = h := by simpa using hw
    obtain ⟨r', hst', ho'⟩ := Option.bind_eq_some_iff.mp he'
    obtain ⟨u', hu', hw'⟩ := Option.map_eq_some_iff.mp ho'
    obtain ⟨rfl, rfl⟩ : u'.1 = t' ∧ r'.2 ++ u'.2 = h' := by simpa using hw'
    obtain ⟨hseen, hR'⟩ := hs s s' a r.1 r'.1 r.2 r'.2 hR hst hst'
    obtain ⟨hrest, hRt⟩ := ih hR' hu hu'
    exact ⟨by rw [hseen, hrest], hRt⟩

theorem only_eq_some {ok : S → A → Prop} [∀ s a, Decidable (ok s a)] {s : S} {a : A} {r : S × List O} :
    only ok step s a = some r ↔ ok s a ∧ step s a = some r := by
  unfold only
  by_cases e : ok s a <;> simp [e]

theorem noted_eq_some {x y : S × List A} {a : A} {o : List O} :
    noted step x a = some (y, o) ↔ step x.1 a = some (y.1, o) ∧ y.2 = x.2 ++ [a] := by
  unfold noted
  rw [Option.map_eq_some_iff]
  refine ⟨fun h => ?_, fun h => ⟨(y.1, o), h.1, by rw [← h.2]⟩⟩
  obtain ⟨r, hst, e⟩ := h
  cases e
  exact ⟨hst, rfl⟩

theorem Reach.of_only {ok : S → A → Prop} [∀ s a, Decidable (ok s a)] {s : S} {h : List O}
    (hr : Reach (only ok step) s₀ s h) : Reach step s₀ s h := by
  induction hr with
  | init => exact .init
  | step _ hst ih => exact .step ih (only_eq_some.mp hst).2

theorem Reach.only_mono {ok ok' : S → A → Prop} [∀ s a, Decidable (ok s a)] [∀ s a, Decidable (ok' s a)] {s : S}
    {h : List O} (hr : Reach (only ok step) s₀ s h) (hok : ∀ s a, ok s a → ok' s a) :
    Reach (only ok' step) s₀ s h := by
  induction hr with
  | init => exact .init
  | step _ hst ih =>
    obtain ⟨hs, hst⟩ := only_eq_some.mp hst
    exact .step ih (only_eq_some.mpr ⟨hok _ _ hs, hst⟩)

/-- Each step of one system is a run of another, which sees what `f` keeps of it. -/
theorem Reach.simulate {S' A' O' : Type} {step' : Step S' A' O'} {s₀' : S'} (R : S → S' → Prop) (f : O → Option O')
    (h0 : R s₀ s₀')
    (hs : ∀ s s' a t o, R s s' → step s a = some (t, o) → ∃ t', Reach step' s' t' (o.filterMap f) ∧ R t t')
    {s : S} {h : List O} (hr : Reach step s₀ s h) : ∃ s', Reach step' s₀' s' (h.filterMap f) ∧ R s s' := by
  induction hr with
  | init => exact ⟨s₀', .init, h0⟩
  | step _ hst ih =>
    obtain ⟨s', hr', hR⟩ := ih
    obtain ⟨t', ht', hR'⟩ := hs _ _ _ _ _ hR hst
    refine ⟨t', ?_, hR'⟩
    rw [List.filterMap_append]
    exact hr'.trans ht'

/-- What is seen of what is seen of a history. -/
theorem seen_seen {O' X : Type} {f : O → Option O'} {g : O' → Option X} {k : O → Option X}
    (hk : ∀ o, (f o).bind g = k o) (h : List O) : (h.filterMap f).filterMap g = h.filterMap k := by
  rw [List.filterMap_filterMap]
  exact List.filterMap_congr fun o _ => hk o

end Rules

end Dumbnose.Lib.Runs
