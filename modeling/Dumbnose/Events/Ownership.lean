/-
  Dumbnose.Events.Ownership — who unregisters a listener.

  Every registration should be held by one cookie, which unregisters it. Construction,
  copying, `unregister_early` and destruction keep that (`Owned`), and so does an
  assignment between objects that hold nothing. An assignment that has something to
  move moves it the wrong way: what the right object held is overwritten, and stays
  registered with nobody to unregister it. A temporary on the right always loses what
  it brings. And the id after 2^64 - 1 is 0, which is nobody's.

  `one_owner_iff`: a program's registrations have one owner each, and its assignments
  do what assignments are for, exactly if each step is `Careful`.
-/

import Mathlib.Data.List.Induction
import Mathlib.Tactic.Common
import Dumbnose.Events.EventSource
import Dumbnose.Lib.Splits

namespace Dumbnose.Events

open Lib.Exec Lib.Splits

variable {H : Type}

/-- What an object holds: 0 is nothing. -/
def World.held (s : World H) (x : Nat) : Nat :=
  match s.cookies x with
  | some c => c.cookie
  | none => 0

/-- The listeners are those that live cookies hold, each held by one. -/
structure Owned (s : World H) : Prop where
  ids : ∀ id, s.listeners id ≠ none ↔ id ≠ 0 ∧ ∃ x, s.held x = id
  unique : ∀ x y, s.held x ≠ 0 → s.held x = s.held y → x = y

/-- After `a = b`: `a` holds what `b` held, `b` nothing, and what `a` held is unregistered. -/
def Transferred (s : World H) (a b : Nat) (t : World H) : Prop :=
  t.held a = s.held b ∧ t.held b = 0 ∧ (s.held a ≠ 0 → t.listeners (s.held a) = none)

/-- What every run of a program should be. -/
structure OneOwner (s : World H) (ops : List (Op H)) : Prop where
  owned : ∀ p, p <+: ops → Owned (run s p)
  /-- No assert fails. -/
  returns : ∀ p op, p ++ [op] <+: ops → ∃ t, op.exec (run s p) = .ok () t
  transfers : ∀ p a b, p ++ [.assign a b] <+: ops → Transferred (run s p) a b (run s (p ++ [.assign a b]))
  /-- A listener that was removed is not removed again. -/
  once : ∀ p q, p <+: q → q <+: ops → ∀ id, id ≤ (run s p).largestEventCookie → (run s p).listeners id = none →
    (run s q).listeners id = none

/-- A step that moves nothing by assignment, and has an id left to give. -/
def Careful (s : World H) : Op H → Prop
  | .register _ _ => s.largestEventCookie + 1 < 2 ^ 64
  | .assign a b => s.held a = 0 ∧ s.held b = 0
  | .assignRegistered _ _ => False
  | _ => True

/-- Each step of a program uses objects that are there. -/
def Legal (s : World H) (ops : List (Op H)) : Prop := ∀ p op, p ++ [op] <+: ops → op.Legal (run s p)

/-! ## Steps -/

section Steps
variable {s t : World H} {E : Err → World H → Prop} {this : Nat}

def World.set (s : World H) (x : Nat) (c : Option Cookie) : World H :=
  { s with cookies := Function.update s.cookies x c }

/-- The listener of `id` is removed; 0 is nobody's. -/
def World.release (s : World H) (id : Nat) : World H :=
  { s with listeners := if id = 0 then s.listeners else Function.update s.listeners id none }

/-- A new listener. -/
def World.enlist (s : World H) (id : Nat) (listener : H) : World H :=
  { s with largestEventCookie := id, listeners := Function.update s.listeners id (some listener) }

theorem held_set (s : World H) (x y : Nat) (c : Option Cookie) :
    (s.set x c).held y = if y = x then (c.elim 0 Cookie.cookie) else s.held y := by
  by_cases e : y = x
  · subst e
    cases c <;> simp [World.held, World.set]
  · simp [World.held, World.set, e]

@[simp] theorem set_listeners (s : World H) (x : Nat) (c : Option Cookie) : (s.set x c).listeners = s.listeners := rfl

theorem wp_setObject {Q : Unit → World H → Prop} {c : Option Cookie} :
    wp (setObject this c) Q E s ↔ Q () (s.set this c) := by
  simp [setObject, World.set]

theorem wp_registerListener {Q : Cookie → World H → Prop} {l : H} :
    wp (registerListener l) Q E s ↔
      Q ⟨true, (s.largestEventCookie + 1) % 2 ^ 64⟩ (s.enlist ((s.largestEventCookie + 1) % 2 ^ 64) l) := by
  rw [registerListener, wp_bind, wp_get, wp_bind, wp_modify, wp_pure]
  rfl

theorem wp_object {Q : Cookie → World H → Prop} {c : Cookie} (h : s.cookies this = some c) :
    wp (object this) Q E s ↔ Q c s := by
  simp [object, h]

theorem held_eq {c : Cookie} (h : s.cookies this = some c) : s.held this = c.cookie := by rw [World.held, h]

theorem held_none (h : s.cookies this = none) : s.held this = 0 := by rw [World.held, h]

end Steps

/-- A cookie that holds something points at the source. -/
def Attached (s : World H) : Prop := ∀ x, ∀ c ∈ s.cookies x, c.cookie ≠ 0 → c.eventSource = true

/-- `Owned`, with what its steps need. -/
structure Inv (s : World H) : Prop extends Owned s where
  attached : Attached s
  bounded : ∀ id, s.listeners id ≠ none → id ≤ s.largestEventCookie
  small : s.largestEventCookie < 2 ^ 64

/-! ## Moves that keep ownership -/

section Moves
variable {s t : World H} {x y k : Nat} {c : Cookie}

theorem new_inv : Inv (World.new : World H) :=
  ⟨⟨fun _ => ⟨fun h => absurd rfl h, fun ⟨h0, _, hx⟩ => absurd hx.symm h0⟩, fun _ _ h => absurd rfl h⟩, nofun,
    fun _ h => absurd rfl h, Nat.two_pow_pos 64⟩

theorem Attached.set (h : Attached s) {c : Option Cookie} (hc : ∀ c' ∈ c, c'.cookie ≠ 0 → c'.eventSource = true) :
    Attached (s.set x c) := by
  intro y c' hy
  by_cases e : y = x
  · subst e
    simp only [World.set, Function.update_self] at hy
    exact hc c' hy
  · simp only [World.set, Function.update_of_ne e] at hy
    exact h y c' hy

theorem attached_of_empty {c : Option Cookie} (hc : c.elim 0 Cookie.cookie = 0) :
    ∀ c' ∈ c, c'.cookie ≠ 0 → c'.eventSource = true := by
  intro c' e h0
  subst e
  exact absurd hc h0

/-- An object that holds nothing becomes another that holds nothing, or none. -/
theorem Inv.set_empty (h : Inv s) (hx : s.held x = 0) {c : Option Cookie}
    (hc : c.elim 0 Cookie.cookie = 0) : Inv (s.set x c) := by
  have hh : ∀ y, (s.set x c).held y = s.held y := by
    intro y
    rw [held_set]
    split
    · rename_i e; rw [e, hx, hc]
    · rfl
  refine ⟨⟨fun id => ?_, fun y z => ?_⟩, h.attached.set (attached_of_empty hc), h.bounded, h.small⟩
  · simp only [hh, set_listeners]; exact h.ids id
  · simp only [hh]; exact h.unique y z

/-- What `x` holds goes to `y`, which held nothing. -/
theorem Inv.move (h : Inv s) (hxy : x ≠ y) (hc : s.cookies x = some c) (hy : s.held y = 0) :
    Inv ((s.set y (some c)).set x (some .empty)) := by
  have hcx := held_eq hc
  have hh : ∀ z, ((s.set y (some c)).set x (some .empty)).held z =
      if z = x then 0 else if z = y then s.held x else s.held z := by
    intro z
    rw [held_set, held_set, hcx]
    rfl
  refine ⟨⟨fun id => ?_, fun u v hu he => ?_⟩,
    (h.attached.set fun c' hc' => h.attached x c' (hc.trans hc')).set (attached_of_empty rfl), h.bounded, h.small⟩
  · simp only [hh, set_listeners]
    rw [h.ids]
    refine and_congr_right fun h0 => ⟨?_, ?_⟩
    · intro h
      obtain ⟨z, rfl⟩ := h
      by_cases e : z = x
      · exact ⟨y, by rw [if_neg hxy.symm, if_pos rfl, e]⟩
      · have e' : z ≠ y := by intro e; subst e; exact h0 hy
        exact ⟨z, by rw [if_neg e, if_neg e']⟩
    · intro h
      obtain ⟨z, rfl⟩ := h
      by_cases e : z = x
      · rw [if_pos e] at h0; exact absurd rfl h0
      · rw [if_neg e] at h0 ⊢
        by_cases e' : z = y
        · exact ⟨x, by rw [if_pos e']⟩
        · exact ⟨z, by rw [if_neg e']⟩
  · rw [hh] at hu
    rw [hh, hh] at he
    by_cases e : u = x
    · rw [if_pos e] at hu; exact absurd rfl hu
    · rw [if_neg e] at hu he
      by_cases e1 : v = x
      · rw [if_pos e1] at he; exact absurd he hu
      · rw [if_neg e1] at he
        by_cases e2 : u = y <;> by_cases e3 : v = y
        · rw [e2, e3]
        · rw [if_pos e2] at hu
          rw [if_pos e2, if_neg e3] at he
          exact absurd (h.unique x v hu he).symm e1
        · rw [if_neg e2] at hu
          rw [if_neg e2, if_pos e3] at he
          exact absurd (h.unique u x hu he) e
        · rw [if_neg e2] at hu
          rw [if_neg e2, if_neg e3] at he
          exact h.unique u v hu he

/-- A new object holds the next id. -/
theorem Inv.enlist (h : Inv s) (hx : s.held x = 0) (hk : s.largestEventCookie + 1 < 2 ^ 64) (listener : H) :
    Inv ((s.enlist (s.largestEventCookie + 1) listener).set x (some ⟨true, s.largestEventCookie + 1⟩)) := by
  have hfree : ∀ z, s.held z ≠ s.largestEventCookie + 1 := by
    intro z hz
    have := h.bounded _ ((h.ids _).mpr ⟨Nat.succ_ne_zero _, z, hz⟩)
    omega
  have hh : ∀ z, ((s.enlist (s.largestEventCookie + 1) listener).set x (some ⟨true, s.largestEventCookie + 1⟩)).held z =
      if z = x then s.largestEventCookie + 1 else s.held z := by
    intro z
    rw [held_set]
    rfl
  have hlis : ∀ id, (s.enlist (s.largestEventCookie + 1) listener).listeners id ≠ none ↔
      id = s.largestEventCookie + 1 ∨ s.listeners id ≠ none := by
    intro id
    by_cases e : id = s.largestEventCookie + 1
    · subst e
      simp [World.enlist]
    · simp [World.enlist, e]
  have hatt : Attached (s.enlist (s.largestEventCookie + 1) listener) := h.attached
  refine ⟨⟨fun id => ?_, fun u v hu he => ?_⟩, hatt.set (by rintro c' ⟨⟩ _; rfl), fun id hid => ?_, hk⟩
  · rw [set_listeners, hlis]
    simp only [hh]
    constructor
    · intro hid
      rcases hid with rfl | hid
      · exact ⟨Nat.succ_ne_zero _, x, if_pos rfl⟩
      · obtain ⟨h0, z, hz⟩ := (h.ids id).mp hid
        have e : z ≠ x := by intro e; subst e; exact h0 (hz.symm.trans hx)
        exact ⟨h0, z, by rw [if_neg e]; exact hz⟩
    · intro h0
      obtain ⟨h0, z, hz⟩ := h0
      by_cases e : z = x
      · rw [if_pos e] at hz; exact .inl hz.symm
      · rw [if_neg e] at hz; exact .inr ((h.ids id).mpr ⟨h0, z, hz⟩)
  · rw [hh] at hu
    rw [hh, hh] at he
    by_cases e1 : u = x <;> by_cases e2 : v = x
    · rw [e1, e2]
    · rw [if_pos e1, if_neg e2] at he; exact absurd he.symm (hfree v)
    · rw [if_neg e1, if_pos e2] at he; exact absurd he (hfree u)
    · rw [if_neg e1] at hu
      rw [if_neg e1, if_neg e2] at he
      exact h.unique u v hu he
  · rw [set_listeners, hlis] at hid
    rcases hid with rfl | hid
    · exact Nat.le_refl _
    · exact Nat.le_succ_of_le (h.bounded id hid)

/-- What `x` holds is unregistered, and `x` holds nothing or is gone. -/
theorem Inv.release (h : Inv s) {c : Option Cookie} (hc : c.elim 0 Cookie.cookie = 0) :
    Inv ((s.release (s.held x)).set x c) := by
  have hh : ∀ z, ((s.release (s.held x)).set x c).held z = if z = x then 0 else s.held z := by
    intro z
    rw [held_set, hc]
    rfl
  by_cases h0 : s.held x = 0
  · have : s.release (s.held x) = s := by rw [h0]; rfl
    rw [this]
    exact h.set_empty h0 hc
  have hlis : ∀ id, (s.release (s.held x)).listeners id ≠ none ↔ id ≠ s.held x ∧ s.listeners id ≠ none := by
    intro id
    by_cases e : id = s.held x
    · subst e
      simp [World.release, h0]
    · simp [World.release, h0, e]
  have hatt : Attached (s.release (s.held x)) := h.attached
  refine ⟨⟨fun id => ?_, fun u v hu he => ?_⟩, hatt.set (attached_of_empty hc), fun id hid => ?_, h.small⟩
  · rw [set_listeners, hlis, h.ids]
    simp only [hh]
    constructor
    · intro hne
      obtain ⟨hne, hid, z, rfl⟩ := hne
      have e : z ≠ x := by intro e; subst e; exact hne rfl
      exact ⟨hid, z, if_neg e⟩
    · intro hid
      obtain ⟨hid, z, hz⟩ := hid
      by_cases e : z = x
      · rw [if_pos e] at hz; exact absurd hz.symm hid
      · rw [if_neg e] at hz
        refine ⟨?_, hid, z, hz⟩
        intro e
        subst e
        exact e (h.unique x z h0 hz.symm).symm
  · rw [hh] at hu
    rw [hh, hh] at he
    by_cases e1 : u = x
    · rw [if_pos e1] at hu; exact absurd rfl hu
    · rw [if_neg e1] at hu he
      by_cases e2 : v = x
      · rw [if_pos e2] at he; exact absurd he hu
      · rw [if_neg e2] at he
        exact h.unique u v hu he
  · rw [set_listeners, hlis] at hid
    exact h.bounded id hid.2

end Moves

/-! ## Operations -/

/-- What every careful step keeps. -/
structure Stepped (s t : World H) : Prop where
  inv : Inv t
  largest : s.largestEventCookie ≤ t.largestEventCookie
  once : ∀ id, id ≤ s.largestEventCookie → s.listeners id = none → t.listeners id = none

section Ops
variable {s : World H} {x : Nat} {c : Cookie}

/-- No assert of `unregister_listener` fails. -/
theorem unregister_returns (h : Inv s) (hc : s.cookies x = some c) :
    Returns (unregister c) (fun r t => r.cookie = 0 ∧ t = s.release (s.held x)) s := by
  rw [held_eq hc]
  unfold Returns unregister
  by_cases h0 : c.cookie = 0
  · rw [if_neg (not_not.mpr h0)]
    exact ⟨h0, by rw [h0]; rfl⟩
  · have hin : s.listeners c.cookie ≠ none := (h.ids _).mpr ⟨h0, x, held_eq hc⟩
    have hle := h.bounded _ hin
    rw [if_pos h0, if_pos (h.attached x c hc h0), wp_bind, unregisterListener, if_neg h0, wp_bind, wp_get,
      wp_bind, assert, if_pos ⟨h0, hle⟩, wp_pure, wp_bind, wp_get, wp_bind, assert,
      if_pos (Option.isSome_iff_ne_none.mpr hin), wp_pure, wp_modify]
    refine ⟨rfl, ?_⟩
    rw [World.release, if_neg h0]

theorem Stepped.of_listeners {t : World H} (ht : Inv t) (hl : t.listeners = s.listeners)
    (hn : t.largestEventCookie = s.largestEventCookie) : Stepped s t :=
  ⟨ht, Nat.le_of_eq hn.symm, fun _ _ h => by rw [hl]; exact h⟩

theorem Stepped.release (h : Inv s) {c : Option Cookie} (hc : c.elim 0 Cookie.cookie = 0) :
    Stepped s ((s.release (s.held x)).set x c) := by
  refine ⟨h.release hc, Nat.le_refl _, fun id _ hid => ?_⟩
  rw [set_listeners, World.release]
  by_cases h0 : s.held x = 0
  · simp only [h0, if_true]; exact hid
  · simp only [h0, if_false, Function.update_apply, hid, ite_self]

theorem Stepped.enlist (h : Inv s) (hx : s.held x = 0) (hk : s.largestEventCookie + 1 < 2 ^ 64) (listener : H) :
    Stepped s ((s.enlist (s.largestEventCookie + 1) listener).set x (some ⟨true, s.largestEventCookie + 1⟩)) := by
  refine ⟨h.enlist hx hk listener, Nat.le_succ _, fun id hle hid => ?_⟩
  have hne : id ≠ s.largestEventCookie + 1 := by omega
  simp [World.enlist, hne, hid]

theorem assign_returns {a b : Nat} (ha : s.cookies a = some c) :
    Returns (assign a b) (fun _ t => t = (s.set b (some c)).set a (some .empty)) s := by
  unfold Returns assign
  rw [wp_bind, wp_object ha, wp_bind, wp_setObject, wp_setObject]

/-- A careful step returns, and keeps what `Stepped` says. -/
theorem Op.exec_returns (h : Inv s) {op : Op H} (hl : op.Legal s) (hc : Careful s op) :
    Returns op.exec (fun _ t => Stepped s t ∧ ∀ a b, op = .assign a b → Transferred s a b t) s := by
  have hobj : ∀ {y}, s.cookies y ≠ none → ∃ c, s.cookies y = some c := fun h => Option.ne_none_iff_exists'.mp h
  unfold Returns
  cases op with
  | construct x =>
    rw [Op.exec, wp_setObject]
    exact ⟨.of_listeners (h.set_empty (held_none hl) rfl) rfl rfl, nofun⟩
  | register x listener =>
    have hmod : (s.largestEventCookie + 1) % 2 ^ 64 = s.largestEventCookie + 1 := Nat.mod_eq_of_lt hc
    rw [Op.exec, wp_bind, wp_registerListener, hmod, wp_setObject]
    exact ⟨.enlist h (held_none hl) hc listener, nofun⟩
  | copy x y =>
    obtain ⟨c, hy⟩ := hobj hl.2
    have hxy : y ≠ x := by intro e; subst e; exact hl.2 hl.1
    have hy' : (s.set x (some .empty)).cookies y = some c := (Function.update_of_ne hxy _ _).trans hy
    rw [Op.exec, Events.copy, wp_bind, wp_setObject]
    apply (assign_returns hy').wp
    intro _ t e
    subst e
    refine ⟨.of_listeners ?_ rfl rfl, nofun⟩
    exact (h.set_empty (held_none hl.1) rfl).move hxy hy' (by rw [held_set, if_pos rfl]; rfl)
  | assign a b =>
    obtain ⟨c, ha⟩ := hobj hl.1
    have hc0 : c.cookie = 0 := (held_eq ha).symm.trans hc.1
    rw [Op.exec]
    apply (assign_returns ha).wp
    intro _ t e
    subst e
    have hb : Inv (s.set b (some c)) := h.set_empty hc.2 hc0
    have ha' : (s.set b (some c)).held a = 0 := by
      rw [held_set]
      split
      · exact hc0
      · exact hc.1
    refine ⟨.of_listeners (hb.set_empty ha' rfl) rfl rfl, fun a' b' he => ?_⟩
    injection he with h1 h2
    subst h1 h2
    refine ⟨?_, ?_, fun h => absurd hc.1 h⟩
    · rw [held_set, if_pos rfl, hc.2]; rfl
    · rw [held_set]
      split
      · rfl
      · rw [held_set, if_pos rfl]; exact hc0
  | assignRegistered x listener => exact hc.elim
  | unregisterEarly x =>
    obtain ⟨c, hx⟩ := hobj hl
    rw [Op.exec, Events.unregisterEarly, wp_bind, wp_object hx, wp_bind]
    apply (unregister_returns h hx).wp
    intro r t hr
    obtain ⟨hr, rfl⟩ := hr
    rw [wp_setObject]
    exact ⟨.release h hr, nofun⟩
  | destroy x =>
    obtain ⟨c, hx⟩ := hobj hl
    rw [Op.exec, Events.destroy, wp_bind, wp_object hx, wp_bind]
    apply (unregister_returns h hx).wp
    intro r t h
    obtain ⟨-, rfl⟩ := h
    rw [wp_setObject]
    exact ⟨.release h rfl, nofun⟩

end Ops

/-! ## Programs -/

section Programs
variable {s : World H} {ops p : List (Op H)}

theorem run_append (s : World H) (p q : List (Op H)) : run s (p ++ q) = run (run s p) q := by
  induction p generalizing s with
  | nil => rfl
  | cons op p ih =>
    rw [List.cons_append, run, run]
    cases op.exec s <;> exact ih _

theorem run_snoc {Q : Unit → World H → Prop} {op : Op H} (h : Returns op.exec Q (run s p)) :
    ∃ t, op.exec (run s p) = .ok () t ∧ run s (p ++ [op]) = t ∧ Q () t := by
  obtain ⟨_, t, ht, hQ⟩ := h.run
  exact ⟨t, ht, by rw [run_append, run, ht]; rfl, hQ⟩

theorem legal_cons {op : Op H} (h : op.Legal s) (ho : Legal (run s [op]) ops) : Legal s (op :: ops) := by
  refine forall_step_cons.mpr ⟨h, fun p op' hp => ?_⟩
  rw [← List.singleton_append, run_append]
  exact ho p op' hp

theorem run_inv (hs : Inv s) (hl : Legal s ops) (hc : ∀ p op, p ++ [op] <+: ops → Careful (run s p) op)
    (hp : p <+: ops) :
    Inv (run s p) := by
  induction p using List.reverseRecOn with
  | nil => exact hs
  | append_singleton p op ih =>
    obtain ⟨t, -, ht, h, -⟩ := run_snoc (Op.exec_returns (ih (prefix_of_snoc hp)) (hl p op hp) (hc p op hp))
    rw [ht]
    exact h.inv

theorem one_owner_of_careful (hs : Inv s) (hl : Legal s ops) (hc : ∀ p op, p ++ [op] <+: ops → Careful (run s p) op) :
    OneOwner s ops := by
  have hstep : ∀ p op, p ++ [op] <+: ops → ∃ t, op.exec (run s p) = .ok () t ∧ run s (p ++ [op]) = t ∧
      Stepped (run s p) t ∧ ∀ a b, op = .assign a b → Transferred (run s p) a b t :=
    fun p op hp => run_snoc (Op.exec_returns (run_inv hs hl hc (prefix_of_snoc hp)) (hl p op hp) (hc p op hp))
  refine ⟨fun p hp => (run_inv hs hl hc hp).toOwned, fun p op hp => ?_, fun p a b hp => ?_, ?_⟩
  · obtain ⟨t, ht, -⟩ := hstep p op hp
    exact ⟨t, ht⟩
  · obtain ⟨t, -, ht, -, h⟩ := hstep p _ hp
    rw [ht]
    exact h a b rfl
  · intro p q h hq id hid hn
    obtain ⟨r, rfl⟩ := h
    -- the largest id only grows, so the id is not given again
    suffices h : (run s p).largestEventCookie ≤ (run s (p ++ r)).largestEventCookie ∧
      (run s (p ++ r)).listeners id = none from h.2
    induction r using List.reverseRecOn with
    | nil => rw [List.append_nil]; exact ⟨Nat.le_refl _, hn⟩
    | append_singleton r op ih =>
      rw [← List.append_assoc] at hq ⊢
      obtain ⟨h1, h2⟩ := ih (prefix_of_snoc hq)
      obtain ⟨t, -, ht, h, -⟩ := hstep _ op hq
      rw [ht]
      exact ⟨Nat.le_trans h1 h.largest, h.once id (Nat.le_trans hid h1) h2⟩

/-- Of the listeners, unregistering touches one, and of the objects none. -/
theorem unregister_frame {c : Cookie} {k : Nat} (hk : k ≠ c.cookie ∨ c.cookie = 0) :
    wp (unregister c) (fun _ t => t.cookies = s.cookies ∧ t.listeners k = s.listeners k)
      (fun _ t => t.cookies = s.cookies ∧ t.listeners k = s.listeners k) s := by
  unfold unregister unregisterListener assert
  by_cases h0 : c.cookie = 0
  · simp [h0]
  · have hk := hk.resolve_right h0
    by_cases hs : c.eventSource = true <;> by_cases hle : c.cookie ≤ s.largestEventCookie <;>
      cases hm : s.listeners c.cookie <;> simp [h0, hs, hle, hm, hk]

/-- The temporary's listener stays, and no object holds it. -/
theorem assignRegistered_wp {x : Nat} {c : Cookie} (listener : H) (hx : s.cookies x = some c)
    (hk : (s.largestEventCookie + 1) % 2 ^ 64 ≠ c.cookie ∨ c.cookie = 0) :
    wp (Op.assignRegistered x listener).exec
      (fun _ t => t.cookies = (s.set x (some .empty)).cookies ∧
        t.listeners ((s.largestEventCookie + 1) % 2 ^ 64) ≠ none)
      (fun _ t => t.cookies = (s.set x (some .empty)).cookies ∧
        t.listeners ((s.largestEventCookie + 1) % 2 ^ 64) ≠ none) s := by
  have hx' : (s.enlist ((s.largestEventCookie + 1) % 2 ^ 64) listener).cookies x = some c := hx
  have hin : (s.enlist ((s.largestEventCookie + 1) % 2 ^ 64) listener).listeners
    ((s.largestEventCookie + 1) % 2 ^ 64) ≠ none := by
    simp [World.enlist]
  rw [Op.exec, wp_bind, wp_registerListener, wp_bind, wp_object hx', wp_bind, wp_setObject, wp_bind]
  refine (unregister_frame hk).mono (fun _ t ht => ?_) fun _ t ht => ?_ <;>
    exact ⟨ht.1, by rw [ht.2]; exact hin⟩

/-- A step that is not careful shows. -/
theorem careful_of_owned (h : Inv s) {op : Op H} (hl : op.Legal s) (ho : Owned (run s [op]))
    (ht : ∀ a b, op = .assign a b → Transferred s a b (run s [op])) : Careful s op := by
  have hrun : ∀ P : World H → Prop, wp op.exec (fun _ t => P t) (fun _ t => P t) s → P (run s [op]) := by
    intro P hw
    rw [run]
    rcases hw.run with ⟨_, t, ht, h⟩ | ⟨_, t, ht, h⟩ <;> rw [ht] <;> exact h
  have hnext : (s.largestEventCookie + 1) % 2 ^ 64 = 0 ∨
    (s.largestEventCookie + 1) % 2 ^ 64 = s.largestEventCookie + 1 := by
    have := h.small
    omega
  cases op with
  | construct x => trivial
  | copy x y => trivial
  | unregisterEarly x => trivial
  | destroy x => trivial
  | register x listener =>
    by_contra hk
    -- the id is 0
    have h0 : (s.largestEventCookie + 1) % 2 ^ 64 = 0 := hnext.resolve_right fun e => by
      have := Nat.mod_lt (s.largestEventCookie + 1) (Nat.two_pow_pos 64)
      exact hk (show s.largestEventCookie + 1 < 2 ^ 64 by omega)
    have hin := hrun (fun t => t.listeners ((s.largestEventCookie + 1) % 2 ^ 64) ≠ none) (by
      rw [Op.exec, wp_bind, wp_registerListener, wp_setObject]
      simp [World.enlist])
    exact ((ho.ids _).mp hin).1 h0
  | assignRegistered x listener =>
    obtain ⟨c, hx⟩ := Option.ne_none_iff_exists'.mp hl
    have hne : (s.largestEventCookie + 1) % 2 ^ 64 ≠ c.cookie ∨ c.cookie = 0 := by
      by_cases h0 : c.cookie = 0
      · exact .inr h0
      · have := h.bounded _ ((h.ids _).mpr ⟨h0, x, held_eq hx⟩)
        exact .inl (by omega)
    -- the new id is in the map, and no object holds it
    obtain ⟨hcookies, hin⟩ := hrun _ (assignRegistered_wp listener hx hne)
    obtain ⟨h0, z, hz⟩ := (ho.ids _).mp hin
    rw [World.held, hcookies] at hz
    change (s.set x (some .empty)).held z = _ at hz
    rw [held_set] at hz
    split at hz
    · exact absurd hz.symm h0
    · have := h.bounded _ ((h.ids _).mpr ⟨hz ▸ h0, z, rfl⟩)
      have := hnext.resolve_left h0
      omega
  | assign a b =>
    obtain ⟨c, ha⟩ := Option.ne_none_iff_exists'.mp hl.1
    obtain ⟨h1, h2, -⟩ := ht a b rfl
    have hr := hrun (· = (s.set b (some c)).set a (some .empty)) ((assign_returns ha).wp fun _ _ h => h)
    rw [hr, held_set, if_pos rfl] at h1
    rw [hr, held_set, held_set, if_pos rfl] at h2
    by_cases e : b = a
    · subst e
      exact ⟨h1.symm, h1.symm⟩
    · rw [if_neg e] at h2
      exact ⟨(held_eq ha).trans h2, h1.symm⟩

end Programs

/-- The registrations of a program have one owner each, and its assignments transfer,
    exactly if every step is careful. -/
theorem one_owner_iff (ops : List (Op H)) (hl : Legal World.new ops) :
    OneOwner World.new ops ↔ ∀ p op, p ++ [op] <+: ops → Careful (run World.new p) op := by
  refine ⟨fun ho => ?_, one_owner_of_careful new_inv hl⟩
  have hall : ∀ p, p <+: ops → Inv (run World.new p) ∧ ∀ q op, q ++ [op] <+: p → Careful (run World.new q) op := by
    intro p
    induction p using List.reverseRecOn with
    | nil => exact fun _ => ⟨new_inv, forall_step_nil⟩
    | append_singleton p op ih =>
      intro hp
      obtain ⟨h1, h2⟩ := ih (prefix_of_snoc hp)
      have hc : Careful (run World.new p) op := by
        refine careful_of_owned h1 (hl p op hp) ?_ fun a b e => ?_
        · rw [← run_append]; exact ho.owned _ hp
        · rw [← run_append]; subst e; exact ho.transfers p a b hp
      refine ⟨?_, forall_step_snoc.mpr ⟨h2, hc⟩⟩
      obtain ⟨t, -, ht, h, -⟩ := run_snoc (Op.exec_returns h1 (hl p op hp) hc)
      rw [ht]
      exact h.inv
  exact fun p op hp => (hall _ hp).2 p op (List.prefix_refl _)

/-- An empty cookie is assigned one that holds listener 1: then neither holds it, and it
    is still there. -/
theorem assignment_loses :
    let ops : List (Op Unit) := [.register 0 (), .construct 1, .assign 1 0]
    Legal World.new ops ∧ (run World.new ops).listeners 1 = some () ∧ (run World.new ops).held 0 = 0 ∧
      (run World.new ops).held 1 = 0 ∧ ¬ OneOwner World.new ops := by
  refine ⟨legal_cons rfl (legal_cons rfl (legal_cons ⟨by decide, by decide⟩ forall_step_nil)),
    rfl, rfl, rfl, fun h => ?_⟩
  exact absurd (h.transfers [.register 0 (), .construct 1] 1 0 (List.prefix_refl _)).1 (by decide)

/-- A registration that is copied, and unregistered by the copy. -/
theorem one_owner_copy :
    OneOwner World.new [Op.register 0 (), .copy 1 0, .destroy 0, .unregisterEarly 1] ↔
      ∀ p op, p ++ [op] <+: [Op.register 0 (), .copy 1 0, .destroy 0, .unregisterEarly 1] →
        Careful (run World.new p) op :=
  one_owner_iff _ (legal_cons rfl (legal_cons ⟨rfl, by decide⟩ (legal_cons (show _ ≠ none by decide)
    (legal_cons (show _ ≠ none by decide) forall_step_nil))))

end Dumbnose.Events
