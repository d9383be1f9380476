/-
  Dumbnose.Com.Unknown — the reference count of `unknown_t` (`com_unknown.hpp`).

  `AddRef` is one interlocked increment. `Release` takes several steps: an interlocked
  decrement, whose answer is dropped, a read of `m_refCount` against zero, and then
  either `delete this` or another read, for the answer. The steps of all threads
  interleave.

  Each thread owns references: it calls `AddRef` with at least one, gives one up with the
  decrement of `Release`, and may pass one on. `m_refCount` is a long, 32 bits; what is
  read of it after the deletion is an access to freed memory.

  The reads after the decrement are what goes wrong (`Ok`). Once the count is zero every
  `Release` that has yet to test it deletes, whoever brought it there; and once one has
  deleted, every `Release` that has yet to read its answer reads freed memory. In a run
  where neither happens the object is deleted once, by the `Release` that took the count to
  zero (`reach_ok`), and it is deleted when the last reference is given up (`reach_held`);
  in a run that ended with every call over, only then (`deletes_once_iff`).
-/

import Mathlib.Algebra.Group.Nat.Defs
import Dumbnose.Lib.Runs
import Dumbnose.Lib.Tally

namespace Dumbnose.Com

open Lib.Runs Lib.Tally

/-- Where a thread is in `Release`. -/
inductive Unknown.Pc where
  | idle
  /-- Past the decrement. -/
  | decremented
  /-- Past the test, which found zero. -/
  | zero
  /-- Past the test, which found another value. -/
  | nonzero
  deriving DecidableEq

structure Unknown (T : Type) where
  refCount : Nat
  deleted : Bool
  /-- The references each thread has. -/
  owned : T → Nat
  pc : T → Unknown.Pc

namespace Unknown

inductive Act (T : Type) where
  | addRef (t : T)
  | decrement (t : T)
  | test (t : T)
  | delete (t : T)
  | readBack (t : T)
  | pass (t u : T)

inductive Seen (T : Type) where
  /-- A decrement that took the count to zero. -/
  | tookToZero (t : T)
  | deleted (t : T)
  | accessAfterDelete (t : T)
  deriving DecidableEq

variable {T : Type}

/-- The threads that took the count to zero. -/
def zeroers (h : List (Seen T)) : List T :=
  h.filterMap fun | .tookToZero t => some t | _ => none

/-- The threads that deleted the object. -/
def deleters (h : List (Seen T)) : List T :=
  h.filterMap fun | .deleted t => some t | _ => none

/-- The number after `n`, of 32 bits. -/
def interlockedIncrement (n : Nat) : Nat := if n + 1 = 2 ^ 32 then 0 else n + 1

/-- The number before `n`, of 32 bits. -/
def interlockedDecrement (n : Nat) : Nat := if n = 0 then 2 ^ 32 - 1 else n - 1

/-- An object, and who has how many of its references. -/
def start [Fintype T] (owned : T → Nat) : Unknown T := ⟨tally id owned, false, owned, fun _ => .idle⟩

section Steps
variable [DecidableEq T]

def goto (s : Unknown T) (t : T) (p : Pc) : Unknown T := { s with pc := Function.update s.pc t p }

def own (s : Unknown T) (t : T) (n : Nat) : Unknown T := { s with owned := Function.update s.owned t n }

/-- What an access to the object does where it is gone. -/
def gone (s : Unknown T) (t : T) : Unknown T × List (Seen T) := (s.goto t .idle, [.accessAfterDelete t])

/-- The state after the decrement of a `Release`. -/
def afterDecrement (s : Unknown T) (t : T) : Unknown T :=
  ({ s with refCount := interlockedDecrement s.refCount }.own t (s.owned t - 1)).goto t .decremented

def step (s : Unknown T) : Act T → Option (Unknown T × List (Seen T))
  | .addRef t =>
    if s.pc t = .idle ∧ 0 < s.owned t then
      if s.deleted then some (s.gone t)
      else some ({ s with refCount := interlockedIncrement s.refCount }.own t (s.owned t + 1), [])
    else none
  | .decrement t =>
    if s.pc t = .idle ∧ 0 < s.owned t then
      if s.deleted then some (s.gone t)
      else some (s.afterDecrement t, if interlockedDecrement s.refCount = 0 then [.tookToZero t] else [])
    else none
  | .test t =>
    if s.pc t = .decremented then
      if s.deleted then some (s.gone t)
      else some (s.goto t (if s.refCount = 0 then .zero else .nonzero), [])
    else none
  | .delete t => if s.pc t = .zero then some ({ s with deleted := true }.goto t .idle, [.deleted t]) else none
  | .readBack t =>
    if s.pc t = .nonzero then
      if s.deleted then some (s.gone t) else some (s.goto t .idle, [])
    else none
  | .pass t u =>
    if s.pc t = .idle ∧ 0 < s.owned t ∧ t ≠ u then
      some ((s.own t (s.owned t - 1)).own u (s.owned u + 1), [])
    else none

theorem step_cases {s u : Unknown T} {a : Act T} {o : List (Seen T)} (h : step s a = some (u, o)) :
    (∃ t, (0 < s.owned t ∨ s.pc t ≠ .idle) ∧ s.deleted = true ∧ u = s.goto t .idle ∧ o = [.accessAfterDelete t]) ∨
    (∃ t, a = .addRef t ∧ s.pc t = .idle ∧ 0 < s.owned t ∧ s.deleted = false ∧
      u = { s with refCount := interlockedIncrement s.refCount }.own t (s.owned t + 1) ∧ o = []) ∨
    (∃ t, a = .decrement t ∧ s.pc t = .idle ∧ 0 < s.owned t ∧ s.deleted = false ∧ u = s.afterDecrement t ∧
      o = if interlockedDecrement s.refCount = 0 then [.tookToZero t] else []) ∨
    (∃ t, a = .test t ∧ s.pc t = .decremented ∧ s.deleted = false ∧
      u = s.goto t (if s.refCount = 0 then .zero else .nonzero) ∧ o = []) ∨
    (∃ t, a = .delete t ∧ s.pc t = .zero ∧ u = { s with deleted := true }.goto t .idle ∧ o = [.deleted t]) ∨
    (∃ t, a = .readBack t ∧ s.pc t = .nonzero ∧ s.deleted = false ∧ u = s.goto t .idle ∧ o = []) ∨
    (∃ t v, a = .pass t v ∧ s.pc t = .idle ∧ 0 < s.owned t ∧ t ≠ v ∧
      u = (s.own t (s.owned t - 1)).own v (s.owned v + 1) ∧ o = []) := by
  cases a with
  | addRef t =>
    cases hd : s.deleted <;> simp [step, gone, hd] at h
    · exact .inr (.inl ⟨t, rfl, h.1.1, h.1.2, rfl, h.2.1.symm, h.2.2⟩)
    · exact .inl ⟨t, .inl h.1.2, rfl, h.2.1.symm, h.2.2.symm⟩
  | decrement t =>
    cases hd : s.deleted <;> simp [step, gone, hd] at h
    · exact .inr (.inr (.inl ⟨t, rfl, h.1.1, h.1.2, rfl, h.2.1.symm, h.2.2.symm⟩))
    · exact .inl ⟨t, .inl h.1.2, rfl, h.2.1.symm, h.2.2.symm⟩
  | test t =>
    cases hd : s.deleted <;> simp [step, gone, hd] at h
    · exact .inr (.inr (.inr (.inl ⟨t, rfl, h.1, rfl, h.2.1.symm, h.2.2⟩)))
    · exact .inl ⟨t, .inr (by rw [h.1]; decide), rfl, h.2.1.symm, h.2.2.symm⟩
  | delete t =>
    simp [step] at h
    exact .inr (.inr (.inr (.inr (.inl ⟨t, rfl, h.1, h.2.1.symm, h.2.2.symm⟩))))
  | readBack t =>
    cases hd : s.deleted <;> simp [step, gone, hd] at h
    · exact .inr (.inr (.inr (.inr (.inr (.inl ⟨t, rfl, h.1, rfl, h.2.1.symm, h.2.2⟩)))))
    · exact .inl ⟨t, .inr (by rw [h.1]; decide), rfl, h.2.1.symm, h.2.2.symm⟩
  | pass t v =>
    simp [step] at h
    exact .inr (.inr (.inr (.inr (.inr (.inr ⟨t, v, rfl, h.1.1, h.1.2.1, h.1.2.2, h.2.1.symm, h.2.2⟩)))))

@[simp] theorem goto_pc (s : Unknown T) (t u : T) (p : Pc) : (s.goto t p).pc u = if u = t then p else s.pc u :=
  Function.update_apply ..

@[simp] theorem goto_refCount (s : Unknown T) (t : T) (p : Pc) : (s.goto t p).refCount = s.refCount := rfl

@[simp] theorem goto_deleted (s : Unknown T) (t : T) (p : Pc) : (s.goto t p).deleted = s.deleted := rfl

@[simp] theorem goto_owned (s : Unknown T) (t : T) (p : Pc) : (s.goto t p).owned = s.owned := rfl

@[simp] theorem own_pc (s : Unknown T) (t : T) (n : Nat) : (s.own t n).pc = s.pc := rfl

@[simp] theorem own_refCount (s : Unknown T) (t : T) (n : Nat) : (s.own t n).refCount = s.refCount := rfl

@[simp] theorem own_deleted (s : Unknown T) (t : T) (n : Nat) : (s.own t n).deleted = s.deleted := rfl

@[simp] theorem afterDecrement_refCount (s : Unknown T) (t : T) :
    (s.afterDecrement t).refCount = interlockedDecrement s.refCount := rfl

@[simp] theorem afterDecrement_deleted (s : Unknown T) (t : T) : (s.afterDecrement t).deleted = s.deleted := rfl

theorem afterDecrement_pc (s : Unknown T) (t u : T) :
    (s.afterDecrement t).pc u = if u = t then .decremented else s.pc u := goto_pc ..

end Steps

@[simp] theorem zeroers_append (h o : List (Seen T)) : zeroers (h ++ o) = zeroers h ++ zeroers o :=
  List.filterMap_append ..

@[simp] theorem deleters_append (h o : List (Seen T)) : deleters (h ++ o) = deleters h ++ deleters o :=
  List.filterMap_append ..

theorem interlockedIncrement_eq {n : Nat} (h : n + 1 < 2 ^ 32) : interlockedIncrement n = n + 1 :=
  if_neg (Nat.ne_of_lt h)

theorem interlockedDecrement_eq {n : Nat} (h : 0 < n) : interlockedDecrement n = n - 1 :=
  if_neg (Nat.ne_of_gt h)

/-- The references fit into a long. -/
def FewReferences (s : Unknown T) : Act T → Prop
  | .addRef _ => s.refCount + 1 < 2 ^ 32
  | _ => True

instance (s : Unknown T) : (a : Act T) → Decidable (FewReferences s a)
  | .addRef _ => inferInstanceAs (Decidable (s.refCount + 1 < 2 ^ 32))
  | .decrement _ | .test _ | .delete _ | .readBack _ | .pass _ _ => .isTrue trivial

/-! ## Runs whose decrements and deletions stay apart -/

/-- The count is not taken to zero while another `Release` has yet to test it, and the
    object not deleted while another has yet to read its answer. -/
def Apart (s : Unknown T) : Act T → Prop
  | .decrement _ => interlockedDecrement s.refCount = 0 → ∀ u, s.pc u ≠ .decremented
  | .delete _ => ∀ u, s.pc u ≠ .nonzero
  | _ => True

def Ok (s : Unknown T) (a : Act T) : Prop := FewReferences s a ∧ Apart s a

/-- Before the count is taken to zero; from there to the deletion, by the same `Release`;
    after that. -/
inductive Phase (s : Unknown T) (h : List (Seen T)) : Prop where
  | alive : zeroers h = [] → deleters h = [] → s.deleted = false → (∀ u, s.pc u ≠ .zero) →
      (s.refCount = 0 → ∀ u, s.pc u = .idle) → Phase s h
  | dying (z : T) : zeroers h = [z] → deleters h = [] → s.deleted = false → s.refCount = 0 →
      (s.pc z = .decremented ∨ s.pc z = .zero) → (∀ u, u ≠ z → s.pc u = .idle ∨ s.pc u = .nonzero) → Phase s h
  | dead (z : T) : zeroers h = [z] → deleters h = [z] → s.refCount = 0 → (∀ u, s.pc u = .idle) → Phase s h

/-- Deleted once at most, by the `Release` that took the count to zero, and not accessed
    after that. -/
structure Good (h : List (Seen T)) : Prop where
  access : ∀ t, Seen.accessAfterDelete t ∉ h
  once : (zeroers h).length ≤ 1
  deleters : deleters h <+: zeroers h

theorem Phase.good {s : Unknown T} {h : List (Seen T)} (hph : Phase s h)
    (hacc : ∀ t, Seen.accessAfterDelete t ∉ h) : Good h := by
  cases hph with
  | alive hz hd => exact ⟨hacc, by rw [hz]; exact Nat.zero_le _, by rw [hz, hd]⟩
  | dying z hz hd => exact ⟨hacc, by rw [hz]; exact Nat.le_refl _, by rw [hd]; exact List.nil_prefix⟩
  | dead z hz hd => exact ⟨hacc, by rw [hz]; exact Nat.le_refl _, by rw [hz, hd]⟩

/-- No call is under way. -/
def Quiet (s : Unknown T) : Prop := ∀ t, s.pc t = .idle

theorem Phase.deleters_eq {s : Unknown T} {h : List (Seen T)} (hph : Phase s h) (hq : Quiet s) :
    deleters h = zeroers h := by
  cases hph with
  | alive hz hd => rw [hz, hd]
  | dying z hz hd hdel h0 hpz =>
    rw [hq z] at hpz
    simp at hpz
  | dead z hz hd => rw [hz, hd]

/-- What cannot end well: freed memory was read, or is going to be; another `Release` than
    the one that took the count to zero has deleted, or is going to. -/
inductive Doomed (s : Unknown T) (h : List (Seen T)) : Prop where
  | accessed (t : T) : Seen.accessAfterDelete t ∈ h → Doomed s h
  | wrong (z u : T) : zeroers h = [z] → u ∈ deleters h → u ≠ z → Doomed s h
  | untested (z u : T) : zeroers h = [z] → u ≠ z → (s.pc u = .decremented ∨ s.pc u = .zero) → Doomed s h
  | unread (u : T) : s.deleted = true → s.pc u = .nonzero → Doomed s h

theorem Doomed.not_good {s : Unknown T} {h : List (Seen T)} (hd : Doomed s h) (hq : Quiet s) : ¬ Good h := by
  intro hg
  cases hd with
  | accessed t ht => exact hg.access t ht
  | wrong z u hz hu hne =>
    have := hg.deleters.subset hu
    rw [hz] at this
    exact hne (List.mem_singleton.mp this)
  | untested z u hz hne hp =>
    rw [hq u] at hp
    simp at hp
  | unread u hdel hp =>
    rw [hq u] at hp
    cases hp

section Alive
variable [DecidableEq T]

theorem alive_step {s u : Unknown T} {a : Act T} {h o : List (Seen T)} (hok : Ok s a)
    (hz : zeroers h = []) (hd : deleters h = []) (hdel : s.deleted = false) (hnz : ∀ u, s.pc u ≠ .zero)
    (h0 : s.refCount = 0 → ∀ u, s.pc u = .idle) (hst : step s a = some (u, o)) :
    Phase u (h ++ o) ∧ ∀ t, Seen.accessAfterDelete t ∉ o := by
  rcases step_cases hst with ⟨t, -, hg, -⟩ | ⟨t, rfl, hp, ho, -, rfl, rfl⟩ | ⟨t, rfl, hp, ho, -, rfl, hz'⟩ |
    ⟨t, rfl, hp, -, rfl, rfl⟩ | ⟨t, rfl, hp, -, -⟩ | ⟨t, rfl, hp, -, rfl, rfl⟩ | ⟨t, v, rfl, hp, ho, hne, rfl, rfl⟩
  · rw [hdel] at hg
    cases hg
  · rw [List.append_nil]
    refine ⟨.alive hz hd hdel hnz fun hcount => ?_, fun _ => List.not_mem_nil⟩
    have hinc : interlockedIncrement s.refCount = s.refCount + 1 := interlockedIncrement_eq hok.1
    have : interlockedIncrement s.refCount = 0 := hcount
    omega
  · have hothers : ∀ u, u ≠ t → (s.afterDecrement t).pc u = s.pc u := fun u e => by simp [afterDecrement_pc, e]
    have ht : (s.afterDecrement t).pc t = .decremented := by simp [afterDecrement_pc]
    rw [← afterDecrement_deleted s t] at hdel
    rw [← afterDecrement_refCount s t] at hz'
    by_cases e : (s.afterDecrement t).refCount = 0
    · rw [if_pos e] at hz'
      subst hz'
      refine ⟨.dying t ?_ ?_ hdel e (.inl ht) fun u hu => ?_, fun u => by simp⟩
      · rw [zeroers_append, hz]; rfl
      · rw [deleters_append, hd]; rfl
      · rw [hothers u hu]
        have h1 := hok.2 e u
        have h2 := hnz u
        cases hc : s.pc u <;> simp_all
    · rw [if_neg e] at hz'
      subst hz'
      rw [List.append_nil]
      refine ⟨.alive hz hd hdel (fun u => ?_) fun hcount => absurd hcount e, fun _ => List.not_mem_nil⟩
      by_cases hu : u = t
      · rw [hu, ht]
        decide
      · rw [hothers u hu]
        exact hnz u
  · have hne : s.refCount ≠ 0 := fun hcount => by
      have := h0 hcount t
      rw [hp] at this
      cases this
    rw [List.append_nil, if_neg hne]
    refine ⟨.alive hz hd hdel (fun u => ?_) fun hcount => absurd hcount hne, fun _ => List.not_mem_nil⟩
    rw [goto_pc]
    by_cases hu : u = t
    · rw [if_pos hu]
      decide
    · rw [if_neg hu]
      exact hnz u
  · exact absurd hp (hnz t)
  · rw [List.append_nil]
    refine ⟨.alive hz hd hdel (fun u => ?_) fun hcount u => ?_, fun _ => List.not_mem_nil⟩
    · rw [goto_pc]
      by_cases hu : u = t
      · rw [if_pos hu]
        decide
      · rw [if_neg hu]
        exact hnz u
    · rw [goto_pc, h0 hcount u, ite_self]
  · rw [List.append_nil]
    exact ⟨.alive hz hd hdel hnz h0, fun _ => List.not_mem_nil⟩

end Alive

/-! ## The count -/

section Count
variable [Fintype T]

instance (s : Unknown T) : (a : Act T) → Decidable (Apart s a)
  | .decrement _ => inferInstanceAs (Decidable (interlockedDecrement s.refCount = 0 → ∀ u, s.pc u ≠ .decremented))
  | .delete _ => inferInstanceAs (Decidable (∀ u, s.pc u ≠ .nonzero))
  | .addRef _ | .test _ | .readBack _ | .pass _ _ => .isTrue trivial

instance (s : Unknown T) (a : Act T) : Decidable (Ok s a) := inferInstanceAs (Decidable (_ ∧ _))

/-- The count is the number of references, and it is taken to zero at most once. -/
structure Counted (s : Unknown T) (h : List (Seen T)) : Prop where
  count : s.refCount = tally id s.owned
  bound : s.refCount < 2 ^ 32
  once : (zeroers h).length ≤ 1
  zero : zeroers h ≠ [] → s.refCount = 0

theorem Counted.owned_eq_zero {s : Unknown T} {h : List (Seen T)} (hc : Counted s h) (h0 : s.refCount = 0) (t : T) :
    s.owned t = 0 :=
  tally_eq_zero.mp (hc.count ▸ h0) t

theorem Counted.no_zeroers {s : Unknown T} {h : List (Seen T)} (hc : Counted s h) {t : T} (ho : 0 < s.owned t) :
    zeroers h = [] ∧ 0 < s.refCount := by
  have h1 : s.refCount ≠ 0 := fun h0 => by
    have := hc.owned_eq_zero h0 t
    omega
  refine ⟨?_, by omega⟩
  by_cases e : zeroers h = []
  · exact e
  · exact absurd (hc.zero e) h1

theorem zeroers_same {u : Unknown T} {h o : List (Seen T)} (hc : Counted u (h ++ o)) {z : T} (hz : zeroers h = [z]) :
    zeroers (h ++ o) = [z] := by
  have h1 := hc.once
  rw [zeroers_append, hz, List.length_append, List.length_singleton] at h1
  rw [zeroers_append, hz, List.eq_nil_of_length_eq_zero (show (zeroers o).length = 0 by omega), List.append_nil]

theorem start_counted {owned : T → Nat} (h : tally id owned < 2 ^ 32) : Counted (start owned) [] :=
  ⟨rfl, h, Nat.zero_le _, fun h => absurd rfl h⟩

variable [DecidableEq T]

theorem step_counted {s u : Unknown T} {a : Act T} {h o : List (Seen T)} (hc : Counted s h) (hf : FewReferences s a)
    (hst : step s a = some (u, o)) : Counted u (h ++ o) := by
  have hsame : ∀ {s' : Unknown T} {o' : List (Seen T)}, s'.refCount = s.refCount → s'.owned = s.owned →
      zeroers o' = [] → Counted s' (h ++ o') := by
    intro s' o' h1 h2 h3
    refine ⟨?_, ?_, ?_, ?_⟩
    · rw [h1, h2]; exact hc.count
    · rw [h1]; exact hc.bound
    · rw [zeroers_append, h3, List.append_nil]; exact hc.once
    · rw [zeroers_append, h3, List.append_nil, h1]; exact hc.zero
  rcases step_cases hst with ⟨t, -, -, rfl, rfl⟩ | ⟨t, rfl, hp, ho, -, rfl, rfl⟩ | ⟨t, rfl, hp, ho, -, rfl, hz'⟩ |
    ⟨t, rfl, -, -, rfl, rfl⟩ | ⟨t, rfl, -, rfl, rfl⟩ | ⟨t, rfl, -, -, rfl, rfl⟩ | ⟨t, v, rfl, hp, ho, hne, rfl, rfl⟩
  · exact hsame rfl rfl rfl
  · obtain ⟨hz, hpos⟩ := hc.no_zeroers ho
    have hinc : interlockedIncrement s.refCount = s.refCount + 1 := interlockedIncrement_eq hf
    have hu := tally_update id s.owned t (s.owned t + 1)
    have hcount := hc.count
    refine ⟨?_, ?_, ?_, ?_⟩
    · show interlockedIncrement s.refCount = tally id (Function.update s.owned t (s.owned t + 1))
      simp only [id] at hu
      omega
    · show interlockedIncrement s.refCount < 2 ^ 32
      rw [hinc]
      exact hf
    · rw [zeroers_append, hz]
      exact Nat.zero_le _
    · rw [zeroers_append, hz]
      exact fun h => absurd rfl h
  · obtain ⟨hz, hpos⟩ := hc.no_zeroers ho
    have hdec := interlockedDecrement_eq hpos
    have hu := tally_update id s.owned t (s.owned t - 1)
    have hcount := hc.count
    have hbound := hc.bound
    refine ⟨?_, ?_, ?_, ?_⟩
    · show interlockedDecrement s.refCount = tally id (Function.update s.owned t (s.owned t - 1))
      simp only [id] at hu
      omega
    · show interlockedDecrement s.refCount < 2 ^ 32
      omega
    · rw [zeroers_append, hz, hz']
      split <;> simp [zeroers]
    · rw [zeroers_append, hz, hz']
      intro hne
      show interlockedDecrement s.refCount = 0
      by_cases e : interlockedDecrement s.refCount = 0
      · exact e
      · rw [if_neg e] at hne
        exact absurd rfl hne
  · exact hsame rfl rfl rfl
  · exact hsame rfl rfl rfl
  · exact hsame rfl rfl rfl
  · obtain ⟨hz, hpos⟩ := hc.no_zeroers ho
    have h1 := tally_update id s.owned t (s.owned t - 1)
    have h2 := tally_update id (Function.update s.owned t (s.owned t - 1)) v (s.owned v + 1)
    rw [Function.update_of_ne (Ne.symm hne)] at h2
    have hcount := hc.count
    refine ⟨?_, hc.bound, ?_, ?_⟩
    · show s.refCount = tally id (Function.update (Function.update s.owned t (s.owned t - 1)) v (s.owned v + 1))
      simp only [id] at h1 h2
      omega
    · rw [List.append_nil]
      exact hc.once
    · rw [List.append_nil]
      exact hc.zero

theorem reach_counted {owned : T → Nat} (hb : tally id owned < 2 ^ 32) {s : Unknown T} {h : List (Seen T)}
    (hr : Reach (only FewReferences step) (start owned) s h) : Counted s h := by
  refine hr.inv (I := Counted) (start_counted hb) fun s h a u o hc hst => ?_
  obtain ⟨hf, hst⟩ := only_eq_some.mp hst
  exact step_counted hc hf hst

omit [Fintype T] in
/-- A reference is left until the count is taken to zero. -/
theorem step_held {s u : Unknown T} {a : Act T} {h o : List (Seen T)} (hf : FewReferences s a)
    (hh : zeroers h = [] → 0 < s.refCount) (hst : step s a = some (u, o)) :
    zeroers (h ++ o) = [] → 0 < u.refCount := by
  intro hz
  rw [zeroers_append] at hz
  obtain ⟨hz, hzo⟩ := List.append_eq_nil_iff.mp hz
  rcases step_cases hst with ⟨t, -, -, rfl, -⟩ | ⟨t, rfl, -, -, -, rfl, -⟩ | ⟨t, -, -, ho, -, rfl, hz'⟩ |
    ⟨t, -, -, -, rfl, -⟩ | ⟨t, -, -, rfl, -⟩ | ⟨t, -, -, -, rfl, -⟩ | ⟨t, v, -, -, -, -, rfl, -⟩
  · exact hh hz
  · show 0 < interlockedIncrement s.refCount
    rw [interlockedIncrement_eq hf]
    exact Nat.succ_pos _
  · rw [afterDecrement_refCount]
    by_cases e : interlockedDecrement s.refCount = 0
    · rw [hz', if_pos e] at hzo
      cases hzo
    · exact Nat.pos_of_ne_zero e
  · exact hh hz
  · exact hh hz
  · exact hh hz
  · exact hh hz

theorem reach_held {owned : T → Nat} (h0 : 0 < tally id owned) {s : Unknown T} {h : List (Seen T)}
    (hr : Reach (only FewReferences step) (start owned) s h) : zeroers h = [] → 0 < s.refCount := by
  refine hr.inv (I := fun s h => zeroers h = [] → 0 < s.refCount) (fun _ => h0) fun s h a u o hI hst => ?_
  obtain ⟨hf, hst⟩ := only_eq_some.mp hst
  exact step_held hf hI hst

/-- Once no reference is left, somebody took the count to zero. -/
theorem given_up {owned : T → Nat} (hb : tally id owned < 2 ^ 32) (h0 : 0 < tally id owned) {s : Unknown T}
    {h : List (Seen T)} (hr : Reach (only FewReferences step) (start owned) s h) (ho : ∀ t, s.owned t = 0) :
    ∃ z, zeroers h = [z] := by
  have hc := reach_counted hb hr
  have hcount : s.refCount = 0 := hc.count.trans (tally_eq_zero.mpr ho)
  have hne : zeroers h ≠ [] := fun hz => by
    have := reach_held h0 hr hz
    omega
  refine List.length_eq_one_iff.mp (Nat.le_antisymm hc.once ?_)
  exact List.length_pos_iff.mpr hne

/-- With no references left, only a `Release` that is under way goes on. -/
theorem step_cases_zero {s u : Unknown T} {a : Act T} {h o : List (Seen T)} (hc : Counted s h) (h0 : s.refCount = 0)
    (hst : step s a = some (u, o)) :
    (∃ t, s.pc t ≠ .idle ∧ s.deleted = true ∧ u = s.goto t .idle ∧ o = [.accessAfterDelete t]) ∨
    (∃ t, s.pc t = .decremented ∧ s.deleted = false ∧ u = s.goto t .zero ∧ o = []) ∨
    (∃ t, a = .delete t ∧ s.pc t = .zero ∧ u = { s with deleted := true }.goto t .idle ∧ o = [.deleted t]) ∨
    (∃ t, s.pc t = .nonzero ∧ s.deleted = false ∧ u = s.goto t .idle ∧ o = []) := by
  have hno : ∀ t, ¬ 0 < s.owned t := fun t ho => by
    have := hc.owned_eq_zero h0 t
    omega
  rcases step_cases hst with ⟨t, hp, hd, hu, ho⟩ | ⟨t, -, -, ho, -⟩ | ⟨t, -, -, ho, -⟩ | ⟨t, -, hp, hd, hu, ho⟩ |
    ⟨t, ha, hp, hu, ho⟩ | ⟨t, -, hp, hd, hu, ho⟩ | ⟨t, v, -, -, ho, -⟩
  · rcases hp with hp | hp
    · exact absurd hp (hno t)
    · exact .inl ⟨t, hp, hd, hu, ho⟩
  · exact absurd ho (hno t)
  · exact absurd ho (hno t)
  · rw [if_pos h0] at hu
    exact .inr (.inl ⟨t, hp, hd, hu, ho⟩)
  · exact .inr (.inr (.inl ⟨t, ha, hp, hu, ho⟩))
  · exact .inr (.inr (.inr ⟨t, hp, hd, hu, ho⟩))
  · exact absurd ho (hno t)

theorem dying_step {s u : Unknown T} {a : Act T} {h o : List (Seen T)} (hc : Counted s h) (hok : Ok s a) {z : T}
    (hz : zeroers h = [z]) (hd : deleters h = []) (hdel : s.deleted = false) (h0 : s.refCount = 0)
    (hpz : s.pc z = .decremented ∨ s.pc z = .zero) (hother : ∀ u, u ≠ z → s.pc u = .idle ∨ s.pc u = .nonzero)
    (hst : step s a = some (u, o)) : Phase u (h ++ o) ∧ ∀ t, Seen.accessAfterDelete t ∉ o := by
  have hself : ∀ t, s.pc t = .decremented ∨ s.pc t = .zero → t = z := fun t ht => by
    by_cases e : t = z
    · exact e
    · rcases hother t e with h1 | h1 <;> rw [h1] at ht <;> simp at ht
  rcases step_cases_zero hc h0 hst with ⟨t, -, hg, -⟩ | ⟨t, hp, -, rfl, rfl⟩ | ⟨t, rfl, hp, rfl, rfl⟩ |
    ⟨t, hp, -, rfl, rfl⟩
  · rw [hdel] at hg
    cases hg
  · obtain rfl := hself t (.inl hp)
    rw [List.append_nil]
    refine ⟨.dying t hz hd hdel h0 (.inr ?_) fun u hu => ?_, fun _ => List.not_mem_nil⟩
    · rw [goto_pc, if_pos rfl]
    · rw [goto_pc, if_neg hu]
      exact hother u hu
  · obtain rfl := hself t (.inr hp)
    refine ⟨.dead t ?_ ?_ h0 fun u => ?_, fun u => by simp⟩
    · rw [zeroers_append, hz]; rfl
    · rw [deleters_append, hd]; rfl
    · rw [goto_pc]
      by_cases hu : u = t
      · rw [if_pos hu]
      · rw [if_neg hu]
        exact (hother u hu).resolve_right (hok.2 u)
  · rw [List.append_nil]
    have hne : z ≠ t := fun e => by
      rw [e, hp] at hpz
      simp at hpz
    refine ⟨.dying z hz hd hdel h0 ?_ fun u hu => ?_, fun _ => List.not_mem_nil⟩
    · rw [goto_pc, if_neg hne]
      exact hpz
    · rw [goto_pc]
      by_cases e : u = t
      · rw [if_pos e]
        exact .inl rfl
      · rw [if_neg e]
        exact hother u hu

theorem step_phase {s u : Unknown T} {a : Act T} {h o : List (Seen T)} (hc : Counted s h) (hok : Ok s a)
    (hph : Phase s h) (hst : step s a = some (u, o)) : Phase u (h ++ o) ∧ ∀ t, Seen.accessAfterDelete t ∉ o := by
  cases hph with
  | alive hz hd hdel hnz h0 => exact alive_step hok hz hd hdel hnz h0 hst
  | dying z hz hd hdel h0 hpz hother => exact dying_step hc hok hz hd hdel h0 hpz hother hst
  | dead z hz hd h0 hidle =>
    -- nobody holds a reference, nobody is in `Release`
    rcases step_cases_zero hc h0 hst with ⟨t, hp, -⟩ | ⟨t, hp, -⟩ | ⟨t, -, hp, -⟩ | ⟨t, hp, -⟩
    · exact absurd (hidle t) hp
    · rw [hidle t] at hp; cases hp
    · rw [hidle t] at hp; cases hp
    · rw [hidle t] at hp; cases hp

theorem reach_ok {owned : T → Nat} (hb : tally id owned < 2 ^ 32) {s : Unknown T} {h : List (Seen T)}
    (hr : Reach (only Ok step) (start owned) s h) :
    Counted s h ∧ Phase s h ∧ ∀ t, Seen.accessAfterDelete t ∉ h := by
  refine hr.inv (I := fun s h => Counted s h ∧ Phase s h ∧ ∀ t, Seen.accessAfterDelete t ∉ h)
    ⟨start_counted hb, ?_, fun _ => List.not_mem_nil⟩ fun s h a u o hI hst => ?_
  · exact .alive rfl rfl rfl (fun _ => by simp [start]) fun _ _ => rfl
  · obtain ⟨hc, hph, hacc⟩ := hI
    obtain ⟨hok, hst⟩ := only_eq_some.mp hst
    obtain ⟨hph', hacc'⟩ := step_phase hc hok hph hst
    refine ⟨step_counted hc hok.1 hst, hph', fun t hm => ?_⟩
    rcases List.mem_append.mp hm with hm | hm
    · exact hacc t hm
    · exact hacc' t hm

/-! ## The other runs -/

theorem Doomed.step {s u : Unknown T} {a : Act T} {h o : List (Seen T)} (hd : Doomed s h) (hc : Counted s h)
    (hc' : Counted u (h ++ o)) (hst : step s a = some (u, o)) : Doomed u (h ++ o) := by
  cases hd with
  | accessed t ht => exact .accessed t (List.mem_append_left _ ht)
  | wrong z v hz hv hne =>
    refine .wrong z v (zeroers_same hc' hz) ?_ hne
    rw [deleters_append]
    exact List.mem_append_left _ hv
  | untested z v hz hne hp =>
    have h0 := hc.zero (by rw [hz]; simp)
    have hz' := zeroers_same hc' hz
    rcases step_cases_zero hc h0 hst with ⟨t, -, -, rfl, rfl⟩ | ⟨t, -, -, rfl, rfl⟩ | ⟨t, -, -, rfl, rfl⟩ |
      ⟨t, hpt, -, rfl, rfl⟩
    · exact .accessed t (by simp)
    · apply Doomed.untested z v hz' hne
      rw [goto_pc]
      by_cases e : v = t
      · rw [if_pos e]
        exact .inr rfl
      · rw [if_neg e]
        exact hp
    · by_cases e : v = t
      · refine .wrong z v hz' ?_ hne
        rw [deleters_append, e]
        exact List.mem_append_right _ (List.mem_singleton.mpr rfl)
      · apply Doomed.untested z v hz' hne
        rw [goto_pc, if_neg e]
        exact hp
    · apply Doomed.untested z v hz' hne
      have e : v ≠ t := fun e => by
        rw [e, hpt] at hp
        simp at hp
      rw [goto_pc, if_neg e]
      exact hp
  | unread v hdel hp =>
    rcases step_cases hst with ⟨t, -, -, rfl, rfl⟩ | ⟨t, -, -, -, hd, -⟩ | ⟨t, -, -, -, hd, -⟩ | ⟨t, -, -, hd, -⟩ |
      ⟨t, -, hpt, rfl, rfl⟩ | ⟨t, -, -, hd, -⟩ | ⟨t, w, -, -, -, -, rfl, rfl⟩
    · exact .accessed t (by simp)
    · rw [hdel] at hd; cases hd
    · rw [hdel] at hd; cases hd
    · rw [hdel] at hd; cases hd
    · apply Doomed.unread v rfl
      have e : v ≠ t := fun e => by
        rw [e, hpt] at hp
        cases hp
      rw [goto_pc, if_neg e]
      exact hp
    · rw [hdel] at hd; cases hd
    · exact .unread v hdel hp

/-- The first step that comes too early dooms the run. -/
theorem doomed_of_not_apart {s u : Unknown T} {a : Act T} {h o : List (Seen T)} (hc : Counted s h)
    (hst : step s a = some (u, o)) (hn : ¬ Apart s a) : Doomed u (h ++ o) := by
  rcases step_cases hst with ⟨t, -, -, -, rfl⟩ | ⟨t, rfl, -⟩ | ⟨t, rfl, hp, ho, -, hu, hz'⟩ | ⟨t, rfl, -⟩ |
    ⟨t, rfl, hpt, rfl, rfl⟩ | ⟨t, rfl, -⟩ | ⟨t, w, rfl, -⟩
  · exact .accessed t (by simp)
  · exact absurd trivial hn
  · simp only [Apart, not_forall, not_not] at hn
    obtain ⟨e, v, hv⟩ := hn
    have hne : v ≠ t := fun e => by
      rw [e, hp] at hv
      cases hv
    rw [if_pos e] at hz'
    refine .untested t v ?_ hne (.inl ?_)
    · rw [zeroers_append, (hc.no_zeroers ho).1, hz']
      rfl
    · rw [hu, afterDecrement_pc, if_neg hne]
      exact hv
  · exact absurd trivial hn
  · simp only [Apart, not_forall, not_not] at hn
    obtain ⟨v, hv⟩ := hn
    apply Doomed.unread v rfl
    have hne : v ≠ t := fun e => by
      rw [e, hpt] at hv
      cases hv
    rw [goto_pc, if_neg hne]
    exact hv
  · exact absurd trivial hn
  · exact absurd trivial hn

theorem ok_or_doomed {owned : T → Nat} (hb : tally id owned < 2 ^ 32) {s : Unknown T} {h : List (Seen T)}
    (hr : Reach (only FewReferences step) (start owned) s h) :
    Reach (only Ok step) (start owned) s h ∨ Doomed s h := by
  induction hr with
  | init => exact .inl .init
  | @step s u a h o hr hst ih =>
    have hc := reach_counted hb hr
    have hc' := reach_counted hb (hr.step hst)
    obtain ⟨hf, hst⟩ := only_eq_some.mp hst
    rcases ih with ih | ih
    · by_cases hap : Apart s a
      · exact .inl (ih.step (only_eq_some.mpr ⟨⟨hf, hap⟩, hst⟩))
      · exact .inr (doomed_of_not_apart hc hst hap)
    · exact .inr (ih.step hc hc' hst)

/-- From any number of references, shared out in any way, and with fewer than 2^32 of them
    at any time. In a run whose decrements and deletions stay apart, the object is deleted
    at most once, by the `Release` that took the count to zero, and nothing is accessed
    after that; once the calls are over it is deleted exactly then, and with no reference
    left it is. A run with all calls over is like that only if its decrements and deletions
    stayed apart. -/
theorem deletes_once_iff {owned : T → Nat} (hb : tally id owned < 2 ^ 32) :
    (∀ s h, Reach (only Ok step) (start owned) s h → Good h ∧ (Quiet s → deleters h = zeroers h) ∧
      (Quiet s → 0 < tally id owned → (∀ t, s.owned t = 0) → ∃ z, zeroers h = [z] ∧ deleters h = [z])) ∧
    ∀ s h, Reach (only FewReferences step) (start owned) s h → Quiet s →
      (Good h ↔ Reach (only Ok step) (start owned) s h) := by
  have hgood : ∀ s h, Reach (only Ok step) (start owned) s h → Good h ∧ (Quiet s → deleters h = zeroers h) := by
    intro s h hr
    obtain ⟨-, hph, hacc⟩ := reach_ok hb hr
    exact ⟨hph.good hacc, hph.deleters_eq⟩
  refine ⟨fun s h hr => ⟨(hgood s h hr).1, (hgood s h hr).2, fun hq h0 ho => ?_⟩,
    fun s h hr hq => ⟨fun hg => ?_, fun hok => (hgood s h hok).1⟩⟩
  · obtain ⟨z, hz⟩ := given_up hb h0 (hr.only_mono fun _ _ hok => hok.1) ho
    exact ⟨z, hz, ((hgood s h hr).2 hq).trans hz⟩
  · rcases ok_or_doomed hb hr with hok | hd
    · exact hok
    · exact absurd hg (hd.not_good hq)

theorem deletes_once_iff_two_threads : ∃ (s : Unknown (Fin 2)) (h : List (Seen (Fin 2))),
    Reach (only Ok step) (start fun _ => 1) s h ∧ Quiet s ∧ ∃ z, zeroers h = [z] ∧ deleters h = [z] := by
  obtain ⟨s, h, hr, hq, ho⟩ : ∃ (s : Unknown (Fin 2)) (h : List (Seen (Fin 2))),
      Reach (only Ok step) (start fun _ => 1) s h ∧ Quiet s ∧ ∀ t, s.owned t = 0 :=
    ⟨_, _, reach_of_exec [.decrement 0, .test 0, .readBack 0, .decrement 1, .test 1, .delete 1] rfl,
      by unfold Quiet; decide, by decide⟩
  exact ⟨s, h, hr, hq, ((deletes_once_iff (by decide)).1 s h hr).2.2 hq (by decide) ho⟩

/-- Two threads release the last two references. Either deletes before the other has
    tested the count, which then reads freed memory; or both find zero, and both delete. -/
theorem releases_race :
    (∃ s : Unknown (Fin 2), exec step (start fun _ => 1) [.decrement 0, .decrement 1, .test 1, .delete 1, .test 0] =
      some (s, [.tookToZero 1, .deleted 1, .accessAfterDelete 0])) ∧
    ∃ s : Unknown (Fin 2), exec step (start fun _ => 1)
        [.decrement 0, .decrement 1, .test 0, .test 1, .delete 0, .delete 1] =
      some (s, [.tookToZero 1, .deleted 0, .deleted 1]) :=
  ⟨⟨_, rfl⟩, ⟨_, rfl⟩⟩

end Count

end Unknown

end Dumbnose.Com
