/-
  Dumbnose.Memory.MemoryTracking — `operator new` and `operator delete` of a class that
  keeps a table of its objects (`memory_tracking.hpp`, `safe_map.hpp`).

  Any number of threads `T` call both. Each call is several steps, and only each step is
  atomic: `::operator new` and then `insert`, or `find`, `erase` and then
  `::operator delete`. `safe_map` locks each of its methods for itself, so between two
  steps of a call other threads take theirs.

  The global allocator answers with any address that it has not given out, so an address
  may come back as soon as it was freed. `::operator new` that throws is not modelled.
  `objects` is the rest of the program: the objects it has, with the sizes it asked for.
  It deletes each of them once, from any thread.

  An address is at one place at a time (`Inv`): free, an object, or with one call between
  two of its steps. `operator delete` erases the entry before it frees the address, and
  `operator new` inserts it after the address was given out: so an address that is given
  out has no entry (`table_exact`).
-/

import Mathlib.Logic.Function.Basic
import Std.Data.ExtTreeMap
import Dumbnose.Lib.Runs

namespace Dumbnose.Memory

open Lib.Runs

/-- Where a thread is: outside; in `operator new`, before `insert` or after it; in
    `operator delete`, before `find`, before `erase` or before `::operator delete`; past
    the assert that `find` found nothing. -/
inductive MemoryTracking.Pc where
  | idle
  | raw (raw size : Nat)
  | inserted (raw size : Nat)
  | deleting (raw : Nat)
  | found (raw : Nat)
  | erased (raw : Nat)
  | notFound (raw : Nat)
  deriving DecidableEq

structure MemoryTracking (T : Type) where
  /-- The addresses that the global allocator has given out. -/
  allocated : Nat → Bool
  memList : Std.ExtTreeMap Nat Nat
  objects : Nat → Option Nat
  pc : T → MemoryTracking.Pc

namespace MemoryTracking

inductive Act (T : Type) where
  | globalNew (t : T) (size raw : Nat)
  | insert (t : T)
  | newReturns (t : T)
  | delete (t : T) (raw : Nat)
  | find (t : T)
  | erase (t : T)
  | globalDelete (t : T)

inductive Seen where
  /-- What `insert` returned: whether there was no entry yet. -/
  | inserted (raw : Nat) (isNew : Bool)
  /-- Whether `find` found an entry. -/
  | looked (raw : Nat) (isThere : Bool)
  /-- Whether the entry that `find` found was still there to be erased. -/
  | erased (raw : Nat) (isThere : Bool)
  deriving DecidableEq

variable {T : Type}

/-- Before the first call. -/
def new : MemoryTracking T := ⟨fun _ => false, ∅, fun _ => none, fun _ => .idle⟩

/-- The address that a call has, between two of its steps. -/
def Pc.address : Pc → Option Nat
  | .idle => none
  | .raw a _ | .inserted a _ | .deleting a | .found a | .erased a | .notFound a => some a

/-- The entry that the table has of the address, as long as the call has it. -/
def Pc.Entry : Pc → Option Nat → Prop
  | .idle, _ => True
  | .raw _ _, e | .erased _, e => e = none
  | .inserted _ size, e => e = some size
  | .deleting _, e | .found _, e => e ≠ none
  | .notFound _, _ => False

section Steps
variable [DecidableEq T]

def goto (s : MemoryTracking T) (t : T) (p : Pc) : MemoryTracking T := { s with pc := Function.update s.pc t p }

def step (s : MemoryTracking T) : Act T → Option (MemoryTracking T × List Seen)
  | .globalNew t size raw =>
    if s.pc t = .idle ∧ raw ≠ 0 ∧ s.allocated raw = false then
      some ({ s with allocated := Function.update s.allocated raw true }.goto t (.raw raw size), [])
    else none
  | .insert t =>
    match s.pc t with
    | .raw raw size =>
      -- `std::map::insert` leaves an entry that is there as it is
      some ({ s with memList := s.memList.insertIfNew raw size }.goto t (.inserted raw size),
        [.inserted raw (raw ∉ s.memList)])
    | _ => none
  | .newReturns t =>
    match s.pc t with
    | .inserted raw size => some ({ s with objects := Function.update s.objects raw (some size) }.goto t .idle, [])
    | _ => none
  | .delete t raw =>
    if s.pc t = .idle then
      if raw = 0 then some (s, [])
      else
        match s.objects raw with
        | some _ => some ({ s with objects := Function.update s.objects raw none }.goto t (.deleting raw), [])
        | none => none
    else none
  | .find t =>
    match s.pc t with
    | .deleting raw =>
      some (s.goto t (if raw ∈ s.memList then .found raw else .notFound raw), [.looked raw (raw ∈ s.memList)])
    | _ => none
  | .erase t =>
    match s.pc t with
    | .found raw =>
      some ({ s with memList := s.memList.erase raw }.goto t (.erased raw), [.erased raw (raw ∈ s.memList)])
    | _ => none
  | .globalDelete t =>
    match s.pc t with
    | .erased raw => some ({ s with allocated := Function.update s.allocated raw false }.goto t .idle, [])
    | _ => none

theorem step_cases {s u : MemoryTracking T} {a : Act T} {o : List Seen} (h : step s a = some (u, o)) :
    (∃ t size raw, a = .globalNew t size raw ∧ s.pc t = .idle ∧ s.allocated raw = false ∧
      u = { s with allocated := Function.update s.allocated raw true }.goto t (.raw raw size) ∧ o = []) ∨
    (∃ t raw size, a = .insert t ∧ s.pc t = .raw raw size ∧
      u = { s with memList := s.memList.insertIfNew raw size }.goto t (.inserted raw size) ∧
      o = [.inserted raw (raw ∉ s.memList)]) ∨
    (∃ t raw size, a = .newReturns t ∧ s.pc t = .inserted raw size ∧
      u = { s with objects := Function.update s.objects raw (some size) }.goto t .idle ∧ o = []) ∨
    (∃ t raw, a = .delete t raw ∧ s.pc t = .idle ∧
      (u = s ∨ ∃ size, s.objects raw = some size ∧
        u = { s with objects := Function.update s.objects raw none }.goto t (.deleting raw)) ∧ o = []) ∨
    (∃ t raw, a = .find t ∧ s.pc t = .deleting raw ∧
      u = s.goto t (if raw ∈ s.memList then .found raw else .notFound raw) ∧ o = [.looked raw (raw ∈ s.memList)]) ∨
    (∃ t raw, a = .erase t ∧ s.pc t = .found raw ∧ u = { s with memList := s.memList.erase raw }.goto t (.erased raw) ∧
      o = [.erased raw (raw ∈ s.memList)]) ∨
    (∃ t raw, a = .globalDelete t ∧ s.pc t = .erased raw ∧
      u = { s with allocated := Function.update s.allocated raw false }.goto t .idle ∧ o = []) := by
  cases a with
  | globalNew t size raw =>
    simp [step] at h
    exact .inl ⟨t, size, raw, rfl, h.1.1, h.1.2.2, h.2.1.symm, h.2.2⟩
  | insert t =>
    simp only [step] at h
    split at h
    · rename_i raw size hp
      cases h
      exact .inr (.inl ⟨t, raw, size, rfl, hp, rfl, rfl⟩)
    · cases h
  | newReturns t =>
    simp only [step] at h
    split at h
    · rename_i raw size hp
      cases h
      exact .inr (.inr (.inl ⟨t, raw, size, rfl, hp, rfl, rfl⟩))
    · cases h
  | delete t raw =>
    simp only [step] at h
    split at h
    · rename_i hp
      split at h
      · cases h
        exact .inr (.inr (.inr (.inl ⟨t, raw, rfl, hp, .inl rfl, rfl⟩)))
      · split at h
        · rename_i size hs
          cases h
          exact .inr (.inr (.inr (.inl ⟨t, raw, rfl, hp, .inr ⟨size, hs, rfl⟩, rfl⟩)))
        · cases h
    · cases h
  | find t =>
    simp only [step] at h
    split at h
    · rename_i raw hp
      cases h
      exact .inr (.inr (.inr (.inr (.inl ⟨t, raw, rfl, hp, rfl, rfl⟩))))
    · cases h
  | erase t =>
    simp only [step] at h
    split at h
    · rename_i raw hp
      cases h
      exact .inr (.inr (.inr (.inr (.inr (.inl ⟨t, raw, rfl, hp, rfl, rfl⟩)))))
    · cases h
  | globalDelete t =>
    simp only [step] at h
    split at h
    · rename_i raw hp
      cases h
      exact .inr (.inr (.inr (.inr (.inr (.inr ⟨t, raw, rfl, hp, rfl, rfl⟩)))))
    · cases h

end Steps

/-! ## One place at a time -/

structure Inv (s : MemoryTracking T) : Prop where
  alone : ∀ t u raw, (s.pc t).address = some raw → (s.pc u).address = some raw → t = u
  held : ∀ t raw, (s.pc t).address = some raw →
    s.allocated raw = true ∧ s.objects raw = none ∧ (s.pc t).Entry s.memList[raw]?
  rest : ∀ raw, (∀ t, (s.pc t).address ≠ some raw) →
    s.memList[raw]? = s.objects raw ∧ (s.allocated raw = true ↔ s.objects raw ≠ none)

theorem new_inv : Inv (new : MemoryTracking T) := by
  refine ⟨?_, ?_, ?_⟩
  · intro t u raw ht
    cases ht
  · intro t raw ht
    cases ht
  · intro raw _
    simp [new]

/-- `u` is `s` after a step of thread `t` that is about `raw` alone. -/
structure About (t : T) (raw : Nat) (s u : MemoryTracking T) : Prop where
  allocated : ∀ a, a ≠ raw → u.allocated a = s.allocated a
  memList : ∀ a, a ≠ raw → u.memList[a]? = s.memList[a]?
  objects : ∀ a, a ≠ raw → u.objects a = s.objects a
  pc : ∀ v, v ≠ t → u.pc v = s.pc v
  had : ∀ a, (s.pc t).address = some a → a = raw

/-- After a step the address is with the call. -/
def Has (u : MemoryTracking T) (t : T) (raw : Nat) : Prop :=
  (u.pc t).address = some raw ∧ u.allocated raw = true ∧ u.objects raw = none ∧ (u.pc t).Entry u.memList[raw]?

/-- After a step the call is without an address, and this one is free or an object. -/
def Left (u : MemoryTracking T) (t : T) (raw : Nat) : Prop :=
  (u.pc t).address = none ∧ u.memList[raw]? = u.objects raw ∧ (u.allocated raw = true ↔ u.objects raw ≠ none)

section Inv
variable {s u : MemoryTracking T} {t : T} {raw : Nat}

theorem had_of_idle (hp : s.pc t = .idle) : ∀ a, (s.pc t).address = some a → a = raw := by
  intro a ha
  rw [hp] at ha
  cases ha

theorem had_of_address (hp : (s.pc t).address = some raw) : ∀ a, (s.pc t).address = some a → a = raw :=
  fun _ ha => Option.some.inj (ha.symm.trans hp)

variable (hi : Inv s)
include hi

/-- No other call has an address that the allocator has not given out, that is an
    object, or that this call has. -/
theorem Inv.no_other (h : s.allocated raw = false ∨ s.objects raw ≠ none ∨ (s.pc t).address = some raw) {v : T}
    (hv : v ≠ t) : (s.pc v).address ≠ some raw := by
  intro ha
  obtain ⟨h1, h2, -⟩ := hi.held v raw ha
  rcases h with h | h | h
  · rw [h1] at h
    cases h
  · exact h h2
  · exact hv (hi.alone v t raw ha h)

theorem Inv.about (ha : About t raw s u)
    (h : s.allocated raw = false ∨ s.objects raw ≠ none ∨ (s.pc t).address = some raw)
    (hu : Has u t raw ∨ Left u t raw) : Inv u := by
  have ho : ∀ v, v ≠ t → (u.pc v).address ≠ some raw := fun v hv => by
    rw [ha.pc v hv]
    exact hi.no_other h hv
  have ht : ∀ a, (u.pc t).address = some a → a = raw ∧ Has u t raw := by
    intro a hp
    rcases hu with hu | hu
    · exact ⟨Option.some.inj (hp.symm.trans hu.1), hu⟩
    · rw [hu.1] at hp
      cases hp
  refine ⟨?_, ?_, ?_⟩
  · intro v w a hv hw
    by_cases ev : v = t
    · subst ev
      obtain ⟨rfl, -⟩ := ht a hv
      by_contra ew
      exact ho w (Ne.symm ew) hw
    · by_cases ew : w = t
      · subst ew
        obtain ⟨rfl, -⟩ := ht a hw
        exact absurd hv (ho v ev)
      · rw [ha.pc v ev] at hv
        rw [ha.pc w ew] at hw
        exact hi.alone v w a hv hw
  · intro v a hv
    by_cases ev : v = t
    · subst ev
      obtain ⟨rfl, hh⟩ := ht a hv
      exact hh.2
    · have ea : a ≠ raw := by
        intro e
        subst e
        exact ho v ev hv
      rw [ha.pc v ev] at hv ⊢
      rw [ha.allocated a ea, ha.objects a ea, ha.memList a ea]
      exact hi.held v a hv
  · intro a hno
    by_cases ea : a = raw
    · subst ea
      rcases hu with hu | hu
      · exact absurd hu.1 (hno t)
      · exact hu.2
    · rw [ha.allocated a ea, ha.objects a ea, ha.memList a ea]
      refine hi.rest a fun v hv => ?_
      by_cases ev : v = t
      · subst ev
        exact ea (ha.had a hv)
      · rw [← ha.pc v ev] at hv
        exact hno v hv

/-- An address that is not given out, or is an object, is with nobody. -/
theorem Inv.with_nobody (h : s.allocated raw = false ∨ s.objects raw ≠ none) :
    s.memList[raw]? = s.objects raw ∧ (s.allocated raw = true ↔ s.objects raw ≠ none) := by
  refine hi.rest raw fun v hv => ?_
  obtain ⟨h1, h2, -⟩ := hi.held v raw hv
  rcases h with h | h
  · rw [h1] at h
    cases h
  · exact h h2

/-- The entry that a call between two of its steps relies on. -/
theorem Inv.entry {p : Pc} (hp : s.pc t = p) (ha : p.address = some raw) :
    s.allocated raw = true ∧ s.objects raw = none ∧ p.Entry s.memList[raw]? := by
  subst hp
  exact hi.held t raw ha

end Inv

theorem mem_of_entry {m : Std.ExtTreeMap Nat Nat} {raw : Nat} (h : m[raw]? ≠ none) : raw ∈ m :=
  Std.ExtTreeMap.mem_iff_isSome_getElem?.mpr (Option.isSome_iff_ne_none.mpr h)

theorem not_mem_of_entry {m : Std.ExtTreeMap Nat Nat} {raw : Nat} (h : m[raw]? = none) : raw ∉ m := by
  rw [Std.ExtTreeMap.mem_iff_isSome_getElem?, h]
  exact Bool.false_ne_true

/-! ## Every run -/

section Runs
variable [DecidableEq T] {s u : MemoryTracking T} {t : T} {raw size : Nat}

@[simp] theorem goto_allocated (s : MemoryTracking T) (t : T) (p : Pc) : (s.goto t p).allocated = s.allocated := rfl
@[simp] theorem goto_memList (s : MemoryTracking T) (t : T) (p : Pc) : (s.goto t p).memList = s.memList := rfl
@[simp] theorem goto_objects (s : MemoryTracking T) (t : T) (p : Pc) : (s.goto t p).objects = s.objects := rfl
@[simp] theorem goto_self (s : MemoryTracking T) (t : T) (p : Pc) : (s.goto t p).pc t = p := by simp [goto]
theorem goto_ne (s : MemoryTracking T) {t v : T} (p : Pc) (h : v ≠ t) : (s.goto t p).pc v = s.pc v := by
  simp [goto, h]

theorem about_goto {w : MemoryTracking T} {p : Pc} (hpc : w.pc = s.pc)
    (had : ∀ a, (s.pc t).address = some a → a = raw) (h1 : ∀ a, a ≠ raw → w.allocated a = s.allocated a)
    (h2 : ∀ a, a ≠ raw → w.memList[a]? = s.memList[a]?) (h3 : ∀ a, a ≠ raw → w.objects a = s.objects a) :
    About t raw s (w.goto t p) :=
  ⟨h1, h2, h3, fun v hv => by rw [goto_ne _ _ hv, hpc], had⟩

theorem step_inv {a : Act T} {o : List Seen} (hi : Inv s) (h : step s a = some (u, o)) : Inv u := by
  rcases step_cases h with ⟨t, size, raw, -, hp, hf, rfl, -⟩ | ⟨t, raw, size, -, hp, rfl, -⟩ |
    ⟨t, raw, size, -, hp, rfl, -⟩ | ⟨t, raw, -, hp, rfl | ⟨size, hs, rfl⟩, -⟩ | ⟨t, raw, -, hp, rfl, -⟩ |
    ⟨t, raw, -, hp, rfl, -⟩ | ⟨t, raw, -, hp, rfl, -⟩
  · -- no object and no entry is at an address that the allocator had not given out
    obtain ⟨h1, h2⟩ := hi.with_nobody (.inl hf)
    have ho : s.objects raw = none := by
      by_contra hne
      rw [h2.mpr hne] at hf
      cases hf
    refine hi.about (about_goto rfl (had_of_idle hp) (fun a ha => Function.update_of_ne ha _ _) (fun _ _ => rfl)
      fun _ _ => rfl) (.inl hf) (.inl ⟨?_, ?_, ?_, ?_⟩)
    · simp [Pc.address]
    · simp
    · exact ho
    · rw [goto_self]
      exact h1.trans ho
  · obtain ⟨h1, h2, h3⟩ := hi.entry hp rfl
    refine hi.about (about_goto rfl (had_of_address (by rw [hp]; rfl)) (fun _ _ => rfl) (fun a ha => ?_) fun _ _ => rfl)
      (.inr (.inr (by rw [hp]; rfl))) (.inl ⟨?_, h1, h2, ?_⟩)
    · simp [Std.ExtTreeMap.getElem?_insertIfNew, Ne.symm ha]
    · simp [Pc.address]
    · rw [goto_self, goto_memList]
      show (s.memList.insertIfNew raw size)[raw]? = some size
      rw [Std.ExtTreeMap.getElem?_insertIfNew, if_pos ⟨Nat.compare_eq_eq.mpr rfl, not_mem_of_entry h3⟩]
  · obtain ⟨h1, h2, h3⟩ := hi.entry hp rfl
    refine hi.about (about_goto rfl (had_of_address (by rw [hp]; rfl)) (fun _ _ => rfl) (fun _ _ => rfl)
      fun a ha => Function.update_of_ne ha _ _) (.inr (.inr (by rw [hp]; rfl))) (.inr ⟨?_, ?_, ?_⟩)
    · simp [Pc.address]
    · simpa [Pc.Entry] using h3
    · simp [h1]
  · exact hi
  · -- the object was nobody's, so its entry and its address are there
    obtain ⟨h1, h2⟩ := hi.with_nobody (.inr (by rw [hs]; simp))
    refine hi.about (about_goto rfl (had_of_idle hp) (fun _ _ => rfl) (fun _ _ => rfl)
      fun a ha => Function.update_of_ne ha _ _) (.inr (.inl (by rw [hs]; simp))) (.inl ⟨?_, ?_, ?_, ?_⟩)
    · simp [Pc.address]
    · exact h2.mpr (by rw [hs]; simp)
    · simp
    · simp [Pc.Entry, h1, hs]
  · obtain ⟨h1, h2, h3⟩ := hi.entry hp rfl
    rw [if_pos (mem_of_entry h3)]
    refine hi.about (about_goto rfl (had_of_address (by rw [hp]; rfl)) (fun _ _ => rfl) (fun _ _ => rfl)
      fun _ _ => rfl) (.inr (.inr (by rw [hp]; rfl))) (.inl ⟨?_, h1, h2, ?_⟩)
    · simp [Pc.address]
    · rw [goto_self]
      exact h3
  · obtain ⟨h1, h2, -⟩ := hi.entry hp rfl
    refine hi.about (about_goto rfl (had_of_address (by rw [hp]; rfl)) (fun _ _ => rfl) (fun a ha => ?_) fun _ _ => rfl)
      (.inr (.inr (by rw [hp]; rfl))) (.inl ⟨?_, h1, h2, ?_⟩)
    · simp [Std.ExtTreeMap.getElem?_erase, Ne.symm ha]
    · simp [Pc.address]
    · simp [Pc.Entry]
  · obtain ⟨-, h2, h3⟩ := hi.entry hp rfl
    refine hi.about (about_goto rfl (had_of_address (by rw [hp]; rfl)) (fun a ha => Function.update_of_ne ha _ _)
      (fun _ _ => rfl) fun _ _ => rfl) (.inr (.inr (by rw [hp]; rfl))) (.inr ⟨?_, ?_, ?_⟩)
    · simp [Pc.address]
    · exact h3.trans h2.symm
    · simp [h2]

theorem reach_inv {h : List Seen} (hr : Reach step new s h) : Inv s :=
  hr.inv_state new_inv fun _ _ _ _ => step_inv

/-- What is seen of a step, where every address is at one place. -/
def Seen.Expected : Seen → Prop
  | .inserted _ isNew => isNew = true
  | .looked _ isThere => isThere = true
  | .erased _ isThere => isThere = true

theorem step_expected {a : Act T} {o : List Seen} (hi : Inv s) (h : step s a = some (u, o)) :
    ∀ x ∈ o, x.Expected := by
  intro x hx
  rcases step_cases h with ⟨t, size, raw, -, -, -, -, rfl⟩ | ⟨t, raw, size, -, hp, -, rfl⟩ |
    ⟨t, raw, size, -, -, -, rfl⟩ | ⟨t, raw, -, -, -, rfl⟩ | ⟨t, raw, -, hp, -, rfl⟩ | ⟨t, raw, -, hp, -, rfl⟩ |
    ⟨t, raw, -, -, -, rfl⟩
  · cases hx
  · obtain rfl := List.mem_singleton.mp hx
    exact decide_eq_true (not_mem_of_entry (hi.entry hp rfl).2.2)
  · cases hx
  · cases hx
  · obtain rfl := List.mem_singleton.mp hx
    exact decide_eq_true (mem_of_entry (hi.entry hp rfl).2.2)
  · obtain rfl := List.mem_singleton.mp hx
    exact decide_eq_true (mem_of_entry (hi.entry hp rfl).2.2)
  · cases hx

theorem reach_expected {h : List Seen} (hr : Reach step new s h) : ∀ x ∈ h, x.Expected := by
  refine (hr.inv (I := fun s h => Inv s ∧ ∀ x ∈ h, x.Expected) ⟨new_inv, fun x hx => by cases hx⟩ ?_).2
  intro s h a u o hI hst
  obtain ⟨hi, hx⟩ := hI
  exact ⟨step_inv hi hst, List.forall_mem_append.mpr ⟨hx, step_expected hi hst⟩⟩

/-- The table is exact: an insert meets no entry of its address, a lookup finds its
    entry, which is there until it is erased, and between the calls the table is the
    objects with their sizes. -/
theorem table_exact {h : List Seen} (hr : Reach step (new : MemoryTracking T) s h) :
    (∀ raw isNew, Seen.inserted raw isNew ∈ h → isNew = true) ∧
    (∀ raw isThere, Seen.looked raw isThere ∈ h → isThere = true) ∧
    (∀ raw isThere, Seen.erased raw isThere ∈ h → isThere = true) ∧
    ((∀ t, s.pc t = .idle) → ∀ raw, s.memList[raw]? = s.objects raw) := by
  have hx := reach_expected hr
  refine ⟨fun raw b hb => hx _ hb, fun raw b hb => hx _ hb, fun raw b hb => hx _ hb, fun hidle raw => ?_⟩
  refine ((reach_inv hr).rest raw fun t ht => ?_).1
  rw [hidle t] at ht
  cases ht

/-- Thread 1 deletes what thread 0 made, and thread 0 gets the address again. -/
theorem table_exact_two_threads : ∃ (s : MemoryTracking (Fin 2)) (h : List Seen),
    Reach step new s h ∧ s.objects 8 = some 24 ∧ s.memList[8]? = s.objects 8 := by
  obtain ⟨s, h, hr, hidle, ho⟩ : ∃ (s : MemoryTracking (Fin 2)) (h : List Seen),
      Reach step new s h ∧ (∀ t, s.pc t = .idle) ∧ s.objects 8 = some 24 :=
    ⟨_, _, reach_of_exec [.globalNew 0 16 8, .insert 0, .newReturns 0, .delete 1 8, .find 1, .erase 1,
      .globalDelete 1, .globalNew 0 24 8, .insert 0, .newReturns 0] rfl, by decide, by decide⟩
  exact ⟨s, h, hr, ho, (table_exact hr).2.2.2 hidle 8⟩

end Runs

end MemoryTracking

end Dumbnose.Memory
