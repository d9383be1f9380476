/-
  Dumbnose.Events.Raise — whom a `raise` invokes, whatever is registered and unregistered
  meanwhile (`event_source::raise`).

  Any number of threads call `register_listener`, `unregister_listener` and `raise`, and so
  do the listeners, from inside their callback. Each region under `lock_` is one action,
  each invocation one to begin it and one to return. A thread has a stack of the raises it
  is in; `copies` has what each raise has yet to invoke of its copy of the map.

  `raise` copies `listeners_` under the lock and lets go of it before it invokes. So it
  invokes what was registered then (`raise_invokes_snapshot`), and a listener that is
  unregistered between the copy and its turn is invoked all the same
  (`invoked_after_unregister`). The map is in the order of the cookies, which is the order
  of registration up to the registration whose cookie is 0 again. Of the calls one after
  another, without `raise`, `Events.EventSource` says the same (`register_matches`,
  `unregister_matches`).
-/

import Mathlib.Logic.Function.Basic
import Std.Data.ExtTreeMap
import Dumbnose.Events.EventSource
import Dumbnose.Lib.Runs
import Dumbnose.Lib.Splits
import Dumbnose.Lib.Standing

namespace Dumbnose.Events

open Lib.Exec Lib.Runs Lib.Splits Lib.Standing

/-- A `raise` under way: whether it is in a listener. -/
structure Raise where
  id : Nat
  inCallback : Bool
  deriving DecidableEq, Repr

structure EventSource (T H : Type) where
  largestEventCookie : Nat
  listeners : Std.ExtTreeMap Nat H
  raises : Nat
  copies : Nat → List (Nat × H)
  stack : T → List Raise

namespace EventSource

variable {T H : Type}

inductive Act (T H : Type) where
  | registerListener (t : T) (listener : H)
  | unregisterListener (t : T) (cookie : Nat)
  | raise (t : T)
  | invoke (t : T)
  | return_ (t : T)
  | finish (t : T)

inductive Seen (H : Type) where
  | registered (cookie : Nat) (listener : H)
  | unregistered (cookie : Nat)
  | raised (r : Nat)
  | invoked (r : Nat) (cookie : Nat) (listener : H)
  | finished (r : Nat)

def new : EventSource T H := ⟨0, ∅, 0, fun _ => [], fun _ => []⟩

/-- `++largest_event_cookie_`, a uint64_t. -/
def nextCookie (n : Nat) : Nat := if n + 1 = 2 ^ 64 then 0 else n + 1

/-- A thread in no call of the source, or in a listener. -/
def mayCall : List Raise → Bool
  | [] => true
  | f :: _ => f.inCallback

section Steps
variable [DecidableEq T]

def goto (s : EventSource T H) (t : T) (fs : List Raise) : EventSource T H :=
  { s with stack := Function.update s.stack t fs }

/-- A thread with an assert that fails does not go on. -/
def step (s : EventSource T H) : Act T H → Option (EventSource T H × List (Seen H))
  | .registerListener t listener =>
    if mayCall (s.stack t) then
      some ({ s with
        largestEventCookie := nextCookie s.largestEventCookie
        listeners := s.listeners.insert (nextCookie s.largestEventCookie) listener },
        [.registered (nextCookie s.largestEventCookie) listener])
    else none
  | .unregisterListener t cookie =>
    if mayCall (s.stack t) then
      if cookie = 0 then some (s, [])
      else if cookie ≤ s.largestEventCookie ∧ cookie ∈ s.listeners then
        some ({ s with listeners := s.listeners.erase cookie }, [.unregistered cookie])
      else none
    else none
  | .raise t =>
    if mayCall (s.stack t) then
      some ({ s with raises := s.raises + 1, copies := Function.update s.copies s.raises s.listeners.toList }.goto t
        (⟨s.raises, false⟩ :: s.stack t), [.raised s.raises])
    else none
  | .invoke t =>
    match s.stack t with
    | ⟨r, false⟩ :: fs =>
      match s.copies r with
      | (cookie, listener) :: rest =>
        some ({ s with copies := Function.update s.copies r rest }.goto t (⟨r, true⟩ :: fs),
          [.invoked r cookie listener])
      | [] => none
    | _ => none
  | .return_ t =>
    match s.stack t with
    | ⟨r, true⟩ :: fs => some (s.goto t (⟨r, false⟩ :: fs), [])
    | _ => none
  | .finish t =>
    match s.stack t with
    | ⟨r, false⟩ :: fs => if (s.copies r).isEmpty then some (s.goto t fs, [.finished r]) else none
    | _ => none

end Steps

theorem step_cases [DecidableEq T] {s u : EventSource T H} {a : Act T H} {o : List (Seen H)}
    (h : step s a = some (u, o)) :
    (∃ listener, u = { s with
        largestEventCookie := nextCookie s.largestEventCookie
        listeners := s.listeners.insert (nextCookie s.largestEventCookie) listener } ∧
      o = [.registered (nextCookie s.largestEventCookie) listener]) ∨
    (∃ cookie, u = { s with listeners := s.listeners.erase cookie } ∧ o = [.unregistered cookie]) ∨
    (∃ t, u = { s with raises := s.raises + 1, copies := Function.update s.copies s.raises s.listeners.toList }.goto t
      (⟨s.raises, false⟩ :: s.stack t) ∧ o = [.raised s.raises]) ∨
    (∃ t r fs cookie listener rest, s.stack t = ⟨r, false⟩ :: fs ∧ s.copies r = (cookie, listener) :: rest ∧
      u = { s with copies := Function.update s.copies r rest }.goto t (⟨r, true⟩ :: fs) ∧
      o = [.invoked r cookie listener]) ∨
    (∃ t r fs, s.stack t = ⟨r, false⟩ :: fs ∧ s.copies r = [] ∧ u = s.goto t fs ∧ o = [.finished r]) ∨
    (u = s ∧ o = []) ∨
    (∃ t r fs, s.stack t = ⟨r, true⟩ :: fs ∧ u = s.goto t (⟨r, false⟩ :: fs) ∧ o = []) := by
  cases a with
  | registerListener t listener =>
    simp [step] at h
    exact .inl ⟨listener, h.2.1.symm, h.2.2.symm⟩
  | unregisterListener t cookie =>
    by_cases e : cookie = 0
    · simp [step, e] at h
      exact .inr (.inr (.inr (.inr (.inr (.inl ⟨h.2.1.symm, h.2.2⟩)))))
    · simp [step, e] at h
      exact .inr (.inl ⟨cookie, h.2.2.1.symm, h.2.2.2.symm⟩)
  | raise t =>
    simp [step] at h
    exact .inr (.inr (.inl ⟨t, h.2.1.symm, h.2.2.symm⟩))
  | invoke t =>
    cases hs : s.stack t with
    | nil => simp [step, hs] at h
    | cons f fs =>
      obtain ⟨r, b⟩ := f
      cases b with
      | true => simp [step, hs] at h
      | false =>
        cases hc : s.copies r with
        | nil => simp [step, hs, hc] at h
        | cons x rest =>
          simp [step, hs, hc] at h
          exact .inr (.inr (.inr (.inl ⟨t, r, fs, x.1, x.2, rest, hs, hc, h.1.symm, h.2.symm⟩)))
  | return_ t =>
    cases hs : s.stack t with
    | nil => simp [step, hs] at h
    | cons f fs =>
      obtain ⟨r, b⟩ := f
      cases b with
      | false => simp [step, hs] at h
      | true =>
        simp [step, hs] at h
        exact .inr (.inr (.inr (.inr (.inr (.inr ⟨t, r, fs, hs, h.1.symm, h.2⟩)))))
  | finish t =>
    cases hs : s.stack t with
    | nil => simp [step, hs] at h
    | cons f fs =>
      obtain ⟨r, b⟩ := f
      cases b with
      | true => simp [step, hs] at h
      | false =>
        simp [step, hs] at h
        exact .inr (.inr (.inr (.inr (.inl ⟨t, r, fs, hs, h.1, h.2.1.symm, h.2.2.symm⟩))))

/-! ## The calls one after another -/

/-- A world whose source has this map. -/
structure Matches (s : EventSource T H) (w : World H) : Prop where
  largest : w.largestEventCookie = s.largestEventCookie
  listeners : w.listeners = fun cookie => s.listeners[cookie]?

theorem nextCookie_eq {n : Nat} (h : n < 2 ^ 64) : (n + 1) % 2 ^ 64 = nextCookie n := by
  unfold nextCookie
  by_cases e : n + 1 = 2 ^ 64
  · rw [if_pos e, e]
    exact Nat.mod_self _
  · rw [if_neg e]
    exact Nat.mod_eq_of_lt (by omega)

theorem largest_lt [DecidableEq T] {s : EventSource T H} {h : List (Seen H)} (hr : Reach step new s h) :
    s.largestEventCookie < 2 ^ 64 := by
  refine hr.inv_state (I := fun s => s.largestEventCookie < 2 ^ 64) (Nat.two_pow_pos 64) fun s a u o hs hst => ?_
  rcases step_cases hst with ⟨listener, rfl, -⟩ | ⟨cookie, rfl, -⟩ | ⟨t, rfl, -⟩ |
    ⟨t, r, fs, cookie, listener, rest, -, -, rfl, -⟩ | ⟨t, r, fs, -, -, rfl, -⟩ | ⟨rfl, -⟩ | ⟨t, r, fs, -, rfl, -⟩
  · show nextCookie s.largestEventCookie < 2 ^ 64
    unfold nextCookie
    split <;> omega
  all_goals exact hs

theorem register_matches [DecidableEq T] {s u : EventSource T H} {h : List (Seen H)} (hr : Reach step new s h)
    {w : World H} (hs : Matches s w) {t : T} {listener : H} {o : List (Seen H)}
    (hst : step s (.registerListener t listener) = some (u, o)) :
    Returns (registerListener listener) (fun c v => c = ⟨true, u.largestEventCookie⟩ ∧ Matches u v) w := by
  simp [step] at hst
  obtain ⟨-, rfl, -⟩ := hst
  unfold Returns registerListener
  rw [wp_bind, wp_get, wp_bind, wp_modify, hs.largest, nextCookie_eq (largest_lt hr), hs.listeners]
  refine ⟨rfl, rfl, ?_⟩
  funext cookie
  show Function.update (fun c => s.listeners[c]?) (nextCookie _) (some listener) cookie =
    (s.listeners.insert _ _)[cookie]?
  simp only [Std.ExtTreeMap.getElem?_insert, Function.update_apply, Nat.compare_eq_eq, eq_comm (a := cookie)]

theorem unregister_matches [DecidableEq T] {s u : EventSource T H} {w : World H} (hs : Matches s w) {t : T}
    {cookie : Nat} {o : List (Seen H)} (hst : step s (.unregisterListener t cookie) = some (u, o)) :
    Returns (unregisterListener cookie) (fun _ v => Matches u v) w := by
  unfold Returns unregisterListener
  by_cases e : cookie = 0
  · simp [step, e] at hst
    obtain ⟨-, rfl, -⟩ := hst
    rw [if_pos e]
    exact hs
  · simp [step, e] at hst
    obtain ⟨-, ⟨hle, hmem⟩, rfl, -⟩ := hst
    have hlive : (w.listeners cookie).isSome = true := by
      rw [hs.listeners]
      exact Std.ExtTreeMap.mem_iff_isSome_getElem?.mp hmem
    rw [if_neg e, wp_bind, wp_get, wp_bind, assert, if_pos ⟨e, hs.largest ▸ hle⟩, wp_pure, wp_bind, wp_get, wp_bind,
      assert, if_pos hlive, wp_pure, wp_modify]
    refine ⟨hs.largest, ?_⟩
    funext c
    show Function.update w.listeners cookie none c = (s.listeners.erase cookie)[c]?
    simp only [Std.ExtTreeMap.getElem?_erase, hs.listeners, Function.update_apply, Nat.compare_eq_eq, eq_comm (a := c)]

/-! ## What is registered -/

def registers : Seen H → Option (Nat × H)
  | .registered cookie listener => some (cookie, listener)
  | _ => none

/-- A cookie that is given again has its former listener no more. -/
def unregisters : Seen H → Nat × H → Bool
  | .registered cookie _, x => x.1 = cookie
  | .unregistered cookie, x => x.1 = cookie
  | _, _ => false

/-- The listeners registered and not unregistered since, in the order of registration. -/
def registered (h : List (Seen H)) : List (Nat × H) := standing registers unregisters h

def registrations (h : List (Seen H)) : Nat := (h.filterMap registers).length

/-- What a copy of the map has at a moment: the listeners registered then, each once, by
    cookie; in the order of registration, with fewer than 2^64. -/
structure Snapshot (h : List (Seen H)) (snap : List (Nat × H)) : Prop where
  mem : ∀ x, x ∈ snap ↔ x ∈ registered h
  sorted : snap.Pairwise fun x y => x.1 < y.1
  order : registrations h < 2 ^ 64 → snap = registered h

theorem registered_snoc (h : List (Seen H)) (o : Seen H) :
    registered (h ++ [o]) = (registered h).filter (fun x => !unregisters o x) ++ (registers o).toList :=
  standing_snoc registers unregisters h o

theorem registrations_snoc (h : List (Seen H)) (o : Seen H) :
    registrations (h ++ [o]) = registrations h + (registers o).toList.length := by
  unfold registrations
  rw [List.filterMap_append, List.length_append]
  cases e : registers o <;> simp [e]

/-- Two lists by cookie with the same listeners are the same. -/
theorem eq_of_sorted {k l : List (Nat × H)} (hk : k.Pairwise fun x y => x.1 < y.1)
    (hl : l.Pairwise fun x y => x.1 < y.1) (h : ∀ x, x ∈ k ↔ x ∈ l) : k = l := by
  have hnodup : ∀ {m : List (Nat × H)}, m.Pairwise (fun x y => x.1 < y.1) → m.Nodup := fun hm =>
    hm.imp fun {x y} hxy e => by rw [e] at hxy; exact absurd hxy (Nat.lt_irrefl _)
  have hperm : k.Perm l := (List.perm_ext_iff_of_nodup (hnodup hk) (hnodup hl)).mpr h
  exact hperm.eq_of_pairwise (fun x y _ _ hxy hyx => absurd (Nat.lt_trans hxy hyx) (Nat.lt_irrefl _)) hk hl

theorem toList_sorted (m : Std.ExtTreeMap Nat H) : m.toList.Pairwise fun x y => x.1 < y.1 :=
  Std.ExtTreeMap.ordered_keys_toList.imp fun h => Nat.compare_eq_lt.mp h

/-- The map is what is registered. -/
structure Registry (s : EventSource T H) (h : List (Seen H)) : Prop where
  mem : ∀ x, x ∈ s.listeners.toList ↔ x ∈ registered h
  largest : registrations h < 2 ^ 64 → s.largestEventCookie = registrations h
  bound : registrations h < 2 ^ 64 → ∀ x ∈ registered h, x.1 ≤ registrations h
  sorted : registrations h < 2 ^ 64 → (registered h).Pairwise fun x y => x.1 < y.1

theorem new_registry : Registry (new : EventSource T H) [] := by
  refine ⟨fun x => ?_, fun _ => rfl, fun _ _ hx => absurd hx List.not_mem_nil, fun _ => List.Pairwise.nil⟩
  exact iff_of_false List.not_mem_nil List.not_mem_nil

theorem Registry.snapshot {s : EventSource T H} {h : List (Seen H)} (hs : Registry s h) :
    Snapshot h s.listeners.toList :=
  ⟨hs.mem, toList_sorted _, fun hf => eq_of_sorted (toList_sorted _) (hs.sorted hf) hs.mem⟩

theorem Registry.register {s u : EventSource T H} {h : List (Seen H)} (hs : Registry s h) {listener : H}
    (hl : u.largestEventCookie = nextCookie s.largestEventCookie)
    (hm : u.listeners = s.listeners.insert (nextCookie s.largestEventCookie) listener) :
    Registry u (h ++ [.registered (nextCookie s.largestEventCookie) listener]) := by
  have hcount : registrations (h ++ [.registered (nextCookie s.largestEventCookie) listener]) = registrations h + 1 :=
    registrations_snoc h _
  have hreg := registered_snoc h (.registered (nextCookie s.largestEventCookie) listener)
  have hnext : registrations h + 1 < 2 ^ 64 → nextCookie s.largestEventCookie = registrations h + 1 := by
    intro hf
    unfold nextCookie
    rw [hs.largest (by omega), if_neg (by omega)]
  refine ⟨fun x => ?_, fun hf => ?_, fun hf x hx => ?_, fun hf => ?_⟩
  · obtain ⟨k, v⟩ := x
    have hold := hs.mem (k, v)
    rw [Std.ExtTreeMap.mem_toList_iff_getElem?_eq_some] at hold
    rw [hm, hreg, Std.ExtTreeMap.mem_toList_iff_getElem?_eq_some, Std.ExtTreeMap.getElem?_insert]
    simp only [registers, unregisters, Option.toList_some, List.mem_append, List.mem_filter, List.mem_singleton, ← hold,
      Nat.compare_eq_eq, Prod.mk.injEq]
    by_cases e : nextCookie s.largestEventCookie = k
    · simp [e, eq_comm]
    · simp [e, Ne.symm e]
  · rw [hcount] at hf ⊢
    rw [hl, hnext hf]
  · rw [hcount] at hf ⊢
    rw [hreg] at hx
    rcases List.mem_append.mp hx with hx | hx
    · have := hs.bound (by omega) x (List.mem_filter.mp hx).1
      omega
    · rw [List.mem_singleton.mp hx]
      exact Nat.le_of_eq (hnext hf)
  · rw [hcount] at hf
    rw [hreg]
    refine List.pairwise_append.mpr ⟨(hs.sorted (by omega)).filter _, List.pairwise_singleton _ _, fun x hx y hy => ?_⟩
    have := hs.bound (by omega) x (List.mem_filter.mp hx).1
    rw [List.mem_singleton.mp hy]
    show x.1 < nextCookie s.largestEventCookie
    rw [hnext hf]
    omega

theorem Registry.unregister {s u : EventSource T H} {h : List (Seen H)} (hs : Registry s h) {cookie : Nat}
    (hl : u.largestEventCookie = s.largestEventCookie) (hm : u.listeners = s.listeners.erase cookie) :
    Registry u (h ++ [.unregistered cookie]) := by
  have hcount : registrations (h ++ [.unregistered cookie]) = registrations h := registrations_snoc h _
  have hreg : registered (h ++ [.unregistered cookie]) = (registered h).filter fun x => !decide (x.1 = cookie) := by
    rw [registered_snoc]
    exact List.append_nil _
  refine ⟨fun x => ?_, fun hf => ?_, fun hf x hx => ?_, fun hf => ?_⟩
  · obtain ⟨k, v⟩ := x
    have hold := hs.mem (k, v)
    rw [Std.ExtTreeMap.mem_toList_iff_getElem?_eq_some] at hold
    rw [hm, hreg, Std.ExtTreeMap.mem_toList_iff_getElem?_eq_some, Std.ExtTreeMap.getElem?_erase]
    simp only [List.mem_filter, ← hold, Nat.compare_eq_eq]
    by_cases e : cookie = k
    · simp [e]
    · simp [e, Ne.symm e]
  · rw [hcount] at hf ⊢
    rw [hl, hs.largest hf]
  · rw [hcount] at hf ⊢
    rw [hreg] at hx
    exact hs.bound hf x (List.mem_filter.mp hx).1
  · rw [hcount] at hf
    rw [hreg]
    exact (hs.sorted hf).filter _

/-- What neither registers nor unregisters. -/
theorem Registry.other {s u : EventSource T H} {h o : List (Seen H)} (hs : Registry s h)
    (hl : u.largestEventCookie = s.largestEventCookie) (hm : u.listeners = s.listeners)
    (ho : registered (h ++ o) = registered h ∧ registrations (h ++ o) = registrations h) : Registry u (h ++ o) := by
  obtain ⟨h1, h2⟩ := ho
  refine ⟨?_, ?_, ?_, ?_⟩
  · rw [hm, h1]; exact hs.mem
  · rw [hl, h2]; exact hs.largest
  · rw [h1, h2]; exact hs.bound
  · rw [h1, h2]; exact hs.sorted

theorem registered_other {h : List (Seen H)} {o : Seen H} (hp : registers o = none)
    (hd : ∀ x, unregisters o x = false) :
    registered (h ++ [o]) = registered h ∧ registrations (h ++ [o]) = registrations h := by
  rw [registered_snoc, registrations_snoc, hp]
  refine ⟨?_, rfl⟩
  rw [Option.toList_none, List.append_nil, List.filter_eq_self]
  intro x _
  rw [hd x]
  rfl

/-! ## What is invoked -/

def Seen.invocation (r : Nat) : Seen H → Option (Nat × H)
  | .invoked q cookie listener => if q = r then some (cookie, listener) else none
  | _ => none

/-- The listeners that a raise invokes, in that order. -/
def invocations (r : Nat) (h : List (Seen H)) : List (Nat × H) := h.filterMap (Seen.invocation r)

theorem invocations_append (r : Nat) (h o : List (Seen H)) :
    invocations r (h ++ o) = invocations r h ++ invocations r o :=
  List.filterMap_append ..

/-- What a raise has invoked and what it has yet to invoke are the map that it copied. -/
structure Raises (s : EventSource T H) (h : List (Seen H)) : Prop where
  fresh : ∀ r, s.raises ≤ r → .raised r ∉ h ∧ .finished r ∉ h ∧ invocations r h = []
  frames : ∀ t, ∀ f ∈ s.stack t, f.id < s.raises
  copies : ∀ before after r, h = before ++ .raised r :: after → Snapshot before (invocations r h ++ s.copies r)
  finished : ∀ r, .finished r ∈ h → s.copies r = []

theorem new_raises : Raises (new : EventSource T H) [] := by
  refine ⟨fun _ _ => ⟨List.not_mem_nil, List.not_mem_nil, rfl⟩, fun _ _ hf => absurd hf List.not_mem_nil,
    fun before after r h => ?_, fun _ h => absurd h List.not_mem_nil⟩
  have := congrArg List.length h
  simp at this

/-- One step: each raise under way invokes what it takes from its copy; one that begins
    copies the map. -/
theorem Raises.step {s u : EventSource T H} {h o : List (Seen H)} (hs : Raises s h) (hraises : s.raises ≤ u.raises)
    (hfresh : ∀ r, u.raises ≤ r → .raised r ∉ o ∧ .finished r ∉ o ∧ invocations r o = [])
    (hframes : ∀ t, ∀ f ∈ u.stack t, f.id < u.raises)
    (hcopies : ∀ r, r < s.raises → invocations r o ++ u.copies r = s.copies r)
    (hnew : ∀ r, .raised r ∈ o → o = [.raised r] ∧ r = s.raises ∧ Snapshot h (u.copies r))
    (hfin : ∀ r, .finished r ∈ o → u.copies r = []) : Raises u (h ++ o) := by
  refine ⟨fun r hr => ?_, hframes, fun before after r e => ?_, fun r hr => ?_⟩
  · obtain ⟨h1, h2, h3⟩ := hs.fresh r (Nat.le_trans hraises hr)
    obtain ⟨h4, h5, h6⟩ := hfresh r hr
    refine ⟨fun hm => ?_, fun hm => ?_, ?_⟩
    · exact (List.mem_append.mp hm).elim h1 h4
    · exact (List.mem_append.mp hm).elim h2 h5
    · rw [invocations_append, h3, h6]
      rfl
  · rw [invocations_append, List.append_assoc]
    rcases split_append e with ⟨after', he⟩ | ⟨o', ho, hb⟩
    · have hr : r < s.raises := by
        by_contra hr
        apply (hs.fresh r (by omega)).1
        rw [he]
        simp
      rw [hcopies r hr]
      exact hs.copies before after' r he
    · obtain ⟨ho1, hr, hsnap⟩ := hnew r (by rw [ho]; simp)
      rw [ho1] at ho
      obtain ⟨rfl, -⟩ : o' = [] ∧ after = [] := by
        have := congrArg List.length ho
        simp at this
        exact ⟨List.eq_nil_of_length_eq_zero (by omega), List.eq_nil_of_length_eq_zero (by omega)⟩
      rw [(hs.fresh r (Nat.le_of_eq hr.symm)).2.2, ho1, hb, List.append_nil]
      exact hsnap
  · rcases List.mem_append.mp hr with hr | hr
    · have hlt : r < s.raises := by
        by_contra hlt
        exact (hs.fresh r (by omega)).2.1 hr
      have hc := hcopies r hlt
      rw [hs.finished r hr] at hc
      exact (List.append_eq_nil_iff.mp hc).2
    · exact hfin r hr

/-- A step that no raise takes. -/
theorem Raises.same {s u : EventSource T H} {h o : List (Seen H)} (hs : Raises s h) (hraises : u.raises = s.raises)
    (hcopies : u.copies = s.copies) (hframes : ∀ t, ∀ f ∈ u.stack t, f.id < s.raises)
    (ho : ∀ r, .raised r ∉ o ∧ .finished r ∉ o ∧ invocations r o = []) : Raises u (h ++ o) := by
  refine hs.step (Nat.le_of_eq hraises.symm) (fun r _ => ho r) (hraises ▸ hframes) (fun r _ => ?_)
    (fun r hr => absurd hr (ho r).1) fun r hr => absurd hr (ho r).2.1
  rw [(ho r).2.2, hcopies]
  rfl

variable [DecidableEq T]

/-- A thread's frames, after a step of its own. -/
theorem goto_frames {s u : EventSource T H} {t : T} {fs : List Raise} {n : Nat} (hu : u.stack = s.stack)
    (hs : ∀ v, ∀ f ∈ s.stack v, f.id < n) (hfs : ∀ f ∈ fs, f.id < n) : ∀ v, ∀ f ∈ (u.goto t fs).stack v, f.id < n := by
  intro v f hf
  have hf : f ∈ Function.update u.stack t fs v := hf
  by_cases e : v = t
  · rw [e, Function.update_self] at hf
    exact hfs f hf
  · rw [Function.update_of_ne e, hu] at hf
    exact hs v f hf

theorem step_raises {s u : EventSource T H} {a : Act T H} {h o : List (Seen H)} (hs : Raises s h) (hreg : Registry s h)
    (hst : step s a = some (u, o)) : Raises u (h ++ o) := by
  rcases step_cases hst with ⟨listener, rfl, rfl⟩ | ⟨cookie, rfl, rfl⟩ | ⟨t, rfl, rfl⟩ |
    ⟨t, r, fs, cookie, listener, rest, ht, hc, rfl, rfl⟩ | ⟨t, r, fs, ht, hc, rfl, rfl⟩ | ⟨rfl, rfl⟩ |
    ⟨t, r, fs, ht, rfl, rfl⟩
  · exact hs.same rfl rfl hs.frames fun r => ⟨by simp, by simp, rfl⟩
  · exact hs.same rfl rfl hs.frames fun r => ⟨by simp, by simp, rfl⟩
  · refine hs.step (Nat.le_succ _) (fun r hr => ⟨?_, by simp, rfl⟩) ?_ (fun r hr => ?_) (fun r hr => ?_)
      fun r hr => absurd hr (by simp)
    · have hr : s.raises + 1 ≤ r := hr
      simp
      omega
    · refine goto_frames rfl (fun v f hf => Nat.lt_succ_of_lt (hs.frames v f hf)) fun f hf => ?_
      rcases List.mem_cons.mp hf with rfl | hf
      · exact Nat.lt_succ_self _
      · exact Nat.lt_succ_of_lt (hs.frames t f hf)
    · exact Function.update_of_ne (Nat.ne_of_lt hr) ..
    · obtain rfl : r = s.raises := by simpa using hr
      refine ⟨rfl, rfl, ?_⟩
      show Snapshot h (Function.update s.copies s.raises s.listeners.toList s.raises)
      rw [Function.update_self]
      exact hreg.snapshot
  · have hr : r < s.raises := hs.frames t _ (ht ▸ List.mem_cons_self)
    refine hs.step (Nat.le_refl _) (fun q hq => ⟨by simp, by simp, ?_⟩) ?_ (fun q hq => ?_)
      (fun q hq => absurd hq (by simp)) fun q hq => absurd hq (by simp)
    · have hq : s.raises ≤ q := hq
      simp [invocations, Seen.invocation, Nat.ne_of_lt (Nat.lt_of_lt_of_le hr hq)]
    · refine goto_frames rfl hs.frames fun f hf => ?_
      rcases List.mem_cons.mp hf with rfl | hf
      · exact hr
      · exact hs.frames t f (ht ▸ List.mem_cons_of_mem _ hf)
    · show invocations q [.invoked r cookie listener] ++ Function.update s.copies r rest q = s.copies q
      by_cases e : r = q
      · rw [← e, Function.update_self, hc]
        simp [invocations, Seen.invocation]
      · rw [Function.update_of_ne (Ne.symm e)]
        simp [invocations, Seen.invocation, e]
  · refine hs.step (Nat.le_refl _) (fun q hq => ⟨by simp, ?_, rfl⟩) ?_ (fun q hq => rfl)
      (fun q hq => absurd hq (by simp)) fun q hq => ?_
    · have hq : s.raises ≤ q := hq
      have hr : r < s.raises := hs.frames t ⟨r, false⟩ (ht ▸ List.mem_cons_self)
      simp
      omega
    · exact goto_frames rfl hs.frames fun f hf => hs.frames t f (ht ▸ List.mem_cons_of_mem _ hf)
    · obtain rfl : q = r := by simpa using hq
      exact hc
  · exact hs.same rfl rfl hs.frames fun r => ⟨List.not_mem_nil, List.not_mem_nil, rfl⟩
  · refine hs.same rfl rfl (goto_frames rfl hs.frames fun f hf => ?_) fun r => ⟨List.not_mem_nil, List.not_mem_nil, rfl⟩
    rcases List.mem_cons.mp hf with rfl | hf
    · exact hs.frames t ⟨r, true⟩ (ht ▸ List.mem_cons_self)
    · exact hs.frames t f (ht ▸ List.mem_cons_of_mem _ hf)

theorem step_registry {s u : EventSource T H} {a : Act T H} {h o : List (Seen H)} (hs : Registry s h)
    (hst : step s a = some (u, o)) : Registry u (h ++ o) := by
  rcases step_cases hst with ⟨listener, rfl, rfl⟩ | ⟨cookie, rfl, rfl⟩ | ⟨t, rfl, rfl⟩ |
    ⟨t, r, fs, cookie, listener, rest, ht, hc, rfl, rfl⟩ | ⟨t, r, fs, ht, hc, rfl, rfl⟩ | ⟨rfl, rfl⟩ |
    ⟨t, r, fs, ht, rfl, rfl⟩
  · exact hs.register rfl rfl
  · exact hs.unregister rfl rfl
  · exact hs.other rfl rfl (registered_other rfl fun _ => rfl)
  · exact hs.other rfl rfl (registered_other rfl fun _ => rfl)
  · exact hs.other rfl rfl (registered_other rfl fun _ => rfl)
  · exact hs.other rfl rfl (by rw [List.append_nil]; exact ⟨rfl, rfl⟩)
  · exact hs.other rfl rfl (by rw [List.append_nil]; exact ⟨rfl, rfl⟩)

theorem reach_inv {s : EventSource T H} {h : List (Seen H)} (hr : Reach step new s h) : Registry s h ∧ Raises s h :=
  hr.inv (I := fun s h => Registry s h ∧ Raises s h) ⟨new_registry, new_raises⟩ fun _ _ _ _ _ hI hst =>
    ⟨step_registry hI.1 hst, step_raises hI.2 hI.1 hst⟩

/-- Every raise invokes the listeners registered when it copied the map, each once and in
    order: those of them that it has got to, and once it is over all of them. A listener
    that was unregistered before that copy, and not registered again, is not among them. -/
theorem raise_invokes_snapshot {s : EventSource T H} {h before after : List (Seen H)} {r : Nat}
    (hr : Reach step new s h) (hh : h = before ++ .raised r :: after) :
    (∃ snap, Snapshot before snap ∧ invocations r h <+: snap ∧ (.finished r ∈ h → invocations r h = snap)) ∧
    ∀ b b' cookie, before = b ++ .unregistered cookie :: b' → (∀ listener, .registered cookie listener ∉ b') →
      ∀ listener, (cookie, listener) ∉ invocations r h := by
  obtain ⟨-, hraises⟩ := reach_inv hr
  have hsnap := hraises.copies before after r hh
  refine ⟨⟨_, hsnap, List.prefix_append _ _, fun hf => ?_⟩, fun b b' cookie hb hnot listener hm => ?_⟩
  · rw [hraises.finished r hf, List.append_nil]
  · have hstands := (hsnap.mem (cookie, listener)).mp (List.mem_append_left _ hm)
    rw [hb] at hstands
    refine not_standing_drop registers unregisters (by simp [unregisters]) (fun f hf e => ?_) hstands
    rcases List.mem_cons.mp hf with rfl | hf'
    · cases e
    · cases f with
      | registered c l =>
        obtain ⟨rfl, rfl⟩ : c = cookie ∧ l = listener := by simpa [registers] using e
        exact hnot l hf'
      | _ => cases e

theorem raise_invokes_snapshot_two_listeners : ∃ snap : List (Nat × Bool),
    Snapshot ([.registered 1 false, .registered 2 true, .unregistered 1] : List (Seen Bool)) snap ∧
      [(2, true)] = snap := by
  have hr : Reach step (new : EventSource (Fin 1) Bool) _ [.registered 1 false, .registered 2 true, .unregistered 1,
      .raised 0, .invoked 0 2 true, .finished 0] := reach_of_exec [.registerListener 0 false,
    .registerListener 0 true, .unregisterListener 0 1, .raise 0, .invoke 0, .return_ 0, .finish 0] rfl
  obtain ⟨⟨snap, hsnap, -, hf⟩, -⟩ := raise_invokes_snapshot hr
    (rfl : _ = ([.registered 1 false, .registered 2 true, .unregistered 1] : List (Seen Bool)) ++ .raised 0 :: _)
  exact ⟨snap, hsnap, hf (by simp)⟩

/-- Two listeners; the first unregisters the second, which is invoked after that. -/
theorem invoked_after_unregister : ∃ s : EventSource (Fin 1) Bool, Reach step new s [.registered 1 false,
    .registered 2 true, .raised 0, .invoked 0 1 false, .unregistered 2, .invoked 0 2 true] :=
  ⟨_, reach_of_exec [.registerListener 0 false, .registerListener 0 true, .raise 0, .invoke 0,
    .unregisterListener 0 2, .return_ 0, .invoke 0] rfl⟩

end EventSource

end Dumbnose.Events
