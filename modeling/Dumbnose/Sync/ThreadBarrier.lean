/-
  Dumbnose.Sync.ThreadBarrier — a barrier for `threshold` threads, again and again
  (`thread_barrier.hpp`).

  A thread's place in `wait` is its program counter, and an action is a thread's next
  instruction, so a run is a schedule: which thread moves when. Two assumptions are the
  source's own. `SignalObjectAndWait` releases the mutex and starts to wait in one step,
  and `PulseEvent` wakes the threads that wait then, all of them (the event is
  manual-reset) and no others, and leaves the event unsignaled.

  The invariant gives, for each place the owner of the mutex can be in, the shared count
  against the threads that wait (`At`), and keeps the arrivals in groups: every pulse has
  ended one, of `threshold` calls, and the calls that arrived since are waiting or at the
  mutex (`Inv`).
-/

import Mathlib.Data.Fintype.Basic
import Mathlib.Data.Finset.Card
import Mathlib.Data.List.Forall2
import Dumbnose.Lib.Runs

namespace Dumbnose.Sync

open Lib.Runs

/-- Where a thread is in `wait`. -/
inductive ThreadBarrier.Pc where
  | idle
  /-- Past `lock_.acquire()`. -/
  | locked
  /-- Past the increment. -/
  | counted
  /-- In the first branch, the count being the threshold. -/
  | last
  /-- Past `*thread_count()=0`. -/
  | cleared
  /-- Past `event_.pulse()`. -/
  | pulsed
  /-- In the second branch. -/
  | early
  /-- In `signal_and_wait`. -/
  | blocked
  | woken
  deriving DecidableEq

structure ThreadBarrier (T : Type) where
  lock : Option T
  threadCount : UInt32
  pc : T → ThreadBarrier.Pc

namespace ThreadBarrier

inductive Seen (T : Type) where
  /-- A call has counted itself. -/
  | arrived (t : T)
  | pulsed (t : T) (woken : Finset T)
  | returned (t : T)
  deriving DecidableEq

variable {T : Type}

/-- The constructor; new shared memory is zero. -/
def new : ThreadBarrier T := ⟨none, 0, fun _ => .idle⟩

/-- The calls that counted themselves, in that order. -/
def arrivals (h : List (Seen T)) : List T :=
  h.filterMap fun | .arrived t => some t | _ => none

/-- Each pulse: who pulsed, and whom it woke. -/
def pulses (h : List (Seen T)) : List (T × Finset T) :=
  h.filterMap fun | .pulsed t woken => some (t, woken) | _ => none

/-- The calls that returned, in that order. -/
def returns (h : List (Seen T)) : List T :=
  h.filterMap fun | .returned t => some t | _ => none

section Steps
variable [Fintype T] [DecidableEq T]

def goto (s : ThreadBarrier T) (t : T) (p : Pc) : ThreadBarrier T := { s with pc := Function.update s.pc t p }

/-- The threads that wait for the event. -/
def waiting (s : ThreadBarrier T) : Finset T := Finset.univ.filter fun u => s.pc u = .blocked

/-- `PulseEvent`. -/
def pulse (s : ThreadBarrier T) : ThreadBarrier T :=
  { s with pc := fun u => if s.pc u = .blocked then .woken else s.pc u }

/-- The next instruction of a thread. -/
def step (threshold : UInt32) (s : ThreadBarrier T) (t : T) : Option (ThreadBarrier T × List (Seen T)) :=
  match s.pc t with
  | .idle => if s.lock = none then some ({ s with lock := some t }.goto t .locked, []) else none
  | .locked => some ({ s with threadCount := s.threadCount + 1 }.goto t .counted, [.arrived t])
  | .counted => some (s.goto t (if s.threadCount = threshold then .last else .early), [])
  | .last => some ({ s with threadCount := 0 }.goto t .cleared, [])
  | .cleared => some (s.pulse.goto t .pulsed, [.pulsed t s.waiting])
  | .pulsed => some ({ s with lock := none }.goto t .idle, [.returned t])
  | .early => some ({ s with lock := none }.goto t .blocked, [])
  | .blocked => none
  | .woken => some (s.goto t .idle, [.returned t])

end Steps

theorem pulse_pc (s : ThreadBarrier T) (u : T) : s.pulse.pc u = if s.pc u = .blocked then .woken else s.pc u := rfl

/-! ## The invariant -/

/-- Between `acquire` and the release of the mutex. -/
def Pc.inside : Pc → Bool
  | .locked | .counted | .last | .cleared | .pulsed | .early => true
  | .idle | .blocked | .woken => false

/-- Counted, and not yet waiting or past the pulse. -/
def Pc.arriving : Pc → Bool
  | .counted | .last | .cleared | .early => true
  | .idle | .locked | .pulsed | .blocked | .woken => false

/-- Past its pulse. -/
def Pc.leaving : Pc → Nat
  | .pulsed | .woken => 1
  | .idle | .locked | .counted | .last | .cleared | .early | .blocked => 0

/-- The count against the number of threads that wait, with the owner of the mutex at `p`. -/
def At (n count waiting : Nat) : Pc → Prop
  | .locked => count = waiting ∧ waiting < n
  | .counted => count = waiting + 1 ∧ waiting < n
  | .early => count = waiting + 1 ∧ waiting + 1 < n
  | .last => count = waiting + 1 ∧ waiting + 1 = n
  | .cleared => count = 0 ∧ waiting + 1 = n
  | .pulsed => count = 0 ∧ waiting = 0
  | .idle | .blocked | .woken => False

/-- The call at the mutex, once it has counted itself. -/
def atMutex (s : ThreadBarrier T) : List T :=
  match s.lock with
  | some t => if (s.pc t).arriving then [t] else []
  | none => []

/-- A pulse that ended a group of `n` calls, by different threads: the last of them pulsed,
    and it woke the others. -/
structure IsGroup [DecidableEq T] (n : Nat) (p : T × Finset T) (g : List T) : Prop where
  length : g.length = n
  nodup : g.Nodup
  last : g.getLast? = some p.1
  woken : p.2 = g.dropLast.toFinset

structure Inv [DecidableEq T] (n : Nat) (groups : List (List T)) (ws : List T) (s : ThreadBarrier T)
    (h : List (Seen T)) : Prop where
  nodup : ws.Nodup
  waiting : ∀ u, u ∈ ws ↔ s.pc u = .blocked
  owner : ∀ u, (s.pc u).inside = true ↔ s.lock = some u
  free : s.lock = none → s.threadCount.toNat = ws.length ∧ ws.length < n
  held : ∀ t, s.lock = some t → At n s.threadCount.toNat ws.length (s.pc t)
  arrived : arrivals h = groups.flatten ++ ws ++ s.atMutex
  ended : List.Forall₂ (IsGroup n) (pulses h) groups
  returned : ∀ u, (returns h).count u + (s.pc u).leaving = groups.countP fun g => u ∈ g

@[simp] theorem arrivals_append (h o : List (Seen T)) : arrivals (h ++ o) = arrivals h ++ arrivals o :=
  List.filterMap_append ..

@[simp] theorem pulses_append (h o : List (Seen T)) : pulses (h ++ o) = pulses h ++ pulses o :=
  List.filterMap_append ..

@[simp] theorem returns_append (h o : List (Seen T)) : returns (h ++ o) = returns h ++ returns o :=
  List.filterMap_append ..

theorem atMutex_some {s : ThreadBarrier T} {t : T} (h : s.lock = some t) :
    s.atMutex = if (s.pc t).arriving then [t] else [] := by
  unfold atMutex
  rw [h]

theorem atMutex_none {s : ThreadBarrier T} (h : s.lock = none) : s.atMutex = [] := by
  unfold atMutex
  rw [h]

section Steps
variable [DecidableEq T]

@[simp] theorem goto_lock (s : ThreadBarrier T) (t : T) (p : Pc) : (s.goto t p).lock = s.lock := rfl

@[simp] theorem goto_threadCount (s : ThreadBarrier T) (t : T) (p : Pc) : (s.goto t p).threadCount = s.threadCount :=
  rfl

@[simp] theorem goto_same (s : ThreadBarrier T) (t : T) (p : Pc) : (s.goto t p).pc t = p := Function.update_self ..

theorem goto_pc (s : ThreadBarrier T) (t u : T) (p : Pc) : (s.goto t p).pc u = if u = t then p else s.pc u :=
  Function.update_apply ..

variable {n : Nat} {groups : List (List T)} {ws : List T} {s : ThreadBarrier T} {h : List (Seen T)}

theorem Inv.lock_eq (hi : Inv n groups ws s h) {t : T} (hp : (s.pc t).inside = true) : s.lock = some t :=
  (hi.owner t).mp hp

/-- One thread moves and the others stay: what is left to show of the invariant. -/
theorem Inv.goto (hi : Inv n groups ws s h) {t : T} {p : Pc} {lock : Option T} {c : UInt32} {ws' : List T}
    {o : List (Seen T)} (hnd : ws'.Nodup) (hws : ∀ u, u ∈ ws' ↔ if u = t then p = .blocked else u ∈ ws)
    (hlock : ∀ u, lock = some u ↔ if u = t then p.inside = true else s.lock = some u)
    (hfree : lock = none → c.toNat = ws'.length ∧ ws'.length < n)
    (hheld : ∀ u, lock = some u → At n c.toNat ws'.length (if u = t then p else s.pc u))
    (harr : arrivals h ++ arrivals o = groups.flatten ++ ws' ++ atMutex (ThreadBarrier.goto ⟨lock, c, s.pc⟩ t p))
    (hpul : pulses o = [])
    (hret : ∀ u, (returns o).count u + (if u = t then p else s.pc u).leaving = (s.pc u).leaving) :
    Inv n groups ws' (ThreadBarrier.goto ⟨lock, c, s.pc⟩ t p) (h ++ o) := by
  refine ⟨hnd, ?_, ?_, hfree, ?_, ?_, ?_, ?_⟩
  · intro u
    rw [goto_pc, hws]
    by_cases e : u = t
    · rw [if_pos e, if_pos e]
    · rw [if_neg e, if_neg e]
      exact hi.waiting u
  · intro u
    rw [goto_pc, goto_lock, hlock]
    by_cases e : u = t
    · rw [if_pos e, if_pos e]
    · rw [if_neg e, if_neg e]
      exact hi.owner u
  · intro u hu
    rw [goto_pc]
    exact hheld u hu
  · rw [arrivals_append]
    exact harr
  · rw [pulses_append, hpul, List.append_nil]
    exact hi.ended
  · intro u
    rw [returns_append, List.count_append, goto_pc, Nat.add_assoc, hret]
    exact hi.returned u

/-- The owner of the mutex does its next instruction, and keeps the mutex. -/
theorem Inv.move (hi : Inv n groups ws s h) {t : T} (hin : (s.pc t).inside = true) {p : Pc} (hp : p.inside = true)
    {c : UInt32} (hat : At n c.toNat ws.length p) {o : List (Seen T)}
    (harr : (if p.arriving then [t] else []) = (if (s.pc t).arriving then [t] else []) ++ arrivals o)
    (hpul : pulses o = []) (hret : returns o = []) (hlv : p.leaving = (s.pc t).leaving) :
    Inv n groups ws ({ s with threadCount := c }.goto t p) (h ++ o) := by
  have hl := hi.lock_eq hin
  refine hi.goto hi.nodup ?_ ?_ ?_ ?_ ?_ hpul ?_
  · intro u
    by_cases e : u = t
    · subst e
      rw [if_pos rfl, hi.waiting]
      refine ⟨fun hb => ?_, fun hb => ?_⟩
      · rw [hb] at hin; cases hin
      · rw [hb] at hp; cases hp
    · rw [if_neg e]
  · intro u
    by_cases e : u = t
    · subst e
      rw [if_pos rfl]
      exact ⟨fun _ => hp, fun _ => hl⟩
    · rw [if_neg e]
  · intro hf
    rw [hl] at hf
    cases hf
  · intro u hu
    obtain rfl : t = u := Option.some.inj (hl.symm.trans hu)
    rw [if_pos rfl]
    exact hat
  · have h1 := atMutex_some (s := ThreadBarrier.goto ⟨s.lock, c, s.pc⟩ t p) (t := t) hl
    rw [goto_same] at h1
    rw [hi.arrived, h1, harr, atMutex_some hl, List.append_assoc]
  · intro u
    rw [hret]
    by_cases e : u = t
    · rw [if_pos e, e, hlv]
      exact Nat.zero_add _
    · rw [if_neg e]
      exact Nat.zero_add _

/-- A thread outside the mutex that does not wait moves to another place there. -/
theorem Inv.outside (hi : Inv n groups ws s h) {t : T} (hin : (s.pc t).inside = false) (hb : s.pc t ≠ .blocked)
    {p : Pc} (hp : p.inside = false) (hpb : p ≠ .blocked) {o : List (Seen T)} (harr : arrivals o = [])
    (hpul : pulses o = [])
    (hret : ∀ u, (returns o).count u + (if u = t then p else s.pc u).leaving = (s.pc u).leaving) :
    Inv n groups ws (s.goto t p) (h ++ o) := by
  have ht : s.lock ≠ some t := fun hl => by
    have := (hi.owner t).mpr hl
    rw [hin] at this
    cases this
  refine hi.goto hi.nodup ?_ ?_ hi.free ?_ ?_ hpul hret
  · intro u
    by_cases e : u = t
    · subst e
      rw [if_pos rfl, hi.waiting]
      exact ⟨fun h => absurd h hb, fun h => absurd h hpb⟩
    · rw [if_neg e]
  · intro u
    by_cases e : u = t
    · subst e
      rw [if_pos rfl, hp]
      exact ⟨fun h => absurd h ht, fun h => absurd h Bool.false_ne_true⟩
    · rw [if_neg e]
  · intro u hu
    have e : u ≠ t := fun e => ht (e ▸ hu)
    rw [if_neg e]
    exact hi.held u hu
  · rw [harr, List.append_nil, hi.arrived]
    unfold atMutex
    cases hl : s.lock with
    | none => rfl
    | some u =>
      have e : u ≠ t := fun e => ht (e ▸ hl)
      show _ = groups.flatten ++ ws ++ if ((s.goto t p).pc u).arriving then [u] else []
      rw [goto_pc, if_neg e]

theorem Inv.acquire (hi : Inv n groups ws s h) {t : T} (hp : s.pc t = .idle) (hl : s.lock = none) :
    Inv n groups ws ({ s with lock := some t }.goto t .locked) (h ++ []) := by
  refine hi.goto hi.nodup ?_ ?_ ?_ ?_ ?_ rfl ?_
  · intro u
    by_cases e : u = t
    · subst e
      rw [if_pos rfl, hi.waiting, hp]
      decide
    · rw [if_neg e]
  · intro u
    by_cases e : u = t
    · subst e
      rw [if_pos rfl]
      exact ⟨fun _ => rfl, fun _ => rfl⟩
    · rw [if_neg e, hl, Option.some.injEq]
      exact ⟨fun h => absurd h.symm e, fun h => by cases h⟩
  · intro hf
    cases hf
  · intro u hu
    rw [if_pos (Option.some.inj hu).symm]
    exact hi.free hl
  · have h1 := atMutex_some (s := ThreadBarrier.goto ⟨some t, s.threadCount, s.pc⟩ t .locked) (t := t) rfl
    rw [goto_same] at h1
    rw [h1, hi.arrived, atMutex_none hl]
    exact List.append_nil _
  · intro u
    by_cases e : u = t
    · rw [if_pos e, e, hp]
      rfl
    · rw [if_neg e]
      exact Nat.zero_add _

/-- The mutex is given up with nobody at it any more. -/
theorem Inv.unlock (hi : Inv n groups ws s h) {t : T} (hin : (s.pc t).inside = true) {p : Pc} (hp : p.inside = false)
    {ws' : List T} (hnd : ws'.Nodup) (hws : ∀ u, u ∈ ws' ↔ if u = t then p = .blocked else u ∈ ws)
    (hat : s.threadCount.toNat = ws'.length ∧ ws'.length < n) {o : List (Seen T)} (harr : arrivals o = [])
    (hw : ws ++ (if (s.pc t).arriving then [t] else []) = ws') (hpul : pulses o = [])
    (hret : ∀ u, (returns o).count u + (if u = t then p else s.pc u).leaving = (s.pc u).leaving) :
    Inv n groups ws' ({ s with lock := none }.goto t p) (h ++ o) := by
  have hl := hi.lock_eq hin
  refine hi.goto hnd hws ?_ (fun _ => hat) ?_ ?_ hpul hret
  · intro u
    by_cases e : u = t
    · rw [if_pos e, hp]
      exact ⟨fun h => absurd h (by simp), fun h => absurd h Bool.false_ne_true⟩
    · rw [if_neg e, hl, Option.some.injEq]
      exact ⟨fun h => absurd h (by simp), fun h => absurd h.symm e⟩
  · intro u hu
    cases hu
  · have h1 := atMutex_none (s := ThreadBarrier.goto ⟨none, s.threadCount, s.pc⟩ t p) rfl
    rw [h1, harr, hi.arrived, atMutex_some hl, ← hw, List.append_nil, List.append_nil, List.append_assoc]

theorem IsGroup.card {p : T × Finset T} {g : List T} (hg : IsGroup n p g) (hn : 0 < n) :
    p.1 ∉ p.2 ∧ p.2.card = n - 1 := by
  have hne : g ≠ [] := fun h0 => by
    have := hg.length
    rw [h0, List.length_nil] at this
    omega
  have hlast : g.getLast hne = p.1 := by
    have := hg.last
    rw [List.getLast?_eq_some_getLast hne] at this
    exact Option.some.inj this
  have hsplit := List.dropLast_append_getLast hne
  have hnd := hg.nodup
  rw [← hsplit, hlast, List.nodup_append] at hnd
  obtain ⟨hd, -, hdis⟩ := hnd
  rw [hg.woken]
  refine ⟨fun hm => hdis _ (List.mem_toFinset.mp hm) _ (List.mem_singleton.mpr rfl) rfl, ?_⟩
  rw [List.toFinset_card_of_nodup hd, List.length_dropLast, hg.length]

theorem Inv.mem_atMutex (hi : Inv n groups ws s h) (u : T) : u ∈ s.atMutex ↔ (s.pc u).arriving = true := by
  refine ⟨fun hm => ?_, fun hp => ?_⟩
  · unfold atMutex at hm
    cases hl : s.lock with
    | none => simp [hl] at hm
    | some t =>
      by_cases e : (s.pc t).arriving = true
      · simp [hl, e] at hm
        rw [hm, e]
      · simp [hl, e] at hm
  · have hin : (s.pc u).inside = true := by
      cases hc : s.pc u <;> rw [hc] at hp <;> first | rfl | cases hp
    rw [atMutex_some (hi.lock_eq hin), if_pos hp]
    exact List.mem_singleton.mpr rfl

theorem Inv.length_le (hi : Inv n groups ws s h) : (ws ++ s.atMutex).length ≤ n := by
  rw [List.length_append]
  cases hl : s.lock with
  | none =>
    rw [atMutex_none hl]
    exact Nat.le_of_lt (hi.free hl).2
  | some t =>
    rw [atMutex_some hl]
    have hat := hi.held t hl
    cases hp : s.pc t <;> rw [hp] at hat <;> simp only [At] at hat <;> simp [Pc.arriving] <;> omega

theorem new_inv (hn : 0 < n) : Inv n [] [] (new : ThreadBarrier T) [] := by
  refine ⟨List.nodup_nil, ?_, ?_, fun _ => ⟨rfl, hn⟩, ?_, rfl, .nil, fun _ => rfl⟩
  · intro u
    simp [new]
  · intro u
    simp [new, Pc.inside]
  · intro t ht
    cases ht

section Pulse
variable [Fintype T]

/-- The last call of its group and those that wait are a group. -/
theorem Inv.isGroup (hi : Inv n groups ws s h) {t : T} (hp : s.pc t ≠ .blocked) (hn : ws.length + 1 = n) :
    IsGroup n (t, s.waiting) (ws ++ [t]) := by
  have ht : t ∉ ws := fun hm => hp ((hi.waiting t).mp hm)
  refine ⟨?_, ?_, List.getLast?_concat, ?_⟩
  · rw [List.length_append, List.length_singleton, hn]
  · rw [List.nodup_append]
    exact ⟨hi.nodup, List.nodup_singleton t, fun u hu v hv e => ht (List.mem_singleton.mp hv ▸ e ▸ hu)⟩
  · rw [List.dropLast_concat]
    ext u
    rw [List.mem_toFinset, hi.waiting]
    simp [ThreadBarrier.waiting]

theorem Inv.pulse (hi : Inv n groups ws s h) {t : T} (hp : s.pc t = .cleared) :
    Inv n (groups ++ [ws ++ [t]]) [] (s.pulse.goto t .pulsed) (h ++ [.pulsed t s.waiting]) := by
  have hin : (s.pc t).inside = true := by rw [hp]; rfl
  have hl := hi.lock_eq hin
  have hat : At n s.threadCount.toNat ws.length .cleared := hp ▸ hi.held t hl
  refine ⟨List.nodup_nil, ?_, ?_, ?_, ?_, ?_, ?_, ?_⟩
  · intro u
    rw [goto_pc, pulse_pc]
    by_cases e : u = t
    · simp [e]
    · by_cases hb : s.pc u = .blocked <;> simp [e, hb]
  · intro u
    rw [goto_pc, pulse_pc]
    by_cases e : u = t
    · subst e
      rw [if_pos rfl]
      exact ⟨fun _ => hl, fun _ => rfl⟩
    · rw [if_neg e]
      by_cases hb : s.pc u = .blocked
      · have := hi.owner u
        rw [hb] at this
        rw [if_pos hb]
        exact this
      · rw [if_neg hb]
        exact hi.owner u
  · intro hf
    exact absurd (hl.symm.trans hf) (by simp)
  · intro u hu
    obtain rfl : t = u := Option.some.inj (hl.symm.trans hu)
    rw [goto_same]
    exact ⟨hat.1, rfl⟩
  · have h1 := atMutex_some (s := s.pulse.goto t .pulsed) (t := t) hl
    rw [goto_same] at h1
    rw [arrivals_append, hi.arrived, h1, atMutex_some hl, hp]
    simp [arrivals, Pc.arriving]
  · rw [pulses_append]
    exact List.rel_append hi.ended (.cons (hi.isGroup (by rw [hp]; decide) hat.2) .nil)
  · intro u
    have hr := hi.returned u
    rw [returns_append, List.countP_append, ← hr, goto_pc, pulse_pc]
    show (returns h ++ []).count u + _ = _
    rw [List.append_nil]
    by_cases e : u = t
    · subst e
      simp [hp, Pc.leaving]
    · by_cases hb : s.pc u = .blocked
      · have hm := (hi.waiting u).mpr hb
        simp [e, hb, hm, Pc.leaving]
      · have hm : u ∉ ws := fun hm => hb ((hi.waiting u).mp hm)
        simp [e, hb, hm]

/-! ## Every schedule -/

theorem step_inv {threshold : UInt32} (hn : 0 < threshold.toNat) (hi : Inv threshold.toNat groups ws s h)
    {t : T} {u : ThreadBarrier T} {o : List (Seen T)} (hst : step threshold s t = some (u, o)) :
    ∃ groups' ws', Inv threshold.toNat groups' ws' u (h ++ o) := by
  have hheld : ∀ p, s.pc t = p → p.inside = true → At threshold.toNat s.threadCount.toNat ws.length p := by
    intro p hp hin
    rw [← hp] at hin ⊢
    exact hi.held t (hi.lock_eq hin)
  have hlt := threshold.toNat_lt
  cases hp : s.pc t with
  | idle =>
    by_cases hl : s.lock = none
    · simp [step, hp, hl] at hst
      obtain ⟨rfl, rfl⟩ := hst
      exact ⟨groups, ws, hi.acquire hp hl⟩
    · simp [step, hp, hl] at hst
  | locked =>
    simp [step, hp] at hst
    obtain ⟨rfl, rfl⟩ := hst
    obtain ⟨hc, hw⟩ := hheld _ hp rfl
    have hat : At threshold.toNat (s.threadCount + 1).toNat ws.length .counted := by
      refine ⟨?_, hw⟩
      rw [UInt32.toNat_add, UInt32.toNat_one, Nat.mod_eq_of_lt (by omega), hc]
    exact ⟨groups, ws, hi.move (by rw [hp]; rfl) rfl hat (by rw [hp]; rfl) rfl rfl (by rw [hp]; rfl)⟩
  | counted =>
    simp [step, hp] at hst
    obtain ⟨rfl, rfl⟩ := hst
    obtain ⟨hc, hw⟩ := hheld _ hp rfl
    by_cases e : s.threadCount = threshold
    · rw [if_pos e]
      have hat : At threshold.toNat s.threadCount.toNat ws.length .last := by
        refine ⟨hc, ?_⟩
        rw [← e, hc]
      exact ⟨groups, ws, hi.move (by rw [hp]; rfl) rfl hat (by rw [hp]; rfl) rfl rfl (by rw [hp]; rfl)⟩
    · rw [if_neg e]
      have hne : s.threadCount.toNat ≠ threshold.toNat := fun h => e (UInt32.toNat_inj.mp h)
      have hat : At threshold.toNat s.threadCount.toNat ws.length .early := by
        refine ⟨hc, ?_⟩
        omega
      exact ⟨groups, ws, hi.move (by rw [hp]; rfl) rfl hat (by rw [hp]; rfl) rfl rfl (by rw [hp]; rfl)⟩
  | last =>
    simp [step, hp] at hst
    obtain ⟨rfl, rfl⟩ := hst
    obtain ⟨-, hw⟩ := hheld _ hp rfl
    have hat : At threshold.toNat (0 : UInt32).toNat ws.length .cleared := ⟨rfl, hw⟩
    exact ⟨groups, ws, hi.move (by rw [hp]; rfl) rfl hat (by rw [hp]; rfl) rfl rfl (by rw [hp]; rfl)⟩
  | cleared =>
    simp [step, hp] at hst
    obtain ⟨rfl, rfl⟩ := hst
    exact ⟨_, _, hi.pulse hp⟩
  | pulsed =>
    simp [step, hp] at hst
    obtain ⟨rfl, rfl⟩ := hst
    obtain ⟨hc, hw⟩ := hheld _ hp rfl
    have hnil := List.eq_nil_of_length_eq_zero hw
    subst hnil
    refine ⟨groups, [], hi.unlock (by rw [hp]; rfl) rfl List.nodup_nil ?_ ⟨hc, hn⟩ rfl (by rw [hp]; rfl) rfl ?_⟩
    · intro u
      by_cases e : u = t <;> simp [e]
    · intro u
      by_cases e : u = t
      · subst e
        simp [returns, hp, Pc.leaving]
      · simp [returns, e, Ne.symm e]
  | early =>
    simp [step, hp] at hst
    obtain ⟨rfl, rfl⟩ := hst
    obtain ⟨hc, hw⟩ := hheld _ hp rfl
    have ht : t ∉ ws := fun hm => by
      have := (hi.waiting t).mp hm
      rw [hp] at this
      cases this
    refine ⟨groups, ws ++ [t], hi.unlock (by rw [hp]; rfl) rfl ?_ ?_ ?_ rfl (by rw [hp]; rfl) rfl ?_⟩
    · rw [List.nodup_append]
      exact ⟨hi.nodup, List.nodup_singleton t, fun u hu v hv e => ht (List.mem_singleton.mp hv ▸ e ▸ hu)⟩
    · intro u
      by_cases e : u = t <;> simp [e]
    · rw [List.length_append, List.length_singleton]
      exact ⟨hc, hw⟩
    · intro u
      by_cases e : u = t
      · subst e
        simp [returns, hp, Pc.leaving]
      · simp [returns, e]
  | blocked => simp [step, hp] at hst
  | woken =>
    simp [step, hp] at hst
    obtain ⟨rfl, rfl⟩ := hst
    refine ⟨groups, ws, hi.outside (by rw [hp]; rfl) (by rw [hp]; decide) rfl (by decide) rfl rfl ?_⟩
    intro u
    by_cases e : u = t
    · subst e
      simp [returns, hp, Pc.leaving]
    · simp [returns, e, Ne.symm e]

theorem reach_inv {threshold : UInt32} (hn : 0 < threshold.toNat) (hr : Reach (step threshold) new s h) :
    ∃ groups ws, Inv threshold.toNat groups ws s h := by
  refine hr.inv (I := fun s h => ∃ groups ws, Inv threshold.toNat groups ws s h) ⟨[], [], new_inv hn⟩
    fun s h t u o hI hst => ?_
  obtain ⟨groups, ws, hi⟩ := hI
  exact step_inv hn hi hst

/-- The threads that wait, by the count of the list of them. -/
theorem Inv.card_waiting (hi : Inv n groups ws s h) : s.waiting.card = ws.length := by
  rw [← List.toFinset_card_of_nodup hi.nodup]
  congr 1
  ext u
  rw [List.mem_toFinset, hi.waiting]
  simp [ThreadBarrier.waiting]

/-- A barrier for `threshold` threads, in every schedule. With the mutex free, the shared
    count is the number of threads that wait, below the threshold. Every pulse wakes one
    fewer than the threshold. The arrivals fall into groups, a pulse to each, which wakes
    all but its last; the calls that arrived since the last pulse have yet to leave, and
    a thread has returned as often as it was in a group, or will next. -/
theorem cyclic_barrier {threshold : UInt32} (hn : 0 < threshold.toNat) (hr : Reach (step threshold) new s h) :
    (s.lock = none → s.threadCount.toNat = s.waiting.card ∧ s.threadCount.toNat < threshold.toNat) ∧
    (∀ p ∈ pulses h, p.1 ∉ p.2 ∧ p.2.card = threshold.toNat - 1) ∧
    ∃ (groups : List (List T)) (current : List T), arrivals h = groups.flatten ++ current ∧
      List.Forall₂ (IsGroup threshold.toNat) (pulses h) groups ∧ current.length ≤ threshold.toNat ∧
      (∀ u, u ∈ current ↔ s.pc u = .blocked ∨ (s.pc u).arriving = true) ∧
      ∀ u, (returns h).count u + (s.pc u).leaving = groups.countP fun g => u ∈ g := by
  obtain ⟨groups, ws, hi⟩ := reach_inv hn hr
  refine ⟨fun hl => ?_, fun p hp => ?_, groups, ws ++ s.atMutex, ?_, hi.ended, hi.length_le, ?_, hi.returned⟩
  · rw [hi.card_waiting, (hi.free hl).1]
    exact ⟨rfl, (hi.free hl).2⟩
  · obtain ⟨k, hk, rfl⟩ := List.mem_iff_getElem.mp hp
    have hlen := hi.ended.length_eq
    exact (List.forall₂_iff_get.mp hi.ended).2 k hk (by omega) |>.card hn
  · rw [← List.append_assoc]
    exact hi.arrived
  · intro u
    rw [List.mem_append, hi.waiting, hi.mem_atMutex]

/-- Two threads meet: the first waits, the second ends the group and wakes it. -/
theorem cyclic_barrier_two_threads : ∃ (s : ThreadBarrier (Fin 2)) (h : List (Seen (Fin 2))),
    Reach (step 2) new s h ∧ pulses h = [(1, {0})] ∧ (1 : Fin 2) ∉ ({0} : Finset (Fin 2)) := by
  obtain ⟨s, h, hr, hp⟩ : ∃ (s : ThreadBarrier (Fin 2)) (h : List (Seen (Fin 2))),
      Reach (step 2) new s h ∧ pulses h = [(1, {0})] :=
    ⟨_, _, reach_of_exec [0, 0, 0, 0, 1, 1, 1, 1, 1, 1, 0] rfl, by decide⟩
  exact ⟨s, h, hr, hp, ((cyclic_barrier (by decide) hr).2.1 _ (hp ▸ List.mem_singleton.mpr rfl)).1⟩

end Pulse

end Steps

end ThreadBarrier

end Dumbnose.Sync
