/-
  Dumbnose.Sync.ThreadPool — a queue of work items, a semaphore that counts them and an
  event that sends the threads home (`thread_pool.hpp`, `waiter.hpp`).

  Any number of threads `T` call `add_work_item`, `get_work_item` and `release_threads`.
  A producer pushes under the queue's lock and releases the semaphore after it; a consumer
  waits on the event and the semaphore together and pops under the lock after it. So each
  has a place between its two steps (`Pc.pushed`, `Pc.woken`), where the queue and the
  count disagree.

  `WaitForMultipleObjects` answers with the first object that is signaled, and `die_` is
  the first: once it is set nobody is woken by the semaphore. A `work_item_ptr` may be
  null, and a null pointer that is added is queued and handed out as any other.

  The semaphore's maximum is LONG_MAX, so its release fails at no fewer than LONG_MAX
  pending items (`FewPending`); below that the pool is a queue with tokens that loses
  none (`step_models`).
-/

import Mathlib.Algebra.Group.Nat.Defs
import Dumbnose.Lib.Tally
import Dumbnose.Lib.TokenQueue
import Dumbnose.Sync.Semaphore

namespace Dumbnose.Sync

open Lib.Runs Lib.Tally

/-- Where a thread is: outside; before `wait_any` in `get_work_item`, or between it and the
    region under the lock; in `add_work_item`, between `push_back` and `release`. -/
inductive ThreadPool.Pc where
  | idle
  | waiting
  | woken
  | pushed
  deriving DecidableEq

structure ThreadPool (T W : Type) where
  workItemSem : Semaphore
  die : Bool
  workItemQueue : List (Option W)
  pc : T → ThreadPool.Pc

/-! ## `waiter` -/

/-- `WaitForMultipleObjects` on an event and a semaphore, for any of them: `WAIT_OBJECT_0`
    plus the index of the first that is signaled. -/
def waitForMultipleObjects (signaled : Bool) (sem : Semaphore) : Option (Nat × Semaphore) :=
  if signaled then some (0, sem) else sem.acquire.map fun sem' => (1, sem')

/-- `wait_any_impl`'s answer to it; `WAIT_ABANDONED_0` is 128. -/
def waitAnyImpl (result : Nat) : Nat := if result ≥ 128 then result - 128 + 1 else result - 0 + 1

def waitAny (signaled : Bool) (sem : Semaphore) : Option (Nat × Semaphore) :=
  (waitForMultipleObjects signaled sem).map fun r => (waitAnyImpl r.1, r.2)

theorem waitAny_set (sem : Semaphore) : waitAny true sem = some (1, sem) := rfl

theorem waitAny_unset (sem : Semaphore) : waitAny false sem = sem.acquire.map fun sem' => (2, sem') := by
  unfold waitAny waitForMultipleObjects
  cases sem.acquire <;> rfl

/-! ## `thread_pool` -/

namespace ThreadPool

inductive Act (T W : Type) where
  | releaseThreads (t : T)
  | getWorkItem (t : T)
  | wait (t : T)
  | popFront (t : T)
  | addWorkItem (t : T) (item : Option W)
  | release (t : T)

inductive Seen (T W : Type) where
  | threadsReleased
  | inserted (item : Option W)
  /-- Removed from the queue and returned. -/
  | took (t : T) (item : Option W)
  /-- `work_item_ptr()` returned, `die_` being set. -/
  | dismissed (t : T)
  /-- Woken by the semaphore, and the queue was empty. -/
  | foundEmpty (t : T)
  deriving DecidableEq

variable {T W : Type}

/-- The constructor. LONG_MAX is 2^31 - 1. -/
def new : ThreadPool T W := ⟨.new (2 ^ 31 - 1), false, [], fun _ => .idle⟩

def Seen.inserted? : Seen T W → Option (Option W)
  | .inserted item => some item
  | _ => none

def Seen.took? : Seen T W → Option (Option W)
  | .took _ item => some item
  | _ => none

/-- The items in order of insertion. -/
def inserted (h : List (Seen T W)) : List (Option W) := h.filterMap Seen.inserted?

/-- The items taken off the queue and returned, in order of removal. -/
def took (h : List (Seen T W)) : List (Option W) := h.filterMap Seen.took?

/-- What a `get_work_item` that ends here returns. -/
def Seen.returned : Seen T W → Option (Option W)
  | .took _ item => some item
  | .dismissed _ => some none
  | _ => none

/-- What the calls returned, in that order. -/
def returned (h : List (Seen T W)) : List (Option W) := h.filterMap Seen.returned

def nonNull (items : List (Option W)) : List W := items.filterMap id

section Steps
variable [DecidableEq T]

def goto (s : ThreadPool T W) (t : T) (p : Pc) : ThreadPool T W := { s with pc := Function.update s.pc t p }

def step (s : ThreadPool T W) : Act T W → Option (ThreadPool T W × List (Seen T W))
  | .releaseThreads t => if s.pc t = .idle then some ({ s with die := true }, [.threadsReleased]) else none
  | .getWorkItem t => if s.pc t = .idle then some (s.goto t .waiting, []) else none
  | .wait t =>
    if s.pc t = .waiting then
      (waitAny s.die s.workItemSem).map fun r =>
        if r.1 = 1 then (s.goto t .idle, [.dismissed t])
        else ({ s with workItemSem := r.2 }.goto t .woken, [])
    else none
  | .popFront t =>
    if s.pc t = .woken then
      match s.workItemQueue with
      | item :: rest => some ({ s with workItemQueue := rest }.goto t .idle, [.took t item])
      -- `continue`
      | [] => some (s.goto t .waiting, [.foundEmpty t])
    else none
  | .addWorkItem t item =>
    if s.pc t = .idle then
      some ({ s with workItemQueue := s.workItemQueue ++ [item] }.goto t .pushed, [.inserted item])
    else none
  | .release t =>
    if s.pc t = .pushed then some ({ s with workItemSem := s.workItemSem.release }.goto t .idle, []) else none

theorem step_cases {s u : ThreadPool T W} {a : Act T W} {o : List (Seen T W)} (h : step s a = some (u, o)) :
    (∃ t, a = .releaseThreads t ∧ s.pc t = .idle ∧ u = { s with die := true } ∧ o = [.threadsReleased]) ∨
    (∃ t, a = .getWorkItem t ∧ s.pc t = .idle ∧ u = s.goto t .waiting ∧ o = []) ∨
    (∃ t, a = .wait t ∧ s.pc t = .waiting ∧ s.die = true ∧ u = s.goto t .idle ∧ o = [.dismissed t]) ∨
    (∃ t sem, a = .wait t ∧ s.pc t = .waiting ∧ s.die = false ∧ s.workItemSem.acquire = some sem ∧
      u = { s with workItemSem := sem }.goto t .woken ∧ o = []) ∨
    (∃ t item rest, a = .popFront t ∧ s.pc t = .woken ∧ s.workItemQueue = item :: rest ∧
      u = { s with workItemQueue := rest }.goto t .idle ∧ o = [.took t item]) ∨
    (∃ t, a = .popFront t ∧ s.pc t = .woken ∧ s.workItemQueue = [] ∧ u = s.goto t .waiting ∧
      o = [.foundEmpty t]) ∨
    (∃ t item, a = .addWorkItem t item ∧ s.pc t = .idle ∧
      u = { s with workItemQueue := s.workItemQueue ++ [item] }.goto t .pushed ∧ o = [.inserted item]) ∨
    (∃ t, a = .release t ∧ s.pc t = .pushed ∧ u = { s with workItemSem := s.workItemSem.release }.goto t .idle ∧
      o = []) := by
  cases a with
  | releaseThreads t =>
    simp [step] at h
    exact .inl ⟨t, rfl, h.1, h.2.1.symm, h.2.2.symm⟩
  | getWorkItem t =>
    simp [step] at h
    exact .inr (.inl ⟨t, rfl, h.1, h.2.1.symm, h.2.2⟩)
  | wait t =>
    cases hd : s.die with
    | true =>
      simp [step, hd, waitAny_set] at h
      exact .inr (.inr (.inl ⟨t, rfl, h.1, rfl, h.2.1.symm, h.2.2.symm⟩))
    | false =>
      simp [step, hd, waitAny_unset] at h
      obtain ⟨hp, sem, hs, hu, ho⟩ := h
      exact .inr (.inr (.inr (.inl ⟨t, sem, rfl, hp, rfl, hs, hu.symm, ho⟩)))
  | popFront t =>
    cases hl : s.workItemQueue with
    | cons item rest =>
      simp [step, hl] at h
      exact .inr (.inr (.inr (.inr (.inl ⟨t, item, rest, rfl, h.1, rfl, h.2.1.symm, h.2.2.symm⟩))))
    | nil =>
      simp [step, hl] at h
      exact .inr (.inr (.inr (.inr (.inr (.inl ⟨t, rfl, h.1, rfl, h.2.1.symm, h.2.2.symm⟩)))))
  | addWorkItem t item =>
    simp [step] at h
    exact .inr (.inr (.inr (.inr (.inr (.inr (.inl ⟨t, item, rfl, h.1, h.2.1.symm, h.2.2.symm⟩))))))
  | release t =>
    simp [step] at h
    exact .inr (.inr (.inr (.inr (.inr (.inr (.inr ⟨t, rfl, h.1, h.2.1.symm, h.2.2⟩))))))

/-- The event is set by `release_threads` only. -/
theorem released_of_die {s : ThreadPool T W} {h : List (Seen T W)} (hr : Reach step new s h) (hd : s.die = true) :
    Seen.threadsReleased ∈ h := by
  refine hr.inv (I := fun s h => s.die = true → Seen.threadsReleased ∈ h) (fun hd => absurd hd Bool.false_ne_true)
    (fun s h a u o hI hst hd => ?_) hd
  rcases step_cases hst with ⟨t, -, -, -, rfl⟩ | ⟨t, -, -, rfl, -⟩ | ⟨t, -, -, hd', -, -⟩ |
    ⟨t, sem, -, -, -, -, rfl, -⟩ | ⟨t, item, rest, -, -, -, rfl, -⟩ | ⟨t, -, -, -, rfl, -⟩ |
    ⟨t, item, -, -, rfl, -⟩ | ⟨t, -, -, rfl, -⟩
  · exact List.mem_append_right _ (List.mem_singleton.mpr rfl)
  · exact List.mem_append_left _ (hI hd)
  · exact List.mem_append_left _ (hI hd')
  · exact List.mem_append_left _ (hI hd)
  · exact List.mem_append_left _ (hI hd)
  · exact List.mem_append_left _ (hI hd)
  · exact List.mem_append_left _ (hI hd)
  · exact List.mem_append_left _ (hI hd)

end Steps

/-! ## A queue with tokens -/

def Pc.claims : Pc → Nat
  | .woken => 1
  | _ => 0

def Pc.debts : Pc → Nat
  | .pushed => 1
  | _ => 0

def Seen.toQueue : Seen T W → Option (Lib.TokenQueue.Seen (Option W))
  | .inserted item => some (.pushed item)
  | .took _ item => some (.popped item)
  | .foundEmpty _ => some .starved
  | _ => none

theorem inserted_eq (h : List (Seen T W)) : Lib.TokenQueue.pushed (h.filterMap Seen.toQueue) = inserted h :=
  seen_seen (fun o => by cases o <;> rfl) h

theorem took_eq (h : List (Seen T W)) : Lib.TokenQueue.popped (h.filterMap Seen.toQueue) = took h :=
  seen_seen (fun o => by cases o <;> rfl) h

theorem nonNull_returned (h : List (Seen T W)) : nonNull (returned h) = nonNull (took h) := by
  unfold nonNull returned took
  rw [List.filterMap_filterMap, List.filterMap_filterMap]
  apply List.filterMap_congr
  intro o _
  cases o <;> rfl

theorem starved_of_foundEmpty {h : List (Seen T W)} {t : T} (hm : .foundEmpty t ∈ h) :
    Lib.TokenQueue.Seen.starved ∈ h.filterMap Seen.toQueue :=
  List.mem_filterMap.mpr ⟨_, hm, rfl⟩

/-- Fewer than LONG_MAX items pending when one is added. -/
def FewPending (s : ThreadPool T W) : Act T W → Prop
  | .addWorkItem _ _ => s.workItemQueue.length < 2 ^ 31 - 1
  | _ => True

instance (s : ThreadPool T W) : (a : Act T W) → Decidable (FewPending s a)
  | .addWorkItem _ _ => inferInstanceAs (Decidable (s.workItemQueue.length < 2 ^ 31 - 1))
  | .releaseThreads _ | .getWorkItem _ | .wait _ | .popFront _ | .release _ => .isTrue trivial

variable [Fintype T]

/-- The queue with tokens that a pool is: one with a token for each item, paid or owed. -/
structure Models (s : ThreadPool T W) (q : Lib.TokenQueue.Queue (Option W)) : Prop where
  items : q.items = s.workItemQueue
  tokens : q.tokens = s.workItemSem.count
  claims : q.claims = tally Pc.claims s.pc
  debts : q.debts = tally Pc.debts s.pc
  lost : q.lost = 0
  balanced : Lib.TokenQueue.Balanced q
  pending : s.workItemQueue.length ≤ s.workItemSem.maxCount
  maximum : s.workItemSem.maxCount = 2 ^ 31 - 1

theorem new_models : Models (new : ThreadPool T W) Lib.TokenQueue.empty :=
  ⟨rfl, rfl, (tally_const rfl).symm, (tally_const rfl).symm, rfl, Lib.TokenQueue.empty_balanced, Nat.zero_le _, rfl⟩

/-- A consumer that was woken has its item: the queue is not empty then. -/
theorem queue_ne_nil {s : ThreadPool T W} {q : Lib.TokenQueue.Queue (Option W)} (hm : Models s q) {t : T}
    (hp : s.pc t = .woken) : s.workItemQueue ≠ [] := by
  intro hl
  have h1 : Pc.claims (s.pc t) ≤ tally Pc.claims s.pc := le_tally Pc.claims s.pc t
  rw [hp] at h1
  have hb : q.items.length = q.tokens + q.claims + q.debts + q.lost := hm.balanced
  rw [hm.items, hl, List.length_nil, hm.claims] at hb
  have h2 : 1 ≤ tally Pc.claims s.pc := h1
  omega

variable [DecidableEq T]

/-- A thread that goes where it owes and has claimed as much as before changes nothing. -/
theorem goto_models {s : ThreadPool T W} {q : Lib.TokenQueue.Queue (Option W)} (hm : Models s q) {t : T} {l : Pc}
    (hc : (s.pc t).claims = l.claims) (hd : (s.pc t).debts = l.debts) : Models (s.goto t l) q := by
  have h1 := tally_update Pc.claims s.pc t l
  have h2 := tally_update Pc.debts s.pc t l
  refine ⟨hm.items, hm.tokens, ?_, ?_, hm.lost, hm.balanced, hm.pending, hm.maximum⟩
  · have := hm.claims
    show q.claims = tally Pc.claims (Function.update s.pc t l)
    omega
  · have := hm.debts
    show q.debts = tally Pc.debts (Function.update s.pc t l)
    omega

theorem wait_models {s : ThreadPool T W} {q : Lib.TokenQueue.Queue (Option W)} (hm : Models s q) {t : T}
    (hp : s.pc t = .waiting) {sem : Semaphore} (hs : s.workItemSem.acquire = some sem) :
    ∃ r, Reach Lib.TokenQueue.step q r [] ∧ Models ({ s with workItemSem := sem }.goto t .woken) r := by
  obtain ⟨hmax, hcount⟩ := Semaphore.acquire_eq_some hs
  have hr : Reach Lib.TokenQueue.step q { q with tokens := q.tokens - 1, claims := q.claims + 1 } [] :=
    .step (a := .claim) .init (by have := hm.tokens; simp [Lib.TokenQueue.step]; omega)
  have hc := tally_move Pc.claims hp .woken
  have hd := tally_move Pc.debts hp .woken
  simp only [Pc.claims, Pc.debts] at hc hd
  refine ⟨_, hr, hm.items, ?_, ?_, ?_, hm.lost, hm.balanced.run hr, ?_, ?_⟩
  · have := hm.tokens
    show q.tokens - 1 = sem.count
    omega
  · have := hm.claims
    show q.claims + 1 = tally Pc.claims (Function.update s.pc t .woken)
    omega
  · have := hm.debts
    show q.debts = tally Pc.debts (Function.update s.pc t .woken)
    omega
  · have := hm.pending
    show s.workItemQueue.length ≤ sem.maxCount
    omega
  · exact hmax.trans hm.maximum

theorem pop_models {s : ThreadPool T W} {q : Lib.TokenQueue.Queue (Option W)} (hm : Models s q) {t : T}
    (hp : s.pc t = .woken) {item : Option W} {rest : List (Option W)} (hl : s.workItemQueue = item :: rest) :
    ∃ r, Reach Lib.TokenQueue.step q r [.popped item] ∧
      Models ({ s with workItemQueue := rest }.goto t .idle) r := by
  have hc := tally_move Pc.claims hp .idle
  have hd := tally_move Pc.debts hp .idle
  simp only [Pc.claims, Pc.debts] at hc hd
  have hi := hm.items
  rw [hl] at hi
  have hr : Reach Lib.TokenQueue.step q { q with items := rest, claims := q.claims - 1 } [.popped item] :=
    .step (a := Lib.TokenQueue.Move.pop) .init (by have := hm.claims; simp [Lib.TokenQueue.step, hi]; omega)
  refine ⟨_, hr, rfl, hm.tokens, ?_, ?_, hm.lost, hm.balanced.run hr, ?_, hm.maximum⟩
  · have := hm.claims
    show q.claims - 1 = tally Pc.claims (Function.update s.pc t .idle)
    omega
  · have := hm.debts
    show q.debts = tally Pc.debts (Function.update s.pc t .idle)
    omega
  · have := hm.pending
    rw [hl, List.length_cons] at this
    show rest.length ≤ s.workItemSem.maxCount
    omega

theorem add_models {s : ThreadPool T W} {q : Lib.TokenQueue.Queue (Option W)} (hm : Models s q) {t : T}
    (hp : s.pc t = .idle) (item : Option W) (hf : s.workItemQueue.length < 2 ^ 31 - 1) :
    ∃ r, Reach Lib.TokenQueue.step q r [.pushed item] ∧
      Models ({ s with workItemQueue := s.workItemQueue ++ [item] }.goto t .pushed) r := by
  have hc := tally_move Pc.claims hp .pushed
  have hd := tally_move Pc.debts hp .pushed
  simp only [Pc.claims, Pc.debts] at hc hd
  have hr : Reach Lib.TokenQueue.step q { q with items := q.items ++ [item], debts := q.debts + 1 } [.pushed item] :=
    .step (a := .push item) .init rfl
  refine ⟨_, hr, ?_, hm.tokens, ?_, ?_, hm.lost, hm.balanced.run hr, ?_, hm.maximum⟩
  · show q.items ++ [item] = s.workItemQueue ++ [item]
    rw [hm.items]
  · have := hm.claims
    show q.claims = tally Pc.claims (Function.update s.pc t .pushed)
    omega
  · have := hm.debts
    show q.debts + 1 = tally Pc.debts (Function.update s.pc t .pushed)
    omega
  · have := hm.maximum
    show (s.workItemQueue ++ [item]).length ≤ s.workItemSem.maxCount
    rw [List.length_append, List.length_singleton]
    omega

/-- The item of a producer that has yet to release is pending, so there is room for its token. -/
theorem release_models {s : ThreadPool T W} {q : Lib.TokenQueue.Queue (Option W)} (hm : Models s q) {t : T}
    (hp : s.pc t = .pushed) :
    ∃ r, Reach Lib.TokenQueue.step q r [] ∧
      Models ({ s with workItemSem := s.workItemSem.release }.goto t .idle) r := by
  have h1 : Pc.debts (s.pc t) ≤ tally Pc.debts s.pc := le_tally Pc.debts s.pc t
  rw [hp] at h1
  have h2 : 1 ≤ tally Pc.debts s.pc := h1
  have hc := tally_move Pc.claims hp .idle
  have hd := tally_move Pc.debts hp .idle
  simp only [Pc.claims, Pc.debts] at hc hd
  have hb : q.items.length = q.tokens + q.claims + q.debts + q.lost := hm.balanced
  rw [hm.items, hm.tokens, hm.debts] at hb
  have hroom : s.workItemSem.count < s.workItemSem.maxCount := by
    have := hm.pending
    omega
  have hr : Reach Lib.TokenQueue.step q { q with debts := q.debts - 1, tokens := q.tokens + 1 } [] :=
    .step (a := .pay) .init (by have := hm.debts; simp [Lib.TokenQueue.step]; omega)
  refine ⟨_, hr, hm.items, ?_, ?_, ?_, hm.lost, hm.balanced.run hr, ?_, ?_⟩
  · show q.tokens + 1 = s.workItemSem.release.count
    rw [Semaphore.release_count hroom, hm.tokens]
  · have := hm.claims
    show q.claims = tally Pc.claims (Function.update s.pc t .idle)
    omega
  · have := hm.debts
    show q.debts - 1 = tally Pc.debts (Function.update s.pc t .idle)
    omega
  · show s.workItemQueue.length ≤ s.workItemSem.release.maxCount
    rw [Semaphore.release_maxCount]
    exact hm.pending
  · rw [← hm.maximum]
    exact Semaphore.release_maxCount _

/-- Each action is a run of the queue with tokens. -/
theorem step_models {s u : ThreadPool T W} {q : Lib.TokenQueue.Queue (Option W)} {a : Act T W} {o : List (Seen T W)}
    (hm : Models s q) (hf : FewPending s a) (h : step s a = some (u, o)) :
    ∃ r, Reach Lib.TokenQueue.step q r (o.filterMap Seen.toQueue) ∧ Models u r := by
  rcases step_cases h with ⟨t, rfl, hp, rfl, rfl⟩ | ⟨t, rfl, hp, rfl, rfl⟩ | ⟨t, rfl, hp, -, rfl, rfl⟩ |
    ⟨t, sem, rfl, hp, -, hs, rfl, rfl⟩ | ⟨t, item, rest, rfl, hp, hl, rfl, rfl⟩ | ⟨t, rfl, hp, hl, -, -⟩ |
    ⟨t, item, rfl, hp, rfl, rfl⟩ | ⟨t, rfl, hp, rfl, rfl⟩
  · exact ⟨q, .init, hm.items, hm.tokens, hm.claims, hm.debts, hm.lost, hm.balanced, hm.pending, hm.maximum⟩
  · exact ⟨q, .init, goto_models hm (by rw [hp]; rfl) (by rw [hp]; rfl)⟩
  · exact ⟨q, .init, goto_models hm (by rw [hp]; rfl) (by rw [hp]; rfl)⟩
  · exact wait_models hm hp hs
  · exact pop_models hm hp hl
  · exact absurd hl (queue_ne_nil hm hp)
  · exact add_models hm hp item hf
  · exact release_models hm hp

/-! ## Every run -/

theorem reach_models {s : ThreadPool T W} {h : List (Seen T W)} (hr : Reach (only FewPending step) new s h) :
    ∃ q, Reach Lib.TokenQueue.step Lib.TokenQueue.empty q (h.filterMap Seen.toQueue) ∧ Models s q := by
  refine hr.simulate Models Seen.toQueue new_models fun s q a u o hm hst => ?_
  obtain ⟨hf, hst⟩ := only_eq_some.mp hst
  exact step_models hm hf hst

/-- The items are handed out in the order of insertion, each once; the queue has as many
    as the count and the threads between their two steps say, so that no consumer that
    was woken finds it empty; and null is returned after `release_threads` only, where no
    null pointer was added. -/
theorem hands_out_once {s : ThreadPool T W} {h : List (Seen T W)} (hr : Reach (only FewPending step) new s h) :
    inserted h = took h ++ s.workItemQueue ∧ nonNull (returned h) <+: nonNull (inserted h) ∧
    s.workItemQueue.length = s.workItemSem.count + tally Pc.claims s.pc + tally Pc.debts s.pc ∧
    (∀ t, s.pc t = .woken → s.workItemQueue ≠ []) ∧ (∀ t, Seen.foundEmpty t ∉ h) ∧
    ∀ a u o x, step s a = some (u, o) → x ∈ o → x.returned = some none →
      Seen.threadsReleased ∈ h ∨ s.workItemQueue.head? = some none := by
  obtain ⟨q, hq, hm⟩ := reach_models hr
  have hfifo : inserted h = took h ++ s.workItemQueue := by
    have := Lib.TokenQueue.fifo hq
    rwa [inserted_eq, took_eq, hm.items] at this
  refine ⟨hfifo, ?_, ?_, fun t hp => queue_ne_nil hm hp, ?_, ?_⟩
  · rw [nonNull_returned, hfifo]
    exact (List.prefix_append _ _).filterMap id
  · have hb : q.items.length = q.tokens + q.claims + q.debts + q.lost := hm.balanced
    rw [hm.items, hm.tokens, hm.claims, hm.debts, hm.lost] at hb
    exact hb
  · intro t hf
    exact Lib.TokenQueue.never_starved hq (starved_of_foundEmpty hf)
  · intro a u o x hst hx hnull
    rcases step_cases hst with ⟨t, -, -, -, rfl⟩ | ⟨t, -, -, -, rfl⟩ | ⟨t, -, -, hd, -, -⟩ |
      ⟨t, sem, -, -, -, -, -, rfl⟩ | ⟨t, item, rest, -, -, hl, -, rfl⟩ | ⟨t, -, -, -, -, rfl⟩ |
      ⟨t, item, -, -, -, rfl⟩ | ⟨t, -, -, -, rfl⟩
    · obtain rfl := List.mem_singleton.mp hx
      cases hnull
    · cases hx
    · exact .inl (released_of_die hr.of_only hd)
    · cases hx
    · obtain rfl := List.mem_singleton.mp hx
      obtain rfl : item = none := Option.some.inj hnull
      rw [hl]
      exact .inr rfl
    · obtain rfl := List.mem_singleton.mp hx
      cases hnull
    · obtain rfl := List.mem_singleton.mp hx
      cases hnull
    · cases hx

theorem hands_out_once_two_threads : ∃ (s : ThreadPool (Fin 2) Nat) (h : List (Seen (Fin 2) Nat)),
    Reach (only FewPending step) new s h ∧ took h = [some 7] ∧ inserted h = took h ++ s.workItemQueue := by
  obtain ⟨s, h, hr, ht⟩ : ∃ (s : ThreadPool (Fin 2) Nat) (h : List (Seen (Fin 2) Nat)),
      Reach (only FewPending step) new s h ∧ took h = [some 7] :=
    ⟨_, _, reach_of_exec [.addWorkItem 0 (some 7), .getWorkItem 1, .release 0, .wait 1,
      .addWorkItem 0 (some 8), .popFront 1] rfl, rfl⟩
  exact ⟨s, h, hr, ht, (hands_out_once hr).1⟩

/-- One thread adds a null pointer and gets it back; nobody has called `release_threads`. -/
theorem null_without_release : ∃ (s : ThreadPool Unit Nat) (h : List (Seen Unit Nat)),
    Reach (only FewPending step) new s h ∧ returned h = [none] ∧ Seen.threadsReleased ∉ h :=
  ⟨_, [.inserted none, .took () none],
    reach_of_exec [.addWorkItem () none, .release (), .getWorkItem (), .wait (), .popFront ()] rfl, rfl, by decide⟩

end ThreadPool

end Dumbnose.Sync
