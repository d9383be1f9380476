/-
  Dumbnose.Sync.JobQueue — a list of jobs and a semaphore that counts them
  (`job_queue.hpp`).

  Any number of threads `T` call `add_job` and `get_job`. A region under `list_lock_` is
  one action: all of `add_job`, its release included, and the second half of `get_job`.
  Between its acquire and its region a `get_job` is on its way (`Pc.acquired`): it has
  taken from the count and not yet from the list.

  Each action is one or two moves of a queue with tokens (`step_models`). A release at the
  maximum count, which is 1000, is a token lost: from then on the list is longer than the
  count says, and the job at its end waits for a get_job that blocks.
-/

import Dumbnose.Lib.Tally
import Dumbnose.Lib.TokenQueue
import Dumbnose.Sync.Semaphore

namespace Dumbnose.Sync

open Lib.Runs Lib.Tally

/-- Where a thread is: outside, or in `get_job` between the semaphore and the list. -/
inductive JobQueue.Pc where
  | idle
  | acquired
  deriving DecidableEq

structure JobQueue (T J : Type) where
  sem : Semaphore
  jobList : List J
  pc : T → JobQueue.Pc

namespace JobQueue

inductive Act (T J : Type) where
  | addJob (t : T) (job : J)
  | acquire (t : T)
  | takeJob (t : T)

inductive Seen (T J : Type) where
  | added (job : J)
  | got (t : T) (job : J)
  /-- `front` of an empty list. -/
  | frontOfEmpty (t : T)
  deriving DecidableEq

variable {T J : Type}

def Seen.added? : Seen T J → Option J
  | .added job => some job
  | _ => none

def Seen.got? : Seen T J → Option J
  | .got _ job => some job
  | _ => none

/-- The jobs added, in that order. -/
def added (h : List (Seen T J)) : List J := h.filterMap Seen.added?

/-- The jobs taken off the list and returned, in that order. -/
def got (h : List (Seen T J)) : List J := h.filterMap Seen.got?

section Steps
variable [DecidableEq T]

/-- The constructor. -/
def new : JobQueue T J := ⟨.new 1000, [], fun _ => .idle⟩

def addJob (s : JobQueue T J) (job : J) : JobQueue T J :=
  { s with jobList := s.jobList ++ [job], sem := s.sem.release }

def step (s : JobQueue T J) : Act T J → Option (JobQueue T J × List (Seen T J))
  | .addJob t job => if s.pc t = .idle then some (addJob s job, [.added job]) else none
  | .acquire t =>
    if s.pc t = .idle then
      s.sem.acquire.map fun sem => ({ s with sem := sem, pc := Function.update s.pc t .acquired }, [])
    else none
  | .takeJob t =>
    if s.pc t = .acquired then
      match s.jobList with
      | job :: rest => some ({ s with jobList := rest, pc := Function.update s.pc t .idle }, [.got t job])
      | [] => some ({ s with pc := Function.update s.pc t .idle }, [.frontOfEmpty t])
    else none

theorem step_cases {s u : JobQueue T J} {a : Act T J} {o : List (Seen T J)} (h : step s a = some (u, o)) :
    (∃ t job, a = .addJob t job ∧ s.pc t = .idle ∧ u = addJob s job ∧ o = [.added job]) ∨
    (∃ t sem, a = .acquire t ∧ s.pc t = .idle ∧ s.sem.acquire = some sem ∧
      u = { s with sem := sem, pc := Function.update s.pc t .acquired } ∧ o = []) ∨
    (∃ t job rest, a = .takeJob t ∧ s.pc t = .acquired ∧ s.jobList = job :: rest ∧
      u = { s with jobList := rest, pc := Function.update s.pc t .idle } ∧ o = [.got t job]) ∨
    (∃ t, a = .takeJob t ∧ s.pc t = .acquired ∧ s.jobList = [] ∧
      u = { s with pc := Function.update s.pc t .idle } ∧ o = [.frontOfEmpty t]) := by
  cases a with
  | addJob t job =>
    simp [step] at h
    exact .inl ⟨t, job, rfl, h.1, h.2.1.symm, h.2.2.symm⟩
  | acquire t =>
    simp [step] at h
    obtain ⟨hp, sem, hs, hu, ho⟩ := h
    exact .inr (.inl ⟨t, sem, rfl, hp, hs, hu.symm, ho⟩)
  | takeJob t =>
    cases hl : s.jobList with
    | cons job rest =>
      simp [step, hl] at h
      exact .inr (.inr (.inl ⟨t, job, rest, rfl, h.1, rfl, h.2.1.symm, h.2.2.symm⟩))
    | nil =>
      simp [step, hl] at h
      exact .inr (.inr (.inr ⟨t, rfl, h.1, rfl, h.2.1.symm, h.2.2.symm⟩))

/-- `get_job` waits at a count of zero only. -/
theorem acquire_isSome_iff {s : JobQueue T J} {t : T} :
    (step s (.acquire t)).isSome = true ↔ s.pc t = .idle ∧ s.sem.count ≠ 0 := by
  rw [← Semaphore.acquire_isSome]
  by_cases e : s.pc t = .idle <;> simp [step, e]

end Steps

/-! ## A queue with tokens -/

def Pc.claims : Pc → Nat
  | .idle => 0
  | .acquired => 1

def Seen.toQueue : Seen T J → Option (Lib.TokenQueue.Seen J)
  | .added job => some (.pushed job)
  | .got _ job => some (.popped job)
  | .frontOfEmpty _ => some .starved

theorem added_eq (h : List (Seen T J)) : Lib.TokenQueue.pushed (h.filterMap Seen.toQueue) = added h :=
  seen_seen (fun o => by cases o <;> rfl) h

theorem got_eq (h : List (Seen T J)) : Lib.TokenQueue.popped (h.filterMap Seen.toQueue) = got h :=
  seen_seen (fun o => by cases o <;> rfl) h

theorem starved_of_frontOfEmpty {h : List (Seen T J)} {t : T} (hm : .frontOfEmpty t ∈ h) :
    Lib.TokenQueue.Seen.starved ∈ h.filterMap Seen.toQueue :=
  List.mem_filterMap.mpr ⟨_, hm, rfl⟩

/-- The semaphore takes another one. -/
def BelowMaximum (s : JobQueue T J) : Act T J → Prop
  | .addJob _ _ => s.sem.count < s.sem.maxCount
  | _ => True

instance (s : JobQueue T J) : (a : Act T J) → Decidable (BelowMaximum s a)
  | .addJob _ _ => inferInstanceAs (Decidable (s.sem.count < s.sem.maxCount))
  | .acquire _ => .isTrue trivial
  | .takeJob _ => .isTrue trivial

/-- No call is between its semaphore step and its list step. -/
def Quiet (s : JobQueue T J) : Prop := ∀ t, s.pc t = .idle

variable [Fintype T]

/-- The queue with tokens that a job queue is, whatever it has lost. -/
structure Models (s : JobQueue T J) (q : Lib.TokenQueue.Queue J) : Prop where
  items : q.items = s.jobList
  tokens : q.tokens = s.sem.count
  claims : q.claims = tally Pc.claims s.pc
  debts : q.debts = 0

theorem new_models : Models (new : JobQueue T J) Lib.TokenQueue.empty :=
  ⟨rfl, rfl, (tally_const rfl).symm, rfl⟩

theorem quiet_claims {s : JobQueue T J} (hq : Quiet s) : tally Pc.claims s.pc = 0 :=
  tally_eq_zero.mpr fun t => by rw [hq t]; rfl

/-- The list is as long as the count and the calls on their way say. -/
theorem length_of_lossless {s : JobQueue T J} {q : Lib.TokenQueue.Queue J} (hb : Lib.TokenQueue.Balanced q)
    (hm : Models s q) (h0 : q.lost = 0) : s.jobList.length = s.sem.count + tally Pc.claims s.pc := by
  unfold Lib.TokenQueue.Balanced at hb
  rw [hm.items, hm.tokens, hm.claims, hm.debts, h0] at hb
  omega

variable [DecidableEq T]

/-- Each action is a run of the queue with tokens, which loses one at the maximum and none
    below it. -/
theorem step_models {s u : JobQueue T J} {q : Lib.TokenQueue.Queue J} {a : Act T J} {o : List (Seen T J)}
    (hm : Models s q) (h : step s a = some (u, o)) :
    ∃ r, Reach Lib.TokenQueue.step q r (o.filterMap Seen.toQueue) ∧ Models u r ∧
      r.lost = q.lost + if BelowMaximum s a then 0 else 1 := by
  obtain ⟨hi, ht, hc, hd⟩ := hm
  rcases step_cases h with ⟨t, job, rfl, hp, rfl, rfl⟩ | ⟨t, sem, rfl, hp, hs, rfl, rfl⟩ |
    ⟨t, job, rest, rfl, hp, hl, rfl, rfl⟩ | ⟨t, rfl, hp, hl, rfl, rfl⟩
  · have h1 : Reach Lib.TokenQueue.step q { q with items := q.items ++ [job], debts := q.debts + 1 } [.pushed job] :=
      .step (a := .push job) .init rfl
    by_cases e : s.sem.count < s.sem.maxCount
    · refine ⟨{ q with items := q.items ++ [job], debts := q.debts, tokens := q.tokens + 1 }, ?_, ?_, ?_⟩
      · exact .step (a := .pay) h1 (by simp [Lib.TokenQueue.step])
      · refine ⟨?_, ?_, hc, hd⟩
        · show q.items ++ [job] = s.jobList ++ [job]
          rw [hi]
        · show q.tokens + 1 = s.sem.release.count
          rw [Semaphore.release_count e, ht]
      · show q.lost = q.lost + if s.sem.count < s.sem.maxCount then 0 else 1
        rw [if_pos e, Nat.add_zero]
    · refine ⟨{ q with items := q.items ++ [job], debts := q.debts, lost := q.lost + 1 }, ?_, ?_, ?_⟩
      · exact .step (a := .lose) h1 (by simp [Lib.TokenQueue.step])
      · refine ⟨?_, ?_, hc, hd⟩
        · show q.items ++ [job] = s.jobList ++ [job]
          rw [hi]
        · show q.tokens = s.sem.release.count
          rw [Semaphore.release_full e, ht]
      · show q.lost + 1 = q.lost + if s.sem.count < s.sem.maxCount then 0 else 1
        rw [if_neg e]
  · have hcount := (Semaphore.acquire_eq_some hs).2
    have hu := tally_move Pc.claims hp .acquired
    refine ⟨{ q with tokens := q.tokens - 1, claims := q.claims + 1 }, ?_, ⟨hi, ?_, ?_, hd⟩, rfl⟩
    · exact .step (a := .claim) .init (by simp [Lib.TokenQueue.step]; omega)
    · show q.tokens - 1 = sem.count
      omega
    · show q.claims + 1 = tally Pc.claims (Function.update s.pc t .acquired)
      simp only [Pc.claims] at hu
      omega
  · have hu := tally_move Pc.claims hp .idle
    simp only [Pc.claims] at hu
    refine ⟨{ q with items := rest, claims := q.claims - 1 }, ?_, ⟨rfl, ht, ?_, hd⟩, rfl⟩
    · refine .step (a := Lib.TokenQueue.Move.pop) (o := [Lib.TokenQueue.Seen.popped job]) .init ?_
      rw [hl] at hi
      simp [Lib.TokenQueue.step, hi]
      omega
    · show q.claims - 1 = tally Pc.claims (Function.update s.pc t .idle)
      omega
  · have hu := tally_move Pc.claims hp .idle
    simp only [Pc.claims] at hu
    refine ⟨{ q with claims := q.claims - 1 }, ?_, ⟨hi, ht, ?_, hd⟩, rfl⟩
    · refine .step (a := Lib.TokenQueue.Move.pop) (o := [Lib.TokenQueue.Seen.starved]) .init ?_
      rw [hl] at hi
      simp [Lib.TokenQueue.step, hi]
      omega
    · show q.claims - 1 = tally Pc.claims (Function.update s.pc t .idle)
      omega

/-! ## Every run -/

/-- A run is one of the queue with tokens, and if that lost none the run never added at
    the maximum. -/
theorem reach_models {s : JobQueue T J} {h : List (Seen T J)} (hr : Reach step new s h) :
    ∃ q, Reach Lib.TokenQueue.step Lib.TokenQueue.empty q (h.filterMap Seen.toQueue) ∧ Models s q ∧
      (q.lost = 0 → Reach (only BelowMaximum step) new s h) := by
  induction hr with
  | init => exact ⟨Lib.TokenQueue.empty, .init, new_models, fun _ => .init⟩
  | step _ hst ih =>
    obtain ⟨q, hq, hm, hl⟩ := ih
    obtain ⟨r, hr, hm', hlost⟩ := step_models hm hst
    refine ⟨r, ?_, hm', fun h0 => ?_⟩
    · rw [List.filterMap_append]
      exact hq.trans hr
    · rw [h0] at hlost
      split at hlost
      · rename_i hb
        exact .step (hl (by omega)) (only_eq_some.mpr ⟨hb, hst⟩)
      · omega

/-- A run that never adds at the maximum loses no token. -/
theorem reach_lossless {s : JobQueue T J} {h : List (Seen T J)} (hr : Reach (only BelowMaximum step) new s h) :
    ∃ q, Reach Lib.TokenQueue.step Lib.TokenQueue.empty q (h.filterMap Seen.toQueue) ∧ Models s q ∧ q.lost = 0 := by
  refine hr.simulate (fun s q => Models s q ∧ q.lost = 0) Seen.toQueue ⟨new_models, rfl⟩ fun s q a u o hR hst => ?_
  obtain ⟨hb, hst⟩ := only_eq_some.mp hst
  obtain ⟨r, hr, hm, hlost⟩ := step_models hR.1 hst
  refine ⟨r, hr, hm, ?_⟩
  rw [hlost, if_pos hb, hR.2]

/-- Jobs come out in the order they were added and no `get_job` takes from an empty
    list; with no call on its way the count is the length of the list exactly if no job
    was added at the maximum count, and then no `get_job` waits beside a queued job. -/
theorem count_eq_length_iff {s : JobQueue T J} {h : List (Seen T J)} (hr : Reach step new s h) :
    added h = got h ++ s.jobList ∧ (∀ t, Seen.frontOfEmpty t ∉ h) ∧
    (Quiet s → (s.sem.count = s.jobList.length ↔ Reach (only BelowMaximum step) new s h)) ∧
    (Quiet s → Reach (only BelowMaximum step) new s h → s.jobList ≠ [] →
      ∀ t, (step s (.acquire t)).isSome = true) := by
  obtain ⟨q, hq, hm, hl⟩ := reach_models hr
  have hlen : Reach (only BelowMaximum step) new s h → Quiet s → s.sem.count = s.jobList.length := by
    intro hb hquiet
    obtain ⟨q', hq', hm', h0⟩ := reach_lossless hb
    have := length_of_lossless (Lib.TokenQueue.balance hq') hm' h0
    rw [quiet_claims hquiet] at this
    omega
  refine ⟨?_, ?_, ?_, ?_⟩
  · have := Lib.TokenQueue.fifo hq
    rwa [added_eq, got_eq, hm.items] at this
  · intro t hf
    exact Lib.TokenQueue.never_starved hq (starved_of_frontOfEmpty hf)
  · intro hquiet
    refine ⟨fun heq => hl ?_, fun hb => hlen hb hquiet⟩
    have hb : q.items.length = q.tokens + q.claims + q.debts + q.lost := Lib.TokenQueue.balance hq
    rw [hm.items, hm.tokens, hm.claims, hm.debts, quiet_claims hquiet] at hb
    omega
  · intro hquiet hb hne t
    have hcount : s.sem.count ≠ 0 := by
      rw [hlen hb hquiet]
      exact fun h0 => hne (List.eq_nil_of_length_eq_zero h0)
    exact acquire_isSome_iff.mpr ⟨hquiet t, hcount⟩

theorem count_eq_length_iff_two_threads : ∃ (s : JobQueue (Fin 2) Nat) (h : List (Seen (Fin 2) Nat)),
    Reach step new s h ∧ Quiet s ∧ got h = [7] ∧ s.jobList = [8] ∧ s.sem.count = s.jobList.length := by
  obtain ⟨s, h, hr, hq, hg, hl⟩ : ∃ (s : JobQueue (Fin 2) Nat) (h : List (Seen (Fin 2) Nat)),
      Reach (only BelowMaximum step) new s h ∧ Quiet s ∧ got h = [7] ∧ s.jobList = [8] :=
    ⟨_, _, reach_of_exec [.addJob 0 7, .addJob 0 8, .acquire 1, .takeJob 1] rfl, by unfold Quiet; decide,
      rfl, rfl⟩
  exact ⟨s, h, hr.of_only, hq, hg, hl, ((count_eq_length_iff hr.of_only).2.2.1 hq).mpr hr⟩

/-! ## The thousand and first job -/

/-- One thread adds a job `n` times. -/
def adds (n : Nat) : List (Act Unit Nat) := List.replicate n (.addJob () 7)

/-- One thread gets a job `n` times. -/
def gets (n : Nat) : List (Act Unit Nat) := (List.replicate n [.acquire (), .takeJob ()]).flatten

theorem exec_adds (n : Nat) : ∀ s : JobQueue Unit Nat, Quiet s →
    ∃ u h, exec step s (adds n) = some (u, h) ∧ Quiet u ∧ u.jobList = s.jobList ++ List.replicate n 7 ∧
      u.sem.maxCount = s.sem.maxCount ∧ u.sem.count = min (s.sem.count + n) s.sem.maxCount := by
  induction n with
  | zero =>
    intro s hq
    refine ⟨s, [], rfl, hq, (List.append_nil _).symm, rfl, ?_⟩
    have := s.sem.le
    omega
  | succ n ih =>
    intro s hq
    obtain ⟨u, h, he, hq', hl, hm, hc⟩ := ih (addJob s 7) hq
    refine ⟨u, [.added 7] ++ h, exec_cons (by simp [step, hq ()]) he, hq', ?_, ?_, ?_⟩
    · rw [hl, List.replicate_succ]
      show s.jobList ++ [7] ++ List.replicate n 7 = _
      rw [List.append_assoc, List.singleton_append]
    · rw [hm]
      exact Semaphore.release_maxCount _
    · rw [hc]
      show min (s.sem.release.count + n) s.sem.release.maxCount = _
      rw [Semaphore.release_maxCount]
      have := s.sem.le
      by_cases e : s.sem.count < s.sem.maxCount
      · rw [Semaphore.release_count e]
        omega
      · rw [Semaphore.release_full e]
        omega

theorem exec_gets (n : Nat) : ∀ s : JobQueue Unit Nat, Quiet s → n ≤ s.sem.count → n ≤ s.jobList.length →
    ∃ u h, exec step s (gets n) = some (u, h) ∧ Quiet u ∧ u.jobList = s.jobList.drop n ∧
      u.sem.count = s.sem.count - n := by
  induction n with
  | zero =>
    intro s hq _ _
    exact ⟨s, [], rfl, hq, rfl, rfl⟩
  | succ n ih =>
    intro s hq hc hn
    obtain ⟨sem, hs⟩ := Option.isSome_iff_exists.mp (Semaphore.acquire_isSome.mpr (show s.sem.count ≠ 0 by omega))
    have hcount := (Semaphore.acquire_eq_some hs).2
    cases hl : s.jobList with
    | nil =>
      rw [hl, List.length_nil] at hn
      omega
    | cons job rest =>
      rw [hl, List.length_cons] at hn
      let taken : JobQueue Unit Nat := { s with sem := sem, pc := Function.update s.pc () .acquired }
      obtain ⟨u, h, he, hq', hl', hc'⟩ := ih ⟨sem, rest, Function.update taken.pc () .idle⟩
        (fun _ => by simp) (show n ≤ sem.count by omega) (show n ≤ rest.length by omega)
      refine ⟨u, [] ++ ([.got () job] ++ h), ?_, hq', hl', ?_⟩
      · refine exec_cons (t := taken) ?_ (exec_cons ?_ he)
        · simp [step, hq (), hs, taken]
        · simp [step, hl, taken]
      · rw [hc']
        show sem.count - n = s.sem.count - (n + 1)
        omega

/-- Of 1001 jobs added, 1000 can be taken; the next `get_job` waits beside the last one. -/
theorem get_job_waits_beside_a_job : ∃ (s : JobQueue Unit Nat) (h : List (Seen Unit Nat)),
    exec step new (adds 1001 ++ gets 1000) = some (s, h) ∧ Quiet s ∧ s.sem.count = 0 ∧ s.jobList = [7] ∧
      step s (.acquire ()) = none := by
  obtain ⟨s, h, he, hq, hl, -, hc⟩ := exec_adds 1001 new fun _ => rfl
  simp only [new, Semaphore.new_count, Semaphore.new_maxCount, List.nil_append] at hl hc
  obtain ⟨u, h', he', hq', hl', hc'⟩ := exec_gets 1000 s hq (by omega) (by rw [hl, List.length_replicate]; omega)
  have hc' : u.sem.count = 0 := by omega
  refine ⟨u, h ++ h', exec_append he he', hq', hc', ?_, ?_⟩
  · rw [hl', hl, List.drop_replicate]
    rfl
  · have := acquire_isSome_iff (s := u) (t := ())
    simp [hc'] at this
    exact this

end JobQueue

end Dumbnose.Sync
