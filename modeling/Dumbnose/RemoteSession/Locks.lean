/-
  Dumbnose.RemoteSession.Locks — the two locks of a channel, and what its listeners call
  back.

  A function of the channel is the list of what it does that matters here: the locks it
  takes and gives back, the events it raises, the two flags it returns early on, and its
  `co_await`. A thread has a stack of these; over a `raise` it is in the listeners of the
  event, which call any public operation, any number of them. What is awaited may be
  there at once (`complete`), or the coroutine suspends and goes on later, on a thread
  that does nothing else (`resume`). A mutex belongs to the thread that locked it until
  it is unlocked, by whichever thread.

  `connect` keeps `session_lock_` across its `co_await`, and `update_list` and the region
  of `session_lock_` raise events with their lock held. `Ok` has the runs where no thread
  begins, or goes on with, a function that locks what the thread holds, and no join
  suspends below which the thread has yet to lock `session_lock_`. In these no thread ever
  locks what it holds: of one mutex and its owner's stack, the functions above the one
  that holds the mutex do not lock it (`Clear`), and every such step keeps that
  (`step_inv`).
-/

import Mathlib.Logic.Function.Basic
import Dumbnose.Lib.Runs

namespace Dumbnose.RemoteSession

open Lib.Runs

namespace Locks

inductive Mutex where
  | sessions
  | session
  deriving DecidableEq, Repr

inductive Event where
  | traceReceived
  | statusUpdated
  | errorOccurred
  | sessionListChanged
  | sessionJoined
  deriving DecidableEq, Repr

inductive Awaited where
  | createSession
  | join
  deriving DecidableEq, Repr

inductive Instr where
  | lock (m : Mutex)
  | unlock (m : Mutex)
  | raise (e : Event)
  | setStarted (b : Bool)
  | setConnected
  | returnIfStarted
  /-- In the region of `session_lock_`. -/
  | returnIfConnected
  | await (a : Awaited)
  deriving DecidableEq, Repr

/-! ## The functions of the channel -/

def clearList : List Instr := [.lock .sessions, .unlock .sessions]

def stop : List Instr := .setStarted false :: clearList

def updateList : List Instr := [.lock .sessions, .raise .sessionListChanged, .unlock .sessions]

/-- To its `co_await`. -/
def startAsync : List Instr := [.returnIfStarted, .raise .traceReceived, .await .createSession]

/-- To its `co_await`. -/
def connect : List Instr := [.raise .traceReceived, .lock .session, .returnIfConnected, .await .join]

/-- After the `co_await`. -/
def continue_ : Awaited → Bool → List Instr
  | .createSession, true => [.raise .statusUpdated, .setStarted true]
  | .createSession, false => stop ++ [.raise .errorOccurred]
  | .join, true => stop ++ [.setConnected, .raise .traceReceived, .unlock .session]
  | .join, false => [.raise .errorOccurred, .unlock .session]

def joinRequested : List Instr :=
  .raise .traceReceived :: stop ++
    [.lock .session, .returnIfConnected, .setConnected, .raise .traceReceived, .raise .sessionJoined, .unlock .session]

/-- `named`: the session added has the channel's name. -/
def remoteSessionAdded (named : Bool) : List Instr :=
  (if named then [.raise .traceReceived, .lock .sessions, .unlock .sessions] else []) ++ updateList

def remoteSessionRemoved : List Instr := [.raise .traceReceived, .lock .sessions, .unlock .sessions] ++ updateList

inductive Operation where
  | startAsync
  | stop
  | connect
  | sessionList
  | isConnected
  deriving DecidableEq, Repr

def Operation.code : Operation → List Instr
  | .startAsync => Locks.startAsync
  | .stop => Locks.stop
  | .connect => Locks.connect
  | .sessionList => []
  | .isConnected => []

inductive Notice where
  | joinRequested
  | added (named : Bool)
  | removed
  deriving DecidableEq, Repr

def Notice.code : Notice → List Instr
  | .joinRequested => Locks.joinRequested
  | .added named => remoteSessionAdded named
  | .removed => remoteSessionRemoved

/-! ## Threads -/

inductive Frame where
  | code (is : List Instr)
  /-- The listeners of an event. -/
  | callback (e : Event)
  deriving DecidableEq, Repr

inductive Act (T : Type) where
  | next (t : T)
  | call (t : T) (op : Operation)
  | return_ (t : T)
  | deliver (t : T) (n : Notice)
  | suspend (t : T) (a : Awaited)
  | complete (t : T) (a : Awaited) (success : Bool)
  | resume (t : T) (a : Awaited) (success : Bool)

end Locks

structure Locks (T : Type) where
  owner : Locks.Mutex → Option T
  started : Bool
  connected : Bool
  stack : T → List Locks.Frame
  suspended : Locks.Awaited → Nat

namespace Locks

variable {T : Type}

def new : Locks T := ⟨fun _ => none, false, false, fun _ => [], fun _ => 0⟩

/-- A thread in no function of the channel, or in a listener. -/
def mayCall : List Frame → Bool
  | [] => true
  | .callback _ :: _ => true
  | .code _ :: _ => false

section Steps
variable [DecidableEq T]

def goto (s : Locks T) (t : T) (fs : List Frame) : Locks T := { s with stack := Function.update s.stack t fs }

/-- One thing that a thread does in a function; what is seen is a lock of what it holds. -/
def exec1 (s : Locks T) (t : T) (i : Instr) (is : List Instr) (fs : List Frame) :
    Option (Locks T × List (T × Mutex)) :=
  match i with
  | .lock m =>
    if s.owner m = none then
      some ({ s with owner := Function.update s.owner m (some t) }.goto t (.code is :: fs), [])
    else if s.owner m = some t then some (s, [(t, m)])
    else none
  | .unlock m => some ({ s with owner := Function.update s.owner m none }.goto t (.code is :: fs), [])
  | .raise e => some (s.goto t (.callback e :: .code is :: fs), [])
  | .setStarted b => some ({ s with started := b }.goto t (.code is :: fs), [])
  | .setConnected => some ({ s with connected := true }.goto t (.code is :: fs), [])
  | .returnIfStarted => some (s.goto t (.code (if s.started then [] else is) :: fs), [])
  | .returnIfConnected => some (s.goto t (.code (if s.connected then [.unlock .session] else is) :: fs), [])
  | .await _ => none

def step (s : Locks T) : Act T → Option (Locks T × List (T × Mutex))
  | .next t =>
    match s.stack t with
    | .code [] :: fs => some (s.goto t fs, [])
    | .code (i :: is) :: fs => s.exec1 t i is fs
    | _ => none
  | .call t op => if mayCall (s.stack t) then some (s.goto t (.code op.code :: s.stack t), []) else none
  | .return_ t =>
    match s.stack t with
    | .callback _ :: fs => some (s.goto t fs, [])
    | _ => none
  | .deliver t n => if s.stack t = [] then some (s.goto t [.code n.code], []) else none
  | .suspend t a =>
    if (s.stack t).head? = some (.code [.await a]) then
      some ({ s with suspended := Function.update s.suspended a (s.suspended a + 1) }.goto t (s.stack t).tail, [])
    else none
  | .complete t a success =>
    if (s.stack t).head? = some (.code [.await a]) then
      some (s.goto t (.code (continue_ a success) :: (s.stack t).tail), [])
    else none
  | .resume t a success =>
    if s.stack t = [] ∧ 0 < s.suspended a then
      some ({ s with suspended := Function.update s.suspended a (s.suspended a - 1) }.goto t
        [.code (continue_ a success)], [])
    else none

end Steps

/-! ## What a function locks and what it holds -/

def Instr.locked : Instr → Option Mutex
  | .lock m => some m
  | _ => none

/-- The mutexes that what is left of a function locks. -/
def locks (is : List Instr) : List Mutex := is.filterMap Instr.locked

/-- What is left of a function gives a mutex back before it takes it, or joins with it. -/
def holds (m : Mutex) : List Instr → Bool
  | [] => false
  | .lock k :: is => if k = m then false else holds m is
  | .unlock k :: is => if k = m then true else holds m is
  | .await a :: _ => m = .session && a = .join
  | _ :: is => holds m is

/-- A function holds a mutex from where it locks it to where it gives it back, and none
    where it returns early, but for the one it gives back there; behind that it locks
    nothing. -/
def wellLocked : List Instr → Bool
  | [] => true
  | .lock m :: is => holds m is && wellLocked is
  | .unlock m :: is => !holds m is && wellLocked is
  | .await _ :: is => is = []
  | .returnIfStarted :: is => !holds .sessions is && !holds .session is && locks is = [] && wellLocked is
  | .returnIfConnected :: is => !holds .sessions is && holds .session is && locks is = [] && wellLocked is
  | _ :: is => wellLocked is

def Frame.locks : Frame → List Mutex
  | .code is => Locks.locks is
  | .callback _ => []

def Frame.holds (m : Mutex) : Frame → Bool
  | .code is => Locks.holds m is
  | .callback _ => false

def Frame.wellLocked : Frame → Bool
  | .code is => Locks.wellLocked is
  | .callback _ => true

theorem operation_wellLocked (op : Operation) : wellLocked op.code = true := by cases op <;> rfl

theorem notice_wellLocked (n : Notice) : wellLocked n.code = true := by
  cases n with
  | added named => cases named <;> rfl
  | _ => rfl

theorem continue_wellLocked (a : Awaited) (success : Bool) : wellLocked (continue_ a success) = true := by
  cases a <;> cases success <;> rfl

/-- Only a join that was awaited goes on with a mutex, and with the one it had. -/
theorem continue_holds (m : Mutex) (a : Awaited) (success : Bool) :
    holds m (continue_ a success) = holds m [.await a] := by
  cases m <;> cases a <;> cases success <;> rfl

theorem mem_locks_cons {m : Mutex} {i : Instr} {is : List Instr} (h : m ∈ locks is) : m ∈ locks (i :: is) := by
  obtain ⟨j, hj, hm⟩ := List.mem_filterMap.mp h
  exact List.mem_filterMap.mpr ⟨j, List.mem_cons_of_mem _ hj, hm⟩

/-! ## The stack of a mutex's owner -/

/-- From the top down, nothing locks the mutex before a function that holds it, if there
    is one. -/
inductive Clear (m : Mutex) : List Frame → Prop
  | nil : Clear m []
  | holder {f : Frame} {fs : List Frame} : f.holds m = true → Clear m (f :: fs)
  | above {f : Frame} {fs : List Frame} : m ∉ f.locks → Clear m fs → Clear m (f :: fs)

theorem Clear.pop {m : Mutex} {f : Frame} {fs : List Frame} (h : Clear m (f :: fs)) (hf : f.holds m = false) :
    Clear m fs := by
  cases h with
  | holder h => rw [hf] at h; cases h
  | above _ h => exact h

theorem Clear.head {m : Mutex} {f g : Frame} {fs : List Frame} (h : Clear m (f :: fs))
    (hh : f.holds m = true → g.holds m = true) (hl : m ∈ g.locks → m ∈ f.locks) : Clear m (g :: fs) := by
  cases h with
  | holder h => exact .holder (hh h)
  | above hf h => exact .above (fun hg => hf (hl hg)) h

theorem clear_of_not_locks {m : Mutex} {fs : List Frame} (h : ∀ f ∈ fs, m ∉ f.locks) : Clear m fs := by
  induction fs with
  | nil => exact .nil
  | cons f fs ih => exact .above (h f List.mem_cons_self) (ih fun g hg => h g (List.mem_cons_of_mem _ hg))

/-- At a lock of it, the owner's stack would not be clear. -/
theorem not_clear_lock {m : Mutex} {is : List Instr} {fs : List Frame} : ¬ Clear m (.code (.lock m :: is) :: fs) := by
  intro h
  cases h with
  | holder h => simp [Frame.holds, Locks.holds] at h
  | above h _ => simp [Frame.locks, Locks.locks, Instr.locked] at h

structure Inv (s : Locks T) : Prop where
  clear : ∀ t m, s.owner m = some t → Clear m (s.stack t)
  frames : ∀ t, ∀ f ∈ s.stack t, f.wellLocked = true

theorem new_inv : Inv (new : Locks T) := ⟨fun _ _ h => (by cases h), fun _ _ h => (by cases h)⟩

/-- No function that the thread begins, or goes on with, locks a mutex that it holds. -/
def Free (s : Locks T) (t : T) (is : List Instr) : Prop := ∀ m ∈ locks is, s.owner m ≠ some t

/-- A join does not suspend over a function that has yet to lock `session_lock_`. -/
def Ok (s : Locks T) : Act T → Prop
  | .call t op => s.Free t op.code
  | .deliver t n => s.Free t n.code
  | .complete t a success => s.Free t (continue_ a success)
  | .resume t a success => s.Free t (continue_ a success)
  | .suspend t a => a = .join → ∀ f ∈ (s.stack t).tail, Mutex.session ∉ f.locks
  | .next _ => True
  | .return_ _ => True

variable [DecidableEq T]

instance (s : Locks T) (t : T) (is : List Instr) : Decidable (s.Free t is) :=
  inferInstanceAs (Decidable (∀ m ∈ locks is, _))

instance (s : Locks T) : (a : Act T) → Decidable (s.Ok a)
  | .call t op => inferInstanceAs (Decidable (s.Free t op.code))
  | .deliver t n => inferInstanceAs (Decidable (s.Free t n.code))
  | .complete t a success => inferInstanceAs (Decidable (s.Free t (continue_ a success)))
  | .resume t a success => inferInstanceAs (Decidable (s.Free t (continue_ a success)))
  | .suspend t a => inferInstanceAs (Decidable (a = .join → ∀ f ∈ (s.stack t).tail, Mutex.session ∉ f.locks))
  | .next _ => .isTrue trivial
  | .return_ _ => .isTrue trivial

theorem goto_stack (s : Locks T) (t u : T) (fs : List Frame) :
    (s.goto t fs).stack u = if u = t then fs else s.stack u :=
  Function.update_apply ..

/-- One thread's stack changes; it is clear of what the thread still holds, and holds
    nothing that it did not. -/
theorem Inv.goto {s s' : Locks T} (hi : Inv s) {t : T} {fs : List Frame}
    (hstack : s'.stack = s.stack) (howner : ∀ m u, s'.owner m = some u → s.owner m = some u ∨ u = t)
    (hclear : ∀ m, s'.owner m = some t → Clear m fs) (hwell : ∀ f ∈ fs, f.wellLocked = true) :
    Inv (s'.goto t fs) := by
  refine ⟨fun u m hu => ?_, fun u f hf => ?_⟩
  · rw [goto_stack]
    by_cases e : u = t
    · rw [if_pos e]
      exact hclear m (e ▸ hu)
    · rw [if_neg e, hstack]
      exact hi.clear u m ((howner m u hu).resolve_right e)
  · rw [goto_stack, hstack] at hf
    by_cases e : u = t
    · rw [if_pos e] at hf
      exact hwell f hf
    · rw [if_neg e] at hf
      exact hi.frames u f hf

/-- A thread goes on in its function, holding what it held. -/
theorem Inv.head {s s' : Locks T} (hi : Inv s) {t : T} {f g : Frame} {fs : List Frame} (hs : s.stack t = f :: fs)
    (hstack : s'.stack = s.stack) (howner : ∀ m u, s'.owner m = some u → s.owner m = some u)
    (hholds : ∀ m, s'.owner m = some t → f.holds m = true → g.holds m = true) (hlocks : ∀ m ∈ g.locks, m ∈ f.locks)
    (hwell : g.wellLocked = true) : Inv (s'.goto t (g :: fs)) := by
  refine hi.goto hstack (fun m u hu => .inl (howner m u hu)) (fun m hm => ?_) fun f' hf' => ?_
  · have hc := hi.clear t m (howner m t hm)
    rw [hs] at hc
    exact hc.head (hholds m hm) (hlocks m)
  · rcases List.mem_cons.mp hf' with rfl | hf'
    · exact hwell
    · exact hi.frames t f' (hs ▸ List.mem_cons_of_mem _ hf')

/-- A function begins. -/
theorem Inv.push {s s' : Locks T} (hi : Inv s) {t : T} {is : List Instr} {fs : List Frame} (hs : s.stack t = fs)
    (hstack : s'.stack = s.stack) (howner : s'.owner = s.owner) (hfree : s.Free t is) (hwell : wellLocked is = true) :
    Inv (s'.goto t (.code is :: fs)) := by
  rw [← hs]
  refine hi.goto hstack (fun m u hu => .inl (howner ▸ hu)) (fun m hm => ?_) fun f hf => ?_
  · rw [howner] at hm
    exact .above (fun hl => hfree m hl hm) (hi.clear t m hm)
  · rcases List.mem_cons.mp hf with rfl | hf
    · exact hwell
    · exact hi.frames t f hf

/-- What holds nothing is over. -/
theorem Inv.pop {s : Locks T} (hi : Inv s) {t : T} {f : Frame} {fs : List Frame} (hs : s.stack t = f :: fs)
    (hf : ∀ m, f.holds m = false) : Inv (s.goto t fs) := by
  refine hi.goto rfl (fun m u hu => .inl hu) (fun m hm => ?_) fun g hg => ?_
  · have hc := hi.clear t m hm
    rw [hs] at hc
    exact hc.pop (hf m)
  · exact hi.frames t g (hs ▸ List.mem_cons_of_mem _ hg)

theorem exec1_inv {s s' : Locks T} (hi : Inv s) {t : T} {i : Instr} {is : List Instr} {fs : List Frame}
    (hs : s.stack t = .code (i :: is) :: fs) {o : List (T × Mutex)} (hst : s.exec1 t i is fs = some (s', o)) :
    Inv s' ∧ o = [] := by
  have hf : Frame.wellLocked (.code (i :: is)) = true := hi.frames t _ (hs ▸ List.mem_cons_self)
  have hf : wellLocked (i :: is) = true := hf
  cases i with
  | lock m =>
    unfold exec1 at hst
    by_cases h0 : s.owner m = none
    · obtain ⟨rfl, rfl⟩ : _ = s' ∧ [] = o := by simpa [h0] using hst
      simp only [wellLocked, Bool.and_eq_true] at hf
      refine ⟨hi.goto rfl (fun k u hu => ?_) (fun k hk => ?_) fun g hg => ?_, rfl⟩
      · by_cases e : k = m
        · rw [e] at hu
          have hu : Function.update s.owner m (some t) m = some u := hu
          rw [Function.update_self] at hu
          exact .inr (Option.some.inj hu).symm
        · have hu : Function.update s.owner m (some t) k = some u := hu
          rw [Function.update_of_ne e] at hu
          exact .inl hu
      · by_cases e : k = m
        · exact .holder (e ▸ hf.1)
        · have hk : Function.update s.owner m (some t) k = some t := hk
          rw [Function.update_of_ne e] at hk
          have hc := hi.clear t k hk
          rw [hs] at hc
          refine hc.head (fun h => ?_) fun h => ?_
          · simpa [Frame.holds, Locks.holds, Ne.symm e] using h
          · exact mem_locks_cons h
      · rcases List.mem_cons.mp hg with rfl | hg
        · exact hf.2
        · exact hi.frames t g (hs ▸ List.mem_cons_of_mem _ hg)
    · by_cases e : s.owner m = some t
      · have hc := hi.clear t m e
        rw [hs] at hc
        exact absurd hc not_clear_lock
      · simp [h0, e] at hst
  | unlock m =>
    unfold exec1 at hst
    obtain ⟨rfl, rfl⟩ : _ = s' ∧ [] = o := by simpa using hst
    simp only [wellLocked, Bool.and_eq_true] at hf
    have howner : ∀ k u, Function.update s.owner m none k = some u → k ≠ m ∧ s.owner k = some u := by
      intro k u hu
      by_cases e : k = m
      · rw [e, Function.update_self] at hu
        cases hu
      · rw [Function.update_of_ne e] at hu
        exact ⟨e, hu⟩
    refine ⟨hi.head hs rfl (fun k u hu => (howner k u hu).2) (fun k hk h => ?_) (fun k h => mem_locks_cons h) hf.2,
      rfl⟩
    simpa [Frame.holds, Locks.holds, Ne.symm (howner k t hk).1] using h
  | raise e =>
    unfold exec1 at hst
    obtain ⟨rfl, rfl⟩ : _ = s' ∧ [] = o := by simpa using hst
    refine ⟨hi.goto rfl (fun k u hu => .inl hu) (fun k hk => ?_) fun g hg => ?_, rfl⟩
    · have hc := hi.clear t k hk
      rw [hs] at hc
      exact .above List.not_mem_nil (hc.head (fun h => h) fun h => mem_locks_cons h)
    · rcases List.mem_cons.mp hg with rfl | hg
      · rfl
      rcases List.mem_cons.mp hg with rfl | hg
      · exact hf
      · exact hi.frames t g (hs ▸ List.mem_cons_of_mem _ hg)
  | setStarted b =>
    unfold exec1 at hst
    obtain ⟨rfl, rfl⟩ : _ = s' ∧ [] = o := by simpa using hst
    exact ⟨hi.head hs rfl (fun _ _ hu => hu) (fun _ _ h => h) (fun _ h => mem_locks_cons h) hf, rfl⟩
  | setConnected =>
    unfold exec1 at hst
    obtain ⟨rfl, rfl⟩ : _ = s' ∧ [] = o := by simpa using hst
    exact ⟨hi.head hs rfl (fun _ _ hu => hu) (fun _ _ h => h) (fun _ h => mem_locks_cons h) hf, rfl⟩
  | returnIfStarted =>
    unfold exec1 at hst
    obtain ⟨rfl, rfl⟩ : _ = s' ∧ [] = o := by simpa using hst
    simp only [wellLocked, Bool.and_eq_true, Bool.not_eq_true'] at hf
    obtain ⟨⟨⟨h1, h2⟩, -⟩, h3⟩ := hf
    by_cases e : s.started = true
    · rw [if_pos e]
      refine ⟨hi.head hs rfl (fun _ _ hu => hu) (fun k _ h => ?_) (fun _ h => absurd h List.not_mem_nil) rfl, rfl⟩
      have h : Locks.holds k is = true := h
      cases k with
      | sessions => rw [h1] at h; cases h
      | session => rw [h2] at h; cases h
    · rw [if_neg e]
      exact ⟨hi.head hs rfl (fun _ _ hu => hu) (fun _ _ h => h) (fun _ h => mem_locks_cons h) h3, rfl⟩
  | returnIfConnected =>
    unfold exec1 at hst
    obtain ⟨rfl, rfl⟩ : _ = s' ∧ [] = o := by simpa using hst
    simp only [wellLocked, Bool.and_eq_true, Bool.not_eq_true'] at hf
    obtain ⟨⟨⟨h1, -⟩, -⟩, h2⟩ := hf
    by_cases e : s.connected = true
    · rw [if_pos e]
      refine ⟨hi.head hs rfl (fun _ _ hu => hu) (fun k _ h => ?_) (fun _ h => absurd h List.not_mem_nil) rfl, rfl⟩
      have h : Locks.holds k is = true := h
      cases k with
      | sessions => rw [h1] at h; cases h
      | session => rfl
    · rw [if_neg e]
      exact ⟨hi.head hs rfl (fun _ _ hu => hu) (fun _ _ h => h) (fun _ h => mem_locks_cons h) h2, rfl⟩
  | await a => cases hst

theorem step_inv {s s' : Locks T} {a : Act T} {o : List (T × Mutex)} (hi : Inv s) (hok : s.Ok a)
    (hst : s.step a = some (s', o)) : Inv s' ∧ o = [] := by
  cases a with
  | next t =>
    unfold step at hst
    cases hs : s.stack t with
    | nil => simp [hs] at hst
    | cons f fs =>
      cases f with
      | callback e => simp [hs] at hst
      | code is =>
        cases is with
        | nil =>
          obtain ⟨rfl, rfl⟩ : _ = s' ∧ [] = o := by simpa [hs] using hst
          exact ⟨hi.pop hs fun _ => rfl, rfl⟩
        | cons i is => exact exec1_inv hi hs (by simpa [hs] using hst)
  | call t op =>
    unfold step at hst
    obtain ⟨-, rfl, rfl⟩ : mayCall (s.stack t) = true ∧ _ = s' ∧ [] = o := by simpa using hst
    exact ⟨hi.push rfl rfl rfl hok (operation_wellLocked op), rfl⟩
  | return_ t =>
    unfold step at hst
    cases hs : s.stack t with
    | nil => simp [hs] at hst
    | cons f fs =>
      cases f with
      | code is => simp [hs] at hst
      | callback e =>
        obtain ⟨rfl, rfl⟩ : _ = s' ∧ [] = o := by simpa [hs] using hst
        exact ⟨hi.pop hs fun _ => rfl, rfl⟩
  | deliver t n =>
    unfold step at hst
    obtain ⟨hs, rfl, rfl⟩ : s.stack t = [] ∧ _ = s' ∧ [] = o := by simpa using hst
    exact ⟨hi.push hs rfl rfl hok (notice_wellLocked n), rfl⟩
  | suspend t a =>
    unfold step at hst
    obtain ⟨hs, rfl, rfl⟩ : (s.stack t).head? = _ ∧ _ = s' ∧ [] = o := by simpa using hst
    obtain ⟨fs, hs⟩ := List.head?_eq_some_iff.mp hs
    have hok : a = .join → ∀ f ∈ (s.stack t).tail, Mutex.session ∉ f.locks := hok
    rw [hs, List.tail_cons] at hok ⊢
    refine ⟨hi.goto rfl (fun _ _ hu => .inl hu) (fun m hm => ?_) fun g hg => ?_, rfl⟩
    · by_cases e : m = .session ∧ a = .join
      · rw [e.1]
        exact clear_of_not_locks (hok e.2)
      · have hc := hi.clear t m hm
        rw [hs] at hc
        exact hc.pop (by simpa [Frame.holds, Locks.holds] using e)
    · exact hi.frames t g (hs ▸ List.mem_cons_of_mem _ hg)
  | complete t a success =>
    unfold step at hst
    obtain ⟨hs, rfl, rfl⟩ : (s.stack t).head? = _ ∧ _ = s' ∧ [] = o := by simpa using hst
    obtain ⟨fs, hs⟩ := List.head?_eq_some_iff.mp hs
    rw [hs, List.tail_cons]
    refine ⟨hi.goto rfl (fun _ _ hu => .inl hu) (fun m hm => ?_) fun g hg => ?_, rfl⟩
    · have hc := hi.clear t m hm
      rw [hs] at hc
      exact hc.head (fun h => (continue_holds m a success).trans h) fun h => absurd hm (hok m h)
    · rcases List.mem_cons.mp hg with rfl | hg
      · exact continue_wellLocked a success
      · exact hi.frames t g (hs ▸ List.mem_cons_of_mem _ hg)
  | resume t a success =>
    unfold step at hst
    obtain ⟨⟨hs, -⟩, rfl, rfl⟩ : (s.stack t = [] ∧ _) ∧ _ = s' ∧ [] = o := by simpa using hst
    exact ⟨hi.push hs rfl rfl hok (continue_wellLocked a success), rfl⟩

end Locks

end Dumbnose.RemoteSession
