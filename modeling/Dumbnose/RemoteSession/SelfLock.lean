/-
  Dumbnose.RemoteSession.SelfLock — no thread locks what it holds, and what leads to it.

  In runs whose steps all meet `Ok` no thread ever locks what it holds (`no_self_lock`);
  a listener of `session_list_changed` that calls `stop` does
  (`stop_from_session_list_changed`). And `Ok` leaves no step out for nothing: behind each
  that does not meet it the thread comes to a lock of what it holds, by going on alone,
  unless it has to wait for a mutex of another thread (`left_out_relocks`).

  For that a thread that nobody disturbs gets to the end of every function, or to such a
  lock (`passes`), and down its stack to the function that locks what it has. A join that
  suspends has `session_lock_` of this thread: a mutex is held in one place only (`Sole`).
-/

import Dumbnose.RemoteSession.Locks

namespace Dumbnose.RemoteSession

open Lib.Runs

namespace Locks

variable {T : Type}

/-! ## Where a mutex is held -/

/-- How many of these functions hold the mutex. -/
def holders (m : Mutex) (fs : List Frame) : Nat := fs.countP (Frame.holds m)

theorem holders_cons (m : Mutex) (f : Frame) (fs : List Frame) :
    holders m (f :: fs) = holders m fs + if f.holds m then 1 else 0 :=
  List.countP_cons

/-- The joins that have suspended hold `session_lock_`. -/
def waiting (s : Locks T) : Mutex → Nat
  | .sessions => 0
  | .session => s.suspended .join

/-- A mutex that is free is held by no function; another by one at most, or by a join that
    has suspended. -/
structure Sole (s : Locks T) (m : Mutex) : Prop where
  free : s.owner m = none → s.waiting m = 0 ∧ ∀ t, holders m (s.stack t) = 0
  one : ∀ t, s.waiting m + holders m (s.stack t) ≤ 1
  two : ∀ t u, t ≠ u → s.waiting m + holders m (s.stack t) + holders m (s.stack u) ≤ 1

theorem new_sole (m : Mutex) : Sole (new : Locks T) m := by
  have hw : (new : Locks T).waiting m = 0 := by cases m <;> rfl
  refine ⟨fun _ => ⟨hw, fun _ => rfl⟩, fun t => ?_, fun t u _ => ?_⟩
  · rw [hw]
    exact Nat.zero_le 1
  · rw [hw]
    exact Nat.zero_le 1

variable [DecidableEq T]

/-- One thread has it, or none. -/
theorem Sole.of_thread {s : Locks T} {m : Mutex} (t : T) (hw : s.waiting m = 0)
    (ho : ∀ u, u ≠ t → holders m (s.stack u) = 0) (h1 : holders m (s.stack t) ≤ 1)
    (hfree : s.owner m = none → holders m (s.stack t) = 0) : Sole s m := by
  have hall : ∀ u, holders m (s.stack u) = if u = t then holders m (s.stack t) else 0 := by
    intro u
    by_cases e : u = t
    · rw [if_pos e, e]
    · rw [if_neg e, ho u e]
  refine ⟨fun hn => ⟨hw, fun u => ?_⟩, fun u => ?_, fun u v huv => ?_⟩
  · rw [hall, hfree hn, ite_self]
  · rw [hw, hall]
    split <;> omega
  · rw [hw, hall, hall v]
    by_cases e : u = t
    · rw [if_pos e, if_neg fun e' => huv (e.trans e'.symm)]
      omega
    · rw [if_neg e]
      split <;> omega

theorem waiting_goto {s : Locks T} {t : T} {fs : List Frame} {m : Mutex} :
    (s.goto t fs).waiting m = s.waiting m := by
  cases m <;> rfl

/-- One thread's stack changes, and what it and the joins hold together does not. -/
theorem Sole.goto {s s' : Locks T} {m : Mutex} (h : Sole s m) {t : T} {fs : List Frame} (hstack : s'.stack = s.stack)
    (howner : s'.owner m = none → s.owner m = none)
    (hcount : s'.waiting m + holders m fs = s.waiting m + holders m (s.stack t)) : Sole (s'.goto t fs) m := by
  have hw : (s'.goto t fs).waiting m = s'.waiting m := waiting_goto
  have hstep : ∀ u, holders m ((s'.goto t fs).stack u) = if u = t then holders m fs else holders m (s.stack u) := by
    intro u
    rw [goto_stack, hstack]
    by_cases e : u = t <;> simp [e]
  refine ⟨fun ho => ?_, fun u => ?_, fun u v huv => ?_⟩
  · obtain ⟨h1, h2⟩ := h.free (howner ho)
    have ht := h2 t
    refine ⟨by omega, fun u => ?_⟩
    rw [hstep]
    by_cases e : u = t
    · rw [if_pos e]
      omega
    · rw [if_neg e]
      exact h2 u
  · rw [hw, hstep]
    have h1 := h.one t
    by_cases e : u = t
    · rw [if_pos e]
      omega
    · rw [if_neg e]
      have h2 := h.two t u (Ne.symm e)
      omega
  · rw [hw, hstep, hstep]
    by_cases e : u = t
    · rw [if_pos e, if_neg fun e' => huv (e.trans e'.symm)]
      have h2 := h.two t v fun e' => huv (e.trans e')
      omega
    · rw [if_neg e]
      have h1 := h.two t u (Ne.symm e)
      by_cases e' : v = t
      · rw [if_pos e']
        omega
      · rw [if_neg e']
        have h2 := h.two t v (Ne.symm e')
        have h3 := h.two u v huv
        omega

theorem exec1_sole {s s' : Locks T} {t : T} {i : Instr} {is : List Instr} {fs : List Frame} {m : Mutex}
    (h : Sole s m) (hs : s.stack t = .code (i :: is) :: fs) (hw : wellLocked (i :: is) = true)
    {o : List (T × Mutex)} (hst : s.exec1 t i is fs = some (s', o)) : Sole s' m := by
  have hf : holders m (s.stack t) = holders m fs + if holds m (i :: is) then 1 else 0 := by
    rw [hs, holders_cons]
    rfl
  have hg : ∀ js : List Instr, holders m (.code js :: fs) = holders m fs + if holds m js then 1 else 0 := fun js =>
    holders_cons m _ fs
  cases i with
  | lock k =>
    unfold exec1 at hst
    by_cases h0 : s.owner k = none
    · obtain ⟨rfl, rfl⟩ : _ = s' ∧ [] = o := by simpa [h0] using hst
      simp only [wellLocked, Bool.and_eq_true] at hw
      by_cases e : m = k
      · subst e
        obtain ⟨h1, h2⟩ := h.free h0
        rw [h2 t] at hf
        refine .of_thread t (waiting_goto.trans h1) (fun u hu => ?_) ?_ fun ho => ?_
        · rw [goto_stack, if_neg hu]
          exact h2 u
        · rw [goto_stack, if_pos rfl, hg]
          split <;> omega
        · have ho : Function.update s.owner m (some t) m = none := ho
          rw [Function.update_self] at ho
          cases ho
      · refine h.goto rfl (fun ho => ?_) ?_
        · have ho : Function.update s.owner k (some t) m = none := ho
          rwa [Function.update_of_ne e] at ho
        · rw [hf, hg, show holds m (.lock k :: is) = holds m is by simp [Locks.holds, Ne.symm e]]
          cases m <;> rfl
    · by_cases e : s.owner k = some t
      · obtain ⟨rfl, rfl⟩ : s = s' ∧ [(t, k)] = o := by simpa [h0, e] using hst
        exact h
      · simp [h0, e] at hst
  | unlock k =>
    unfold exec1 at hst
    obtain ⟨rfl, rfl⟩ : _ = s' ∧ [] = o := by simpa using hst
    simp only [wellLocked, Bool.and_eq_true, Bool.not_eq_true'] at hw
    by_cases e : m = k
    -- it was held here, and so nowhere else
    · subst e
      rw [show holds m (.unlock m :: is) = true by simp [Locks.holds], if_pos rfl] at hf
      have h1 := h.one t
      have hgone : holders m (.code is :: fs) = 0 := by
        rw [hg, hw.1]
        simp
        omega
      refine .of_thread t (waiting_goto.trans (show s.waiting m = 0 by omega)) (fun u hu => ?_) ?_ fun _ => ?_
      · rw [goto_stack, if_neg hu]
        have h2 := h.two t u (Ne.symm hu)
        show holders m (s.stack u) = 0
        omega
      · rw [goto_stack, if_pos rfl, hgone]
        exact Nat.zero_le 1
      · rw [goto_stack, if_pos rfl, hgone]
    · refine h.goto rfl (fun ho => ?_) ?_
      · have ho : Function.update s.owner k none m = none := ho
        rwa [Function.update_of_ne e] at ho
      · rw [hf, hg, show holds m (.unlock k :: is) = holds m is by simp [Locks.holds, Ne.symm e]]
        cases m <;> rfl
  | raise e =>
    unfold exec1 at hst
    obtain ⟨rfl, rfl⟩ : _ = s' ∧ [] = o := by simpa using hst
    refine h.goto rfl (fun ho => ho) ?_
    rw [hf, holders_cons, hg]
    rfl
  | setStarted b =>
    unfold exec1 at hst
    obtain ⟨rfl, rfl⟩ : _ = s' ∧ [] = o := by simpa using hst
    refine h.goto rfl (fun ho => ho) ?_
    rw [hf, hg]
    cases m <;> rfl
  | setConnected =>
    unfold exec1 at hst
    obtain ⟨rfl, rfl⟩ : _ = s' ∧ [] = o := by simpa using hst
    refine h.goto rfl (fun ho => ho) ?_
    rw [hf, hg]
    cases m <;> rfl
  | returnIfStarted =>
    unfold exec1 at hst
    obtain ⟨rfl, rfl⟩ : _ = s' ∧ [] = o := by simpa using hst
    simp only [wellLocked, Bool.and_eq_true, Bool.not_eq_true'] at hw
    obtain ⟨⟨⟨h1, h2⟩, -⟩, -⟩ := hw
    refine h.goto rfl (fun ho => ho) ?_
    rw [hf, hg]
    by_cases e : s.started = true
    · rw [if_pos e]
      cases m with
      | sessions => rw [show holds .sessions (.returnIfStarted :: is) = holds .sessions is from rfl, h1]; rfl
      | session => rw [show holds .session (.returnIfStarted :: is) = holds .session is from rfl, h2]; rfl
    · rw [if_neg e]
      rfl
  | returnIfConnected =>
    unfold exec1 at hst
    obtain ⟨rfl, rfl⟩ : _ = s' ∧ [] = o := by simpa using hst
    simp only [wellLocked, Bool.and_eq_true, Bool.not_eq_true'] at hw
    obtain ⟨⟨⟨h1, h2⟩, -⟩, -⟩ := hw
    refine h.goto rfl (fun ho => ho) ?_
    rw [hf, hg]
    by_cases e : s.connected = true
    · rw [if_pos e]
      cases m with
      | sessions => rw [show holds .sessions (.returnIfConnected :: is) = holds .sessions is from rfl, h1]; rfl
      | session => rw [show holds .session (.returnIfConnected :: is) = holds .session is from rfl, h2]; rfl
    · rw [if_neg e]
      rfl
  | await a => cases hst

/-- What a thread begins holds nothing. -/
theorem operation_holds (op : Operation) (m : Mutex) : holds m op.code = false := by cases op <;> cases m <;> rfl

theorem notice_holds (n : Notice) (m : Mutex) : holds m n.code = false := by
  cases n with
  | added named => cases named <;> cases m <;> rfl
  | _ => cases m <;> rfl

theorem step_sole {s s' : Locks T} {a : Act T} {o : List (T × Mutex)} {m : Mutex} (hi : Inv s) (h : Sole s m)
    (hst : s.step a = some (s', o)) : Sole s' m := by
  have hcode : ∀ (js : List Instr) (fs : List Frame),
      holders m (.code js :: fs) = holders m fs + if holds m js then 1 else 0 := fun js fs => holders_cons m _ fs
  cases a with
  | next t =>
    unfold step at hst
    cases hs : s.stack t with
    | nil => simp [hs] at hst
    | cons f fs =>
      cases f with
      | callback e => simp [hs] at hst
      | code is =>
        cases is with
        | nil =>
          obtain ⟨rfl, rfl⟩ : _ = s' ∧ [] = o := by simpa [hs] using hst
          refine h.goto rfl (fun ho => ho) ?_
          rw [hs, hcode]
          rfl
        | cons i is =>
          have hw : Frame.wellLocked (.code (i :: is)) = true := hi.frames t _ (hs ▸ List.mem_cons_self)
          exact exec1_sole h hs hw (by simpa [hs] using hst)
  | call t op =>
    unfold step at hst
    obtain ⟨-, rfl, rfl⟩ : mayCall (s.stack t) = true ∧ _ = s' ∧ [] = o := by simpa using hst
    refine h.goto rfl (fun ho => ho) ?_
    rw [hcode, operation_holds]
    rfl
  | return_ t =>
    unfold step at hst
    cases hs : s.stack t with
    | nil => simp [hs] at hst
    | cons f fs =>
      cases f with
      | code is => simp [hs] at hst
      | callback e =>
        obtain ⟨rfl, rfl⟩ : _ = s' ∧ [] = o := by simpa [hs] using hst
        refine h.goto rfl (fun ho => ho) ?_
        rw [hs, holders_cons]
        rfl
  | deliver t n =>
    unfold step at hst
    obtain ⟨hs, rfl, rfl⟩ : s.stack t = [] ∧ _ = s' ∧ [] = o := by simpa using hst
    refine h.goto rfl (fun ho => ho) ?_
    rw [hs, hcode, notice_holds]
    rfl
  | suspend t a =>
    unfold step at hst
    obtain ⟨hs, rfl, rfl⟩ : (s.stack t).head? = _ ∧ _ = s' ∧ [] = o := by simpa using hst
    obtain ⟨fs, hs⟩ := List.head?_eq_some_iff.mp hs
    refine h.goto rfl (fun ho => ho) ?_
    rw [hs, List.tail_cons, hcode]
    cases m with
    | sessions => rfl
    | session =>
      cases a with
      | createSession => rfl
      -- the join has the mutex in place of the thread
      | join =>
        show Function.update s.suspended Awaited.join (s.suspended Awaited.join + 1) Awaited.join + _ =
          s.suspended Awaited.join + _
        rw [Function.update_self]
        simp [Locks.holds]
        omega
  | complete t a success =>
    unfold step at hst
    obtain ⟨hs, rfl, rfl⟩ : (s.stack t).head? = _ ∧ _ = s' ∧ [] = o := by simpa using hst
    obtain ⟨fs, hs⟩ := List.head?_eq_some_iff.mp hs
    refine h.goto rfl (fun ho => ho) ?_
    rw [hs, List.tail_cons, hcode, hcode, continue_holds]
  | resume t a success =>
    unfold step at hst
    obtain ⟨⟨hs, hpos⟩, rfl, rfl⟩ : (s.stack t = [] ∧ 0 < s.suspended a) ∧ _ = s' ∧ [] = o := by simpa using hst
    refine h.goto rfl (fun ho => ho) ?_
    rw [hs, hcode, continue_holds]
    cases m with
    | sessions => cases a <;> rfl
    | session =>
      cases a with
      | createSession => rfl
      | join =>
        show Function.update s.suspended Awaited.join (s.suspended Awaited.join - 1) Awaited.join + _ =
          s.suspended Awaited.join + _
        rw [Function.update_self]
        simp [Locks.holds]
        omega

/-! ## What a step that is left out leads to -/

def Act.thread : Act T → T
  | .next t => t
  | .call t _ => t
  | .return_ t => t
  | .deliver t _ => t
  | .suspend t _ => t
  | .complete t _ _ => t
  | .resume t _ _ => t

/-- The thread goes on with what it is in; its listeners call nothing, and what it awaits
    is not there at once. -/
def Act.goesOn (t : T) : Act T → Bool
  | .next u => u = t
  | .return_ u => u = t
  | .suspend u _ => u = t
  | _ => false

def alone (t : T) : Step (Locks T) (Act T) (T × Mutex) := only (fun _ a => a.goesOn t = true) step

/-- No other thread owns a mutex. -/
def Undisturbed (s : Locks T) (t : T) : Prop := ∀ m u, s.owner m = some u → u = t

/-- Going on alone, the thread comes to lock what it owns. -/
def Relocks (s : Locks T) (t : T) : Prop := ∃ s' m, Reach (alone t) s s' [(t, m)]

theorem reach_alone {s s' : Locks T} {t : T} {a : Act T} (hg : a.goesOn t = true) {o : List (T × Mutex)}
    (hst : s.step a = some (s', o)) : Reach (alone t) s s' o :=
  .step .init (only_eq_some.mpr ⟨hg, hst⟩)

theorem Relocks.of_reach {s s' : Locks T} {t : T} (hr : Reach (alone t) s s' []) (h : Relocks s' t) : Relocks s t := by
  obtain ⟨u, m, hu⟩ := h
  exact ⟨u, m, hr.trans hu⟩

/-- The thread relocks, or gets to the end of the function: then it locked nothing there
    that it owned, and what the function neither locks nor held is as before. -/
def Passes (s : Locks T) (t : T) (is : List Instr) (fs : List Frame) : Prop :=
  Relocks s t ∨ ∃ s', Reach (alone t) s s' [] ∧ s'.stack t = fs ∧ Undisturbed s' t ∧
    ∀ m, holds m is = false → (m ∈ locks is → s.owner m ≠ some t) ∧ (m ∉ locks is → s'.owner m = s.owner m)

/-- The thread goes on to what is left of the function. -/
theorem Passes.of_reach {s s' : Locks T} {t : T} {is js : List Instr} {fs : List Frame}
    (hr : Reach (alone t) s s' []) (h : Passes s' t js fs)
    (hm : ∀ m, holds m is = false →
      (m ∈ locks is → s.owner m = some t → holds m js = false ∧ m ∈ locks js ∧ s'.owner m = some t) ∧
      (m ∉ locks is → holds m js = false ∧ m ∉ locks js ∧ s'.owner m = s.owner m)) : Passes s t is fs := by
  rcases h with h | ⟨u, hu, hfs, hd, hall⟩
  · exact .inl (h.of_reach hr)
  refine .inr ⟨u, hr.trans hu, hfs, hd, fun m hh => ⟨fun hl ho => ?_, fun hl => ?_⟩⟩
  · obtain ⟨hjs, hl', ho'⟩ := (hm m hh).1 hl ho
    exact (hall m hjs).1 hl' ho'
  · obtain ⟨hjs, hl', ho'⟩ := (hm m hh).2 hl
    exact ((hall m hjs).2 hl').trans ho'

theorem reach_next {s s' : Locks T} {t : T} {i : Instr} {is : List Instr} {fs : List Frame}
    (hs : s.stack t = .code (i :: is) :: fs) {o : List (T × Mutex)} (hst : s.exec1 t i is fs = some (s', o)) :
    Reach (alone t) s s' o :=
  reach_alone (a := .next t) (by simp [Act.goesOn]) (by simpa [step, hs] using hst)

theorem passes_nil {s : Locks T} {t : T} {fs : List Frame} (hs : s.stack t = .code [] :: fs)
    (hd : Undisturbed s t) : Passes s t [] fs := by
  refine .inr ⟨s.goto t fs, reach_alone (a := .next t) (by simp [Act.goesOn]) (by simp [step, hs]), ?_, hd, ?_⟩
  · rw [goto_stack, if_pos rfl]
  · exact fun m _ => ⟨fun hl => absurd hl List.not_mem_nil, fun _ => rfl⟩

theorem passes_unlock {s : Locks T} {t : T} {k : Mutex} {is : List Instr} {fs : List Frame}
    (hs : s.stack t = .code (.unlock k :: is) :: fs) (hd : Undisturbed s t)
    (hrest : ∀ s' : Locks T, s'.stack t = .code is :: fs → Undisturbed s' t → Passes s' t is fs) :
    Passes s t (.unlock k :: is) fs := by
  refine .of_reach (reach_next hs rfl) (hrest _ ?_ fun m u hu => ?_) fun m hh => ?_
  · rw [goto_stack, if_pos rfl]
  · have hu : Function.update s.owner k none m = some u := hu
    by_cases e : m = k
    · rw [e, Function.update_self] at hu
      cases hu
    · rw [Function.update_of_ne e] at hu
      exact hd m u hu
  · have e : m ≠ k := by
      rintro rfl
      simp [holds] at hh
    have hh : holds m is = false := by simpa [holds, Ne.symm e] using hh
    have ho : Function.update s.owner k none m = s.owner m := Function.update_of_ne e ..
    exact ⟨fun hl hm => ⟨hh, hl, ho.trans hm⟩, fun hl => ⟨hh, hl, ho⟩⟩

theorem passes {is : List Instr} {s : Locks T} {t : T} {fs : List Frame} (hs : s.stack t = .code is :: fs)
    (hw : wellLocked is = true) (hd : Undisturbed s t) : Passes s t is fs := by
  induction is generalizing s with
  | nil => exact passes_nil hs hd
  | cons i is ih =>
    -- an instruction that has to do with no mutex
    have hskip : ∀ s' : Locks T, s.exec1 t i is fs = some (s', []) → s'.owner = s.owner →
        s'.stack t = .code is :: fs → wellLocked is = true → (∀ m, holds m (i :: is) = holds m is) →
        locks (i :: is) = locks is → Passes s t (i :: is) fs := by
      intro s' hst ho hs' hw hh hl
      refine .of_reach (reach_next hs hst) (ih hs' hw fun m u hu => hd m u (ho ▸ hu)) fun m hm => ?_
      rw [hh] at hm
      rw [hl, ho]
      exact ⟨fun hin hmt => ⟨hm, hin, hmt⟩, fun hout => ⟨hm, hout, rfl⟩⟩
    cases i with
    | lock k =>
      cases h0 : s.owner k with
      | none =>
        simp only [wellLocked, Bool.and_eq_true] at hw
        refine .of_reach (reach_next hs (by simp [exec1, h0]; rfl)) (ih ?_ hw.2 fun m u hu => ?_) fun m hh => ?_
        · rw [goto_stack, if_pos rfl]
        · have hu : Function.update s.owner k (some t) m = some u := hu
          by_cases e : m = k
          · rw [e, Function.update_self] at hu
            exact (Option.some.inj hu).symm
          · rw [Function.update_of_ne e] at hu
            exact hd m u hu
        · by_cases e : m = k
          · rw [e]
            refine ⟨fun _ hm => ?_, fun hl => absurd List.mem_cons_self hl⟩
            rw [h0] at hm
            cases hm
          · have hh : holds m is = false := by simpa [holds, Ne.symm e] using hh
            have ho : Function.update s.owner k (some t) m = s.owner m := Function.update_of_ne e ..
            exact ⟨fun hl hm => ⟨hh, (List.mem_cons.mp hl).resolve_left e, ho.trans hm⟩,
              fun hl => ⟨hh, fun h => hl (List.mem_cons_of_mem _ h), ho⟩⟩
      | some u =>
        obtain rfl := hd k u h0
        exact .inl ⟨s, k, reach_next hs (by simp [exec1, h0])⟩
    | unlock k =>
      simp only [wellLocked, Bool.and_eq_true] at hw
      exact passes_unlock hs hd fun s' hs' hd' => ih hs' hw.2 hd'
    | raise e =>
      have hr : Reach (alone t) s ((s.goto t (.callback e :: .code is :: fs)).goto t (.code is :: fs)) ([] ++ []) :=
        (reach_next hs rfl).trans (reach_alone (a := .return_ t) (by simp [Act.goesOn]) (by simp [step, goto_stack]))
      refine .of_reach hr (ih (by rw [goto_stack, if_pos rfl]) hw hd) fun m hm => ?_
      exact ⟨fun hin hmt => ⟨hm, hin, hmt⟩, fun hout => ⟨hm, hout, rfl⟩⟩
    | setStarted b => exact hskip _ rfl rfl (by rw [goto_stack, if_pos rfl]) hw (fun _ => rfl) rfl
    | setConnected => exact hskip _ rfl rfl (by rw [goto_stack, if_pos rfl]) hw (fun _ => rfl) rfl
    | returnIfStarted =>
      simp only [wellLocked, Bool.and_eq_true, Bool.not_eq_true', decide_eq_true_eq] at hw
      obtain ⟨⟨-, hl⟩, hw⟩ := hw
      by_cases e : s.started = true
      · refine .of_reach (reach_next hs rfl) (passes_nil ?_ hd) fun m hm => ?_
        · rw [goto_stack, if_pos rfl, if_pos e]
        · exact ⟨fun hin => absurd (hl ▸ hin : m ∈ []) List.not_mem_nil, fun _ => ⟨rfl, List.not_mem_nil, rfl⟩⟩
      · exact hskip _ rfl rfl (by rw [goto_stack, if_pos rfl, if_neg e]) hw (fun _ => rfl) rfl
    | returnIfConnected =>
      simp only [wellLocked, Bool.and_eq_true, Bool.not_eq_true', decide_eq_true_eq] at hw
      obtain ⟨⟨⟨-, hses⟩, hl⟩, hw⟩ := hw
      by_cases e : s.connected = true
      · have hp : Passes (s.goto t (.code (if s.connected then [.unlock .session] else is) :: fs)) t
            [.unlock .session] fs :=
          passes_unlock (by rw [goto_stack, if_pos rfl, if_pos e]) hd fun s' hs' hd' => passes_nil hs' hd'
        refine .of_reach (reach_next hs rfl) hp fun m hm => ?_
        refine ⟨fun hin => absurd (hl ▸ hin : m ∈ []) List.not_mem_nil, fun _ => ⟨?_, List.not_mem_nil, rfl⟩⟩
        cases m with
        | sessions => rfl
        | session =>
          have hm : holds .session is = false := hm
          rw [hses] at hm
          cases hm
      · exact hskip _ rfl rfl (by rw [goto_stack, if_pos rfl, if_neg e]) hw (fun _ => rfl) rfl
    | await a =>
      obtain rfl : is = [] := by simpa [wellLocked] using hw
      have hst : s.step (.suspend t a) =
          some ({ s with suspended := Function.update s.suspended a (s.suspended a + 1) }.goto t fs, []) := by
        simp [step, hs]
      refine .inr ⟨_, reach_alone (by simp [Act.goesOn]) hst, ?_, hd, ?_⟩
      · rw [goto_stack, if_pos rfl]
      · exact fun m _ => ⟨fun hl => absurd hl List.not_mem_nil, fun _ => rfl⟩

/-- Down in its stack the thread has a function that locks what it owns, and none that holds
    it. -/
theorem relocks_stack {fs : List Frame} {s : Locks T} {t : T} {m : Mutex} (hs : s.stack t = fs)
    (hw : ∀ f ∈ fs, f.wellLocked = true) (hh : ∀ f ∈ fs, f.holds m = false) (hl : ∃ f ∈ fs, m ∈ f.locks)
    (ho : s.owner m = some t) (hd : Undisturbed s t) : Relocks s t := by
  induction fs generalizing s with
  | nil =>
    obtain ⟨f, hf, -⟩ := hl
    cases hf
  | cons f fs ih =>
    have hrest : m ∉ f.locks → ∀ s' : Locks T, s'.stack t = fs → s'.owner m = some t → Undisturbed s' t →
        Relocks s' t := by
      intro hf s' hs' ho' hd'
      obtain ⟨g, hg, hm⟩ := hl
      have hg : g ∈ fs := (List.mem_cons.mp hg).resolve_left fun e => hf (e ▸ hm)
      exact ih hs' (fun k hk => hw k (List.mem_cons_of_mem _ hk)) (fun k hk => hh k (List.mem_cons_of_mem _ hk))
        ⟨g, hg, hm⟩ ho' hd'
    cases f with
    | callback e =>
      have hst : s.step (.return_ t) = some (s.goto t fs, []) := by simp [step, hs]
      refine .of_reach (reach_alone (by simp [Act.goesOn]) hst) (hrest List.not_mem_nil _ ?_ ho hd)
      rw [goto_stack, if_pos rfl]
    | code is =>
      rcases passes hs (hw _ List.mem_cons_self) hd with h | ⟨s', hr, hs', hd', hm⟩
      · exact h
      obtain ⟨hin, hout⟩ := hm m (hh _ List.mem_cons_self)
      by_cases hl' : m ∈ locks is
      · exact absurd ho (hin hl')
      · exact .of_reach hr (hrest hl' s' hs' ((hout hl').trans ho) hd')

/-- A function begins, or goes on, that locks what the thread owns. -/
theorem relocks_code {s s' : Locks T} {t : T} {is : List Instr} {fs : List Frame} (howner : s'.owner = s.owner)
    (hw : wellLocked is = true) (hh : ∀ m ∈ locks is, holds m is = false) (hfree : ¬ s.Free t is)
    (hd : Undisturbed s t) : Relocks (s'.goto t (.code is :: fs)) t := by
  obtain ⟨m, hl, ho⟩ : ∃ m, m ∈ locks is ∧ s.owner m = some t := by simpa [Free] using hfree
  rw [← howner] at ho
  have hd : Undisturbed (s'.goto t (.code is :: fs)) t := fun k u hu => hd k u (howner ▸ hu)
  rcases passes (by rw [goto_stack, if_pos rfl]) hw hd with h | ⟨u, -, -, -, hm⟩
  · exact h
  · exact absurd ho ((hm m (hh m hl)).1 hl)

/-- What goes on after a `co_await` does not hold what it locks. -/
theorem continue_locks (a : Awaited) (success : Bool) : ∀ m ∈ locks (continue_ a success),
    holds m (continue_ a success) = false := by
  cases a <;> cases success <;> decide

/-- Where a thread takes a step that is left out, and no other owns a mutex, it comes to
    lock what it owns. -/
theorem left_out_relocks {s s' : Locks T} {a : Act T} {o : List (T × Mutex)} (hi : Inv s) (hsole : Sole s .session)
    (hst : s.step a = some (s', o)) (hok : ¬ s.Ok a) (hd : Undisturbed s a.thread) : Relocks s' a.thread := by
  cases a with
  | next t => exact absurd trivial hok
  | return_ t => exact absurd trivial hok
  | call t op =>
    unfold step at hst
    obtain ⟨-, rfl, rfl⟩ : mayCall (s.stack t) = true ∧ _ = s' ∧ [] = o := by simpa using hst
    exact relocks_code rfl (operation_wellLocked op) (fun m _ => operation_holds op m) hok hd
  | deliver t n =>
    unfold step at hst
    obtain ⟨-, rfl, rfl⟩ : s.stack t = [] ∧ _ = s' ∧ [] = o := by simpa using hst
    exact relocks_code rfl (notice_wellLocked n) (fun m _ => notice_holds n m) hok hd
  | complete t a success =>
    unfold step at hst
    obtain ⟨-, rfl, rfl⟩ : (s.stack t).head? = _ ∧ _ = s' ∧ [] = o := by simpa using hst
    exact relocks_code rfl (continue_wellLocked a success) (continue_locks a success) hok hd
  | resume t a success =>
    unfold step at hst
    obtain ⟨-, rfl, rfl⟩ : (s.stack t = [] ∧ _) ∧ _ = s' ∧ [] = o := by simpa using hst
    exact relocks_code rfl (continue_wellLocked a success) (continue_locks a success) hok hd
  | suspend t a =>
    obtain ⟨rfl, hl⟩ : a = .join ∧ ∃ f ∈ (s.stack t).tail, Mutex.session ∈ f.locks := by
      by_contra h
      refine hok fun e f hf hm => h ⟨e, f, hf, hm⟩
    unfold step at hst
    obtain ⟨hs, rfl, rfl⟩ : (s.stack t).head? = _ ∧ _ = s' ∧ [] = o := by simpa using hst
    obtain ⟨fs, hs⟩ := List.head?_eq_some_iff.mp hs
    rw [hs, List.tail_cons] at hl ⊢
    -- the join holds `session_lock_`, so this thread owns it and nothing below holds it
    have hone := hsole.one t
    have hcount : holders .session (s.stack t) = holders .session fs + 1 := by
      rw [hs, holders_cons]
      rfl
    obtain ⟨u, ho⟩ : ∃ u, s.owner .session = some u := by
      refine Option.ne_none_iff_exists'.mp fun hn => ?_
      have := (hsole.free hn).2 t
      omega
    obtain rfl := hd _ u ho
    have hnone : holders .session fs = 0 := by omega
    have hhold := List.countP_eq_zero.mp hnone
    have hwell : ∀ f ∈ fs, f.wellLocked = true := fun f hf => hi.frames _ f (hs ▸ List.mem_cons_of_mem _ hf)
    exact relocks_stack (t := u) (by rw [goto_stack, if_pos rfl]) hwell (fun f hf => by simpa using hhold f hf) hl ho hd

theorem reach_ok {s : Locks T} {h : List (T × Mutex)} (hr : Reach (only Ok step) new s h) :
    Inv s ∧ (∀ m, Sole s m) ∧ h = [] := by
  refine hr.inv (I := fun s h => Inv s ∧ (∀ m, Sole s m) ∧ h = []) ⟨new_inv, new_sole, rfl⟩
    fun s h a s' o hI hst => ?_
  obtain ⟨hi, hsole, rfl⟩ := hI
  obtain ⟨hok, hst⟩ := only_eq_some.mp hst
  obtain ⟨hi', rfl⟩ := step_inv hi hok hst
  exact ⟨hi', fun m => step_sole hi (hsole m) hst, rfl⟩

/-- Whatever the listeners call, and whichever thread goes on with what was awaited: in
    runs whose steps all meet the condition no thread locks a mutex that it holds. And a
    step from there that does not meet it takes its thread, going on alone, to a lock of
    what it holds; but where another thread owns a mutex it may have to wait for that. -/
theorem no_self_lock {s : Locks T} {h : List (T × Mutex)} (hr : Reach (only Ok step) new s h) :
    h = [] ∧ ∀ a s' o, s.step a = some (s', o) → ¬ s.Ok a → Undisturbed s a.thread → Relocks s' a.thread := by
  obtain ⟨hi, hsole, hh⟩ := reach_ok hr
  exact ⟨hh, fun a s' o hst hok hd => left_out_relocks hi (hsole .session) hst hok hd⟩

/-- A listener of `session_list_changed` may connect, where the join is not there at once;
    if it stops the channel, the thread comes to lock `sessions_lock_` again. -/
theorem no_self_lock_connect :
    (∃ (s : Locks (Fin 1)) (h : List (Fin 1 × Mutex)),
      Reach (only Ok step) new s h ∧ s.suspended .join = 1 ∧ h = []) ∧
    ∃ s s' : Locks (Fin 1), Reach (only Ok step) new s [] ∧ s.step (.call 0 .stop) = some (s', []) ∧
      ¬ s.Ok (.call 0 .stop) ∧ Relocks s' 0 := by
  have hr : Reach (only Ok step) (new : Locks (Fin 1)) _ _ := reach_of_exec [
    .deliver 0 (.added false), .next 0, .next 0, .call 0 .connect, .next 0, .return_ 0, .next 0, .next 0,
    .suspend 0 .join, .return_ 0, .next 0, .next 0] rfl
  have hr' : Reach (only Ok step) (new : Locks (Fin 1)) _ [] :=
    reach_of_exec [.deliver 0 (.added false), .next 0, .next 0] rfl
  have hok : ∀ s : Locks (Fin 1), s.owner .sessions = some 0 → ¬ s.Ok (.call 0 .stop) := fun _ ho h =>
    h .sessions List.mem_cons_self ho
  refine ⟨⟨_, _, hr, rfl, (no_self_lock hr).1⟩, _, _, hr', rfl, hok _ rfl, ?_⟩
  exact (no_self_lock hr').2 (.call 0 .stop) _ _ rfl (hok _ rfl) fun _ u _ => Subsingleton.elim u 0

/-- The listener of `session_list_changed` stops the channel: `sessions_lock_` is locked
    again by the thread that holds it. -/
theorem stop_from_session_list_changed : ∃ s : Locks (Fin 1), Reach step new s [(0, .sessions)] :=
  ⟨_, reach_of_exec [.deliver 0 (.added false), .next 0, .next 0, .call 0 .stop, .next 0, .next 0] rfl⟩

end Locks

end Dumbnose.RemoteSession
