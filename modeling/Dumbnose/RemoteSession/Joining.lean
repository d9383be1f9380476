/-
  Dumbnose.RemoteSession.Joining — which session a channel is connected to, whatever the
  order of its calls.

  Any number of calls of `start_async`, `connect` and `stop` and any number of join
  requests, on any threads; a coroutine is one action to its `co_await` and one after it,
  with any result, and `join_requested` is one to its `stop` and one for the region
  under `session_lock_`. `connect` holds that lock across its `co_await`. The calls are
  numbered as they begin; a join request names the call whose controller received it.

  `connect` and `join_requested` take `session_lock_` and look at `connected_` before
  they connect. `start_async` does neither, before or after its `co_await`, and writes
  `session_` and `channel_`: a creation that ends after a connection overwrites the
  session it is with (`start_async_overwrites`), and one that has not ended leaves a join
  request with the session of another call, or with none. `Ok` leaves these out, by what
  the run has done so far: a join request is accepted on a channel whose last creation
  that succeeded is that of the call it names.
-/

import Mathlib.Logic.Function.Basic
import Dumbnose.Lib.Runs
import Dumbnose.RemoteSession.Channel

namespace Dumbnose.RemoteSession

open Strings Lib.Runs

/-- Where a call is. -/
inductive Joining.Pc where
  | unused
  /-- `start_async`, at its `co_await`. -/
  | creating
  /-- `start_async`, with its session. -/
  | hosted
  /-- `connect`, at its `co_await`. -/
  | joining
  /-- `join_requested` past its `stop`, from the controller of call `host`. -/
  | requested (host : Nat)
  | over
  deriving DecidableEq

structure Joining where
  channel : Channel
  /-- The call that holds `session_lock_` between two actions. -/
  sessionLock : Option Nat
  pc : Nat → Joining.Pc
  calls : Nat

/-- What connected a channel: a call of `connect`, or a join request to a call's controller. -/
inductive Join where
  | connect (call : Nat)
  | request (host : Nat)
  deriving DecidableEq

def Join.session : Join → Session
  | .connect call => .joined call
  | .request host => .hosted host

def Join.isController : Join → Bool
  | .connect _ => false
  | .request _ => true

namespace Joining

inductive Act where
  | startAsync
  | created (call : Nat) (success : Bool)
  | connect
  | joined (call : Nat) (success : Bool)
  | joinRequested (host : Nat)
  | accept (call : Nat)
  | stop

def new (name : WString) : Joining := ⟨.new name, none, fun _ => .unused, 0⟩

def goto (s : Joining) (call : Nat) (p : Pc) : Joining := { s with pc := Function.update s.pc call p }

/-- A call begins. -/
def begin_ (s : Joining) (p : Pc) : Joining := { s.goto s.calls p with calls := s.calls + 1 }

/-- What is seen is the join that sets `connected_`. -/
def step (s : Joining) : Act → Option (Joining × List Join)
  | .startAsync => some (s.begin_ (if s.channel.startAsync then .creating else .over), [])
  | .created call success =>
    if s.pc call = .creating then
      some ({ s with channel := s.channel.created call success }.goto call (if success then .hosted else .over), [])
    else none
  | .connect =>
    if s.sessionLock = none then
      if s.channel.connect then some ({ s with sessionLock := some s.calls }.begin_ .joining, [])
      else some (s.begin_ .over, [])
    else none
  | .joined call success =>
    if s.pc call = .joining then
      some ({ s with channel := s.channel.joined call success, sessionLock := none }.goto call .over,
        if success then [.connect call] else [])
    else none
  | .joinRequested host =>
    if s.pc host = .creating ∨ s.pc host = .hosted then
      some ({ s with channel := s.channel.stop }.begin_ (.requested host), [])
    else none
  | .accept call =>
    match s.pc call with
    | .requested host =>
      if s.sessionLock = none then
        some ({ s with channel := s.channel.accept }.goto call .over,
          if s.channel.connected then [] else [.request host])
      else none
    | _ => none
  | .stop => some ({ s with channel := s.channel.stop }, [])

theorem step_cases {s t : Joining} {a : Act} {o : List Join} (h : step s a = some (t, o)) :
    (∃ p, (a = .startAsync ∨ a = .connect) ∧ t = s.begin_ p ∧ (p = .creating ∨ p = .over) ∧ o = []) ∨
    (∃ call, a = .created call true ∧ s.pc call = .creating ∧
      t = { s with channel := s.channel.created call true }.goto call .hosted ∧ o = []) ∨
    (∃ call, a = .created call false ∧ s.pc call = .creating ∧
      t = { s with channel := s.channel.stop }.goto call .over ∧ o = []) ∨
    (a = .connect ∧ s.sessionLock = none ∧ s.channel.connected = false ∧
      t = { s with sessionLock := some s.calls }.begin_ .joining ∧ o = []) ∨
    (∃ call, a = .joined call true ∧ s.pc call = .joining ∧
      t = { s with channel := s.channel.joined call true, sessionLock := none }.goto call .over ∧ o = [.connect call]) ∨
    (∃ call, a = .joined call false ∧ s.pc call = .joining ∧ t = { s with sessionLock := none }.goto call .over ∧
      o = []) ∨
    (∃ host, a = .joinRequested host ∧ t = { s with channel := s.channel.stop }.begin_ (.requested host) ∧ o = []) ∨
    (∃ call host, a = .accept call ∧ s.pc call = .requested host ∧ s.sessionLock = none ∧
      s.channel.connected = true ∧ t = s.goto call .over ∧ o = []) ∨
    (∃ call host, a = .accept call ∧ s.pc call = .requested host ∧ s.sessionLock = none ∧
      s.channel.connected = false ∧
      t = { s with channel := { s.channel with connected := true, isController := true } }.goto call .over ∧
      o = [.request host]) ∨
    (a = .stop ∧ t = { s with channel := s.channel.stop } ∧ o = []) := by
  cases a with
  | startAsync =>
    simp [step] at h
    refine .inl ⟨_, .inl rfl, h.1.symm, ?_, h.2⟩
    by_cases e : s.channel.startAsync = true <;> simp [e]
  | created call success =>
    cases success with
    | true =>
      simp [step] at h
      exact .inr (.inl ⟨call, rfl, h.1, h.2.1.symm, h.2.2⟩)
    | false =>
      simp [step, Channel.created] at h
      exact .inr (.inr (.inl ⟨call, rfl, h.1, h.2.1.symm, h.2.2⟩))
  | connect =>
    by_cases e : s.channel.connected = true
    · simp [step, Channel.connect, e] at h
      exact .inl ⟨.over, .inr rfl, h.2.1.symm, .inr rfl, h.2.2⟩
    · simp [step, Channel.connect, e] at h
      exact .inr (.inr (.inr (.inl ⟨rfl, h.1, by simpa using e, h.2.1.symm, h.2.2⟩)))
  | joined call success =>
    cases success with
    | true =>
      simp [step] at h
      exact .inr (.inr (.inr (.inr (.inl ⟨call, rfl, h.1, h.2.1.symm, h.2.2.symm⟩))))
    | false =>
      simp [step, Channel.joined] at h
      exact .inr (.inr (.inr (.inr (.inr (.inl ⟨call, rfl, h.1, h.2.1.symm, h.2.2⟩)))))
  | joinRequested host =>
    simp [step] at h
    exact .inr (.inr (.inr (.inr (.inr (.inr (.inl ⟨host, rfl, h.2.1.symm, h.2.2⟩))))))
  | accept call =>
    cases hp : s.pc call with
    | requested host =>
      by_cases e : s.channel.connected = true
      · simp [step, hp, Channel.accept, e] at h
        exact .inr (.inr (.inr (.inr (.inr (.inr (.inr (.inl ⟨call, host, rfl, hp, h.1, e, h.2.1.symm, h.2.2⟩)))))))
      · simp [step, hp, Channel.accept, e] at h
        exact .inr (.inr (.inr (.inr (.inr (.inr (.inr (.inr (.inl
          ⟨call, host, rfl, hp, h.1, by simpa using e, h.2.1.symm, h.2.2.symm⟩))))))))
    | _ => simp [step, hp] at h
  | stop =>
    simp [step] at h
    exact .inr (.inr (.inr (.inr (.inr (.inr (.inr (.inr (.inr ⟨rfl, h.1.symm, h.2⟩))))))))

theorem goto_pc (s : Joining) (call n : Nat) (p : Pc) : (s.goto call p).pc n = if n = call then p else s.pc n :=
  Function.update_apply ..

theorem begin_pc (s : Joining) (n : Nat) (p : Pc) : (s.begin_ p).pc n = if n = s.calls then p else s.pc n :=
  goto_pc ..

/-! ## Every run -/

/-- A call of `connect` at its `co_await` has the lock to itself, and nothing is connected
    then; `session_` is hosted only by a call that has its session; `connected_` is set by
    one join. -/
structure Inv (s : Joining) (h : List Join) : Prop where
  fresh : ∀ n, s.calls ≤ n → s.pc n = .unused
  lock : ∀ n, s.pc n = .joining → s.sessionLock = some n ∧ s.channel.connected = false
  hosted : ∀ n, s.channel.session = some (.hosted n) → s.pc n = .hosted
  joins : if s.channel.connected then h.length = 1 else h = []

theorem new_inv (name : WString) : Inv (new name) [] :=
  ⟨fun _ _ => rfl, fun _ h => (by cases h), fun _ h => (by cases h), rfl⟩

/-- A call begins that does not hold the lock. -/
theorem Inv.begin_ {s : Joining} {h : List Join} (hi : Inv s h) {c : Channel} (hses : c.session = s.channel.session)
    (hcon : c.connected = s.channel.connected) {p : Pc} (hp : p ≠ .joining) :
    Inv ({ s with channel := c }.begin_ p) h := by
  refine ⟨fun n hn => ?_, fun n hn => ?_, fun n hn => ?_, ?_⟩
  · have hn : s.calls + 1 ≤ n := hn
    rw [begin_pc, if_neg (by show n ≠ s.calls; omega)]
    exact hi.fresh n (by omega)
  · rw [begin_pc] at hn
    by_cases e : n = s.calls
    · rw [if_pos e] at hn
      exact absurd hn hp
    · rw [if_neg e] at hn
      show s.sessionLock = some n ∧ c.connected = false
      rw [hcon]
      exact hi.lock n hn
  · have hn : c.session = some (.hosted n) := hn
    have hpc := hi.hosted n (hses ▸ hn)
    have e : n ≠ s.calls := fun e => by
      rw [hi.fresh n (Nat.le_of_eq e.symm)] at hpc
      cases hpc
    rw [begin_pc, if_neg e]
    exact hpc
  · show if c.connected then h.length = 1 else h = []
    rw [hcon]
    exact hi.joins

/-- A call that does not hold the lock goes on, and connects nothing. -/
theorem Inv.goto {s : Joining} {h : List Join} (hi : Inv s h) {c : Channel} {call : Nat} {p : Pc}
    (hcall : s.pc call ≠ .unused) (hcon : c.connected = s.channel.connected) (hp : p ≠ .joining)
    (hses : ∀ n, c.session = some (.hosted n) → if n = call then p = .hosted else s.pc n = .hosted) :
    Inv ({ s with channel := c }.goto call p) h := by
  refine ⟨fun n hn => ?_, fun n hn => ?_, fun n hn => ?_, ?_⟩
  · have hn : s.calls ≤ n := hn
    have e : n ≠ call := fun e => hcall (e ▸ hi.fresh n hn)
    rw [goto_pc, if_neg e]
    exact hi.fresh n hn
  · rw [goto_pc] at hn
    by_cases e : n = call
    · rw [if_pos e] at hn
      exact absurd hn hp
    · rw [if_neg e] at hn
      show s.sessionLock = some n ∧ c.connected = false
      rw [hcon]
      exact hi.lock n hn
  · have := hses n hn
    rw [goto_pc]
    by_cases e : n = call
    · rw [if_pos e] at this ⊢
      exact this
    · rw [if_neg e] at this ⊢
      exact this
  · show if c.connected then h.length = 1 else h = []
    rw [hcon]
    exact hi.joins

/-- The call of `connect` that holds the lock ends. -/
theorem Inv.release {s : Joining} {h : List Join} (hi : Inv s h) {call : Nat} (hp : s.pc call = .joining)
    {c : Channel} (hses : ∀ n, c.session = some (.hosted n) → s.pc n = .hosted) {h' : List Join}
    (hj : if c.connected then h'.length = 1 else h' = []) :
    Inv ({ s with channel := c, sessionLock := none }.goto call .over) h' := by
  refine ⟨fun n hn => ?_, fun n hn => ?_, fun n hn => ?_, hj⟩
  · have hn : s.calls ≤ n := hn
    have e : n ≠ call := fun e => by
      rw [← e, hi.fresh n hn] at hp
      cases hp
    rw [goto_pc, if_neg e]
    exact hi.fresh n hn
  · rw [goto_pc] at hn
    by_cases e : n = call
    · rw [if_pos e] at hn
      cases hn
    -- two calls at the `co_await` would both hold the lock
    · rw [if_neg e] at hn
      have h1 := (hi.lock n hn).1
      rw [(hi.lock call hp).1] at h1
      exact absurd (Option.some.inj h1).symm e
  · have hpc := hses n hn
    have e : n ≠ call := fun e => by
      rw [e, hp] at hpc
      cases hpc
    rw [goto_pc, if_neg e]
    exact hpc

/-- A join request is accepted: no call is at the `co_await` of `connect`. -/
theorem Inv.accept {s : Joining} {h : List Join} (hi : Inv s h) {call host : Nat} (hp : s.pc call = .requested host)
    (hl : s.sessionLock = none) {h' : List Join} (hj : h'.length = 1) :
    Inv ({ s with channel := { s.channel with connected := true, isController := true } }.goto call .over) h' := by
  refine ⟨fun n hn => ?_, fun n hn => ?_, fun n hn => ?_, hj⟩
  · have hn : s.calls ≤ n := hn
    have e : n ≠ call := fun e => by
      rw [← e, hi.fresh n hn] at hp
      cases hp
    rw [goto_pc, if_neg e]
    exact hi.fresh n hn
  · rw [goto_pc] at hn
    by_cases e : n = call
    · rw [if_pos e] at hn
      cases hn
    · rw [if_neg e] at hn
      have h1 := (hi.lock n hn).1
      rw [hl] at h1
      cases h1
  · have hpc := hi.hosted n hn
    have e : n ≠ call := fun e => by
      rw [e, hp] at hpc
      cases hpc
    rw [goto_pc, if_neg e]
    exact hpc

theorem step_inv {s t : Joining} {a : Act} {h o : List Join} (hi : Inv s h) (hst : step s a = some (t, o)) :
    Inv t (h ++ o) := by
  rcases step_cases hst with ⟨p, -, rfl, hp, rfl⟩ | ⟨call, -, hp, rfl, rfl⟩ | ⟨call, -, hp, rfl, rfl⟩ |
    ⟨-, hl, hc, rfl, rfl⟩ | ⟨call, -, hp, rfl, rfl⟩ | ⟨call, -, hp, rfl, rfl⟩ | ⟨host, -, rfl, rfl⟩ |
    ⟨call, host, -, hp, hl, hc, rfl, rfl⟩ | ⟨call, host, -, hp, hl, hc, rfl, rfl⟩ | ⟨-, rfl, rfl⟩
  · rw [List.append_nil]
    exact hi.begin_ rfl rfl (by rcases hp with rfl | rfl <;> decide)
  · rw [List.append_nil]
    refine hi.goto (by rw [hp]; decide) rfl (by decide) fun n hn => ?_
    have hn : some (Session.hosted call) = some (.hosted n) := hn
    rw [if_pos (by injection hn with hn; injection hn with hn; exact hn.symm)]
  · rw [List.append_nil]
    refine hi.goto (by rw [hp]; decide) rfl (by decide) fun n hn => ?_
    have hpc := hi.hosted n hn
    have e : n ≠ call := fun e => by
      rw [e, hp] at hpc
      cases hpc
    rw [if_neg e]
    exact hpc
  · rw [List.append_nil]
    refine ⟨fun n hn => ?_, fun n hn => ?_, fun n hn => ?_, hi.joins⟩
    · have hn : s.calls + 1 ≤ n := hn
      rw [begin_pc, if_neg (by show n ≠ s.calls; omega)]
      exact hi.fresh n (by omega)
    · rw [begin_pc] at hn
      by_cases e : n = s.calls
      · rw [e]
        exact ⟨rfl, hc⟩
      · rw [if_neg e] at hn
        have h1 := (hi.lock n hn).1
        rw [hl] at h1
        cases h1
    · have hpc := hi.hosted n hn
      have e : n ≠ s.calls := fun e => by
        rw [hi.fresh n (Nat.le_of_eq e.symm)] at hpc
        cases hpc
      rw [begin_pc, if_neg e]
      exact hpc
  · have hj := hi.joins
    rw [(hi.lock call hp).2] at hj
    refine hi.release hp (fun n hn => ?_) ?_
    · have hn : some (Session.joined call) = some (.hosted n) := hn
      cases hn
    · rw [hj]
      rfl
  · rw [List.append_nil]
    exact hi.release hp hi.hosted hi.joins
  · rw [List.append_nil]
    exact hi.begin_ (c := s.channel.stop) (p := .requested host) rfl rfl (by simp)
  · rw [List.append_nil]
    refine hi.goto (by simp [hp]) rfl (by decide) fun n hn => ?_
    have hpc := hi.hosted n hn
    have e : n ≠ call := fun e => by
      rw [e, hp] at hpc
      cases hpc
    rw [if_neg e]
    exact hpc
  · have hj := hi.joins
    rw [hc] at hj
    apply hi.accept hp hl
    rw [hj]
    rfl
  · rw [List.append_nil]
    exact ⟨hi.fresh, hi.lock, hi.hosted, hi.joins⟩

/-! ## The session it connected to -/

/-- If the channel is connected, it is by one join, and it is with the session of that
    join, in the role of that join. -/
def Belongs (s : Joining) (h : List Join) : Prop :=
  s.channel.connected = true → ∃ j, h = [j] ∧ s.channel.session = some j.session ∧
    s.channel.channel = some j.session ∧ s.channel.isController = j.isController

/-- What `connected_` came with is kept. -/
def Kept (s t : Joining) : Prop :=
  s.channel.connected = true → t.channel.connected = true ∧ t.channel.session = s.channel.session ∧
    t.channel.channel = s.channel.channel ∧ t.channel.isController = s.channel.isController

/-- The call whose controller received the request. -/
def Pc.host : Pc → Option Nat
  | .requested host => some host
  | _ => none

/-- The call whose creation succeeds. -/
def Act.creates : Act → Option Nat
  | .created call true => some call
  | _ => none

/-- The call whose creation was the last to succeed. -/
def lastCreated (as : List Act) : Option Nat := (as.filterMap Act.creates).getLast?

theorem lastCreated_snoc (as : List Act) (a : Act) : lastCreated (as ++ [a]) = a.creates.or (lastCreated as) := by
  unfold lastCreated
  rw [List.filterMap_append]
  cases h : a.creates with
  | none => simp [h]
  | some call => simp [h]

/-- A creation succeeds on a channel that is not connected; a join request is accepted
    where the last creation that succeeded is that of the call whose controller received
    it. -/
def Ok (x : Joining × List Act) : Act → Prop
  | .created _ success => success = true → x.1.channel.connected = false
  | .accept call => x.1.channel.connected = false → lastCreated x.2 = (x.1.pc call).host
  | _ => True

instance (x : Joining × List Act) : (a : Act) → Decidable (Ok x a)
  | .created _ success => inferInstanceAs (Decidable (success = true → x.1.channel.connected = false))
  | .accept call => inferInstanceAs (Decidable (x.1.channel.connected = false → lastCreated x.2 = (x.1.pc call).host))
  | .startAsync => .isTrue trivial
  | .connect => .isTrue trivial
  | .joined _ _ => .isTrue trivial
  | .joinRequested _ => .isTrue trivial
  | .stop => .isTrue trivial

/-- Until it is connected, a channel has the session that was created last. -/
def Latest (x : Joining × List Act) : Prop :=
  x.1.channel.connected = false → x.1.channel.session = (lastCreated x.2).map .hosted ∧
    x.1.channel.channel = (lastCreated x.2).map .hosted

/-- A step that no creation succeeds in, and that leaves the session. -/
theorem Latest.same {x : Joining × List Act} (hx : Latest x) {t : Joining} {a : Act} (ha : a.creates = none)
    (hcon : t.channel.connected = x.1.channel.connected) (hses : t.channel.session = x.1.channel.session)
    (hcha : t.channel.channel = x.1.channel.channel) : Latest (t, x.2 ++ [a]) := by
  intro hc
  have hc : t.channel.connected = false := hc
  show t.channel.session = (lastCreated (x.2 ++ [a])).map .hosted ∧
    t.channel.channel = (lastCreated (x.2 ++ [a])).map .hosted
  rw [lastCreated_snoc, ha, Option.none_or, hses, hcha]
  exact hx (hcon ▸ hc)

theorem step_latest {x y : Joining × List Act} {a : Act} {o : List Join} (hx : Latest x)
    (hst : noted step x a = some (y, o)) : Latest y := by
  obtain ⟨t, as⟩ := y
  obtain ⟨hst, has⟩ := noted_eq_some.mp hst
  obtain rfl : as = x.2 ++ [a] := has
  rcases step_cases hst with ⟨p, ha, rfl, -, -⟩ | ⟨call, rfl, -, rfl, -⟩ | ⟨call, rfl, -, rfl, -⟩ |
    ⟨rfl, -, -, rfl, -⟩ | ⟨call, rfl, -, rfl, -⟩ | ⟨call, rfl, -, rfl, -⟩ | ⟨host, rfl, rfl, -⟩ |
    ⟨call, host, rfl, -, -, -, rfl, -⟩ | ⟨call, host, rfl, -, -, -, rfl, -⟩ | ⟨rfl, rfl, -⟩
  · refine hx.same ?_ rfl rfl rfl
    rcases ha with rfl | rfl <;> rfl
  -- a creation that succeeds is the last
  · intro _
    rw [lastCreated_snoc]
    exact ⟨rfl, rfl⟩
  · exact hx.same rfl rfl rfl rfl
  · exact hx.same rfl rfl rfl rfl
  · intro hc
    cases hc
  · exact hx.same rfl rfl rfl rfl
  · exact hx.same rfl rfl rfl rfl
  · exact hx.same rfl rfl rfl rfl
  · intro hc
    cases hc
  · exact hx.same rfl rfl rfl rfl

theorem Kept.trans {s t u : Joining} (h : Kept s t) (h' : Kept t u) : Kept s u := by
  intro hc
  obtain ⟨hc, h1, h2, h3⟩ := h hc
  obtain ⟨hc, h4, h5, h6⟩ := h' hc
  exact ⟨hc, h4.trans h1, h5.trans h2, h6.trans h3⟩

theorem Kept.refl (s : Joining) : Kept s s := fun hc => ⟨hc, rfl, rfl, rfl⟩

/-- A step that leaves `connected_`, the session and the role. -/
theorem Belongs.same {s t : Joining} {h : List Join} (hb : Belongs s h)
    (hcon : t.channel.connected = s.channel.connected) (hses : t.channel.session = s.channel.session)
    (hcha : t.channel.channel = s.channel.channel) (hcto : t.channel.isController = s.channel.isController) :
    Belongs t (h ++ []) ∧ Kept s t := by
  refine ⟨fun hc => ?_, fun hc => ⟨hcon.trans hc, hses, hcha, hcto⟩⟩
  obtain ⟨j, hj, h1, h2, h3⟩ := hb (hcon ▸ hc)
  rw [List.append_nil]
  exact ⟨j, hj, hses.trans h1, hcha.trans h2, hcto.trans h3⟩

/-- A creation that ends on a connected channel gives it another session. -/
theorem created_kept_iff {s : Joining} {h : List Join} (hi : Inv s h) {call : Nat} (hp : s.pc call = .creating) :
    (Belongs ({ s with channel := s.channel.created call true }.goto call .hosted) (h ++ []) ∧
      Kept s ({ s with channel := s.channel.created call true }.goto call .hosted)) ↔ s.channel.connected = false := by
  refine ⟨fun hk => ?_, fun hc => ⟨fun h' => ?_, fun h' => ?_⟩⟩
  · by_contra hc
    obtain ⟨-, hses, -⟩ := hk.2 (by simpa using hc)
    have hpc := hi.hosted call hses.symm
    rw [hp] at hpc
    cases hpc
  · have h' : s.channel.connected = true := h'
    rw [hc] at h'
    cases h'
  · rw [hc] at h'
    cases h'

/-- An accepted join request connects the channel to the session it has. -/
theorem accept_kept_iff {s : Joining} {call host : Nat} (hc : s.channel.connected = false) :
    (Belongs ({ s with channel := { s.channel with connected := true, isController := true } }.goto call .over)
        [.request host] ∧
      Kept s ({ s with channel := { s.channel with connected := true, isController := true } }.goto call .over)) ↔
      s.channel.session = some (.hosted host) ∧ s.channel.channel = some (.hosted host) := by
  refine ⟨fun hk => ?_, fun hs => ⟨fun _ => ⟨_, rfl, hs.1, hs.2, rfl⟩, fun h' => ?_⟩⟩
  · obtain ⟨j, hj, h1, h2, -⟩ := hk.1 rfl
    obtain rfl : Join.request host = j := List.singleton_inj.mp hj
    exact ⟨h1, h2⟩
  · rw [hc] at h'
    cases h'

theorem step_kept_iff {x : Joining × List Act} {t : Joining} {a : Act} {h o : List Join} (hi : Inv x.1 h)
    (hx : Latest x) (hb : Belongs x.1 h) (hst : step x.1 a = some (t, o)) :
    Belongs t (h ++ o) ∧ Kept x.1 t ↔ Ok x a := by
  rcases step_cases hst with ⟨p, ha, rfl, hp, rfl⟩ | ⟨call, rfl, hp, rfl, rfl⟩ | ⟨call, rfl, hp, rfl, rfl⟩ |
    ⟨rfl, hl, hc, rfl, rfl⟩ | ⟨call, rfl, hp, rfl, rfl⟩ | ⟨call, rfl, hp, rfl, rfl⟩ | ⟨host, rfl, rfl, rfl⟩ |
    ⟨call, host, rfl, hp, hl, hc, rfl, rfl⟩ | ⟨call, host, rfl, hp, hl, hc, rfl, rfl⟩ | ⟨rfl, rfl, rfl⟩
  · apply iff_of_true (hb.same rfl rfl rfl rfl)
    rcases ha with rfl | rfl <;> trivial
  · rw [created_kept_iff hi hp]
    exact ⟨fun hc _ => hc, fun hok => hok rfl⟩
  · refine iff_of_true (hb.same rfl rfl rfl rfl) fun h => ?_
    cases h
  · exact iff_of_true (hb.same rfl rfl rfl rfl) trivial
  · refine iff_of_true ⟨fun _ => ⟨.connect call, ?_, rfl, rfl, rfl⟩, fun h' => ?_⟩ trivial
    · have hj := hi.joins
      rw [(hi.lock call hp).2] at hj
      rw [hj]
      rfl
    · rw [(hi.lock call hp).2] at h'
      cases h'
  · exact iff_of_true (hb.same rfl rfl rfl rfl) trivial
  · exact iff_of_true (hb.same rfl rfl rfl rfl) trivial
  · refine iff_of_true (hb.same rfl rfl rfl rfl) fun h' => ?_
    rw [hc] at h'
    cases h'
  · have hj := hi.joins
    rw [hc] at hj
    obtain rfl : h = [] := hj
    apply (accept_kept_iff hc).trans
    show _ ↔ (x.1.channel.connected = false → lastCreated x.2 = (x.1.pc call).host)
    rw [(hx hc).1, (hx hc).2, hp]
    refine ⟨fun hs _ => ?_, fun hok => ?_⟩
    · obtain ⟨n, hn, e⟩ := Option.map_eq_some_iff.mp hs.1
      cases e
      exact hn
    · rw [hok hc]
      exact ⟨rfl, rfl⟩
  · exact iff_of_true (hb.same rfl rfl rfl rfl) trivial

theorem reach_inv {name : WString} {s : Joining} {h : List Join} (hr : Reach step (new name) s h) : Inv s h :=
  hr.inv (new_inv name) fun _ _ _ _ _ hi hst => step_inv hi hst

theorem reach_belongs {name : WString} {x : Joining × List Act} {h : List Join}
    (hr : Reach (only Ok (noted step)) (new name, []) x h) : Inv x.1 h ∧ Latest x ∧ Belongs x.1 h := by
  refine hr.inv (I := fun x h => Inv x.1 h ∧ Latest x ∧ Belongs x.1 h)
    ⟨new_inv name, fun _ => ⟨rfl, rfl⟩, fun hc => ?_⟩ fun x h a y o hI hst => ?_
  · cases hc
  · obtain ⟨hi, hx, hb⟩ := hI
    obtain ⟨hok, hnote⟩ := only_eq_some.mp hst
    obtain ⟨hst, -⟩ := noted_eq_some.mp hnote
    exact ⟨step_inv hi hst, step_latest hx hnote, ((step_kept_iff hi hx hb hst).mpr hok).1⟩

theorem reach_kept {x : Joining × List Act} {h : List Join} (hi : Inv x.1 h) (hx : Latest x) (hb : Belongs x.1 h)
    {y : Joining × List Act} {h' : List Join} (hr : Reach (only Ok (noted step)) x y h') : Kept x.1 y.1 := by
  have : Inv y.1 (h ++ h') ∧ Latest y ∧ Belongs y.1 (h ++ h') ∧ Kept x.1 y.1 := by
    refine hr.inv (I := fun y h' => Inv y.1 (h ++ h') ∧ Latest y ∧ Belongs y.1 (h ++ h') ∧ Kept x.1 y.1) ?_
      fun y h' a z o hI hst => ?_
    · rw [List.append_nil]
      exact ⟨hi, hx, hb, Kept.refl x.1⟩
    · obtain ⟨hiy, hy, hby, hk⟩ := hI
      obtain ⟨hok, hnote⟩ := only_eq_some.mp hst
      obtain ⟨hst, -⟩ := noted_eq_some.mp hnote
      obtain ⟨hbz, hkz⟩ := (step_kept_iff hiy hy hby hst).mpr hok
      rw [← List.append_assoc]
      exact ⟨step_inv hiy hst, step_latest hy hnote, hbz, hk.trans hkz⟩
  exact this.2.2.2

/-- A channel is connected once at most, whatever the order. In runs whose steps all meet
    the condition it is with the session of its join, then and from then on; and from
    there it takes a step that does not meet it to change that. -/
theorem stays_connected_iff (name : WString) :
    (∀ s h, Reach step (new name) s h → h.length ≤ 1 ∧ (s.channel.connected = true ↔ h ≠ [])) ∧
    (∀ x h, Reach (only Ok (noted step)) (new name, []) x h →
      Belongs x.1 h ∧
      (∀ y h', Reach (only Ok (noted step)) x y h' → Kept x.1 y.1) ∧
      ∀ a t o, step x.1 a = some (t, o) → (Belongs t (h ++ o) ∧ Kept x.1 t ↔ Ok x a)) := by
  refine ⟨fun s h hr => ?_, fun x h hr => ?_⟩
  · have hj := (reach_inv hr).joins
    by_cases e : s.channel.connected = true
    · rw [if_pos e] at hj
      refine ⟨Nat.le_of_eq hj, iff_of_true e fun h0 => ?_⟩
      rw [h0] at hj
      cases hj
    · rw [if_neg e] at hj
      rw [hj]
      exact ⟨Nat.zero_le _, iff_of_false e fun h0 => h0 rfl⟩
  · obtain ⟨hi, hx, hb⟩ := reach_belongs hr
    exact ⟨hb, fun y h' hr' => reach_kept hi hx hb hr', fun a t o hst => step_kept_iff hi hx hb hst⟩

/-- Joined as participant, and accepted as host. -/
theorem stays_connected_iff_participant :
    (∃ x, Reach (only Ok (noted step)) (new [], []) x [.connect 0] ∧ Belongs x.1 [.connect 0] ∧
      x.1.channel.session = some (.joined 0)) ∧
    ∃ x, Reach (only Ok (noted step)) (new [], []) x [.request 0] ∧ Belongs x.1 [.request 0] ∧
      x.1.channel.session = some (.hosted 0) := by
  have hr : Reach (only Ok (noted step)) (new [], []) _ [.connect 0] :=
    reach_of_exec [.connect, .stop, .joined 0 true, .startAsync, .created 1 false] rfl
  have hr' : Reach (only Ok (noted step)) (new [], []) _ [.request 0] :=
    reach_of_exec [.startAsync, .created 0 true, .joinRequested 0, .accept 1] rfl
  exact ⟨⟨_, hr, ((stays_connected_iff []).2 _ _ hr).1, rfl⟩, ⟨_, hr', ((stays_connected_iff []).2 _ _ hr').1, rfl⟩⟩

/-- A channel that starts a session of its own, and joins another before its own is
    created, is connected to that one as participant; then it has its own. -/
theorem start_async_overwrites : ∃ s t,
    Reach step (new []) s [.connect 1] ∧ step s (.created 0 true) = some (t, []) ∧
    s.channel.connected = true ∧ s.channel.session = some (.joined 1) ∧
    t.channel.connected = true ∧ t.channel.session = some (.hosted 0) ∧ t.channel.isController = false ∧
    ¬ Belongs t [.connect 1] ∧ ¬ Kept s t := by
  have hr : Reach step (new []) _ [.connect 1] := reach_of_exec [.startAsync, .connect, .joined 1 true] rfl
  refine ⟨_, _, hr, rfl, rfl, rfl, rfl, rfl, rfl, fun hb => ?_, fun hk => ?_⟩
  · obtain ⟨j, hj, hs, -⟩ := hb rfl
    obtain rfl : Join.connect 1 = j := List.singleton_inj.mp hj
    cases hs
  · have := (hk rfl).2.1
    cases this

end Joining

end Dumbnose.RemoteSession
