/-
  Dumbnose.RemoteSession.Roster — the session list against the notifications it is kept
  from.

  The watcher tells of sessions added and removed, any and in any order, and `stop` comes
  in between. The list ought to be the sessions of the channel's name that were added
  since the last `stop` and not removed since (`Lib.Standing`).

  `remote_session_removed` looks for a session by its controller's name and erases what
  it finds first, `end()` included. So a removal does what it says exactly where the
  session is listed, once, and none before it has the controller name
  (`removed_exact_iff`); and the list is exact throughout exactly if every removal is
  like that in the list that the notifications before it make (`sessions_exact_iff`).
-/

import Dumbnose.Lib.Splits
import Dumbnose.Lib.Standing
import Dumbnose.RemoteSession.Channel

namespace Dumbnose.RemoteSession

open Strings Lib.Splits Lib.Standing

inductive Notice where
  | added (info : SessionInfo)
  | removed (info : SessionInfo)
  | stopped
  deriving DecidableEq, Repr

namespace Channel

/-- `none` for an erase at `end()`. -/
def notice (c : Channel) : Notice → Option Channel
  | .added info => some (c.remoteSessionAdded info)
  | .removed info => c.remoteSessionRemoved info
  | .stopped => some c.stop

def notices (c : Channel) (ns : List Notice) : Option Channel := ns.foldlM notice c

/-! ## What the list ought to be -/

/-- What a notification lists, on a channel of this name. -/
def lists (name : WString) : Notice → Option SessionInfo
  | .added info => if info.displayName = name then some info else none
  | _ => none

def unlists : Notice → SessionInfo → Bool
  | .added _, _ => false
  | .removed info, listed => listed = info
  | .stopped, _ => true

/-- The sessions of this name added since the last stop and not removed since. -/
def listed (name : WString) (ns : List Notice) : List SessionInfo := standing (lists name) unlists ns

/-! ## One removal -/

/-- The first session with this controller is the one named, and is listed once. -/
def Names (sessions : List SessionInfo) (info : SessionInfo) : Prop :=
  sessions.find? (sameController info) = some info ∧ sessions.count info = 1

instance (sessions : List SessionInfo) (info : SessionInfo) : Decidable (Names sessions info) :=
  inferInstanceAs (Decidable (_ ∧ _))

theorem sameController_self (info : SessionInfo) : sameController info info = true := by simp [sameController]

/-- A removal erases the first session it finds. -/
theorem removed_split {c d : Channel} {info : SessionInfo} (h : c.remoteSessionRemoved info = some d) :
    ∃ before found after, c.sessions = before ++ found :: after ∧ d = { c with sessions := before ++ after } ∧
      c.sessions.find? (sameController info) = some found := by
  unfold remoteSessionRemoved at h
  obtain ⟨i, hi, rfl⟩ := Option.map_eq_some_iff.mp h
  have herase : c.sessions.eraseIdx i = c.sessions.eraseP (sameController info) := by
    rw [List.eraseP_eq_eraseIdx, hi]
  obtain ⟨hlt, hp, -⟩ := List.findIdx?_eq_some_iff_getElem.mp hi
  obtain ⟨found, before, after, hb, hf, hl, he⟩ := List.exists_of_eraseP (List.getElem_mem hlt) hp
  refine ⟨before, found, after, hl, ?_, ?_⟩
  · rw [herase, he]
  · rw [hl, List.find?_append, List.find?_eq_none.mpr hb, List.find?_cons, hf]
    rfl

theorem removed_isSome {c : Channel} {info : SessionInfo} (h : info ∈ c.sessions) :
    ∃ d, c.remoteSessionRemoved info = some d := by
  unfold remoteSessionRemoved
  cases hf : c.sessions.findIdx? (sameController info) with
  | some i => exact ⟨_, rfl⟩
  | none =>
    have := List.findIdx?_eq_none_iff.mp hf info h
    rw [sameController_self] at this
    cases this

/-- A list without one of its members is the list without all `x` exactly if that member
    was the only `x`. -/
theorem erased_eq_filter_iff {before after : List SessionInfo} {found x : SessionInfo} :
    before ++ after = (before ++ found :: after).filter (fun s => !decide (s = x)) ↔
      found = x ∧ (before ++ found :: after).count x = 1 := by
  have hkeep : ∀ l : List SessionInfo, l.count x = 0 → l.filter (fun s => !decide (s = x)) = l := by
    intro l hl
    rw [List.filter_eq_self]
    intro y hy
    have : y ≠ x := fun e => List.count_eq_zero.mp hl (e ▸ hy)
    simp [this]
  refine ⟨fun h => ?_, fun h => ?_⟩
  · have h0 : (before ++ after).count x = 0 := by
      rw [h, List.count_eq_zero]
      simp
    rw [List.count_append] at h0
    by_cases e : found = x
    · refine ⟨e, ?_⟩
      rw [List.count_append, List.count_cons]
      simp [e]
      omega
    -- nothing is filtered, and the lengths differ
    · have hall : (before ++ found :: after).count x = 0 := by
        rw [List.count_append, List.count_cons]
        simp [e]
        omega
      rw [hkeep _ hall] at h
      have := congrArg List.length h
      simp at this
  · obtain ⟨rfl, h1⟩ := h
    rw [List.count_append, List.count_cons_self] at h1
    rw [List.filter_append, List.filter_cons, hkeep before (by omega), hkeep after (by omega)]
    simp

/-- Where a removal takes out the session it names, and that only. -/
theorem removed_exact_iff (c : Channel) (info : SessionInfo) :
    (∃ d, c.remoteSessionRemoved info = some d ∧ d.sessions = c.sessions.filter fun s => !decide (s = info)) ↔
      Names c.sessions info := by
  refine ⟨fun h => ?_, fun h => ?_⟩
  · obtain ⟨d, hd, hs⟩ := h
    obtain ⟨before, found, after, hl, rfl, hf⟩ := removed_split hd
    have hs : before ++ after = c.sessions.filter fun s => !decide (s = info) := hs
    rw [hl] at hs
    obtain ⟨rfl, h1⟩ := erased_eq_filter_iff.mp hs
    exact ⟨hf, hl ▸ h1⟩
  · obtain ⟨hf, h1⟩ := h
    obtain ⟨d, hd⟩ := removed_isSome (List.mem_of_find?_eq_some hf)
    obtain ⟨before, found, after, hl, rfl, hf'⟩ := removed_split hd
    obtain rfl : found = info := Option.some.inj (hf'.symm.trans hf)
    refine ⟨_, hd, ?_⟩
    show before ++ after = _
    rw [hl] at h1 ⊢
    exact erased_eq_filter_iff.mpr ⟨rfl, h1⟩

/-! ## Every history -/

theorem notices_snoc (c : Channel) (ns : List Notice) (n : Notice) :
    c.notices (ns ++ [n]) = (c.notices ns).bind fun d => d.notice n := by
  unfold notices
  rw [List.foldlM_append]
  cases List.foldlM notice c ns <;> simp

theorem notice_name {c d : Channel} {n : Notice} (h : c.notice n = some d) :
    d.sessionDisplayName = c.sessionDisplayName := by
  cases n with
  | added info =>
    obtain rfl := Option.some.inj h
    unfold remoteSessionAdded
    split <;> rfl
  | removed info =>
    obtain ⟨before, found, after, -, rfl, -⟩ := removed_split h
    rfl
  | stopped =>
    obtain rfl := Option.some.inj h
    rfl

theorem notices_name {name : WString} {ns : List Notice} {d : Channel} (h : (new name).notices ns = some d) :
    d.sessionDisplayName = name := by
  induction ns using List.reverseRecOn generalizing d with
  | nil =>
    obtain rfl := Option.some.inj h
    rfl
  | append_singleton ns n ih =>
    rw [notices_snoc] at h
    obtain ⟨c, hc, hn⟩ := Option.bind_eq_some_iff.mp h
    rw [notice_name hn, ih hc]

/-- One notification, on a list that was exact: still exact, except after a removal that
    does not name what it finds. -/
theorem notice_exact_iff {c : Channel} {ns : List Notice} (hs : c.sessions = listed c.sessionDisplayName ns)
    (n : Notice) :
    (∃ d, c.notice n = some d ∧ d.sessions = listed c.sessionDisplayName (ns ++ [n])) ↔
      ∀ info, n = .removed info → Names c.sessions info := by
  unfold listed at hs ⊢
  rw [standing_snoc, ← hs]
  cases n with
  | added info =>
    refine ⟨fun _ i h => absurd h (by simp), fun _ => ⟨_, rfl, ?_⟩⟩
    have hkeep : c.sessions.filter (fun s => !unlists (.added info) s) = c.sessions :=
      List.filter_eq_self.mpr fun _ _ => rfl
    unfold remoteSessionAdded
    rw [hkeep]
    by_cases e : info.displayName = c.sessionDisplayName
    · simp [lists, e]
    · simp [lists, e]
  | removed info =>
    have : (lists c.sessionDisplayName (.removed info)).toList = [] := rfl
    rw [this, List.append_nil]
    refine (removed_exact_iff c info).trans ⟨fun h i hi => ?_, fun h => h info rfl⟩
    obtain rfl : info = i := by injection hi
    exact h
  | stopped =>
    refine ⟨fun _ i h => absurd h (by simp), fun _ => ⟨_, rfl, ?_⟩⟩
    show [] = _
    simp [unlists, lists]

/-- Every removal names what is to be listed then. -/
def Removals (name : WString) (ns : List Notice) : Prop :=
  ∀ before info, before ++ [.removed info] <+: ns → Names (listed name before) info

/-- Nothing is erased at `end()`, and the list is what it ought to be, after each
    notification. -/
def Exact (name : WString) (ns : List Notice) : Prop :=
  ∀ before, before <+: ns → ∃ c, (new name).notices before = some c ∧ c.sessions = listed name before

/-- The list is exact throughout exactly if every removal is of a session that is to be
    listed then, once, and behind no other of its controller. -/
theorem sessions_exact_iff (name : WString) (ns : List Notice) : Exact name ns ↔ Removals name ns := by
  have hstep : ∀ before n, (∃ c, (new name).notices before = some c ∧ c.sessions = listed name before) →
      ((∃ d, (new name).notices (before ++ [n]) = some d ∧ d.sessions = listed name (before ++ [n])) ↔
        ∀ info, n = .removed info → Names (listed name before) info) := by
    intro before n hbefore
    obtain ⟨c, hc, hs⟩ := hbefore
    obtain rfl := notices_name hc
    rw [notices_snoc, hc, ← hs]
    exact notice_exact_iff hs n
  refine (forall_prefix_iff ⟨_, rfl, rfl⟩ hstep ns).trans ⟨fun h before info hb => ?_, fun h before n hb info hn => ?_⟩
  · exact h before _ hb info rfl
  · exact h before info (hn ▸ hb)

/-- Two sessions of one controller: the removal of the second takes out the first. And a
    session that was never listed: its removal erases at `end()`. -/
theorem removal_takes_another :
    let name : WString := [103]
    let a : SessionInfo := ⟨1, name, [97]⟩
    let b : SessionInfo := ⟨2, name, [97]⟩
    (∃ c, (new name).notices [.added a, .added b, .removed b] = some c ∧ c.sessions = [b] ∧
      listed name [.added a, .added b, .removed b] = [a]) ∧
    (new name).notices [.removed a] = none :=
  ⟨⟨_, rfl, rfl, by decide⟩, rfl⟩

end Channel

end Dumbnose.RemoteSession
