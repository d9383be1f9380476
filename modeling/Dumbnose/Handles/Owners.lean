/-
  Dumbnose.Handles.Owners — which object owns which handle, whatever the system refuses.

  `Owns`: a method whose `handle_`, if it is a real one, is open, beside others that other
  objects have. Closing and storing keep this. A duplicate, or a handle that the caller
  gives, is open before anybody has it, and if the close that comes first throws nobody
  ever does. Together with copies of objects that have no handle, and with a destructor
  that cannot close, these are all the steps that go wrong (`owned_once_iff`).
-/

import Dumbnose.Lib.Splits
import Dumbnose.Handles.WindowsHandle

namespace Dumbnose.Handles

open Lib.Exec Lib.Ledger

/-! ## What the methods do -/

/-- The object has what `handle_` is, and others have the `rest`. -/
def Owns (rest : List HANDLE) (s : Self) : Prop := Kept s.ledger (held s.handle ++ rest)

theorem held_of_real {handle : HANDLE} (h : operatorBool handle = true) : held handle = [handle] := if_pos h

theorem held_of_not {handle : HANDLE} (h : operatorBool handle = false) : held handle = [] := by
  rw [held, h]
  rfl

/-- `CloseHandle` succeeds, if it is called. -/
def Closable (handle : HANDLE) (closes : Bool) : Prop := operatorBool handle = true → closes = true

section Methods
variable {rest : List HANDLE} {s : Self}

/-- After it the object has nothing; or `CloseHandle` fails and all is as it was. -/
theorem close_wp (h : Owns rest s) (closes : Bool) :
    wp (close closes) (fun _ t => Closable s.handle closes ∧ operatorBool t.handle = false ∧ Kept t.ledger rest)
      (fun e t => e = .couldNotClose ∧ t = s ∧ ¬ Closable s.handle closes) s := by
  unfold close closeHandle
  rw [wp_bind, wp_get, wp_ite]
  refine ⟨fun hreal => ?_, fun hnot => ⟨fun hreal => absurd hreal hnot, by simpa using hnot, ?_⟩⟩
  · rw [Owns, held_of_real hreal, List.singleton_append] at h
    have hclosed := h.close (List.mem_cons_self ..)
    rw [List.erase_cons_head] at hclosed
    cases closes with
    | true => exact ⟨fun _ => rfl, rfl, hclosed⟩
    | false => exact ⟨rfl, rfl, fun hc => absurd (hc hreal) Bool.false_ne_true⟩
  · rwa [Owns, held_of_not (by simpa using hnot)] at h

/-- The new handle is stored once the old one is closed. -/
theorem assignHandle_wp {handle : HANDLE} (h : Owns (held handle ++ rest) s) (closes : Bool) :
    wp (assignHandle handle closes) (fun _ t => Closable s.handle closes ∧ t.handle = handle ∧ Owns rest t)
      (fun e t => e = .couldNotClose ∧ t = s ∧ ¬ Closable s.handle closes) s := by
  unfold assignHandle
  rw [wp_bind]
  refine (close_wp h closes).mono (fun _ t ht => ?_) fun _ _ he => he
  exact ⟨ht.1, rfl, ht.2.2⟩

/-- A duplicate is made and stored; or it cannot be made; or it is made and the old handle
    stays, so that nobody has the duplicate. -/
theorem assign_wp (h : Owns rest s) (other : HANDLE) {duplicate : Option HANDLE}
    (hd : ∀ handle ∈ duplicate, operatorBool handle = true ∧ handle ∉ held s.handle ++ rest) (closes : Bool) :
    wp (assign other duplicate closes)
      (fun _ t => Closable s.handle closes ∧ other ≠ null ∧ duplicate = some t.handle ∧ Owns rest t)
      (fun e t => (e = .couldNotDuplicate ∧ t = s ∧ (other = null ∨ duplicate = none)) ∨
        (e = .couldNotClose ∧ ¬ Closable s.handle closes ∧ other ≠ null ∧
          ∃ handle, duplicate = some handle ∧ t = { s with ledger := s.ledger ++ [.opened handle] })) s := by
  unfold assign duplicateHandle
  rw [wp_bind, wp_ite]
  refine ⟨fun hnull => .inl ⟨rfl, rfl, .inl hnull⟩, fun hother => ?_⟩
  cases duplicate with
  | none => exact .inl ⟨rfl, rfl, .inr rfl⟩
  | some handle =>
    obtain ⟨hreal, hfresh⟩ := hd handle rfl
    have hopen : Owns (held handle ++ rest) { s with ledger := s.ledger ++ [.opened handle] } := by
      refine (h.open hfresh).perm ?_
      rw [held_of_real hreal]
      exact List.perm_middle.symm
    show wp (assignHandle handle closes) _ _ _
    refine (assignHandle_wp hopen closes).mono (fun _ t ht => ?_) fun e t ht => .inr ?_
    · exact ⟨ht.1, hother, congrArg some ht.2.1.symm, ht.2.2⟩
    · obtain ⟨he, rfl, hc⟩ := ht
      exact ⟨he, hc, hother, handle, rfl, rfl⟩

/-- A destructor leaves what it could not close. -/
theorem destroy_returns (h : Owns rest s) (closes : Bool) :
    Returns (destroy closes)
      (fun _ t => (Closable s.handle closes ∧ Kept t.ledger rest) ∨ (¬ Closable s.handle closes ∧ t = s)) s := by
  unfold Returns destroy
  rw [wp_tryCatch]
  refine (close_wp h closes).mono (fun _ t ht => .inl ⟨ht.1, ht.2.2⟩) fun e t ht => .inr ?_
  exact ⟨ht.2.2, ht.2.1⟩

end Methods

/-! ## What the calls do -/

namespace Program

/-- What objects other than one own. -/
def others (s : Program) (i : Nat) : List HANDLE :=
  ((List.range s.next).erase i).flatMap fun j => (s.objects j).elim [] held

structure Sound (s : Program) : Prop where
  kept : Kept s.ledger s.handles
  unborn : ∀ i, s.next ≤ i → s.objects i = none

section Sound
variable {s : Program}

theorem handles_perm {i : Nat} (hi : i < s.next) : s.handles.Perm ((s.objects i).elim [] held ++ s.others i) :=
  (List.perm_cons_erase (List.mem_range.mpr hi)).flatMap_right _

@[simp] theorem put_self (s : Program) (i : Nat) (o : Option HANDLE) (l : List (Entry HANDLE)) :
    (s.put i o l).objects i = o := Function.update_self _ _ _

theorem put_of_ne {i j : Nat} (hne : j ≠ i) (o : Option HANDLE) (l : List (Entry HANDLE)) :
    (s.put i o l).objects j = s.objects j := Function.update_of_ne hne _ _

theorem others_put (s : Program) (i : Nat) (o : Option HANDLE) (l : List (Entry HANDLE)) :
    (s.put i o l).others i = s.others i := by
  refine List.flatMap_congr fun j hj => ?_
  rw [put_of_ne (List.nodup_range.mem_erase_iff.mp hj).1]

theorem handles_put {i : Nat} (hi : i < s.next) (o : Option HANDLE) (l : List (Entry HANDLE)) :
    (s.put i o l).handles.Perm (o.elim [] held ++ s.others i) := by
  have := handles_perm (s := s.put i o l) hi
  rwa [others_put, put_self] at this

theorem handles_build (s : Program) (handle : HANDLE) (l : List (Entry HANDLE)) :
    (handles { s.put s.next (some handle) l with next := s.next + 1 }).Perm (held handle ++ s.handles) := by
  unfold handles
  rw [List.range_succ, List.flatMap_append, List.flatMap_singleton, put_self]
  refine List.perm_append_comm.trans (List.Perm.append_left _ (List.Perm.of_eq ?_))
  refine List.flatMap_congr fun j hj => ?_
  rw [put_of_ne (Nat.ne_of_lt (List.mem_range.mp hj))]

variable (h : Sound s)
include h

theorem Sound.lt_next {i : Nat} {handle : HANDLE} (hi : s.objects i = some handle) : i < s.next := by
  by_contra hge
  rw [h.unborn i (Nat.le_of_not_lt hge)] at hi
  cases hi

theorem Sound.owns {i : Nat} {handle : HANDLE} (hi : s.objects i = some handle) :
    Owns (s.others i) ⟨handle, s.ledger⟩ := by
  have := h.kept.perm (handles_perm (h.lt_next hi))
  rwa [hi] at this

theorem Sound.put {i : Nat} (hi : i < s.next) {o : Option HANDLE} {l : List (Entry HANDLE)}
    (hk : Kept l (o.elim [] held ++ s.others i)) : Sound (s.put i o l) := by
  refine ⟨hk.perm (handles_put hi o l).symm, fun j hj => ?_⟩
  rw [put_of_ne (Nat.ne_of_gt (Nat.lt_of_lt_of_le hi hj))]
  exact h.unborn j hj

theorem Sound.build {handle : HANDLE} {l : List (Entry HANDLE)} (hk : Kept l (held handle ++ s.handles)) :
    Sound { s.put s.next (some handle) l with next := s.next + 1 } := by
  refine ⟨hk.perm (handles_build s handle l).symm, fun j hj => ?_⟩
  rw [put_of_ne (Nat.ne_of_gt hj)]
  exact h.unborn j (Nat.le_of_succ_le hj)

/-- What is free nobody has. -/
theorem Sound.free {handle : HANDLE} (hf : s.Free handle) : handle ∉ s.handles := by
  have hb := h.kept.balance handle
  rw [hf] at hb
  exact List.count_eq_zero.mp (by omega)

end Sound

/-! ## What each call can do -/

section Cases
variable {s : Program}

@[simp] theorem put_put (s : Program) (i : Nat) (o o' : Option HANDLE) (l l' : List (Entry HANDLE)) :
    (s.put i o l).put i o' l' = s.put i o' l' := by
  simp [put]

theorem given_put (s : Program) (handle : HANDLE) (i : Nat) (o : Option HANDLE) (l : List (Entry HANDLE)) :
    (s.given handle).put i o l = s.put i o l := by
  unfold given
  split_ifs <;> rfl

theorem given_next (s : Program) (handle : HANDLE) : (s.given handle).next = s.next := by
  unfold given
  split_ifs <;> rfl

/-- What is put back as it was. -/
theorem objects_put {i : Nat} {o : Option HANDLE} (hi : s.objects i = o) (l : List (Entry HANDLE)) :
    (s.put i o l).objects = s.objects := by
  rw [← hi]
  exact Function.update_eq_self _ _

variable (h : Sound s) {i j : Nat} {old other handle : HANDLE} {duplicate : Option HANDLE}
include h

theorem Sound.put_back {l : List (Entry HANDLE)} (hi : s.objects i = some old) (hl : l = s.ledger) :
    Sound (s.put i (some old) l) := by
  subst hl
  exact h.put (h.lt_next hi) (h.owns hi)

theorem Sound.given (hf : operatorBool handle = true → s.Free handle) {live : List HANDLE} (hl : s.handles.Perm live) :
    Kept (s.given handle).ledger (held handle ++ live) := by
  by_cases hreal : operatorBool handle = true
  · rw [Program.given, if_pos hreal, held_of_real hreal]
    exact (h.kept.open (h.free (hf hreal))).perm (hl.cons _)
  · rw [Program.given, if_neg hreal, held_of_not (by simpa using hreal)]
    exact h.kept.perm hl

theorem Sound.fresh (hd : ∀ handle ∈ duplicate, operatorBool handle = true ∧ s.Free handle) {live : List HANDLE}
    (hl : s.handles.Perm live) : ∀ handle ∈ duplicate, operatorBool handle = true ∧ handle ∉ live := fun handle hh =>
  ⟨(hd handle hh).1, fun hmem => h.free (hd handle hh).2 (hl.mem_iff.mpr hmem)⟩

theorem Sound.perm_others (hi : s.objects i = some old) : s.handles.Perm (held old ++ s.others i) := by
  have := handles_perm (h.lt_next hi)
  rwa [hi] at this

theorem Sound.copy_cases (hd : ∀ handle ∈ duplicate, operatorBool handle = true ∧ s.Free handle)
    (hj : s.objects j = some other) :
    (∃ new l, other ≠ null ∧ duplicate = some new ∧ Kept l (held new ++ s.handles) ∧
      s.perform (.copy j duplicate) = (none, { s.put s.next (some new) l with next := s.next + 1 })) ∨
    ((other = null ∨ duplicate = none) ∧ s.perform (.copy j duplicate) = (some .couldNotDuplicate, s)) := by
  have hw := assign_wp (s := ⟨null, s.ledger⟩) h.kept other (h.fresh hd (.refl _)) true
  simp only [perform, hj, Program.build]
  rcases hw.run with hok | herr
  · obtain ⟨_, t, e, -, hne, hdup, hown⟩ := hok
    rw [e]
    exact .inl ⟨t.handle, t.ledger, hne, hdup, hown, rfl⟩
  · obtain ⟨_, t, e, he⟩ := herr
    rw [e]
    rcases he with he | he
    · obtain ⟨rfl, rfl, hor⟩ := he
      exact .inr ⟨hor, rfl⟩
    · exact absurd (fun _ => rfl) he.2.1

theorem Sound.assignHandle_cases (hf : operatorBool handle = true → s.Free handle) (hi : s.objects i = some old)
    (closes : Bool) :
    (∃ l, Closable old closes ∧ Kept l (held handle ++ s.others i) ∧
      s.perform (.assignHandle i handle closes) = (none, s.put i (some handle) l)) ∨
    (¬ Closable old closes ∧
      s.perform (.assignHandle i handle closes) =
        (some .couldNotClose, s.put i (some old) (s.given handle).ledger)) := by
  have hk : Owns (held handle ++ s.others i) ⟨old, (s.given handle).ledger⟩ := by
    refine (h.given hf (h.perm_others hi)).perm ?_
    rw [← List.append_assoc, ← List.append_assoc]
    exact List.perm_append_comm.append_right _
  simp only [perform, hi, Program.on]
  rcases (assignHandle_wp hk closes).run with hok | herr
  · obtain ⟨_, t, e, hc, rfl, hown⟩ := hok
    rw [e]
    exact .inl ⟨t.ledger, hc, hown, congrArg (Prod.mk none) (given_put ..)⟩
  · obtain ⟨_, t, e, rfl, rfl, hc⟩ := herr
    rw [e]
    exact .inr ⟨hc, congrArg (Prod.mk (some Err.couldNotClose)) (given_put ..)⟩

theorem Sound.assign_cases (hd : ∀ handle ∈ duplicate, operatorBool handle = true ∧ s.Free handle)
    (hi : s.objects i = some old) (hj : s.objects j = some other) (closes : Bool) :
    (∃ new l, Closable old closes ∧ other ≠ null ∧ duplicate = some new ∧ Kept l (held new ++ s.others i) ∧
      s.perform (.assign i j duplicate closes) = (none, s.put i (some new) l)) ∨
    ((other = null ∨ duplicate = none) ∧
      s.perform (.assign i j duplicate closes) = (some .couldNotDuplicate, s.put i (some old) s.ledger)) ∨
    (¬ Closable old closes ∧ ∃ new, duplicate = some new ∧
      s.perform (.assign i j duplicate closes) =
        (some .couldNotClose, s.put i (some old) (s.ledger ++ [.opened new]))) := by
  have hw := assign_wp (h.owns hi) other (h.fresh hd (h.perm_others hi)) closes
  simp only [perform, hi, hj, Program.on]
  rcases hw.run with hok | herr
  · obtain ⟨_, t, e, hc, hne, hdup, hown⟩ := hok
    rw [e]
    exact .inl ⟨t.handle, t.ledger, hc, hne, hdup, hown, rfl⟩
  · obtain ⟨_, t, e, he⟩ := herr
    rw [e]
    rcases he with he | he
    · obtain ⟨rfl, rfl, hor⟩ := he
      exact .inr (.inl ⟨hor, rfl⟩)
    · obtain ⟨rfl, hc, -, new, hdup, rfl⟩ := he
      exact .inr (.inr ⟨hc, new, hdup, rfl⟩)

theorem Sound.close_cases (hi : s.objects i = some old) (closes : Bool) :
    (∃ new l, Kept l (held new ++ s.others i) ∧ s.perform (.close i closes) = (none, s.put i (some new) l)) ∨
    s.perform (.close i closes) = (some .couldNotClose, s.put i (some old) s.ledger) := by
  simp only [perform, hi, Program.on]
  rcases (close_wp (h.owns hi) closes).run with hok | herr
  · obtain ⟨_, t, e, -, hnot, hk⟩ := hok
    rw [e]
    exact .inl ⟨t.handle, t.ledger, by rwa [held_of_not hnot], rfl⟩
  · obtain ⟨_, t, e, rfl, rfl, -⟩ := herr
    rw [e]
    exact .inr rfl

theorem Sound.destroy_cases (hi : s.objects i = some old) (closes : Bool) :
    (∃ l, Closable old closes ∧ Kept l (s.others i) ∧ s.perform (.destroy i closes) = (none, s.put i none l)) ∨
    (¬ Closable old closes ∧ s.perform (.destroy i closes) = (none, s.put i none s.ledger)) := by
  simp only [perform, hi, Program.on]
  obtain ⟨_, t, e, ht⟩ := (destroy_returns (h.owns hi) closes).run
  rw [e]
  rcases ht with ⟨hc, hk⟩ | ⟨hc, rfl⟩
  · exact .inl ⟨t.ledger, hc, hk, by rw [put_put]; rfl⟩
  · exact .inr ⟨hc, by rw [put_put]; rfl⟩

end Cases

/-! ## Whole programs -/

/-- The object that a copy goes to, and the one that it is of. -/
def copied (s : Program) : Call → Option (Nat × Nat)
  | .copy other _ => some (s.next, other)
  | .assign target other _ _ => some (target, other)
  | _ => none

/-- What is asked of a call: that what is open is what objects have, each handle one of them;
    that what throws has done nothing to any object; and that a copy of no handle is no
    handle, and a copy of one fails only where that cannot be duplicated. -/
structure OwnedOnce (s : Program) (c : Call) (e : Option Err) (t : Program) : Prop where
  kept : Kept t.ledger t.handles
  undone : e ≠ none → t.objects = s.objects
  copies : s.Possible c → ∀ target other handle, s.copied c = some (target, other) → s.objects other = some handle →
    (e = some .couldNotDuplicate → operatorBool handle = true) ∧
      (e = none → ∀ new, t.objects target = some new → operatorBool new = operatorBool handle)

/-- What is copied is a handle, and where one comes to an object that has one, and where an
    object that has one is destroyed, `CloseHandle` succeeds. -/
def Tidy (s : Program) (c : Call) : Prop :=
  s.Possible c →
    match c with
    | .construct | .fromHandle _ | .close _ _ => True
    | .copy other _ => ∀ handle, s.objects other = some handle → operatorBool handle = true
    | .assignHandle target handle closes =>
      ∀ old, s.objects target = some old → operatorBool handle = true → Closable old closes
    | .assign target other duplicate closes =>
      ∀ old handle, s.objects target = some old → s.objects other = some handle →
        operatorBool handle = true ∧ (duplicate.isSome = true → Closable old closes)
    | .destroy target closes => ∀ old, s.objects target = some old → Closable old closes

section Calls
variable {s : Program} {c : Call}

theorem exec_of_possible (hp : s.Possible c) : s.exec c = s.perform c := if_pos hp

/-- A call that copies nothing. -/
theorem OwnedOnce.of_sound {e : Option Err} {t : Program} (ht : Sound t) (hu : e ≠ none → t.objects = s.objects)
    (hc : s.copied c = none) : OwnedOnce s c e t := by
  refine ⟨ht.kept, hu, fun _ _ _ _ hcop => ?_⟩
  rw [hc] at hcop
  cases hcop

theorem Sound.copy (h : Sound s) {other : Nat} {duplicate : Option HANDLE} (hp : s.Possible (.copy other duplicate))
    (hr : ∀ handle, s.objects other = some handle → operatorBool handle = true) {e : Option Err} {t : Program}
    (he : s.perform (.copy other duplicate) = (e, t)) : Sound t ∧ OwnedOnce s (.copy other duplicate) e t := by
  cases hj : s.objects other with
  | none =>
    simp only [perform, hj, Prod.mk.injEq] at he
    obtain ⟨rfl, rfl⟩ := he
    refine ⟨h, h.kept, fun _ => rfl, fun _ _ j handle hcop hj' => ?_⟩
    obtain ⟨-, rfl⟩ := Prod.mk.inj (Option.some.inj hcop)
    rw [hj] at hj'
    cases hj'
  | some handle =>
    rcases h.copy_cases hp hj with hok | herr
    · obtain ⟨new, l, -, rfl, hk, hperf⟩ := hok
      obtain ⟨rfl, rfl⟩ := Prod.mk.inj (he.symm.trans hperf)
      refine ⟨h.build hk, (h.build hk).kept, fun hne => absurd rfl hne, fun _ i j handle' hcop hj' => ?_⟩
      obtain ⟨rfl, rfl⟩ := Prod.mk.inj (Option.some.inj hcop)
      refine ⟨fun e => (by cases e), fun _ new' hnew => ?_⟩
      obtain rfl : new = new' := by simpa using hnew
      rw [hr handle' hj', (hp new rfl).1]
    · obtain ⟨-, hperf⟩ := herr
      obtain ⟨rfl, rfl⟩ := Prod.mk.inj (he.symm.trans hperf)
      refine ⟨h, h.kept, fun _ => rfl, fun _ i j handle' hcop hj' => ?_⟩
      obtain ⟨-, rfl⟩ := Prod.mk.inj (Option.some.inj hcop)
      exact ⟨fun _ => hr handle' hj', fun e => (by cases e)⟩

theorem Sound.assign (h : Sound s) {target other : Nat} {duplicate : Option HANDLE} {closes : Bool}
    (hp : s.Possible (.assign target other duplicate closes))
    (hr : ∀ old handle, s.objects target = some old → s.objects other = some handle →
      operatorBool handle = true ∧ (duplicate.isSome = true → Closable old closes)) {e : Option Err} {t : Program}
    (he : s.perform (.assign target other duplicate closes) = (e, t)) :
    Sound t ∧ OwnedOnce s (.assign target other duplicate closes) e t := by
  have hcop : ∀ i j, s.copied (.assign target other duplicate closes) = some (i, j) → target = i ∧ other = j :=
    fun i j hij => Prod.mk.inj (Option.some.inj hij)
  by_cases hboth : ∃ old handle, s.objects target = some old ∧ s.objects other = some handle
  swap
  · have hsame : s.perform (.assign target other duplicate closes) = (none, s) := by
      simp only [perform]
      cases hi : s.objects target with
      | none => rfl
      | some old =>
        cases hj : s.objects other with
        | none => rfl
        | some handle => exact absurd ⟨old, handle, hi, hj⟩ hboth
    obtain ⟨rfl, rfl⟩ := Prod.mk.inj (he.symm.trans hsame)
    refine ⟨h, h.kept, fun _ => rfl, fun _ i j handle hij hj => ⟨fun e => (by cases e), fun _ new hi => ?_⟩⟩
    obtain ⟨rfl, rfl⟩ := hcop i j hij
    exact absurd ⟨new, handle, hi, hj⟩ hboth
  obtain ⟨old, handle, hi, hj⟩ := hboth
  obtain ⟨hreal, hclose⟩ := hr old handle hi hj
  have hback : Sound (s.put target (some old) s.ledger) := h.put_back hi rfl
  rcases h.assign_cases hp hi hj closes with hok | herr | hleak
  · obtain ⟨new, l, -, -, rfl, hk, hperf⟩ := hok
    obtain ⟨rfl, rfl⟩ := Prod.mk.inj (he.symm.trans hperf)
    have ht := h.put (o := some new) (h.lt_next hi) hk
    refine ⟨ht, ht.kept, fun hne => absurd rfl hne, fun _ i j handle' hij hj' => ⟨fun e => (by cases e), ?_⟩⟩
    obtain ⟨rfl, rfl⟩ := hcop i j hij
    intro _ new' hnew
    obtain rfl : new = new' := by simpa using hnew
    rw [(hr old handle' hi hj').1, (hp new rfl).1]
  · obtain ⟨-, hperf⟩ := herr
    obtain ⟨rfl, rfl⟩ := Prod.mk.inj (he.symm.trans hperf)
    refine ⟨hback, hback.kept, fun _ => objects_put hi _, fun _ i j handle' hij hj' =>
      ⟨fun _ => ?_, fun e => (by cases e)⟩⟩
    obtain ⟨rfl, rfl⟩ := hcop i j hij
    exact (hr old handle' hi hj').1
  · obtain ⟨hc, new, rfl, -⟩ := hleak
    exact absurd (hclose rfl) hc

theorem Sound.exec (h : Sound s) (hc : Tidy s c) : Sound (s.exec c).2 ∧ OwnedOnce s c (s.exec c).1 (s.exec c).2 := by
  by_cases hp : s.Possible c
  swap
  · rw [Program.exec, if_neg hp]
    exact ⟨h, h.kept, fun _ => rfl, fun hp' => absurd hp' hp⟩
  specialize hc hp
  rw [exec_of_possible hp]
  cases c with
  | construct =>
    have ht : Sound (s.perform .construct).2 := h.build h.kept
    exact ⟨ht, .of_sound ht (fun hne => absurd rfl hne) rfl⟩
  | fromHandle handle =>
    have hk := h.given hp (.refl _)
    have ht : Sound (s.perform (.fromHandle handle)).2 := by
      have := h.build hk
      rwa [← given_put, ← given_next s handle] at this
    exact ⟨ht, .of_sound ht (fun hne => absurd rfl hne) rfl⟩
  | copy other duplicate => exact h.copy hp hc rfl
  | assign target other duplicate closes => exact h.assign hp hc rfl
  | assignHandle target handle closes =>
    cases hi : s.objects target with
    | none =>
      simp only [perform, hi]
      exact ⟨h, .of_sound h (fun _ => rfl) rfl⟩
    | some old =>
      rcases h.assignHandle_cases hp hi closes with hok | herr
      · obtain ⟨l, -, hk, hperf⟩ := hok
        have ht := h.put (o := some handle) (h.lt_next hi) hk
        rw [hperf]
        exact ⟨ht, .of_sound ht (fun hne => absurd rfl hne) rfl⟩
      · obtain ⟨hnot, hperf⟩ := herr
        have hgiven : s.given handle = s := if_neg fun hreal => hnot (hc old hi hreal)
        have ht := h.put_back hi (congrArg Program.ledger hgiven)
        rw [hperf]
        exact ⟨ht, .of_sound ht (fun _ => objects_put hi _) rfl⟩
  | close target closes =>
    cases hi : s.objects target with
    | none =>
      simp only [perform, hi]
      exact ⟨h, .of_sound h (fun _ => rfl) rfl⟩
    | some old =>
      rcases h.close_cases hi closes with hok | hperf
      · obtain ⟨new, l, hk, hperf⟩ := hok
        have ht := h.put (o := some new) (h.lt_next hi) hk
        rw [hperf]
        exact ⟨ht, .of_sound ht (fun hne => absurd rfl hne) rfl⟩
      · have ht := h.put_back hi rfl
        rw [hperf]
        exact ⟨ht, .of_sound ht (fun _ => objects_put hi _) rfl⟩
  | destroy target closes =>
    cases hi : s.objects target with
    | none =>
      simp only [perform, hi]
      exact ⟨h, .of_sound h (fun _ => rfl) rfl⟩
    | some old =>
      rcases h.destroy_cases hi closes with hok | herr
      · obtain ⟨l, -, hk, hperf⟩ := hok
        have ht := h.put (o := none) (h.lt_next hi) hk
        rw [hperf]
        exact ⟨ht, .of_sound ht (fun hne => absurd rfl hne) rfl⟩
      · exact absurd (hc old hi) herr.1

/-- A handle more than objects have is open. -/
theorem Sound.leaks (h : Sound s) {target : Nat} {old new : HANDLE} (hi : s.objects target = some old)
    (hf : s.Free new) {l : List (Entry HANDLE)} (hl : l = s.ledger ++ [.opened new]) :
    ¬ Kept l (s.put target (some old) l).handles := by
  intro hk
  have hown := h.kept.open (h.free hf)
  rw [← hl] at hown
  have hsame := (handles_put (h.lt_next hi) (some old) l).trans (h.perm_others hi).symm
  have := (hsame.symm.trans (hk.live_perm hown)).length_eq
  simp at this

theorem Sound.exec_wrong (h : Sound s) (hc : ¬ Tidy s c) : ¬ OwnedOnce s c (s.exec c).1 (s.exec c).2 := by
  obtain ⟨hp, hc⟩ := Classical.not_imp.mp hc
  rw [exec_of_possible hp]
  intro hown
  cases c with
  | construct => exact hc trivial
  | fromHandle handle => exact hc trivial
  | close target closes => exact hc trivial
  | copy other duplicate =>
    simp only [not_forall] at hc
    obtain ⟨handle, hj, hnot⟩ := hc
    have hcop := hown.copies hp s.next other handle rfl hj
    rcases h.copy_cases hp hj with hok | herr
    · obtain ⟨new, l, -, rfl, -, hperf⟩ := hok
      rw [hperf] at hcop
      have := hcop.2 rfl new (by simp)
      exact hnot (this.symm.trans (hp new rfl).1)
    · rw [herr.2] at hcop
      exact hnot (hcop.1 rfl)
  | assignHandle target handle closes =>
    simp only [not_forall] at hc
    obtain ⟨old, hi, hreal, hnot⟩ := hc
    rcases h.assignHandle_cases hp hi closes with hok | herr
    · obtain ⟨l, hclose, -⟩ := hok
      exact hnot hclose
    · have hl : (s.given handle).ledger = s.ledger ++ [.opened handle] := by rw [Program.given, if_pos hreal]
      have hk := hown.kept
      rw [herr.2] at hk
      exact h.leaks hi (hp hreal) hl hk
  | assign target other duplicate closes =>
    simp only [not_forall] at hc
    obtain ⟨old, handle, hi, hj, hnot⟩ := hc
    have hcop := hown.copies hp target other handle rfl hj
    rcases h.assign_cases hp hi hj closes with hok | herr | hleak
    · obtain ⟨new, l, hclose, -, rfl, -, hperf⟩ := hok
      rw [hperf] at hcop
      have := hcop.2 rfl new (by simp)
      exact hnot ⟨this.symm.trans (hp new rfl).1, fun _ => hclose⟩
    · obtain ⟨hor, hperf⟩ := herr
      rw [hperf] at hcop
      have hreal := hcop.1 rfl
      rcases hor with rfl | rfl
      · exact absurd hreal (by decide)
      · exact hnot ⟨hreal, fun hsome => absurd hsome Bool.false_ne_true⟩
    · obtain ⟨-, new, rfl, hperf⟩ := hleak
      have hk := hown.kept
      rw [hperf] at hk
      exact h.leaks hi (hp new rfl).2 rfl hk
  | destroy target closes =>
    simp only [not_forall] at hc
    obtain ⟨old, hi, hnot⟩ := hc
    rcases h.destroy_cases hi closes with hok | herr
    · obtain ⟨l, hclose, -⟩ := hok
      exact hnot hclose
    · have hk := hown.kept
      rw [herr.2] at hk
      have hgone := (hk.perm (handles_put (h.lt_next hi) none s.ledger)).live_perm (h.kept.perm (h.perm_others hi))
      have hreal : operatorBool old = true := by_contra fun hn => hnot fun hreal => absurd hreal hn
      have := hgone.length_eq
      rw [held_of_real hreal] at this
      simp at this

end Calls

theorem start_sound : Sound start := ⟨.nil, fun _ _ => rfl⟩

theorem run_snoc (s : Program) (p : List Call) (c : Call) : s.run (p ++ [c]) = ((s.run p).exec c).2 :=
  Lib.Splits.run_concat (fun s c => (s.exec c).2) (fun _ => rfl) (fun _ _ _ => rfl) s p c

/-- Handles are owned once in exactly the programs that copy handles only, and in which
    `CloseHandle` succeeds on what is to be replaced or destroyed. -/
theorem owned_once_iff (calls : List Call) :
    (∀ p c, p ++ [c] <+: calls → OwnedOnce (start.run p) c ((start.run p).exec c).1 ((start.run p).exec c).2) ↔
      ∀ p c, p ++ [c] <+: calls → Tidy (start.run p) c := by
  refine Lib.Splits.forall_run_step_iff start.run (fun s c => (s.exec c).2) (run_snoc start) (I := Sound) start_sound
    (R := fun s c => OwnedOnce s c (s.exec c).1 (s.exec c).2) ?_ ?_ calls
  · intro s c h hc
    exact h.exec hc
  · intro s c h hc
    exact h.exec_wrong hc

/-- Of an object without a handle there is no copy; and of an object that cannot close what
    it has, a copy assigned to it stays open for ever. -/
theorem not_owned_once :
    ((start.run [.construct]).exec (.copy 0 none)).1 = some .couldNotDuplicate ∧
    ¬ OwnedOnce (start.run [.construct]) (.copy 0 none) (some .couldNotDuplicate) (start.run [.construct]) ∧
    ((start.run [.fromHandle 4, .fromHandle 8]).exec (.assign 0 1 (some 12) false)).2.handles = [4, 8] ∧
    ((start.run [.fromHandle 4, .fromHandle 8]).exec (.assign 0 1 (some 12) false)).2.ledger =
      [.opened 4, .opened 8, .opened 12] := by
  refine ⟨by decide, fun h => ?_, by decide, by decide⟩
  have := (h.copies (by decide) 1 0 null rfl rfl).1 rfl
  cases this

end Program

end Dumbnose.Handles
