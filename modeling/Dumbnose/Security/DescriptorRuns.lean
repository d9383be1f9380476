/-
  Dumbnose.Security.DescriptorRuns — security descriptors through any sequence of calls on
  any number of objects.

  What an object is for is to say who owns a thing and who may use it (`Policy`), in one
  form or the other. `Ideal.step` has the calls on that alone, with no blocks. It is
  blocked only where an owner or a group is asked of a descriptor that has none: there the
  code reads through a null pointer. Else, where nothing is refused, every object answers
  as its policy does (`descriptors_refine`), whatever was copied and turned over in between.

  At any time every block that was allocated belongs to one object, or was freed once
  (`descriptors_freed`), whatever memory and calls of the system were refused. And a list
  that is set is there to be got again (`descriptors_carry`).
-/

import Dumbnose.Security.DaclRuns
import Dumbnose.Security.Descriptor

namespace Dumbnose.Security

open Lib.Exec Lib.Ledger Lib.Runs

namespace CSecurityDesc

/-! ## Calls -/

/-- A call on one object. -/
inductive ObjectCall where
  | assignFrom (rhs : Descriptor)
  | setOwner (sid : Option Sid) (defaulted : Bool)
  | setGroup (sid : Option Sid) (defaulted : Bool)
  | setDacl (dacl : CDacl) (refused : Option Nat) (defaulted : Bool)
  | setDaclPresent (present defaulted : Bool)
  | setSacl (null empty : Bool) (pAcl : Except CDacl.Err Acl) (defaulted : Bool)
  | makeSelfRelative
  | makeAbsolute
  | setControl (ofInterest toSet : BitVec 16)
  | getOwner
  | getGroup
  | getDacl (list : CDacl)
  | getSacl
  | getControl
  | getSECURITY_DESCRIPTOR

inductive Call where
  | create
  | createFrom (rhs : Descriptor)
  | createCopy (j : Nat)
  | destroy (i : Nat)
  | assign (i j : Nat)
  | on (i : Nat) (c : ObjectCall)

inductive Seen where
  | done
  | bool (b : Bool)
  | sid (r : Option (Sid × Bool))
  | list (r : EStateM.Result CDacl.Err CDacl (Option (Bool × Option Bool)))
  | sacl (r : Option ((Bool × Option Bool) × Option Acl))
  | control (r : Option (Parts Unit Unit × Bool))
  | descriptor (p : Policy)
  | thrown (e : Err)

def done (x : M Unit) : M Seen := (fun _ => .done) <$> x

def ObjectCall.exec : ObjectCall → M Seen
  | .assignFrom rhs => done (CSecurityDesc.assignFrom rhs)
  | .setOwner sid defaulted => done (CSecurityDesc.setOwner sid defaulted)
  | .setGroup sid defaulted => done (CSecurityDesc.setGroup sid defaulted)
  | .setDacl dacl refused defaulted => done (CSecurityDesc.setDacl dacl refused defaulted)
  | .setDaclPresent present defaulted => done (CSecurityDesc.setDaclPresent present defaulted)
  | .setSacl null empty pAcl defaulted => done (CSecurityDesc.setSacl null empty pAcl defaulted)
  | .makeSelfRelative => done CSecurityDesc.makeSelfRelative
  | .makeAbsolute => done CSecurityDesc.makeAbsolute
  | .setControl ofInterest toSet => Seen.bool <$> CSecurityDesc.setControl ofInterest toSet
  | .getOwner => Seen.sid <$> CSecurityDesc.getOwner
  | .getGroup => Seen.sid <$> CSecurityDesc.getGroup
  | .getDacl list => (fun s => Seen.list (CSecurityDesc.getDacl s.pSecurityDescriptor list)) <$> get
  | .getSacl => (fun s => Seen.sacl (CSecurityDesc.getSacl s.pSecurityDescriptor)) <$> get
  | .getControl => (fun s => Seen.control (CSecurityDesc.getControl s.pSecurityDescriptor)) <$> get
  | .getSECURITY_DESCRIPTOR => (fun p => Seen.descriptor (p.policy true)) <$> CSecurityDesc.getSECURITY_DESCRIPTOR

def seenOf (r : EStateM.Result Err CSecurityDesc Seen) : CSecurityDesc × Seen :=
  match r with
  | .ok o s => (s, o)
  | .error e s => (s, .thrown e)

/-- The objects that were made, and those destroyed among them. -/
structure World where
  objects : List (Option (Option Descriptor))
  memory : Memory

namespace World

def new (refusals : List Bool) : World := ⟨[], ⟨[], 0, refusals⟩⟩

/-- The object made by a constructor. If that throws there is none, and no destructor is run. -/
def build (w : World) (x : M Unit) : World × List Seen :=
  match x ⟨none, w.memory⟩ with
  | .ok _ s => (⟨w.objects ++ [some s.pSecurityDescriptor], s.memory⟩, [.done])
  | .error e s => (⟨w.objects ++ [none], s.memory⟩, [.thrown e])

/-- An object that is there. -/
def object (w : World) (i : Nat) : Option (Option Descriptor) := w.objects[i]?.join

def onObject (w : World) (i : Nat) (x : M Seen) : Option (World × List Seen) :=
  (w.object i).map fun sd =>
    let r := seenOf (x ⟨sd, w.memory⟩)
    (⟨w.objects.set i (some r.1.pSecurityDescriptor), r.1.memory⟩, [r.2])

def step : Step World Call Seen := fun w c =>
  match c with
  | .create => some (w.build (pure ()))
  | .createFrom rhs => some (w.build (init rhs))
  | .createCopy j => (w.object j).map fun rhs => w.build (rhs.elim (pure ()) init)
  | .destroy i =>
    (w.object i).map fun sd =>
      let r := seenOf (done clear ⟨sd, w.memory⟩)
      (⟨w.objects.set i none, r.1.memory⟩, [r.2])
  | .assign i j => do
    let rhs ← w.object j
    if i = j then some (w, [.done]) else w.onObject i (done (CSecurityDesc.assign rhs))
  | .on i c => w.onObject i c.exec

/-- The blocks of all objects. -/
def held (w : World) : List Nat := w.objects.flatMap fun o => o.elim [] CSecurityDesc.held

end World

/-! ## What they are for -/

namespace Ideal

def setSid (field : SidField) (sid : Option Sid) (defaulted : Bool) (p : Option Policy) : Option Policy × Seen :=
  match sid with
  | none => (some (Policy.absolute p), .thrown .fail)
  | some sid => (some ((Policy.absolute p).setSid sid defaulted field), .done)

def setAcl (field : AclField) (access : Except Err Access) (defaulted : Bool) (p : Option Policy) :
    Option Policy × Seen :=
  match access with
  | .error e => (some (Policy.absolute p), .thrown e)
  | .ok access => (some ((Policy.absolute p).setAcl access defaulted field), .done)

def setControl (ofInterest toSet : BitVec 16) (p : Policy) : Option Policy :=
  (inheritanceOf p.inheritance ofInterest toSet).map fun bits => { p with inheritance := bits }

/-- Blocked where there is a descriptor without the account. -/
def getSid (field : SidField) (p : Option Policy) : Option (Option Policy × Seen) :=
  match p with
  | none => some (p, .sid none)
  | some q => (q.sid field).pSid.map fun sid => (p, .sid (some (sid, (q.sid field).defaulted)))

def reported (part : AccessPart) : Bool × Option Bool :=
  (part.access ≠ .absent, if part.access = .absent then none else some part.defaulted)

/-- The list that is filled. -/
def fill (part : AccessPart) : CDacl.M (Option (Bool × Option Bool)) := do
  match part.access with
  | .absent => CDacl.setEmpty
  | .all => CDacl.setNull
  | .list acl => CDacl.assignAcl (some acl)
  return some (reported part)

def sacl (part : AccessPart) : (Bool × Option Bool) × Option Acl :=
  (reported part,
    match part.access with
    | .list acl => some acl
    | _ => none)

def control (p : Policy) : Parts Unit Unit × Bool :=
  (⟨⟨none, p.owner.defaulted⟩, ⟨none, p.group.defaulted⟩, ⟨p.dacl.access ≠ .absent, none, p.dacl.defaulted⟩,
    ⟨p.sacl.access ≠ .absent, none, p.sacl.defaulted⟩, p.inheritance⟩, p.selfRelative)

def copied (p : Policy) : Policy := { p with selfRelative := true }

def call (p : Option Policy) : ObjectCall → Option (Option Policy × Seen)
  | .assignFrom rhs => some (some (copied rhs.policy), .done)
  | .setOwner sid defaulted => some (setSid .owner sid defaulted p)
  | .setGroup sid defaulted => some (setSid .group sid defaulted p)
  | .setDacl dacl refused defaulted =>
    some (setAcl .dacl (given dacl.null (isEmpty dacl) (pAclOf dacl refused)) defaulted p)
  | .setDaclPresent present defaulted => some (setAcl .dacl (.ok (if present then .all else .absent)) defaulted p)
  | .setSacl null empty pAcl defaulted => some (setAcl .sacl (given null empty (pAcl.mapError .sacl)) defaulted p)
  | .makeSelfRelative => some (p.map copied, .done)
  | .makeAbsolute => some (p.map fun p => { p with selfRelative := false }, .done)
  | .setControl ofInterest toSet =>
    match p.bind (setControl ofInterest toSet) with
    | none => some (p, .bool false)
    | some p => some (some p, .bool true)
  | .getOwner => getSid .owner p
  | .getGroup => getSid .group p
  | .getDacl list => some (p, .list (p.elim (.ok none list) fun p => fill p.dacl list))
  | .getSacl => some (p, .sacl (p.map fun p => sacl p.sacl))
  | .getControl => some (p, .control (p.map control))
  | .getSECURITY_DESCRIPTOR =>
    match p with
    | none => some (none, .thrown .unexpected)
    | some p => some (some { p with selfRelative := false }, .descriptor (copied p))

def step : Step (List (Option (Option Policy))) Call Seen := fun l c =>
  match c with
  | .create => some (l ++ [some none], [.done])
  | .createFrom rhs => some (l ++ [some (some (copied rhs.policy))], [.done])
  | .createCopy j => l[j]?.join.map fun p => (l ++ [some (p.map copied)], [.done])
  | .destroy i => l[i]?.join.map fun _ => (l.set i none, [.done])
  | .assign i j => do
    let rhs ← l[j]?.join
    let _ ← l[i]?.join
    some (if i = j then l else l.set i (some (rhs.map copied)), [.done])
  | .on i c => do
    let p ← l[i]?.join
    let r ← call p c
    some (l.set i (some r.1), [r.2])

end Ideal

/-! ## One call on one object -/

/-- After it the object owns its blocks, and says and answers what the policy does, where
    that is not blocked and nothing was refused. -/
def Answers (R : Prop) (live : List Nat) (ideal : Option (Option Policy × Seen)) (r : CSecurityDesc × Seen) : Prop :=
  ∃ p, Is R live p r.1 ∧ (R ∨ ∀ q, ideal = some q → q = (p, r.2))

section Call
variable {R : Prop} {live : List Nat} {s : CSecurityDesc}

theorem Is.answers {p : Option Policy} {o : Seen} (h : Is R live p s) : Answers R live (some (p, o)) (s, o) :=
  ⟨p, h, .inr fun _ hq => (Option.some_inj.mp hq).symm⟩

theorem Refused.answers {ideal : Option (Option Policy × Seen)} {o : Seen} (h : Refused R live s) :
    Answers R live ideal (s, o) := ⟨_, ⟨rfl, h.2⟩, .inl h.1⟩

theorem seenOf_wp {x : M Seen} {P : CSecurityDesc × Seen → Prop}
    (h : wp x (fun o t => P (t, o)) (fun e t => P (t, .thrown e)) s) : P (seenOf (x s)) := by
  unfold wp at h
  unfold seenOf
  split <;> simp_all

theorem done_answers {x : M Unit} {q : Option Policy × Seen}
    (h : wp x (fun _ t => Is R live q.1 t ∧ q.2 = .done)
      (fun e t => Refused R live t ∨ Is R live q.1 t ∧ q.2 = .thrown e) s) :
    Answers R live (some q) (seenOf (done x s)) := by
  refine seenOf_wp ?_
  rw [done, wp_map]
  refine h.mono (fun _ t ht => ?_) fun e t ht => ?_
  · rw [← ht.2]
    exact ht.1.answers
  · rcases ht with ht | ht
    · exact ht.answers
    · rw [← ht.2]
      exact ht.1.answers

/-- A call that does not throw where nothing is refused. -/
theorem returned_answers {x : M Unit} {p : Option Policy}
    (h : wp x (fun _ t => Is R live p t) (fun _ t => Refused R live t) s) :
    Answers R live (some (p, .done)) (seenOf (done x s)) :=
  done_answers (h.mono (fun _ _ ht => ⟨ht, rfl⟩) fun _ _ ht => .inl ht)

theorem getDacl_eq (sd : Descriptor) : getDacl (some sd) = Ideal.fill sd.policy.dacl := by
  have hparts : sd.policy.dacl = sd.parts.dacl.policy := by cases sd <;> rfl
  rw [hparts]
  unfold getDacl
  dsimp only
  obtain ⟨present, pAcl, defaulted⟩ := sd.parts.dacl
  cases present <;> cases pAcl <;> rfl

theorem reported_eq (p : AclPart Acl) : reported p = Ideal.reported p.policy := by
  obtain ⟨present, pAcl, defaulted⟩ := p
  cases present <;> cases pAcl <;> rfl

theorem getSacl_eq (sd : Descriptor) : getSacl (some sd) = some (Ideal.sacl sd.policy.sacl) := by
  have hsacl : ∀ p : AclPart Acl, (reported p, p.get) = Ideal.sacl p.policy := by
    intro p
    rw [Ideal.sacl, ← reported_eq]
    obtain ⟨present, pAcl, defaulted⟩ := p
    cases present <;> cases pAcl <;> rfl
  cases sd <;> exact congrArg some (hsacl _)

theorem getControl_eq (sd : Descriptor) : getControl (some sd) = some (Ideal.control sd.policy) := by
  cases sd with
  | absolute addr p =>
    obtain ⟨owner, group, ⟨daclPresent, pDacl, -⟩, ⟨saclPresent, pSacl, -⟩, inheritance⟩ := p
    cases daclPresent <;> cases pDacl <;> cases saclPresent <;> cases pSacl <;> rfl
  | selfRelative addr p =>
    obtain ⟨owner, group, ⟨daclPresent, pDacl, -⟩, ⟨saclPresent, pSacl, -⟩, inheritance⟩ := p
    cases daclPresent <;> cases pDacl <;> cases saclPresent <;> cases pSacl <;> rfl

theorem setControl_eq (sd : Descriptor) (ofInterest toSet : BitVec 16) :
    Ideal.setControl ofInterest toSet sd.policy = (sd.setControl ofInterest toSet).map Descriptor.policy := by
  cases sd with
  | absolute addr p =>
    show (inheritanceOf p.inheritance ofInterest toSet).map _ = _
    rw [Descriptor.setControl, Option.map_map]
    rfl
  | selfRelative addr p =>
    show (inheritanceOf p.inheritance ofInterest toSet).map _ = _
    rw [Descriptor.setControl, Option.map_map]
    rfl

theorem held_setControl {sd sd' : Descriptor} {ofInterest toSet : BitVec 16}
    (h : sd.setControl ofInterest toSet = some sd') : held (some sd') = held (some sd) := by
  cases sd <;>
  · obtain ⟨bits, -, rfl⟩ := Option.map_eq_some_iff.mp h
    rfl

variable (h : Holds R live s)
include h

theorem setSid_answers (field : SidField) (sid : Option Sid) (defaulted : Bool) :
    Answers R live (some (Ideal.setSid field sid defaulted (s.pSecurityDescriptor.map Descriptor.policy)))
      (seenOf (done (setSid field sid defaulted) s)) := by
  refine done_answers ((setSid_wp h field sid defaulted).mono (fun _ t ht => ?_) fun e t ht => ?_)
  · obtain ⟨v, rfl, his⟩ := ht
    exact ⟨his, rfl⟩
  · rcases ht with ht | ⟨rfl, rfl, his⟩
    · exact .inl ht
    · exact .inr ⟨his, rfl⟩

theorem setAcl_answers (field : AclField) (null empty : Bool) (pAcl : Except Err Acl) (defaulted : Bool) :
    Answers R live (some (Ideal.setAcl field (given null empty pAcl) defaulted
      (s.pSecurityDescriptor.map Descriptor.policy))) (seenOf (done (setAcl field null empty pAcl defaulted) s)) := by
  refine done_answers ((setAcl_wp h field null empty pAcl defaulted).mono (fun _ t ht => ?_) fun e t ht => ?_)
  · obtain ⟨access, hgiven, his⟩ := ht
    rw [hgiven]
    exact ⟨his, rfl⟩
  · rcases ht with ht | ⟨hgiven, his⟩
    · exact .inl ht
    · rw [hgiven]
      exact .inr ⟨his, rfl⟩

theorem getSid_answers (field : SidField) : Answers R live
    (Ideal.getSid field (s.pSecurityDescriptor.map Descriptor.policy)) (seenOf ((Seen.sid <$> getSid field) s)) := by
  obtain ⟨sd, m⟩ := s
  cases sd with
  | none => exact Is.answers ⟨rfl, h⟩
  | some sd =>
    have hpolicy : sd.policy.sid field = sd.parts.sid field := by cases sd <;> cases field <;> rfl
    have hideal : Ideal.getSid field (some sd.policy) = (sd.parts.sid field).pSid.map
        fun sid => (some sd.policy, .sid (some (sid, (sd.parts.sid field).defaulted))) := by
      rw [← hpolicy]
      rfl
    show Answers R live (Ideal.getSid field (some sd.policy)) _
    rw [hideal]
    refine seenOf_wp ?_
    simp only [wp_map, getSid, wp_bind, wp_get]
    cases (sd.parts.sid field).pSid with
    | none => exact ⟨_, ⟨rfl, h⟩, .inr fun q hq => by cases hq⟩
    | some sid => exact Is.answers ⟨rfl, h⟩

theorem setControl_answers (ofInterest toSet : BitVec 16) : Answers R live
    (Ideal.call (s.pSecurityDescriptor.map Descriptor.policy) (.setControl ofInterest toSet))
    (seenOf ((ObjectCall.setControl ofInterest toSet).exec s)) := by
  obtain ⟨sd, m⟩ := s
  cases sd with
  | none => exact Is.answers ⟨rfl, h⟩
  | some sd =>
    refine seenOf_wp ?_
    simp only [ObjectCall.exec, wp_map, CSecurityDesc.setControl, wp_bind, wp_get, Option.map_some, Ideal.call,
      Option.bind_some, setControl_eq]
    cases hset : sd.setControl ofInterest toSet with
    | none => exact Is.answers ⟨rfl, h⟩
    | some sd' =>
      refine Is.answers ⟨rfl, ?_⟩
      show Owns R (held (some sd') ++ live) m
      rw [held_setControl hset]
      exact h

theorem getSECURITY_DESCRIPTOR_answers : Answers R live
    (Ideal.call (s.pSecurityDescriptor.map Descriptor.policy) .getSECURITY_DESCRIPTOR)
    (seenOf (ObjectCall.getSECURITY_DESCRIPTOR.exec s)) := by
  obtain ⟨sd, m⟩ := s
  cases sd with
  | none => exact Is.answers ⟨rfl, h⟩
  | some sd =>
    refine seenOf_wp ?_
    simp only [ObjectCall.exec, wp_map, CSecurityDesc.getSECURITY_DESCRIPTOR, wp_bind, wp_get]
    refine (absoluteParts_wp h).mono (fun new t ht => ?_) fun e t ht => ht.answers
    refine (call_wp ht.2.2).mono (fun _ u hu => ?_) fun e u hu => ?_
    · have hcopied : new.2.makeSelfRelativeSD.policy true = Ideal.copied (Policy.absolute (some sd.policy)) :=
        congrArg Ideal.copied ht.2.1
      show Answers R live (some (some (Policy.absolute (some sd.policy)), Seen.descriptor (Ideal.copied sd.policy)))
        (u, Seen.descriptor (new.2.makeSelfRelativeSD.policy true))
      rw [hcopied]
      have hstands : Stands R live (Policy.absolute (some sd.policy)) new u := ⟨hu.1.trans ht.1, ht.2.1, hu.2⟩
      exact hstands.is.answers
    · have hstands : Stands R live (Policy.absolute (some sd.policy)) new u :=
        ⟨hu.2.2.1.trans ht.1, ht.2.1, hu.2.2.2⟩
      exact Refused.answers ⟨hu.1, hstands.is.2⟩

theorem exec_answers (c : ObjectCall) : Answers R live (Ideal.call (s.pSecurityDescriptor.map Descriptor.policy) c)
    (seenOf (c.exec s)) := by
  have his : Is R live (s.pSecurityDescriptor.map Descriptor.policy) s := ⟨rfl, h⟩
  cases c with
  | assignFrom rhs => exact returned_answers (assignFrom_wp h rhs)
  | setOwner sid defaulted => exact setSid_answers h .owner sid defaulted
  | setGroup sid defaulted => exact setSid_answers h .group sid defaulted
  | setDacl dacl refused defaulted => exact setAcl_answers h .dacl _ _ _ defaulted
  | setDaclPresent present defaulted => exact returned_answers (setDaclPresent_wp h present defaulted)
  | setSacl null empty pAcl defaulted => exact setAcl_answers h .sacl null empty _ defaulted
  | makeSelfRelative =>
    have hwp := makeSelfRelative_wp h
    show Answers R live (some ((s.pSecurityDescriptor.map Descriptor.policy).map _, .done)) _
    rw [Option.map_map]
    exact returned_answers hwp
  | makeAbsolute =>
    have hwp := makeAbsolute_wp h
    show Answers R live (some ((s.pSecurityDescriptor.map Descriptor.policy).map _, .done)) _
    rw [Option.map_map]
    exact returned_answers hwp
  | setControl ofInterest toSet => exact setControl_answers h ofInterest toSet
  | getOwner => exact getSid_answers h .owner
  | getGroup => exact getSid_answers h .group
  | getDacl list =>
    obtain ⟨sd, m⟩ := s
    cases sd with
    | none => exact his.answers
    | some sd =>
      show Answers R live _ (⟨some sd, m⟩, Seen.list (getDacl (some sd) list))
      rw [getDacl_eq]
      exact his.answers
  | getSacl =>
    obtain ⟨sd, m⟩ := s
    cases sd with
    | none => exact his.answers
    | some sd =>
      show Answers R live _ (⟨some sd, m⟩, Seen.sacl (getSacl (some sd)))
      rw [getSacl_eq]
      exact his.answers
  | getControl =>
    obtain ⟨sd, m⟩ := s
    cases sd with
    | none => exact his.answers
    | some sd =>
      show Answers R live _ (⟨some sd, m⟩, Seen.control (getControl (some sd)))
      rw [getControl_eq]
      exact his.answers
  | getSECURITY_DESCRIPTOR => exact getSECURITY_DESCRIPTOR_answers h

end Call

/-! ## One call -/

namespace World

def policies (w : World) : List (Option (Option Policy)) := w.objects.map (Option.map (Option.map Descriptor.policy))

/-- Every block belongs to one object. -/
def Sound (R : Prop) (w : World) : Prop := Owns R w.held w.memory

theorem object_policies (w : World) (i : Nat) :
    w.policies[i]?.join = (w.object i).map (Option.map Descriptor.policy) := by
  unfold policies object
  rw [List.getElem?_map]
  cases w.objects[i]? with
  | none => rfl
  | some o => rfl

theorem policies_set (w : World) (i : Nat) (o : Option (Option Descriptor)) (m : Memory) :
    policies ⟨w.objects.set i o, m⟩ = w.policies.set i (o.map (Option.map Descriptor.policy)) := List.map_set ..

/-- The blocks of all objects but one. -/
def others (w : World) (i : Nat) : List Nat := (w.objects.eraseIdx i).flatMap fun o => o.elim [] CSecurityDesc.held

theorem object_eq_some {w : World} {i : Nat} {sd : Option Descriptor} (hi : w.object i = some sd) :
    w.objects[i]? = some (some sd) := Option.join_eq_some_iff.mp hi

theorem held_perm {w : World} {i : Nat} {sd : Option Descriptor} (hi : w.object i = some sd) :
    w.held.Perm (CSecurityDesc.held sd ++ w.others i) := by
  obtain ⟨hlt, hsd⟩ := List.getElem?_eq_some_iff.mp (object_eq_some hi)
  have hp := (List.getElem_cons_eraseIdx_perm hlt).symm
  rw [hsd] at hp
  exact hp.flatMap_right _

theorem held_set {w : World} {i : Nat} {sd : Option Descriptor} (hi : w.object i = some sd)
    (o : Option (Option Descriptor)) (m : Memory) :
    (held ⟨w.objects.set i o, m⟩).Perm (o.elim [] CSecurityDesc.held ++ w.others i) := by
  obtain ⟨hlt, -⟩ := List.getElem?_eq_some_iff.mp (object_eq_some hi)
  exact (List.set_perm_cons_eraseIdx hlt o).flatMap_right _

theorem Sound.put {R : Prop} {w : World} {i : Nat} {sd : Option Descriptor} (hi : w.object i = some sd)
    {o : Option (Option Descriptor)} {m : Memory} (h : Owns R (o.elim [] CSecurityDesc.held ++ w.others i) m) :
    Sound R ⟨w.objects.set i o, m⟩ := h.of_count fun _ => (held_set hi o m).count_eq _

section Sound
variable {R : Prop} {w : World} (h : w.Sound R)
include h

theorem Sound.owns {i : Nat} {sd : Option Descriptor} (hi : w.object i = some sd) :
    Owns R (CSecurityDesc.held sd ++ w.others i) w.memory := h.of_count fun _ => ((held_perm hi).count_eq _).symm

theorem Sound.build {x : M Unit} {p : Option Policy}
    (hx : ∀ live, Owns R live w.memory → wp x (fun _ t => Is R live p t)
      (fun _ t => R ∧ t.pSecurityDescriptor = none ∧ Owns R live t.memory) ⟨none, w.memory⟩) :
    (w.build x).1.Sound R ∧ (R ∨ (w.policies ++ [some p], [.done]) = ((w.build x).1.policies, (w.build x).2)) := by
  have hwp := hx w.held h
  unfold World.build
  unfold wp at hwp
  cases hr : x ⟨none, w.memory⟩ with
  | ok a t =>
    rw [hr] at hwp
    refine ⟨hwp.2.of_count fun a => ?_, .inr ?_⟩
    · unfold held
      rw [List.flatMap_append, List.count_append, List.count_append, Nat.add_comm, List.flatMap_singleton]
      rfl
    · unfold policies
      rw [List.map_append, ← hwp.1]
      rfl
  | error e t =>
    rw [hr] at hwp
    refine ⟨hwp.2.2.of_count fun a => ?_, .inl hwp.1⟩
    unfold held
    rw [List.flatMap_append, List.flatMap_singleton]
    exact congrArg (List.count a) (List.append_nil _)

theorem Sound.onObject {i : Nat} {sd : Option Descriptor} (hi : w.object i = some sd) {x : M Seen}
    {ideal : Option (Option Policy × Seen)}
    (hx : ∀ live, Owns R (CSecurityDesc.held sd ++ live) w.memory → Answers R live ideal (seenOf (x ⟨sd, w.memory⟩))) :
    ∃ w' o, w.onObject i x = some (w', o) ∧ w'.Sound R ∧
      (R ∨ ∀ q, ideal = some q → (w.policies.set i (some q.1), [q.2]) = (w'.policies, o)) := by
  obtain ⟨p, his, hideal⟩ := hx _ (h.owns hi)
  refine ⟨_, _, by rw [World.onObject, hi]; rfl, Sound.put hi (o := some _) his.2, hideal.imp id fun hideal q hq => ?_⟩
  obtain rfl := hideal q hq
  rw [policies_set, ← his.1]
  rfl

end Sound

/-- A call is blocked, and not allowed; or it keeps the blocks in order, and where it is
    allowed does as it should, unless something was refused. -/
theorem Sound.step_cases {R : Prop} {w : World} (h : w.Sound R) (c : Call) :
    (World.step w c = none ∧ Ideal.step w.policies c = none) ∨
    ∃ w' o, World.step w c = some (w', o) ∧ w'.Sound R ∧
      (R ∨ ∀ r, Ideal.step w.policies c = some r → r = (w'.policies, o)) := by
  cases c with
  | create =>
    obtain ⟨hs, hq⟩ := h.build (x := pure ()) fun live hl => ⟨rfl, hl⟩
    exact .inr ⟨_, _, rfl, hs, hq.imp id fun hq r hr => (Option.some_inj.mp hr).symm.trans hq⟩
  | createFrom rhs =>
    obtain ⟨hs, hq⟩ := h.build fun live hl => init_wp (s := ⟨none, w.memory⟩) hl rhs
    exact .inr ⟨_, _, rfl, hs, hq.imp id fun hq r hr => (Option.some_inj.mp hr).symm.trans hq⟩
  | createCopy j =>
    simp only [World.step, Ideal.step, object_policies]
    cases hj : w.object j with
    | none => exact .inl ⟨rfl, rfl⟩
    | some rhs =>
      have hcopy : ∀ live, Owns R live w.memory → wp (rhs.elim (pure ()) init)
          (fun _ t => Is R live ((rhs.map Descriptor.policy).map Ideal.copied) t)
          (fun _ t => R ∧ t.pSecurityDescriptor = none ∧ Owns R live t.memory) ⟨none, w.memory⟩ := by
        intro live hl
        cases rhs with
        | none => exact ⟨rfl, hl⟩
        | some rhs => exact init_wp (s := ⟨none, w.memory⟩) hl rhs
      obtain ⟨hs, hq⟩ := h.build hcopy
      exact .inr ⟨_, _, rfl, hs, hq.imp id fun hq r hr => (Option.some_inj.mp hr).symm.trans hq⟩
  | destroy i =>
    simp only [World.step, Ideal.step, object_policies]
    cases hi : w.object i with
    | none => exact .inl ⟨rfl, rfl⟩
    | some sd =>
      have hclear : wp (done clear) (fun o t => o = .done ∧ Owns R (w.others i) t.memory) (fun _ _ => False)
          ⟨sd, w.memory⟩ := by
        rw [done, wp_map]
        exact (clear_returns (s := ⟨sd, w.memory⟩) (h.owns hi)).wp fun _ t ht => ⟨rfl, ht.2⟩
      obtain ⟨hdone, howns⟩ := seenOf_wp (P := fun r => r.2 = .done ∧ Owns R (w.others i) r.1.memory)
        (hclear.mono (fun _ _ ht => ht) fun _ _ ht => ht.elim)
      refine .inr ⟨_, _, rfl, Sound.put hi (o := none) howns, .inr fun r hr => ?_⟩
      rw [policies_set, hdone]
      exact (Option.some_inj.mp hr).symm
  | assign i j =>
    simp only [World.step, Ideal.step, object_policies]
    cases hj : w.object j with
    | none => exact .inl ⟨rfl, rfl⟩
    | some rhs =>
      by_cases hij : i = j
      · subst hij
        refine .inr ⟨w, [.done], if_pos rfl, h, .inr fun r hr => ?_⟩
        rw [hj] at hr
        have hr : some (if i = i then w.policies else _, [Seen.done]) = some r := hr
        rw [if_pos rfl] at hr
        exact (Option.some_inj.mp hr).symm
      · cases hi : w.object i with
        | none =>
          refine .inl ⟨?_, rfl⟩
          show (if i = j then _ else w.onObject i _) = none
          rw [if_neg hij, World.onObject, hi]
          rfl
        | some sd =>
          obtain ⟨w', o, hw, hs, hideal⟩ := h.onObject hi fun live hl =>
            returned_answers (p := rhs.map fun rhs => Ideal.copied rhs.policy)
              (assign_wp (s := ⟨sd, w.memory⟩) hl rhs)
          refine .inr ⟨w', o, ?_, hs, hideal.imp id fun hideal r hr => ?_⟩
          · show (if i = j then _ else w.onObject i _) = _
            rw [if_neg hij]
            exact hw
          · have hr : some (if i = j then w.policies else w.policies.set i
                (some ((rhs.map Descriptor.policy).map Ideal.copied)), [Seen.done]) = some r := hr
            rw [if_neg hij, Option.map_map] at hr
            exact (Option.some_inj.mp hr).symm.trans (hideal _ rfl)
  | on i c =>
    simp only [World.step, Ideal.step, object_policies]
    cases hi : w.object i with
    | none => exact .inl ⟨by rw [World.onObject, hi]; rfl, rfl⟩
    | some sd =>
      obtain ⟨w', o, hw, hs, hideal⟩ := h.onObject hi fun live hl => exec_answers (s := ⟨sd, w.memory⟩) hl c
      refine .inr ⟨w', o, hw, hs, hideal.imp id fun hideal r hr => ?_⟩
      obtain ⟨p, hp, hr⟩ := Option.bind_eq_some_iff.mp hr
      cases hp
      obtain ⟨q, hq, hr⟩ := Option.bind_eq_some_iff.mp hr
      exact (Option.some_inj.mp hr).symm.trans (hideal q hq)

end World

/-! ## Runs -/

section Run
variable {calls : List Call} {refusals : List Bool} {w : World} {seen : List Seen}

theorem new_sound {R : Prop} (h : true ∈ refusals → R) : (World.new refusals).Sound R := ⟨.nil, fun _ => rfl, h⟩

theorem refines_run {l : List (Option (Option Policy))} (he : exec Ideal.step [] calls = some (l, seen)) :
    ∃ w, exec World.step (World.new []) calls = some (w, seen) ∧ w.Sound False ∧ w.policies = l := by
  have hnew : (World.new []).Sound False := new_sound fun h => by cases h
  refine exec_refines (fun (w : World) l => w.Sound False ∧ w.policies = l) ?_ calls ⟨hnew, rfl⟩ he
  rintro w _ c l' o ⟨hs, rfl⟩ hst
  rcases hs.step_cases c with ⟨-, hnone⟩ | ⟨w', o', hw, hs', hideal⟩
  · rw [hnone] at hst
    cases hst
  · obtain ⟨rfl, rfl⟩ : l' = w'.policies ∧ o = o' := Prod.mk.inj (hideal.resolve_left id _ hst)
    exact ⟨w', hw, hs', rfl⟩

/-- Whatever is called, as far as it is allowed, every object answers as what it is for,
    where nothing is refused. -/
theorem descriptors_refine {l : List (Option (Option Policy))} (he : exec Ideal.step [] calls = some (l, seen)) :
    ∃ w, exec World.step (World.new []) calls = some (w, seen) ∧ w.policies = l := by
  obtain ⟨w, hw, -, hl⟩ := refines_run he
  exact ⟨w, hw, hl⟩

/-- An owner goes with a copy, and through both forms. -/
def ownedCopy : List Call :=
  [.create, .on 0 (.setOwner (some world) true), .createCopy 0, .on 1 .makeAbsolute, .destroy 0, .on 1 .getOwner,
    .on 1 .makeSelfRelative, .on 1 (.setGroup none false), .on 1 .getControl]

theorem descriptors_refine_copy : ∃ w, exec World.step (World.new []) ownedCopy =
    some (w, [.done, .done, .done, .done, .done, .sid (some (world, true)), .done, .thrown .fail,
      .control (some (⟨⟨none, true⟩, ⟨none, false⟩, ⟨false, none, false⟩, ⟨false, none, false⟩, 0⟩, false))]) ∧
      w.policies = [none, some (some { Policy.new with owner := ⟨some world, true⟩ })] := by
  have he : exec Ideal.step [] ownedCopy = some (_, _) := rfl
  exact descriptors_refine he

end Run

/-! ## A list that is set -/

/-- The calls that change the list of the `i`th object. -/
def ObjectCall.setsDacl : ObjectCall → Bool
  | .assignFrom _ | .setDacl _ _ _ | .setDaclPresent _ _ => true
  | _ => false

def Call.setsDacl (i : Nat) : Call → Bool
  | .destroy k | .assign k _ => k = i
  | .on k c => k = i ∧ c.setsDacl
  | _ => false

theorem call_dacl {p : Policy} {c : ObjectCall} (hc : c.setsDacl = false) {r : Option Policy × Seen}
    (hr : Ideal.call (some p) c = some r) : ∃ p', r.1 = some p' ∧ p'.dacl = p.dacl := by
  cases c with
  | assignFrom rhs => cases hc
  | setDacl dacl refused defaulted => cases hc
  | setDaclPresent present defaulted => cases hc
  | setOwner sid defaulted => cases sid <;> (cases hr; exact ⟨_, rfl, rfl⟩)
  | setGroup sid defaulted => cases sid <;> (cases hr; exact ⟨_, rfl, rfl⟩)
  | setSacl null empty pAcl defaulted =>
    cases null <;> cases empty <;> cases pAcl <;> (cases hr; exact ⟨_, rfl, rfl⟩)
  | setControl ofInterest toSet =>
    cases hset : Ideal.setControl ofInterest toSet p with
    | none =>
      simp only [Ideal.call, Option.bind_some, hset] at hr
      cases hr
      exact ⟨_, rfl, rfl⟩
    | some p' =>
      simp only [Ideal.call, Option.bind_some, hset] at hr
      cases hr
      obtain ⟨bits, -, rfl⟩ := Option.map_eq_some_iff.mp hset
      exact ⟨_, rfl, rfl⟩
  | getOwner =>
    obtain ⟨sid, -, rfl⟩ := Option.map_eq_some_iff.mp hr
    exact ⟨_, rfl, rfl⟩
  | getGroup =>
    obtain ⟨sid, -, rfl⟩ := Option.map_eq_some_iff.mp hr
    exact ⟨_, rfl, rfl⟩
  | makeSelfRelative | makeAbsolute | getDacl list | getSacl | getControl | getSECURITY_DESCRIPTOR =>
    cases hr
    exact ⟨_, rfl, rfl⟩

/-- The `i`th object is there, with this list. -/
def HasDacl (i : Nat) (part : AccessPart) (l : List (Option (Option Policy))) : Prop :=
  ∃ p, l[i]?.join = some (some p) ∧ p.dacl = part

section HasDacl
variable {i : Nat} {part : AccessPart} {l l' : List (Option (Option Policy))} {o : List Seen}

theorem HasDacl.append (h : HasDacl i part l) (x : Option (Option Policy)) : HasDacl i part (l ++ [x]) := by
  obtain ⟨p, hp, hd⟩ := h
  obtain ⟨hlt, -⟩ := List.getElem?_eq_some_iff.mp (Option.join_eq_some_iff.mp hp)
  refine ⟨p, ?_, hd⟩
  rw [List.getElem?_append_left hlt]
  exact hp

theorem HasDacl.set_ne (h : HasDacl i part l) {k : Nat} (hne : k ≠ i) (x : Option (Option Policy)) :
    HasDacl i part (l.set k x) := by
  obtain ⟨p, hp, hd⟩ := h
  refine ⟨p, ?_, hd⟩
  rw [List.getElem?_set_ne hne]
  exact hp

theorem HasDacl.set_self (h : HasDacl i part l) {p : Policy} (hp : p.dacl = part) :
    HasDacl i part (l.set i (some (some p))) := by
  obtain ⟨q, hq, -⟩ := h
  obtain ⟨hlt, -⟩ := List.getElem?_eq_some_iff.mp (Option.join_eq_some_iff.mp hq)
  refine ⟨p, ?_, hp⟩
  rw [List.getElem?_set_self hlt]
  rfl

theorem HasDacl.step (h : HasDacl i part l) {c : Call} (hc : c.setsDacl i = false)
    (hst : Ideal.step l c = some (l', o)) : HasDacl i part l' := by
  cases c with
  | create =>
    cases hst
    exact h.append _
  | createFrom rhs =>
    cases hst
    exact h.append _
  | createCopy j =>
    obtain ⟨p, -, hr⟩ := Option.map_eq_some_iff.mp hst
    cases hr
    exact h.append _
  | destroy k =>
    obtain ⟨p, -, hr⟩ := Option.map_eq_some_iff.mp hst
    cases hr
    exact h.set_ne (of_decide_eq_false hc) _
  | assign k j =>
    obtain ⟨p, -, hst⟩ := Option.bind_eq_some_iff.mp hst
    obtain ⟨q, -, hst⟩ := Option.bind_eq_some_iff.mp hst
    cases hst
    split
    · exact h
    · exact h.set_ne (of_decide_eq_false hc) _
  | on k c =>
    obtain ⟨p, hp, hst⟩ := Option.bind_eq_some_iff.mp hst
    obtain ⟨r, hr, hst⟩ := Option.bind_eq_some_iff.mp hst
    cases hst
    by_cases hk : k = i
    · subst hk
      have hkeep : c.setsDacl = false := by simpa [Call.setsDacl] using hc
      obtain ⟨q, hq, hd⟩ := h
      rw [hp] at hq
      cases hq
      obtain ⟨p', hp', hd'⟩ := call_dacl hkeep hr
      rw [hp']
      exact HasDacl.set_self ⟨q, hp, hd⟩ (hd'.trans hd)
    · exact h.set_ne hk _

theorem HasDacl.run (h : HasDacl i part l) {middle : List Call} (hm : ∀ c ∈ middle, c.setsDacl i = false)
    (he : exec Ideal.step l middle = some (l', o)) : HasDacl i part l' := by
  induction middle generalizing l o with
  | nil =>
    cases he
    exact h
  | cons c cs ih =>
    obtain ⟨r, hst, he⟩ := Option.bind_eq_some_iff.mp he
    obtain ⟨u, hu, hr⟩ := Option.map_eq_some_iff.mp he
    cases hr
    exact ih (h.step (hm c (List.mem_cons_self ..)) hst) (fun d hd => hm d (List.mem_cons_of_mem _ hd)) hu

end HasDacl

/-- The list that `GetDacl` has filled, after `SetDacl` of another. It gives the same `ACL`
    then, but if it was null it stays so and gives nothing. -/
def Carried (d list : CDacl) (defaulted : Bool)
    (r : EStateM.Result CDacl.Err CDacl (Option (Bool × Option Bool))) : Prop :=
  (d.null = true ∧ r = .ok (some (true, some defaulted)) ⟨[], none, true, list.aclRevision⟩) ∨
  (d.null = false ∧ d.acl = [] ∧ r = .ok (some (false, none)) ⟨[], none, false, list.aclRevision⟩) ∨
  (d.null = false ∧ d.acl ≠ [] ∧ ∃ aces p d' e',
    r = .ok (some (true, some defaulted)) ⟨aces, none, list.null, d.aclRevision⟩ ∧
      aces.Perm d.acl ∧ (aces.Pairwise fun x y => x.rank ≤ y.rank) ∧ CDacl.getPACL none d = .ok (some p) d' ∧
      CDacl.getPACL none ⟨aces, none, list.null, d.aclRevision⟩ = .ok (if list.null then none else some p) e')

theorem isEmpty_eq {d : CDacl} (hc : d.acl.length < 2 ^ 32) : isEmpty d = (!d.null && d.acl.isEmpty) := by
  rw [isEmpty, CDacl.getAceCount, Nat.mod_eq_of_lt hc]
  cases d.acl <;> rfl

theorem Carried.of_gives {d : CDacl} (hd : Gives d) (hfits : Acl.sizeOfAcl + CDacl.totalLength d.acl < 2 ^ 16) :
    ∃ access, given d.null (isEmpty d) (pAclOf d none) = .ok access ∧
      ∀ (part : AccessPart) defaulted list, Carried d list defaulted (Ideal.fill (part.set access defaulted) list) := by
  have hlen := CDacl.length_le_totalLength d.acl
  rw [isEmpty_eq (by omega)]
  cases hn : d.null with
  | true => exact ⟨.all, rfl, fun _ _ _ => .inl ⟨hn, rfl⟩⟩
  | false =>
    by_cases hempty : d.acl = []
    · rw [hempty]
      exact ⟨.absent, rfl, fun _ _ _ => .inr (.inl ⟨hn, hempty, rfl⟩)⟩
    · rcases hd with ⟨hnull, -⟩ | ⟨-, -, aces, p, d', hperm, hsorted, hget, -, -, -, -, hgives⟩ | ⟨-, hlarge, -⟩
      · rw [hn] at hnull
        cases hnull
      · refine ⟨.list p, ?_, fun part defaulted list => .inr (.inr ⟨hn, hempty, ?_⟩)⟩
        · have hacl : pAclOf d none = .ok p := by
            unfold pAclOf
            rw [hget]
          rw [hacl, List.isEmpty_eq_false_iff.mpr hempty]
          rfl
        · obtain ⟨hassign, e', hback⟩ := hgives list
          refine ⟨aces, p, d', e', ?_, hperm, hsorted, hget, hback⟩
          show EStateM.bind (CDacl.assignAcl (some p)) _ list = _
          rw [EStateM.bind, hassign]
          rfl
      · omega

/-- What `SetDacl` has taken from a list, `GetDacl` gives to another, whatever was done in
    between that does not set a list. -/
theorem descriptors_carry {dcalls : List Security.Call} {d : CDacl} {dseen sseen : List Security.Seen} {s : AccessList}
    (hd : exec (only (fun d c => ok d c = true) CDacl.step) CDacl.new dcalls = some (d, dseen))
    (hs : exec AccessList.step AccessList.new dcalls = some (s, sseen))
    (hfits : Acl.sizeOfAcl + CDacl.totalLength d.acl < 2 ^ 16) {calls middle : List Call} {i : Nat} {defaulted : Bool}
    {list : CDacl} {l : List (Option (Option Policy))} {seen : List Seen}
    (he : exec Ideal.step [] (calls ++ .on i (.setDacl d none defaulted) :: (middle ++ [.on i (.getDacl list)])) =
      some (l, seen)) (hm : ∀ c ∈ middle, c.setsDacl i = false) :
    ∃ w before r, exec World.step (World.new [])
        (calls ++ .on i (.setDacl d none defaulted) :: (middle ++ [.on i (.getDacl list)])) =
      some (w, before ++ [.list r]) ∧ Carried d list defaulted r := by
  obtain ⟨w, hw, -, -⟩ := refines_run he
  obtain ⟨access, hgiven, hcarried⟩ := Carried.of_gives (matches_run hd hs).2.gives hfits
  obtain ⟨l₁, o₁, o₂, -, h₂, rfl⟩ := exec_append_iff.mp he
  obtain ⟨⟨l₂, o₃⟩, hset, h₃⟩ := Option.bind_eq_some_iff.mp h₂
  obtain ⟨⟨l₃, o₄⟩, h₄, ho⟩ := Option.map_eq_some_iff.mp h₃
  cases ho
  obtain ⟨l₄, o₅, o₆, hmiddle, h₆, rfl⟩ := exec_append_iff.mp h₄
  -- the list is set
  obtain ⟨p, hp, hset⟩ := Option.bind_eq_some_iff.mp hset
  obtain ⟨r, hr, hset⟩ := Option.bind_eq_some_iff.mp hset
  cases hset
  have hr : some (Ideal.setAcl .dacl (given d.null (isEmpty d) (pAclOf d none)) defaulted p) = some r := hr
  rw [hgiven] at hr
  cases hr
  have hhas : HasDacl i ((Policy.absolute p).dacl.set access defaulted)
      (l₁.set i (some (some ((Policy.absolute p).setAcl access defaulted .dacl)))) := by
    obtain ⟨hlt, -⟩ := List.getElem?_eq_some_iff.mp (Option.join_eq_some_iff.mp hp)
    refine ⟨(Policy.absolute p).setAcl access defaulted .dacl, ?_, rfl⟩
    rw [List.getElem?_set_self hlt]
    rfl
  -- and is there in the end
  obtain ⟨q, hq, hdacl⟩ := hhas.run hm hmiddle
  obtain ⟨⟨l₅, o₇⟩, hget, h₇⟩ := Option.bind_eq_some_iff.mp h₆
  cases h₇
  obtain ⟨q', hq', hget⟩ := Option.bind_eq_some_iff.mp hget
  rw [hq] at hq'
  cases hq'
  cases hget
  refine ⟨w, o₁ ++ (.done :: o₅), _, ?_, hcarried (Policy.absolute p).dacl defaulted list⟩
  rw [hw, List.append_assoc, ← hdacl]
  rfl

/-- Everyone is let in and the administrators are kept out, in the wrong order. -/
def twoEntries : CDacl := ⟨[⟨world, 1, 0, true, none⟩, ⟨admins, 2, 0, false, none⟩], none, false, Acl.revision⟩

theorem descriptors_carry_two : ∃ w before r, exec World.step (World.new [])
      ([.create] ++ .on 0 (.setDacl twoEntries none true) ::
        ([.on 0 .makeSelfRelative, .createCopy 0] ++ [.on 0 (.getDacl CDacl.new)])) =
    some (w, before ++ [.list r]) ∧ Carried twoEntries CDacl.new true r := by
  have hd : exec (only (fun d c => ok d c = true) CDacl.step) CDacl.new
      [.add true (some world) 1 0 none, .add false (some admins) 2 0 none] = some (twoEntries, _) := rfl
  have hs : exec AccessList.step AccessList.new
      [.add true (some world) 1 0 none, .add false (some admins) 2 0 none] = some (_, _) := rfl
  have he : exec Ideal.step [] ([.create] ++ .on 0 (.setDacl twoEntries none true) ::
      ([.on 0 .makeSelfRelative, .createCopy 0] ++ [.on 0 (.getDacl CDacl.new)])) = some (_, _) := rfl
  exact descriptors_carry hd hs (by decide) he (by decide)

end CSecurityDesc

end Dumbnose.Security
