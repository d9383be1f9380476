/-
  Dumbnose.Security.Descriptor — security descriptors (`CSecurityDesc` of
  `wilsecurity.hpp`).

  The system has descriptors in two forms. A self-relative one is a single block of
  memory; an absolute one points at its parts, each in a block of its own. An object keeps
  a pointer to one or the other and turns it over as needed: every `Set` wants the absolute
  form, a copy is always self-relative. So each call is a matter of blocks that are
  allocated, handed over and freed.

  A ledger has what was allocated and freed. `refusals` says which of the calls of `malloc`
  and of the system to come are refused; then the functions free what they have and throw.
  What the system is asked about a descriptor it always answers. `Owns` says that every
  block was allocated once and freed once, unless it is live. Here each function is shown
  to keep this, with the object's own blocks (`held`) among the live ones, and to say
  afterwards what it should (`Policy`), or else something was refused (the `R` of `Owns`).

  A part that is not present may still have its old pointer, to a block that was freed
  (`SetSecurityDescriptorDacl` only clears the bit); nothing reads it.
-/

import Dumbnose.Lib.Exec
import Dumbnose.Lib.Ledger
import Dumbnose.Security.Dacl

namespace Dumbnose.Security

open Lib.Exec Lib.Ledger

/-! ## The system's descriptors -/

/-- A block of memory, and what is in it. -/
structure Block (α : Type) where
  addr : Nat
  contents : α
  deriving DecidableEq

/-- The owner or the group, with its bit of the control word. -/
structure SidPart (α : Type) where
  pSid : Option α
  defaulted : Bool
  deriving DecidableEq

/-- One of the two lists, with its bits. -/
structure AclPart (α : Type) where
  present : Bool
  pAcl : Option α
  defaulted : Bool
  deriving DecidableEq

structure Parts (S A : Type) where
  owner : SidPart S
  group : SidPart S
  dacl : AclPart A
  sacl : AclPart A
  /-- The bits about inheritance. -/
  inheritance : BitVec 16
  deriving DecidableEq

inductive Descriptor where
  | absolute (addr : Nat) (parts : Parts (Block Sid) (Block Acl))
  | selfRelative (addr : Nat) (parts : Parts Sid Acl)
  deriving DecidableEq

/-- What `GetSecurityDescriptorDacl` leaves in a pointer that was NULL. -/
def AclPart.get {α : Type} (p : AclPart α) : Option α := if p.present then p.pAcl else none

/-- `SetSecurityDescriptorDacl`. -/
def AclPart.set {α : Type} (p : AclPart α) (present : Bool) (pAcl : Option α) (defaulted : Bool) : AclPart α :=
  if present then ⟨true, pAcl, defaulted⟩ else { p with present := false }

namespace Parts

variable {S A : Type}

/-- `InitializeSecurityDescriptor`. -/
def new : Parts S A := ⟨⟨none, false⟩, ⟨none, false⟩, ⟨false, none, false⟩, ⟨false, none, false⟩, 0⟩

/-- `MakeSelfRelativeSD`. -/
def makeSelfRelativeSD (p : Parts (Block Sid) (Block Acl)) : Parts Sid Acl :=
  { owner := ⟨p.owner.pSid.map Block.contents, p.owner.defaulted⟩
    group := ⟨p.group.pSid.map Block.contents, p.group.defaulted⟩
    dacl := ⟨p.dacl.present, p.dacl.get.map Block.contents, p.dacl.defaulted⟩
    sacl := ⟨p.sacl.present, p.sacl.get.map Block.contents, p.sacl.defaulted⟩
    inheritance := p.inheritance }

end Parts

/-- Which of the two accounts. -/
inductive SidField where
  | owner
  | group
  deriving DecidableEq

/-- Which of the two lists. -/
inductive AclField where
  | dacl
  | sacl
  deriving DecidableEq

namespace Parts

variable {S A : Type}

def sid (p : Parts S A) : SidField → SidPart S
  | .owner => p.owner
  | .group => p.group

def setSid (p : Parts S A) (part : SidPart S) : SidField → Parts S A
  | .owner => { p with owner := part }
  | .group => { p with group := part }

def acl (p : Parts S A) : AclField → AclPart A
  | .dacl => p.dacl
  | .sacl => p.sacl

def setAcl (p : Parts S A) (part : AclPart A) : AclField → Parts S A
  | .dacl => { p with dacl := part }
  | .sacl => { p with sacl := part }

end Parts

/-- The parts as the system's functions read them. -/
def Descriptor.parts : Descriptor → Parts Sid Acl
  | absolute _ p => p.makeSelfRelativeSD
  | selfRelative _ p => p

/-- `SE_DACL_AUTO_INHERIT_REQ` to `SE_SACL_PROTECTED`: what `SetSecurityDescriptorControl` may set. -/
def settable : BitVec 16 := 0x3F00

/-- `SetSecurityDescriptorControl`: the new bits about inheritance. -/
def inheritanceOf (inheritance ofInterest toSet : BitVec 16) : Option (BitVec 16) :=
  if (ofInterest ||| toSet) &&& ~~~settable = 0 ∧ toSet &&& ~~~ofInterest = 0 then
    some ((inheritance &&& ~~~ofInterest) ||| toSet)
  else none

def Descriptor.setControl (sd : Descriptor) (ofInterest toSet : BitVec 16) : Option Descriptor :=
  match sd with
  | absolute addr p =>
    (inheritanceOf p.inheritance ofInterest toSet).map fun bits => absolute addr { p with inheritance := bits }
  | selfRelative addr p =>
    (inheritanceOf p.inheritance ofInterest toSet).map fun bits => selfRelative addr { p with inheritance := bits }

/-! ## The objects -/

structure Memory where
  ledger : List (Entry Nat)
  next : Nat
  /-- Of the calls to come; those after them are granted. -/
  refusals : List Bool

structure CSecurityDesc where
  pSecurityDescriptor : Option Descriptor
  memory : Memory

namespace CSecurityDesc

inductive Err where
  /-- `E_FAIL`. -/
  | fail
  /-- `E_UNEXPECTED`. -/
  | unexpected
  /-- `E_OUTOFMEMORY`. -/
  | outOfMemory
  /-- `AtlThrowLastWin32`. -/
  | lastWin32
  /-- An exception of the list that is set, and what became of that list. -/
  | dacl (e : CDacl.Err) (list : CDacl)
  | sacl (e : CDacl.Err)
  /-- Through a null pointer. -/
  | outside
  deriving DecidableEq

abbrev M := EStateM Err CSecurityDesc

/-- Whether the next call is. -/
def granted : M Bool := do
  let m := (← get).memory
  modify fun s => { s with memory := { m with refusals := m.refusals.tail } }
  return !m.refusals.headD false

/-- A call of the system that throws if it is refused. -/
def call : M Unit := do
  if ← granted then pure () else throw .lastWin32

def malloc : M (Option Nat) := do
  if ← granted then
    let m := (← get).memory
    modify fun s => { s with memory := ⟨m.ledger ++ [.opened m.next], m.next + 1, m.refusals⟩ }
    return some m.next
  else return none

def mallocOrThrow : M Nat := do
  match ← malloc with
  | some addr => return addr
  | none => throw .outOfMemory

/-- `free`, of NULL too. -/
def free : Option Nat → M Unit
  | none => pure ()
  | some addr => modify fun s => { s with memory := { s.memory with ledger := s.memory.ledger ++ [.closed addr] } }

/-- A block for what there is. -/
def mallocFor {α : Type} : Option α → M (Option (Block α))
  | none => pure none
  | some contents => do return (← malloc).map fun addr => ⟨addr, contents⟩

def addrOf {α : Type} (pointer : Option (Block α)) : Option Nat := pointer.map Block.addr

def point (sd : Option Descriptor) : M Unit := modify fun s => { s with pSecurityDescriptor := sd }

@[simp] theorem wp_point (sd : Option Descriptor) {Q : Unit → CSecurityDesc → Prop} {E : Err → CSecurityDesc → Prop}
    {s : CSecurityDesc} : wp (point sd) Q E s ↔ Q () { s with pSecurityDescriptor := sd } := Iff.rfl

/-- Free these, and throw. -/
def giveUp (hr : Err) : List (Option Nat) → M Unit
  | [] => throw hr
  | pointer :: pointers => do
    free pointer
    giveUp hr pointers

def clear : M Unit := do
  match (← get).pSecurityDescriptor with
  | none => pure ()
  | some (.absolute addr p) =>
    free (addrOf p.owner.pSid)
    free (addrOf p.group.pSid)
    free (addrOf p.dacl.get)
    free (addrOf p.sacl.get)
    free (some addr)
    point none
  | some (.selfRelative addr _) =>
    free (some addr)
    point none

/-- `AllocateAndInitializeSecurityDescriptor`. -/
def allocateAndInitialize : M Unit := do
  match ← malloc with
  | none => throw .outOfMemory
  | some addr =>
    -- `InitializeSecurityDescriptor`
    if ← granted then point (some (.absolute addr .new))
    else
      point none
      giveUp .lastWin32 [some addr]

/-- There is no memory for what there is. -/
def missing {α : Type} (v : Option α) (pointer : Option (Block α)) : Bool := v.isSome && pointer.isNone

def makeAbsolute : M Unit := do
  match (← get).pSecurityDescriptor with
  | some (.selfRelative _ p) =>
    -- the sizes
    call
    let pSD ← malloc
    let pOwner ← mallocFor p.owner.pSid
    let pGroup ← mallocFor p.group.pSid
    let pDacl ← mallocFor p.dacl.get
    let pSacl ← mallocFor p.sacl.get
    let pointers := [pSD, addrOf pOwner, addrOf pGroup, addrOf pDacl, addrOf pSacl]
    match pSD with
    | none => giveUp .outOfMemory pointers
    | some pSD =>
      if missing p.owner.pSid pOwner || missing p.group.pSid pGroup || missing p.dacl.get pDacl ||
          missing p.sacl.get pSacl then
        giveUp .outOfMemory pointers
      -- `MakeAbsoluteSD`
      else if ← granted then
        clear
        point (some (.absolute pSD ⟨⟨pOwner, p.owner.defaulted⟩, ⟨pGroup, p.group.defaulted⟩,
          ⟨p.dacl.present, pDacl, p.dacl.defaulted⟩, ⟨p.sacl.present, pSacl, p.sacl.defaulted⟩, p.inheritance⟩))
      else giveUp .lastWin32 pointers
  | _ => pure ()

def makeSelfRelative : M Unit := do
  match (← get).pSecurityDescriptor with
  | some (.absolute _ p) =>
    -- the size
    call
    let pSD ← mallocOrThrow
    -- `MakeSelfRelativeSD`
    if ← granted then
      clear
      point (some (.selfRelative pSD p.makeSelfRelativeSD))
    else giveUp .lastWin32 [some pSD]
  | _ => pure ()

/-- `Init`: the parts of any descriptor, in one block. -/
def init (rhs : Descriptor) : M Unit := do
  match ← malloc with
  | none =>
    point none
    throw .outOfMemory
  | some pSD =>
    -- `GetSecurityDescriptorControl`, and `MakeSelfRelativeSD` of an absolute one
    if ← granted then point (some (.selfRelative pSD rhs.parts))
    else
      point none
      giveUp .lastWin32 [some pSD]

/-- `operator=(const CSecurityDesc &)`, of another object. -/
def assign (rhs : Option Descriptor) : M Unit := do
  clear
  match rhs with
  | none => pure ()
  | some rhs => init rhs

/-- `operator=(const SECURITY_DESCRIPTOR &)`. -/
def assignFrom (rhs : Descriptor) : M Unit := do
  clear
  init rhs

/-- How each `Set` begins: with an absolute descriptor, a new one if there is none. -/
def makeAbsoluteOrNew : M Unit := do
  match (← get).pSecurityDescriptor with
  | some _ => makeAbsolute
  | none => allocateAndInitialize

def absoluteParts : M (Nat × Parts (Block Sid) (Block Acl)) := do
  makeAbsoluteOrNew
  match (← get).pSecurityDescriptor with
  | some (.absolute addr p) => return (addr, p)
  -- not after that
  | _ => throw .fail

/-- What `SetOwner` and `SetGroup` do; `none` for a sid that is not valid. -/
def setSid (field : SidField) (sid : Option Sid) (defaulted : Bool) : M Unit := do
  let sd ← absoluteParts
  match sid with
  | none => throw .fail
  | some sid =>
    let pNew ← mallocOrThrow
    -- `CopySid` and `SetSecurityDescriptorOwner`
    if ← granted then
      point (some (.absolute sd.1 (sd.2.setSid ⟨some ⟨pNew, sid⟩, defaulted⟩ field)))
      free (addrOf (sd.2.sid field).pSid)
    else giveUp .lastWin32 [some pNew]

def setOwner (sid : Option Sid) (defaulted : Bool) : M Unit := setSid .owner sid defaulted

def setGroup (sid : Option Sid) (defaulted : Bool) : M Unit := setSid .group sid defaulted

/-- A copy of the `ACL` of a list that is neither null nor empty. -/
def newAcl (null empty : Bool) (pAcl : Except Err Acl) : M (Option (Block Acl)) :=
  if null ∨ empty then pure none
  else
    match pAcl with
    | .error e => throw e
    | .ok acl => do return some ⟨← mallocOrThrow, acl⟩

/-- What `SetDacl` and `SetSacl` do with a list that is null, or empty, or gives an `ACL`. -/
def setAcl (field : AclField) (null empty : Bool) (pAcl : Except Err Acl) (defaulted : Bool) : M Unit := do
  let sd ← absoluteParts
  let pNew ← newAcl null empty pAcl
  -- `SetSecurityDescriptorDacl`
  if ← granted then
    point (some (.absolute sd.1 (sd.2.setAcl ((sd.2.acl field).set (null || pNew.isSome) pNew defaulted) field)))
    free (addrOf (sd.2.acl field).get)
  else giveUp .lastWin32 [addrOf pNew]

/-- `Dacl.length()` and `Dacl.GetPACL()`, with the memory that is refused there. -/
def pAclOf (dacl : CDacl) (refused : Option Nat) : Except Err Acl :=
  match CDacl.getPACL refused dacl with
  | .ok (some acl) _ => .ok acl
  | .ok none _ => .error .fail
  | .error e list => .error (.dacl e list)

/-- `IsEmpty`. -/
def isEmpty (dacl : CDacl) : Bool := !dacl.null && CDacl.getAceCount dacl == 0

def setDacl (dacl : CDacl) (refused : Option Nat) (defaulted : Bool) : M Unit :=
  setAcl .dacl dacl.null (isEmpty dacl) (pAclOf dacl refused) defaulted

/-- `SetDacl(bool, bool)`. -/
def setDaclPresent (present defaulted : Bool) : M Unit := do
  let sd ← absoluteParts
  call
  point (some (.absolute sd.1 (sd.2.setAcl (sd.2.dacl.set present none defaulted) .dacl)))
  free (addrOf sd.2.dacl.get)

/-- The list that is set, as `SetSacl` reads it: `Sacl.length()` may throw. -/
def setSacl (null empty : Bool) (pAcl : Except CDacl.Err Acl) (defaulted : Bool) : M Unit :=
  setAcl .sacl null empty (pAcl.mapError .sacl) defaulted

/-- What `GetOwner` and `GetGroup` do; `none` where they return false. -/
def getSid (field : SidField) : M (Option (Sid × Bool)) := do
  match (← get).pSecurityDescriptor with
  | none => return none
  | some sd =>
    match (sd.parts.sid field).pSid with
    | none => throw .outside
    | some sid => return some (sid, (sd.parts.sid field).defaulted)

def getOwner : M (Option (Sid × Bool)) := getSid .owner

def getGroup : M (Option (Sid × Bool)) := getSid .group

/-- What is reported of a list: whether it is present, and only then whether it is by default. -/
def reported {α : Type} (p : AclPart α) : Bool × Option Bool :=
  (p.present, if p.present then some p.defaulted else none)

/-- `GetDacl`, as a program on the list it fills. -/
def getDacl (sd : Option Descriptor) : CDacl.M (Option (Bool × Option Bool)) :=
  match sd with
  | none => pure none
  | some sd => do
    if sd.parts.dacl.present then
      match sd.parts.dacl.pAcl with
      | some acl => CDacl.assignAcl (some acl)
      | none => CDacl.setNull
    else CDacl.setEmpty
    return some (reported sd.parts.dacl)

/-- `GetSacl`: what is reported, and the `ACL` there is to fill the list from. -/
def getSacl (sd : Option Descriptor) : Option ((Bool × Option Bool) × Option Acl) :=
  sd.map fun sd => (reported sd.parts.sacl, sd.parts.sacl.get)

/-- `GetControl`: the bits, and which form it has. -/
def getControl (sd : Option Descriptor) : Option (Parts Unit Unit × Bool) :=
  sd.map fun sd =>
    let p := sd.parts
    (⟨⟨none, p.owner.defaulted⟩, ⟨none, p.group.defaulted⟩, ⟨p.dacl.present, none, p.dacl.defaulted⟩,
      ⟨p.sacl.present, none, p.sacl.defaulted⟩, p.inheritance⟩,
      match sd with
      | .absolute _ _ => false
      | .selfRelative _ _ => true)

def setControl (ofInterest toSet : BitVec 16) : M Bool := do
  match (← get).pSecurityDescriptor with
  | none => return false
  | some sd =>
    match sd.setControl ofInterest toSet with
    | none => return false
    | some sd =>
      point (some sd)
      return true

/-- `GetSECURITY_DESCRIPTOR`, into memory of the caller that is large enough. -/
def getSECURITY_DESCRIPTOR : M (Parts Sid Acl) := do
  match (← get).pSecurityDescriptor with
  | none => throw .unexpected
  | some _ =>
    let sd ← absoluteParts
    call
    return sd.2.makeSelfRelativeSD

end CSecurityDesc

/-! ## What a descriptor says -/

/-- Not present, present and NULL, or a list. -/
inductive Access where
  | absent
  | all
  | list (acl : Acl)
  deriving DecidableEq

structure AccessPart where
  access : Access
  defaulted : Bool
  deriving DecidableEq

/-- A list that goes away leaves its bit. -/
def AccessPart.set (part : AccessPart) (access : Access) (defaulted : Bool) : AccessPart :=
  ⟨access, if access = .absent then part.defaulted else defaulted⟩

structure Policy where
  owner : SidPart Sid
  group : SidPart Sid
  dacl : AccessPart
  sacl : AccessPart
  inheritance : BitVec 16
  selfRelative : Bool
  deriving DecidableEq

namespace Policy

def new : Policy := ⟨⟨none, false⟩, ⟨none, false⟩, ⟨.absent, false⟩, ⟨.absent, false⟩, 0, false⟩

/-- In the absolute form; a new one if there is none. -/
def absolute (p : Option Policy) : Policy := p.elim new fun p => { p with selfRelative := false }

def sid (p : Policy) : SidField → SidPart Sid
  | .owner => p.owner
  | .group => p.group

def setSid (p : Policy) (sid : Sid) (defaulted : Bool) : SidField → Policy
  | .owner => { p with owner := ⟨some sid, defaulted⟩ }
  | .group => { p with group := ⟨some sid, defaulted⟩ }

def setAcl (p : Policy) (access : Access) (defaulted : Bool) : AclField → Policy
  | .dacl => { p with dacl := p.dacl.set access defaulted }
  | .sacl => { p with sacl := p.sacl.set access defaulted }

end Policy

def AclPart.policy (p : AclPart Acl) : AccessPart :=
  ⟨if p.present then p.pAcl.elim .all .list else .absent, p.defaulted⟩

def Parts.policy (p : Parts Sid Acl) (selfRelative : Bool) : Policy :=
  ⟨p.owner, p.group, p.dacl.policy, p.sacl.policy, p.inheritance, selfRelative⟩

def Descriptor.policy : Descriptor → Policy
  | absolute _ p => p.makeSelfRelativeSD.policy false
  | selfRelative _ p => p.policy true

theorem Descriptor.policy_parts (sd : Descriptor) : sd.parts.policy true = { sd.policy with selfRelative := true } := by
  cases sd <;> rfl

theorem AclPart.get_set {α : Type} (p : AclPart α) (present : Bool) (pAcl : Option α) (defaulted : Bool) :
    (p.set present pAcl defaulted).get = if present then pAcl else none := by
  cases present <;> rfl

theorem AclPart.policy_get (p : AclPart Acl) : (⟨p.present, p.get, p.defaulted⟩ : AclPart Acl).policy = p.policy := by
  obtain ⟨present, pAcl, defaulted⟩ := p
  cases present <;> rfl

/-- Blocks for what was there to copy. -/
theorem AclPart.get_of_map {p : AclPart Acl} {pAcl : Option (Block Acl)} (h : pAcl.map Block.contents = p.get) :
    (⟨p.present, pAcl, p.defaulted⟩ : AclPart (Block Acl)).get = pAcl := by
  obtain ⟨present, old, defaulted⟩ := p
  cases present with
  | true => rfl
  | false => exact (Option.map_eq_none_iff.mp h).symm

/-! ## The blocks -/

/-- Every block was allocated once, and freed once unless it is live. `R`: something may be
    refused. -/
structure Owns (R : Prop) (live : List Nat) (m : Memory) : Prop where
  kept : Kept m.ledger live
  once : ∀ a, m.ledger.count (.opened a) = if a < m.next then 1 else 0
  refused : true ∈ m.refusals → R

theorem Owns.of_count {R : Prop} {live live' : List Nat} {m : Memory} (h : Owns R live m)
    (hc : ∀ a, live'.count a = live.count a) : Owns R live' m :=
  ⟨h.kept.perm (List.perm_iff_count.mpr fun a => (hc a).symm), h.once, h.refused⟩

theorem Owns.next_notMem {R : Prop} {live : List Nat} {m : Memory} (h : Owns R live m) : m.next ∉ live := by
  intro hmem
  have hlive := List.count_pos_iff.mpr hmem
  have hb := h.kept.balance m.next
  rw [h.once, if_neg (Nat.lt_irrefl _)] at hb
  omega

theorem Owns.opened {R : Prop} {live : List Nat} {m : Memory} (h : Owns R live m) :
    Owns R (m.next :: live) ⟨m.ledger ++ [.opened m.next], m.next + 1, m.refusals⟩ := by
  refine ⟨h.kept.open h.next_notMem, fun a => ?_, h.refused⟩
  show (m.ledger ++ [Entry.opened m.next]).count _ = if a < m.next + 1 then 1 else 0
  rw [List.count_append, h.once, List.count_singleton]
  by_cases ha : a = m.next
  · subst ha
    simp
  · have hne : (Entry.opened m.next == Entry.opened a) = false := by simpa using Ne.symm ha
    have hlt : a < m.next + 1 ↔ a < m.next := by omega
    simp only [hne, hlt]
    rfl

namespace CSecurityDesc

/-- The blocks of a descriptor. -/
def held : Option Descriptor → List Nat
  | none => []
  | some (.absolute addr p) => (addrOf p.owner.pSid).toList ++ ((addrOf p.group.pSid).toList ++
      ((addrOf p.dacl.get).toList ++ ((addrOf p.sacl.get).toList ++ [addr])))
  | some (.selfRelative addr _) => [addr]

/-- These are live, and the object is what it was in `s`. -/
def Same (R : Prop) (s : CSecurityDesc) (live : List Nat) (t : CSecurityDesc) : Prop :=
  t.pSecurityDescriptor = s.pSecurityDescriptor ∧ Owns R live t.memory

section Blocks
variable {R : Prop} {live : List Nat} {s : CSecurityDesc} {α : Type}

theorem granted_wp (h : Owns R live s.memory) {Q : Bool → CSecurityDesc → Prop} {E : Err → CSecurityDesc → Prop}
    (hyes : ∀ t, Same R s live t → Q true t) (hno : R → ∀ t, Same R s live t → Q false t) : wp granted Q E s := by
  have htail : ∀ b ∈ s.memory.refusals.tail, b ∈ s.memory.refusals := fun b hb => List.mem_of_mem_tail hb
  have hsame : Same R s live { s with memory := { s.memory with refusals := s.memory.refusals.tail } } :=
    ⟨rfl, h.kept, h.once, fun hr => h.refused (htail true hr)⟩
  show Q (!s.memory.refusals.headD false) _
  cases hr : s.memory.refusals with
  | nil =>
    rw [hr] at hsame
    exact hyes _ hsame
  | cons b bs =>
    rw [hr] at hsame
    cases b with
    | false => exact hyes _ hsame
    | true => exact hno (h.refused (by rw [hr]; exact List.mem_cons_self)) _ hsame

theorem granted_ite (h : Owns R live s.memory) {x y : M α} {Q : α → CSecurityDesc → Prop}
    {E : Err → CSecurityDesc → Prop} (hyes : ∀ t, Same R s live t → wp x Q E t)
    (hno : R → ∀ t, Same R s live t → wp y Q E t) :
    wp granted (fun b t => wp (if b = true then x else y) Q E t) E s :=
  granted_wp h hyes hno

theorem call_wp (h : Owns R live s.memory) : wp call (fun _ t => Same R s live t)
    (fun e t => R ∧ e = .lastWin32 ∧ Same R s live t) s := by
  simp only [call, wp_bind]
  exact granted_ite h (fun t ht => ht) fun hR t ht => ⟨hR, rfl, ht⟩

theorem malloc_wp (h : Owns R live s.memory) {Q : Option Nat → CSecurityDesc → Prop} {E : Err → CSecurityDesc → Prop}
    (hyes : ∀ a t, Same R s (a :: live) t → Q (some a) t) (hno : R → ∀ t, Same R s live t → Q none t) :
    wp malloc Q E s := by
  simp only [malloc, wp_bind]
  exact granted_ite h (fun t ht => hyes _ _ ⟨ht.1, ht.2.opened⟩) hno

theorem malloc_returns (h : Owns R live s.memory) : Returns malloc
    (fun a t => (a = none → R) ∧ Same R s (a.toList ++ live) t) s :=
  malloc_wp h (fun _ _ ht => ⟨(fun ha => by cases ha), ht⟩) fun hR _ ht => ⟨fun _ => hR, ht⟩

theorem mallocOrThrow_wp (h : Owns R live s.memory) : wp mallocOrThrow (fun a t => Same R s (a :: live) t)
    (fun e t => R ∧ e = .outOfMemory ∧ Same R s live t) s := by
  simp only [mallocOrThrow, wp_bind]
  exact malloc_wp h (fun a t ht => ht) fun hR t ht => ⟨hR, rfl, ht⟩

theorem free_returns (addr : Option Nat) (h : Owns R (addr.toList ++ live) s.memory) : Returns (free addr)
    (fun _ t => Same R s live t) s := by
  cases addr with
  | none => exact ⟨rfl, h⟩
  | some a =>
    have hclosed := h.kept.close (List.mem_cons_self ..)
    rw [Option.toList_some, List.singleton_append, List.erase_cons_head] at hclosed
    refine ⟨rfl, hclosed, fun b => ?_, h.refused⟩
    show (s.memory.ledger ++ [Entry.closed a]).count _ = _
    rw [List.count_append, h.once, List.count_singleton]
    rfl

theorem giveUp_wp (hr : Err) (pointers : List (Option Nat)) {Q : Unit → CSecurityDesc → Prop}
    (h : Owns R (pointers.flatMap Option.toList ++ live) s.memory) :
    wp (giveUp hr pointers) Q (fun e t => e = hr ∧ Same R s live t) s := by
  induction pointers generalizing s with
  | nil => exact ⟨rfl, rfl, h⟩
  | cons pointer pointers ih =>
    rw [List.flatMap_cons, List.append_assoc] at h
    simp only [giveUp, wp_bind]
    refine (free_returns pointer h).wp fun _ t ht => ?_
    refine (ih ht.2).mono (fun _ u hu => hu) fun e u hu => ?_
    exact ⟨hu.1, hu.2.1.trans ht.1, hu.2.2⟩

theorem mallocFor_returns (v : Option α) (h : Owns R live s.memory) : Returns (mallocFor v)
    (fun b t => (missing v b = false → b.map Block.contents = v) ∧ (missing v b = true → R) ∧
      Same R s ((addrOf b).toList ++ live) t) s := by
  cases v with
  | none => exact ⟨fun _ => rfl, (fun hb => by cases hb), rfl, h⟩
  | some contents =>
    simp only [Returns, mallocFor, wp_bind]
    refine malloc_wp h (fun a t ht => ?_) fun hR t ht => ?_
    · exact ⟨fun _ => rfl, (fun hb => by cases hb), ht⟩
    · exact ⟨(fun hb => by cases hb), fun _ => hR, ht⟩

theorem clear_returns (h : Owns R (held s.pSecurityDescriptor ++ live) s.memory) : Returns clear
    (fun _ t => t.pSecurityDescriptor = none ∧ Owns R live t.memory) s := by
  obtain ⟨sd, m⟩ := s
  cases sd with
  | none => exact ⟨rfl, h⟩
  | some sd =>
    cases sd with
    | absolute addr p =>
      simp only [held, List.append_assoc] at h
      simp only [Returns, clear, wp_bind, wp_get]
      refine (free_returns _ h).wp fun _ t ht => ?_
      refine (free_returns _ ht.2).wp fun _ t ht => ?_
      refine (free_returns _ ht.2).wp fun _ t ht => ?_
      refine (free_returns _ ht.2).wp fun _ t ht => ?_
      exact (free_returns (some addr) ht.2).wp fun _ t ht => ⟨rfl, ht.2⟩
    | selfRelative addr p =>
      simp only [Returns, clear, wp_bind, wp_get]
      exact (free_returns (some addr) h).wp fun _ t ht => ⟨rfl, ht.2⟩

end Blocks

/-! ## What each function does -/

/-- The object owns its blocks beside the live ones. -/
def Holds (R : Prop) (live : List Nat) (s : CSecurityDesc) : Prop :=
  Owns R (held s.pSecurityDescriptor ++ live) s.memory

/-- And it says this. -/
def Is (R : Prop) (live : List Nat) (p : Option Policy) (s : CSecurityDesc) : Prop :=
  s.pSecurityDescriptor.map Descriptor.policy = p ∧ Holds R live s

/-- Something was refused, and the blocks are in order. -/
def Refused (R : Prop) (live : List Nat) (s : CSecurityDesc) : Prop := R ∧ Holds R live s

section Functions
variable {R : Prop} {live : List Nat} {s : CSecurityDesc}

theorem Same.then {live' : List Nat} {t u : CSecurityDesc} (h : Same R s live t) (h' : Same R t live' u) :
    Same R s live' u := ⟨h'.1.trans h.1, h'.2⟩

theorem Same.holds {t : CSecurityDesc} (h : Same R s (held s.pSecurityDescriptor ++ live) t) : Holds R live t := by
  rw [Holds, h.1]
  exact h.2

/-- Where it throws there is no descriptor. -/
theorem init_wp (h : Owns R live s.memory) (rhs : Descriptor) :
    wp (init rhs) (fun _ t => Is R live (some { rhs.policy with selfRelative := true }) t)
      (fun _ t => R ∧ t.pSecurityDescriptor = none ∧ Owns R live t.memory) s := by
  simp only [init, wp_bind]
  refine malloc_wp h (fun addr t ht => ?_) fun hR t ht => ⟨hR, rfl, ht.2⟩
  simp only [wp_bind]
  refine granted_ite ht.2 (fun u hu => ⟨congrArg some rhs.policy_parts, hu.2⟩) fun hR u hu => ?_
  simp only [wp_bind, wp_point]
  refine (giveUp_wp .lastWin32 [some addr] (s := ⟨none, u.memory⟩) hu.2).mono (fun _ v hv => hv) fun e v hv => ?_
  exact ⟨hR, hv.2.1, hv.2.2⟩

theorem init_refused {t : CSecurityDesc} (h : R ∧ t.pSecurityDescriptor = none ∧ Owns R live t.memory) :
    Refused R live t := by
  refine ⟨h.1, ?_⟩
  rw [Holds, h.2.1]
  exact h.2.2

theorem assign_wp (h : Holds R live s) (rhs : Option Descriptor) : wp (assign rhs)
    (fun _ t => Is R live (rhs.map fun rhs => { rhs.policy with selfRelative := true }) t)
    (fun _ t => Refused R live t) s := by
  simp only [assign, wp_bind]
  refine (clear_returns h).wp fun _ t ht => ?_
  cases rhs with
  | none => exact ⟨by rw [ht.1]; rfl, by rw [Holds, ht.1]; exact ht.2⟩
  | some rhs => exact (init_wp ht.2 rhs).mono (fun _ u hu => hu) fun e u hu => init_refused hu

theorem assignFrom_wp (h : Holds R live s) (rhs : Descriptor) : wp (assignFrom rhs)
    (fun _ t => Is R live (some { rhs.policy with selfRelative := true }) t) (fun _ t => Refused R live t) s := by
  simp only [assignFrom, wp_bind]
  exact (clear_returns h).wp fun _ t ht => (init_wp ht.2 rhs).mono (fun _ u hu => hu) fun e u hu => init_refused hu

theorem makeSelfRelative_wp (h : Holds R live s) : wp makeSelfRelative
    (fun _ t => Is R live (s.pSecurityDescriptor.map fun sd => { sd.policy with selfRelative := true }) t)
    (fun _ t => Refused R live t) s := by
  obtain ⟨sd, m⟩ := s
  cases sd with
  | none => exact ⟨rfl, h⟩
  | some sd =>
    cases sd with
    | selfRelative addr p => exact ⟨rfl, h⟩
    | absolute addr p =>
      simp only [makeSelfRelative, wp_bind, wp_get]
      refine (call_wp h).mono (fun _ t0 ht0 => ?_) fun e t ht => ⟨ht.1, ht.2.2.holds⟩
      refine (mallocOrThrow_wp ht0.2).mono (fun pSD t1 ht1 => ?_) fun e t ht => ⟨ht.1, (ht0.then ht.2.2).holds⟩
      refine granted_ite ht1.2 (fun t2 ht2 => ?_) fun hR t2 ht2 => ?_
      · have hheld : Owns R (held t2.pSecurityDescriptor ++ (pSD :: live)) t2.memory := by
          rw [(ht0.then (ht1.then ht2)).1]
          exact ht2.2.of_count fun a => by simp only [List.count_append, List.count_cons]; omega
        simp only [wp_bind]
        exact (clear_returns hheld).wp fun _ u hu => ⟨rfl, hu.2⟩
      · refine (giveUp_wp .lastWin32 [some pSD] ht2.2).mono (fun _ v hv => hv) fun e v hv => ?_
        exact ⟨hR, (ht0.then (ht1.then (ht2.then hv.2))).holds⟩

theorem makeAbsolute_wp (h : Holds R live s) : wp makeAbsolute
    (fun _ t => Is R live (s.pSecurityDescriptor.map fun sd => { sd.policy with selfRelative := false }) t)
    (fun _ t => Refused R live t) s := by
  obtain ⟨sd, m⟩ := s
  cases sd with
  | none => exact ⟨rfl, h⟩
  | some sd =>
    cases sd with
    | absolute addr p => exact ⟨rfl, h⟩
    | selfRelative addr p =>
      simp only [makeAbsolute, wp_bind, wp_get]
      refine (call_wp h).mono (fun _ t0 ht0 => ?_) fun e t ht => ⟨ht.1, ht.2.2.holds⟩
      refine (malloc_returns ht0.2).wp fun pSD t1 ht1 => ?_
      refine (mallocFor_returns _ ht1.2.2).wp fun pOwner t2 ht2 => ?_
      refine (mallocFor_returns _ ht2.2.2.2).wp fun pGroup t3 ht3 => ?_
      refine (mallocFor_returns _ ht3.2.2.2).wp fun pDacl t4 ht4 => ?_
      refine (mallocFor_returns _ ht4.2.2.2).wp fun pSacl t5 ht5 => ?_
      have hsame : t5.pSecurityDescriptor = some (.selfRelative addr p) :=
        (ht0.then (ht1.2.then (ht2.2.2.then (ht3.2.2.then (ht4.2.2.then ht5.2.2))))).1
      have hown : Owns R ([pSD, addrOf pOwner, addrOf pGroup, addrOf pDacl, addrOf pSacl].flatMap Option.toList ++
          (held t5.pSecurityDescriptor ++ live)) t5.memory := by
        rw [hsame]
        refine ht5.2.2.2.of_count fun a => ?_
        simp only [List.flatMap_cons, List.flatMap_nil, List.count_append, List.count_nil]
        omega
      have hgive : R → ∀ hr t, Same R t5 ([pSD, addrOf pOwner, addrOf pGroup, addrOf pDacl,
          addrOf pSacl].flatMap Option.toList ++ (held t5.pSecurityDescriptor ++ live)) t → wp (giveUp hr
          [pSD, addrOf pOwner, addrOf pGroup, addrOf pDacl, addrOf pSacl])
          (fun _ t => Is R live (some { (p.policy true) with selfRelative := false }) t)
          (fun _ t => Refused R live t) t := by
        intro hR hr t ht
        refine (giveUp_wp hr _ ht.2).mono (fun _ u hu => hu) fun e u hu => ⟨hR, ?_⟩
        exact (ht.then hu.2).holds
      cases pSD with
      | none => exact hgive (ht1.1 rfl) .outOfMemory t5 ⟨rfl, hown⟩
      | some pSD =>
        dsimp only
        by_cases hmissing : (missing p.owner.pSid pOwner || missing p.group.pSid pGroup || missing p.dacl.get pDacl ||
            missing p.sacl.get pSacl) = true
        · have hR : R := by
            simp only [Bool.or_eq_true] at hmissing
            rcases hmissing with ((h | h) | h) | h
            exacts [ht2.2.1 h, ht3.2.1 h, ht4.2.1 h, ht5.2.1 h]
          rw [if_pos hmissing]
          exact hgive hR .outOfMemory t5 ⟨rfl, hown⟩
        · rw [if_neg hmissing]
          simp only [Bool.or_eq_true, not_or, Bool.not_eq_true] at hmissing
          obtain ⟨⟨⟨howner, hgroup⟩, hdacl⟩, hsacl⟩ := hmissing
          replace howner := ht2.1 howner
          replace hgroup := ht3.1 hgroup
          replace hdacl := ht4.1 hdacl
          replace hsacl := ht5.1 hsacl
          simp only [wp_bind]
          refine granted_ite hown (fun t6 ht6 => ?_) fun hR t6 ht6 => hgive hR .lastWin32 t6 ht6
          have hheld : Owns R (held t6.pSecurityDescriptor ++ ((addrOf pOwner).toList ++ ((addrOf pGroup).toList ++
              ((addrOf pDacl).toList ++ ((addrOf pSacl).toList ++ [pSD]))) ++ live)) t6.memory := by
            rw [ht6.1]
            refine ht6.2.of_count fun a => ?_
            simp only [List.flatMap_cons, List.flatMap_nil, Option.toList_some, List.count_append, List.count_nil]
            omega
          simp only [wp_bind]
          refine (clear_returns hheld).wp fun _ u hu => ⟨congrArg some ?_, ?_⟩
          · simp only [Descriptor.policy, Parts.makeSelfRelativeSD, Parts.policy, AclPart.get_of_map hdacl,
              AclPart.get_of_map hsacl, howner, hgroup, hdacl, hsacl, AclPart.policy_get]
          · simp only [Holds, held, AclPart.get_of_map hdacl, AclPart.get_of_map hsacl]
            exact hu.2

/-- An absolute descriptor at `sd.1` with the parts `sd.2`, which says `p`. -/
def Stands (R : Prop) (live : List Nat) (p : Policy) (sd : Nat × Parts (Block Sid) (Block Acl)) (s : CSecurityDesc) :
    Prop :=
  s.pSecurityDescriptor = some (.absolute sd.1 sd.2) ∧ sd.2.makeSelfRelativeSD.policy false = p ∧
    Owns R (held (some (.absolute sd.1 sd.2)) ++ live) s.memory

theorem Stands.is {p : Policy} {sd : Nat × Parts (Block Sid) (Block Acl)} (h : Stands R live p sd s) :
    Is R live (some p) s := by
  refine ⟨?_, ?_⟩
  · rw [h.1]
    exact congrArg some h.2.1
  · rw [Holds, h.1]
    exact h.2.2

theorem allocateAndInitialize_wp (hnone : s.pSecurityDescriptor = none) (h : Owns R live s.memory) :
    wp allocateAndInitialize (fun _ t => Is R live (some Policy.new) t) (fun _ t => Refused R live t) s := by
  simp only [allocateAndInitialize, wp_bind]
  refine malloc_wp h (fun addr t ht => ?_) fun hR t ht => ⟨hR, ?_⟩
  · simp only [wp_bind]
    refine granted_ite ht.2 (fun u hu => ⟨rfl, hu.2⟩) fun hR u hu => ?_
    simp only [wp_bind, wp_point]
    refine (giveUp_wp .lastWin32 [some addr] (s := ⟨none, u.memory⟩) hu.2).mono (fun _ v hv => hv) fun e v hv => ?_
    exact ⟨hR, Same.holds (s := ⟨none, u.memory⟩) hv.2⟩
  · rw [Holds, ht.1, hnone]
    exact ht.2

theorem makeAbsoluteOrNew_wp (h : Holds R live s) : wp makeAbsoluteOrNew
    (fun _ t => Is R live (some (Policy.absolute (s.pSecurityDescriptor.map Descriptor.policy))) t)
    (fun _ t => Refused R live t) s := by
  obtain ⟨sd, m⟩ := s
  simp only [makeAbsoluteOrNew, wp_bind, wp_get]
  cases sd with
  | none => exact allocateAndInitialize_wp rfl h
  | some sd => exact makeAbsolute_wp h

theorem absoluteParts_wp (h : Holds R live s) : wp absoluteParts
    (Stands R live (Policy.absolute (s.pSecurityDescriptor.map Descriptor.policy)))
    (fun _ t => Refused R live t) s := by
  have habsolute : (Policy.absolute (s.pSecurityDescriptor.map Descriptor.policy)).selfRelative = false := by
    cases s.pSecurityDescriptor <;> rfl
  simp only [absoluteParts, wp_bind, wp_get]
  refine (makeAbsoluteOrNew_wp h).mono (fun _ t ht => ?_) fun e t ht => ht
  obtain ⟨sd, m⟩ := t
  cases sd with
  | none => cases ht.1
  | some sd =>
    have hpolicy := Option.some_inj.mp ht.1
    cases sd with
    | absolute addr p => exact ⟨rfl, hpolicy, ht.2⟩
    | selfRelative addr p =>
      rw [← hpolicy] at habsolute
      cases habsolute

/-! ### The accounts -/

theorem policy_setSid (p : Parts (Block Sid) (Block Acl)) (addr : Nat) (sid : Sid) (defaulted : Bool)
    (field : SidField) : (p.setSid ⟨some ⟨addr, sid⟩, defaulted⟩ field).makeSelfRelativeSD.policy false =
      (p.makeSelfRelativeSD.policy false).setSid sid defaulted field := by
  cases field <;> rfl

theorem count_held_setSid (addr : Nat) (p : Parts (Block Sid) (Block Acl)) (part : SidPart (Block Sid))
    (field : SidField) (a : Nat) :
    (held (some (.absolute addr (p.setSid part field)))).count a + (addrOf (p.sid field).pSid).toList.count a =
      (held (some (.absolute addr p))).count a + (addrOf part.pSid).toList.count a := by
  cases field <;> simp only [held, Parts.setSid, Parts.sid, List.count_append] <;> omega

theorem setSid_wp (h : Holds R live s) (field : SidField) (sid : Option Sid) (defaulted : Bool) :
    wp (setSid field sid defaulted)
      (fun _ t => ∃ v, sid = some v ∧
        Is R live (some ((Policy.absolute (s.pSecurityDescriptor.map Descriptor.policy)).setSid v defaulted field)) t)
      (fun e t => Refused R live t ∨ sid = none ∧ e = .fail ∧
        Is R live (some (Policy.absolute (s.pSecurityDescriptor.map Descriptor.policy))) t) s := by
  simp only [setSid, wp_bind]
  refine (absoluteParts_wp h).mono (fun sd t ht => ?_) fun e t ht => .inl ht
  cases sid with
  | none => exact .inr ⟨rfl, rfl, ht.is⟩
  | some sid =>
    simp only [wp_bind]
    have hbefore : ∀ {u}, Same R t (held (some (.absolute sd.1 sd.2)) ++ live) u → Holds R live u := by
      intro u hu
      rw [← ht.1] at hu
      exact hu.holds
    refine (mallocOrThrow_wp ht.2.2).mono (fun pNew u hu => ?_) fun e u hu => .inl ⟨hu.1, hbefore hu.2.2⟩
    refine granted_ite hu.2 (fun v hv => ?_) fun hR v hv => ?_
    · have hold : Owns R ((addrOf (sd.2.sid field).pSid).toList ++
          (held (some (.absolute sd.1 (sd.2.setSid ⟨some ⟨pNew, sid⟩, defaulted⟩ field))) ++ live)) v.memory := by
        refine hv.2.of_count fun a => ?_
        have hc := count_held_setSid sd.1 sd.2 ⟨some ⟨pNew, sid⟩, defaulted⟩ field a
        simp only [List.count_append, List.count_cons, addrOf, Option.map_some, Option.toList_some,
          List.count_nil] at hc ⊢
        omega
      simp only [wp_bind, wp_point]
      refine (free_returns _ (s := ⟨some _, v.memory⟩) hold).wp fun _ w hw => ⟨sid, rfl, ?_⟩
      have hstands : Stands R live _ (sd.1, sd.2.setSid ⟨some ⟨pNew, sid⟩, defaulted⟩ field) w :=
        ⟨hw.1, policy_setSid .., hw.2⟩
      rw [ht.2.1] at hstands
      exact hstands.is
    · refine (giveUp_wp .lastWin32 [some pNew] hv.2).mono (fun _ w hw => hw) fun e w hw => .inl ⟨hR, ?_⟩
      exact hbefore (hu.then (hv.then hw.2))

/-! ### The lists -/

theorem policy_setAcl (p : Parts (Block Sid) (Block Acl)) (present : Bool) (pAcl : Option (Block Acl))
    (defaulted : Bool) (field : AclField) :
    (p.setAcl ((p.acl field).set present pAcl defaulted) field).makeSelfRelativeSD.policy false =
      (p.makeSelfRelativeSD.policy false).setAcl
        (if present then (pAcl.map Block.contents).elim .all .list else .absent) defaulted field := by
  cases field <;> cases present <;> cases pAcl <;> rfl

theorem count_held_setAcl (addr : Nat) (p : Parts (Block Sid) (Block Acl)) (part : AclPart (Block Acl))
    (field : AclField) (a : Nat) :
    (held (some (.absolute addr (p.setAcl part field)))).count a + (addrOf (p.acl field).get).toList.count a =
      (held (some (.absolute addr p))).count a + (addrOf part.get).toList.count a := by
  cases field <;> simp only [held, Parts.setAcl, Parts.acl, List.count_append] <;> omega

/-- Where a new pointer is stored, and the block of the old one freed. -/
theorem storeAcl_returns {p : Policy} {sd : Nat × Parts (Block Sid) (Block Acl)} {pNew : Option (Block Acl)}
    (hpolicy : sd.2.makeSelfRelativeSD.policy false = p) (field : AclField) {present : Bool}
    (hnew : pNew.isSome = true → present = true)
    (h : Owns R ((addrOf pNew).toList ++ (held (some (.absolute sd.1 sd.2)) ++ live)) s.memory) (defaulted : Bool) :
    Returns (do
        point (some (.absolute sd.1 (sd.2.setAcl ((sd.2.acl field).set present pNew defaulted) field)))
        free (addrOf (sd.2.acl field).get))
      (fun _ t => Is R live (some (p.setAcl
        (if present then (pNew.map Block.contents).elim .all .list else .absent) defaulted field)) t) s := by
  have hget : ((sd.2.acl field).set present pNew defaulted).get = pNew := by
    rw [AclPart.get_set]
    cases pNew with
    | none => exact ite_self _
    | some b => rw [hnew rfl, if_pos rfl]
  have hold : Owns R ((addrOf (sd.2.acl field).get).toList ++ (held (some (.absolute sd.1
      (sd.2.setAcl ((sd.2.acl field).set present pNew defaulted) field))) ++ live)) s.memory := by
    refine h.of_count fun a => ?_
    have hc := count_held_setAcl sd.1 sd.2 ((sd.2.acl field).set present pNew defaulted) field a
    rw [hget] at hc
    simp only [List.count_append]
    omega
  simp only [Returns, wp_bind, wp_point]
  refine (free_returns _ (s := ⟨some _, s.memory⟩) hold).wp fun _ v hv => ?_
  have hstands : Stands R live _ (sd.1, sd.2.setAcl ((sd.2.acl field).set present pNew defaulted) field) v :=
    ⟨hv.1, policy_setAcl .., hv.2⟩
  rw [hpolicy] at hstands
  exact hstands.is

/-- What a list asks for. -/
def given (null empty : Bool) (pAcl : Except Err Acl) : Except Err Access :=
  if null then .ok .all else if empty then .ok .absent else pAcl.map .list

theorem newAcl_wp (null empty : Bool) (pAcl : Except Err Acl) (h : Owns R live s.memory) :
    wp (newAcl null empty pAcl)
      (fun pNew t => (pNew.isSome = true → (null || pNew.isSome) = true) ∧
        given null empty pAcl =
          .ok (if null || pNew.isSome then (pNew.map Block.contents).elim .all .list else .absent) ∧
        Same R s ((addrOf pNew).toList ++ live) t)
      (fun e t => Same R s live t ∧ (R ∨ given null empty pAcl = .error e)) s := by
  cases null with
  | true => exact ⟨fun _ => rfl, rfl, rfl, h⟩
  | false =>
    cases empty with
    | true => exact ⟨id, rfl, rfl, h⟩
    | false =>
      cases pAcl with
      | error e => exact ⟨⟨rfl, h⟩, .inr rfl⟩
      | ok acl =>
        have hnew : newAcl false false (.ok acl) = do return some ⟨← mallocOrThrow, acl⟩ := rfl
        rw [hnew, wp_bind]
        refine (mallocOrThrow_wp h).mono (fun a t ht => ?_) fun e t ht => ⟨ht.2.2, .inl ht.1⟩
        exact ⟨fun _ => rfl, rfl, ht⟩

theorem setAcl_wp (h : Holds R live s) (field : AclField) (null empty : Bool) (pAcl : Except Err Acl)
    (defaulted : Bool) : wp (setAcl field null empty pAcl defaulted)
      (fun _ t => ∃ a, given null empty pAcl = .ok a ∧
        Is R live (some ((Policy.absolute (s.pSecurityDescriptor.map Descriptor.policy)).setAcl a defaulted field)) t)
      (fun e t => Refused R live t ∨ given null empty pAcl = .error e ∧
        Is R live (some (Policy.absolute (s.pSecurityDescriptor.map Descriptor.policy))) t) s := by
  simp only [setAcl, wp_bind]
  refine (absoluteParts_wp h).mono (fun sd t ht => ?_) fun e t ht => .inl ht
  have hbefore : ∀ {u}, Same R t (held (some (.absolute sd.1 sd.2)) ++ live) u →
      Is R live (some (Policy.absolute (s.pSecurityDescriptor.map Descriptor.policy))) u := by
    intro u hu
    have hstands : Stands R live _ sd u := ⟨hu.1.trans ht.1, ht.2.1, hu.2⟩
    exact hstands.is
  refine (newAcl_wp null empty pAcl ht.2.2).mono (fun pNew u hu => ?_) fun e u hu => ?_
  · obtain ⟨hpresent, hgiven, hsame⟩ := hu
    refine granted_ite hsame.2 (fun v hv => ?_) fun hR v hv => ?_
    · exact (storeAcl_returns ht.2.1 field hpresent hv.2 defaulted).wp fun _ w hw => ⟨_, hgiven, hw⟩
    · have hown := hv.2
      rw [← List.append_nil (addrOf pNew).toList] at hown
      refine (giveUp_wp .lastWin32 [addrOf pNew] hown).mono (fun _ w hw => hw) fun e w hw => .inl ⟨hR, ?_⟩
      exact (hbefore (hsame.then (hv.then hw.2))).2
  · rcases hu.2 with hR | hgiven
    · exact .inl ⟨hR, (hbefore hu.1).2⟩
    · exact .inr ⟨hgiven, hbefore hu.1⟩

theorem setDaclPresent_wp (h : Holds R live s) (present defaulted : Bool) : wp (setDaclPresent present defaulted)
    (fun _ t => Is R live (some ((Policy.absolute (s.pSecurityDescriptor.map Descriptor.policy)).setAcl
      (if present then .all else .absent) defaulted .dacl)) t) (fun _ t => Refused R live t) s := by
  simp only [setDaclPresent, wp_bind]
  refine (absoluteParts_wp h).mono (fun sd t ht => ?_) fun e t ht => ht
  refine (call_wp ht.2.2).mono (fun _ u hu => ?_) fun e u hu => ⟨hu.1, ?_⟩
  · have hnew : (none : Option (Block Acl)).isSome = true → present = true := fun hf => by cases hf
    exact (wp_bind _ _).mp ((storeAcl_returns ht.2.1 .dacl hnew hu.2 defaulted).wp fun _ v hv => hv)
  · have hstands : Stands R live _ sd u := ⟨hu.2.2.1.trans ht.1, ht.2.1, hu.2.2.2⟩
    exact hstands.is.2

end Functions

end CSecurityDesc

end Dumbnose.Security
