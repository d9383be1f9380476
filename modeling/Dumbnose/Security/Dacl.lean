/-
  Dumbnose.Security.Dacl — discretionary access lists (`CAcl` and `CDacl` of
  `wilsecurity.hpp`).

  An object has its entries and, once `GetPACL` was called, the `ACL` made of them, which
  `Dirty` throws away. A null list has no entries and grants all access; an empty one
  grants none. The functions run as programs on an object; reading outside the memory of an
  `ACL` and following a null pointer are errors beside the exceptions.

  An `Acl` is what the system's functions know of one: the fields of its header, and the
  bytes in use after it.

  `GetPACL` lays the entries out in order if they fit into an `ACL` (`getPACL_eq`), and
  `Copy` takes them from there as they were (`copyAcl_eq`). It asks for memory, for the
  `ACL` and for the bytes of each entry, and says in `refused` which of it there is none of.
  Where an entry's is refused, the `ACL` is kept as it is then (`getPACL_refused`). Other
  memory (for an entry that is added or copied) never runs out here.
-/

import Dumbnose.Security.Order

namespace Dumbnose.Security

open Lib.Bytes CAccessAce

/-! ## The system's lists -/

structure Acl where
  aclRevision : Nat
  aclSize : Nat
  aceCount : Nat
  aces : List UInt8
  deriving DecidableEq

namespace Acl

/-- `ACL_REVISION` and `ACL_REVISION_DS`. -/
def revision : Nat := 2
def revisionDs : Nat := 4

def sizeOfAcl : Nat := 8

def validRevision (n : Nat) : Bool := 2 ≤ n ∧ n ≤ 4

def initializeAcl (aclLength aclRevision : Nat) : Option Acl :=
  if sizeOfAcl ≤ aclLength ∧ aclLength < 2 ^ 16 ∧ validRevision aclRevision then
    some ⟨aclRevision, aclLength, 0, []⟩
  else none

/-- The least revision with entries of this type: those of objects came with 4. -/
def leastRevision (aceType : UInt8) : Nat := if 5 ≤ aceType ∧ aceType ≤ 8 then 4 else if aceType = 4 then 3 else 2

/-- `AddAce`, of one entry, at the end. -/
def addAce (acl : Acl) (aceRevision : Nat) (ace : List UInt8) : Option Acl :=
  let newRevision := max acl.aclRevision aceRevision
  if leastRevision (ace.headD 0) ≤ newRevision ∧ sizeOfAcl + acl.aces.length + ace.length ≤ acl.aclSize then
    some ⟨newRevision, acl.aclSize, acl.aceCount + 1, acl.aces ++ ace⟩
  else none

/-- Past `i` entries, each of the size in its header. -/
def walk : Nat → List UInt8 → Option (List UInt8)
  | 0, aces => some aces
  | i + 1, aces => do
    let size ← peek 2 2 aces
    if numberOf size ≤ aces.length then walk i (aces.drop (numberOf size)) else none

/-- `GetAce`: the memory from the entry on. -/
def getAce (acl : Acl) (i : Nat) : Option (List UInt8) := if i < acl.aceCount then walk i acl.aces else none

end Acl

open Acl

/-! ## The objects -/

structure CDacl where
  acl : List CAccessAce
  /-- `m_pAcl`. -/
  pAcl : Option Acl
  null : Bool
  aclRevision : Nat
  deriving DecidableEq

namespace CDacl

inductive Err where
  /-- `E_INVALIDARG`. -/
  | invalidArg
  /-- `AtlThrowLastWin32`. -/
  | lastWin32
  /-- `E_OUTOFMEMORY`. -/
  | outOfMemory
  /-- Outside the memory, or through a null pointer. -/
  | outside
  deriving DecidableEq, Repr

abbrev M := EStateM Err CDacl

def new : CDacl := ⟨[], none, false, Acl.revision⟩

def dirty : M Unit := modify fun d => { d with pAcl := none }

def removeAllAces : M Unit := do
  modify fun d => { d with acl := [] }
  dirty

def setNull : M Unit := do
  removeAllAces
  modify fun d => { d with null := true }

def setEmpty : M Unit := do
  removeAllAces
  modify fun d => { d with null := false }

/-- `m_acl.RemoveAt`. -/
def removeAce (nIndex : Nat) : M Unit := do
  let d ← get
  if nIndex < d.acl.length then set { d with acl := d.acl.eraseIdx nIndex } else throw .invalidArg

/-- The cast to `UINT`. -/
def getAceCount (d : CDacl) : Nat := d.acl.length % 2 ^ 32

/-- `m_acl.Add`. -/
def add (ace : CAccessAce) : M Unit := modify fun d => { d with acl := d.acl ++ [ace] }

/-- What the four functions do; `none` for a sid that is not valid. -/
def addAccessAce (rSid : Option Sid) (accessMask : UInt32) (aceFlags : UInt8) (allow : Bool)
    (object : Option ObjectTypes) : M Bool := do
  match rSid with
  | none => pure false
  | some sid =>
    if (← get).null then setEmpty
    add ⟨sid, accessMask, aceFlags, allow, object⟩
    if object.isSome then modify fun d => { d with aclRevision := revisionDs }
    dirty
    pure true

def addAllowedAce (rSid : Option Sid) (accessMask : UInt32) (aceFlags : UInt8) : M Bool :=
  addAccessAce rSid accessMask aceFlags true none

def addDeniedAce (rSid : Option Sid) (accessMask : UInt32) (aceFlags : UInt8) : M Bool :=
  addAccessAce rSid accessMask aceFlags false none

def addAllowedObjectAce (rSid : Option Sid) (accessMask : UInt32) (aceFlags : UInt8) (types : ObjectTypes) : M Bool :=
  if types = ⟨none, none⟩ then addAllowedAce rSid accessMask aceFlags
  else addAccessAce rSid accessMask aceFlags true (some types)

def addDeniedObjectAce (rSid : Option Sid) (accessMask : UInt32) (aceFlags : UInt8) (types : ObjectTypes) : M Bool :=
  if types = ⟨none, none⟩ then addDeniedAce rSid accessMask aceFlags
  else addAccessAce rSid accessMask aceFlags false (some types)

/-- The loop of `RemoveAces`: the entries after it, and whether one was removed. -/
def removeFrom (rSid : Sid) (acl : List CAccessAce) (nIndex : Nat) (bRet : Bool) : List CAccessAce × Bool :=
  if h : nIndex < acl.length % 2 ^ 32 then
    have hlt : nIndex < acl.length := h.trans_le (Nat.mod_le ..)
    if rSid.equal acl[nIndex].sid then removeFrom rSid (acl.eraseIdx nIndex) nIndex true
    else removeFrom rSid acl (nIndex + 1) bRet
  else (acl, bRet)
termination_by acl.length - nIndex
decreasing_by
  · rw [List.length_eraseIdx_of_lt hlt]
    omega
  · omega

/-- `Dirty` if an entry was removed. -/
def removeAces (rSid : Option Sid) : M Bool := fun d =>
  match rSid with
  | none => .error .invalidArg d
  | some sid =>
    if d.null then .ok false d
    else
      let r := removeFrom sid d.acl 0 false
      .ok r.2 { d with acl := r.1, pAcl := if r.2 then none else d.pAcl }

/-! ## To the system's lists -/

def totalLength : List CAccessAce → Nat
  | [] => 0
  | a :: as => a.length + totalLength as

/-- `UINT` has 32 bits. -/
def nAclLength (aces : List CAccessAce) : Nat := (sizeOfAcl + totalLength aces) % 2 ^ 32

/-- The loop over the entries. Where `AddAce` fails the `ACL` is freed; where `GetACE`
    throws, of the entry `refused`, it is left as it is then. -/
def addAces (aclRevision : Nat) (pAcl : Acl) : List CAccessAce → Option Nat → Except (Err × Option Acl) Acl
  | [], _ => .ok pAcl
  | a :: as, refused =>
    if refused = some 0 then .error (.outOfMemory, some pAcl)
    else
      match a.getACE with
      | none => .error (.outside, some pAcl)
      | some ace =>
        match pAcl.addAce aclRevision ace with
        | none => .error (.lastWin32, none)
        | some pAcl => addAces aclRevision pAcl as (refused.map (· - 1))

/-- `refused` is which memory there is not: 0 for the `ACL`, `i + 1` for the `i`th entry. -/
def getPACL (refused : Option Nat) : M (Option Acl) := fun d =>
  if d.pAcl.isNone ∧ d.null = false then
    let nCount := getAceCount d
    if refused = some 0 then .error .outOfMemory d
    else
      match initializeAcl (nAclLength (d.acl.take nCount)) d.aclRevision with
      | none => .error .lastWin32 d
      | some pAcl =>
        match prepareAcesForACL d.acl with
        | none => .error .outside d
        | some aces =>
          match addAces d.aclRevision pAcl (aces.take nCount) (refused.map (· - 1)) with
          | .error (e, kept) => .error e { d with acl := aces, pAcl := kept }
          | .ok pAcl => .ok (some pAcl) { d with acl := aces, pAcl := some pAcl }
  else .ok d.pAcl d

/-! ## From them -/

/-- The loop of `Copy`, from the `i`th of `n` entries on. -/
def copyAces (rhs : Acl) : Nat → Nat → M Unit
  | 0, _ => pure ()
  | n + 1, i =>
    match rhs.getAce i with
    | none => throw .lastWin32
    | some memory =>
      match copyAce memory with
      | none => throw .outside
      | some none => copyAces rhs n (i + 1)
      | some (some ace) => do
        add ace
        copyAces rhs n (i + 1)

/-- `Copy(const ACL &)`; `none` for a null pointer. -/
def copyAcl (rhs : Option Acl) : M Unit := do
  match rhs with
  | none => setNull
  | some acl =>
    dirty
    if validRevision acl.aclRevision then
      modify fun d => { d with aclRevision := acl.aclRevision }
      copyAces acl acl.aceCount 0
    else throw .lastWin32

/-- `operator=(const ACL &)`. -/
def assignAcl (rhs : Option Acl) : M Unit := do
  removeAllAces
  copyAcl rhs

def guidNull : Guid := Vector.replicate 16 0

/-- Through `ObjectType()`, which is `GUID_NULL` for what is not there. -/
def throughGuid (guid : Option Guid) : Option Guid :=
  let g := guid.getD guidNull
  if g ≠ guidNull then some g else none

def recopied (a : CAccessAce) : CAccessAce :=
  { a with object := a.object.map fun t => ⟨throughGuid t.objectType, throughGuid t.inheritedObjectType⟩ }

/-- `Copy(const CDacl &)`. -/
def copy (rhs : CDacl) : M Unit := do
  dirty
  if rhs.null then setNull else setEmpty
  modify fun d =>
    { d with aclRevision := rhs.aclRevision, acl := d.acl ++ (rhs.acl.take (getAceCount rhs)).map recopied }

/-- `operator=(const CDacl &)`, of another object. -/
def assign (rhs : CDacl) : M Unit := do
  removeAllAces
  copy rhs

/-! ## What the lists look like -/

/-- Entries of objects need the revision that came with them. -/
structure RevisionOk (aclRevision : Nat) (aces : List CAccessAce) : Prop where
  valid : validRevision aclRevision = true
  objects : ∀ a ∈ aces, a.isObjectAce = true → aclRevision = revisionDs

/-- The list of these entries. -/
def aclOf (aclRevision : Nat) (aces : List CAccessAce) : Acl :=
  ⟨aclRevision, sizeOfAcl + totalLength aces, aces.length, aces.flatMap layout⟩

theorem totalLength_perm {l m : List CAccessAce} (h : l.Perm m) : totalLength l = totalLength m := by
  induction h with
  | nil => rfl
  | cons a _ ih => rw [totalLength, totalLength, ih]
  | swap a b l =>
    simp only [totalLength]
    omega
  | trans _ _ ih ih' => exact ih.trans ih'

theorem isObjectAce_recopied (a : CAccessAce) : (recopied a).isObjectAce = a.isObjectAce := Option.isSome_map ..

theorem throughGuid_cases (guid : Option Guid) :
    (guid ≠ some guidNull ∧ throughGuid guid = guid) ∨ (guid = some guidNull ∧ throughGuid guid = none) := by
  cases guid with
  | none => exact .inl ⟨by simp, rfl⟩
  | some g => by_cases hg : g = guidNull <;> simp [throughGuid, hg]

/-- `Copy` of another list loses a GUID that is `GUID_NULL`, and nothing else. -/
theorem recopied_eq_iff (a : CAccessAce) : recopied a = a ↔
    ∀ t, a.object = some t → t.objectType ≠ some guidNull ∧ t.inheritedObjectType ≠ some guidNull := by
  obtain ⟨sid, accessMask, aceFlags, allow, object⟩ := a
  cases object with
  | none => simp [recopied]
  | some t =>
    obtain ⟨objectType, inheritedObjectType⟩ := t
    rcases throughGuid_cases objectType with ⟨h₁, e₁⟩ | ⟨rfl, e₁⟩ <;>
      rcases throughGuid_cases inheritedObjectType with ⟨h₂, e₂⟩ | ⟨rfl, e₂⟩ <;> simp_all [recopied]

theorem RevisionOk.subset {aclRevision : Nat} {l m : List CAccessAce} (hr : RevisionOk aclRevision l)
    (h : ∀ a ∈ m, a ∈ l) : RevisionOk aclRevision m :=
  ⟨hr.valid, fun a ha => hr.objects a (h a ha)⟩

theorem RevisionOk.tail {aclRevision : Nat} {a : CAccessAce} {l : List CAccessAce}
    (hr : RevisionOk aclRevision (a :: l)) : RevisionOk aclRevision l :=
  hr.subset fun _ => List.mem_cons_of_mem a

theorem RevisionOk.add {aclRevision : Nat} {l : List CAccessAce} (hr : RevisionOk aclRevision l) (a : CAccessAce) :
    RevisionOk (if a.isObjectAce then revisionDs else aclRevision) (l ++ [a]) := by
  cases ha : a.isObjectAce with
  | true => exact ⟨rfl, fun _ _ _ => rfl⟩
  | false =>
    refine ⟨hr.valid, fun b hb hobj => ?_⟩
    rcases List.mem_append.mp hb with hb | hb
    · exact hr.objects b hb hobj
    · obtain rfl := List.mem_singleton.mp hb
      rw [ha] at hobj
      cases hobj

theorem RevisionOk.recopied {aclRevision : Nat} {l : List CAccessAce} (hr : RevisionOk aclRevision l) :
    RevisionOk aclRevision (l.map CDacl.recopied) := by
  refine ⟨hr.valid, fun b hb hobj => ?_⟩
  obtain ⟨a, ha, rfl⟩ := List.mem_map.mp hb
  exact hr.objects a ha (isObjectAce_recopied a ▸ hobj)

theorem headD_layout (a : CAccessAce) : a.layout.headD 0 = a.aceType := rfl

theorem leastRevision_le {aclRevision : Nat} {a : CAccessAce} (hv : validRevision aclRevision = true)
    (ho : a.isObjectAce = true → aclRevision = revisionDs) : leastRevision a.aceType ≤ aclRevision := by
  have hv := of_decide_eq_true hv
  unfold aceType
  cases hobj : a.isObjectAce with
  | false => cases a.allow <;> exact hv.1
  | true =>
    obtain rfl := ho hobj
    cases a.allow <;> decide

section AddAces
variable {aclRevision : Nat} {aces : List CAccessAce} {pAcl : Acl}

theorem addAce_eq (hv : validRevision aclRevision = true) {a : CAccessAce}
    (ho : a.isObjectAce = true → aclRevision = revisionDs) (hrev : pAcl.aclRevision = aclRevision)
    (hfits : sizeOfAcl + pAcl.aces.length + a.length ≤ pAcl.aclSize) : pAcl.addAce aclRevision a.layout =
      some ⟨aclRevision, pAcl.aclSize, pAcl.aceCount + 1, pAcl.aces ++ a.layout⟩ := by
  have hleast := leastRevision_le hv ho
  have hlen := a.length_layout
  unfold addAce
  rw [hrev, Nat.max_self, headD_layout, if_pos ⟨hleast, by omega⟩]

theorem addAces_cons {a : CAccessAce} {refused : Option Nat} (hne : refused ≠ some 0) {next : Acl}
    (hadd : pAcl.addAce aclRevision a.layout = some next) :
    addAces aclRevision pAcl (a :: aces) refused = addAces aclRevision next aces (refused.map (· - 1)) := by
  rw [addAces, if_neg hne, getACE_eq]
  dsimp only
  rw [hadd]

/-- With memory for all, every entry is added at the end. -/
theorem addAces_eq (hr : RevisionOk aclRevision aces) (hrev : pAcl.aclRevision = aclRevision)
    (hfits : sizeOfAcl + pAcl.aces.length + totalLength aces ≤ pAcl.aclSize) {refused : Option Nat}
    (hmem : ∀ k, refused = some k → aces.length ≤ k) : addAces aclRevision pAcl aces refused =
      .ok ⟨aclRevision, pAcl.aclSize, pAcl.aceCount + aces.length, pAcl.aces ++ aces.flatMap layout⟩ := by
  induction aces generalizing pAcl refused with
  | nil =>
    rw [addAces, List.flatMap_nil, List.append_nil, ← hrev]
    rfl
  | cons a as ih =>
    rw [totalLength] at hfits
    have hlen := a.length_layout
    have hadd := addAce_eq hr.valid (hr.objects a List.mem_cons_self) hrev (by omega)
    have hne : refused ≠ some 0 := fun h => absurd (hmem 0 h) (Nat.not_succ_le_zero _)
    rw [addAces_cons hne hadd, ih hr.tail rfl]
    · simp only [List.length_cons, List.flatMap_cons, List.append_assoc, Nat.add_assoc, Nat.add_comm 1]
    · simp only [List.length_append]
      omega
    · intro k hk
      obtain ⟨m, hm, rfl⟩ := Option.map_eq_some_iff.mp hk
      exact Nat.le_sub_one_of_lt (hmem m hm)

/-- Else those before the one that there is no memory for. -/
theorem addAces_refused (hr : RevisionOk aclRevision aces) (hrev : pAcl.aclRevision = aclRevision)
    (hfits : sizeOfAcl + pAcl.aces.length + totalLength aces ≤ pAcl.aclSize) {k : Nat} (hk : k < aces.length) :
    addAces aclRevision pAcl aces (some k) = .error (.outOfMemory,
      some ⟨aclRevision, pAcl.aclSize, pAcl.aceCount + k, pAcl.aces ++ (aces.take k).flatMap layout⟩) := by
  induction aces generalizing pAcl k with
  | nil => exact absurd hk (Nat.not_lt_zero k)
  | cons a as ih =>
    rw [totalLength] at hfits
    have hlen := a.length_layout
    have hadd := addAce_eq hr.valid (hr.objects a List.mem_cons_self) hrev (by omega)
    cases k with
    | zero =>
      rw [addAces, if_pos rfl, List.take_zero, List.flatMap_nil, List.append_nil, ← hrev]
      rfl
    | succ k =>
      have hk : k < as.length := Nat.lt_of_succ_lt_succ hk
      rw [addAces_cons (by simp) hadd, Option.map_some, Nat.add_sub_cancel, ih hr.tail rfl _ hk]
      · simp only [List.take_succ_cons, List.flatMap_cons, List.append_assoc, Nat.add_assoc, Nat.add_comm 1]
      · simp only [List.length_append]
        omega

end AddAces

theorem length_le_totalLength (aces : List CAccessAce) : aces.length ≤ totalLength aces := by
  induction aces with
  | nil => exact Nat.le_refl 0
  | cons a as ih =>
    have := a.length_pos
    rw [List.length_cons, totalLength]
    omega

section GetPACL
variable {d : CDacl}

theorem take_getAceCount (hc : d.acl.length < 2 ^ 32) {l : List CAccessAce} (hl : l.length = d.acl.length) :
    l.take (getAceCount d) = l := by
  rw [getAceCount, Nat.mod_eq_of_lt hc, ← hl, List.take_length]

theorem nAclLength_eq (hsmall : sizeOfAcl + totalLength d.acl < 2 ^ 32) :
    nAclLength (d.acl.take (getAceCount d)) = sizeOfAcl + totalLength d.acl := by
  have hlen := length_le_totalLength d.acl
  rw [take_getAceCount (by omega) rfl, nAclLength, Nat.mod_eq_of_lt hsmall]

variable {refused : Option Nat} (hp : d.pAcl = none) (hn : d.null = false)
include hp hn

/-- There is no memory for the `ACL`. -/
theorem getPACL_zero : getPACL (some 0) d = .error .outOfMemory d := by
  simp only [getPACL, hp, hn, Option.isNone_none, and_self, if_true]

/-- It does not fit. -/
theorem getPACL_eq_error (hne : refused ≠ some 0) (hlarge : 2 ^ 16 ≤ sizeOfAcl + totalLength d.acl)
    (hsmall : sizeOfAcl + totalLength d.acl < 2 ^ 32) : getPACL refused d = .error .lastWin32 d := by
  have hinit : initializeAcl (nAclLength (d.acl.take (getAceCount d))) d.aclRevision = none := by
    rw [nAclLength_eq hsmall, initializeAcl, if_neg (by omega)]
  simp only [getPACL, hp, hn, hne, hinit, Option.isNone_none, and_self, if_true, if_false]

variable (hr : RevisionOk d.aclRevision d.acl) (hfits : sizeOfAcl + totalLength d.acl < 2 ^ 16)
include hr hfits

/-- Else it comes to the loop over the entries in order. -/
theorem getPACL_loop (hne : refused ≠ some 0) :
    (∀ p, addAces d.aclRevision ⟨d.aclRevision, sizeOfAcl + totalLength d.acl, 0, []⟩ (canonical d.acl)
        (refused.map (· - 1)) = .ok p →
      getPACL refused d = .ok (some p) { d with acl := canonical d.acl, pAcl := some p }) ∧
    ∀ e kept, addAces d.aclRevision ⟨d.aclRevision, sizeOfAcl + totalLength d.acl, 0, []⟩ (canonical d.acl)
        (refused.map (· - 1)) = .error (e, kept) →
      getPACL refused d = .error e { d with acl := canonical d.acl, pAcl := kept } := by
  have hlen := length_le_totalLength d.acl
  have hinit : initializeAcl (nAclLength (d.acl.take (getAceCount d))) d.aclRevision =
      some ⟨d.aclRevision, sizeOfAcl + totalLength d.acl, 0, []⟩ := by
    rw [nAclLength_eq (by omega), initializeAcl, if_pos ⟨by omega, hfits, hr.valid⟩]
  have htake := take_getAceCount (d := d) (by omega) (canonical_perm d.acl).length_eq
  constructor
  · intro p hadd
    simp only [getPACL, hp, hn, hne, hinit, prepareAcesForACL_eq, Option.isNone_none, and_self, if_true, if_false,
      htake, hadd]
  · intro e kept hadd
    simp only [getPACL, hp, hn, hne, hinit, prepareAcesForACL_eq, Option.isNone_none, and_self, if_true, if_false,
      htake, hadd]

/-- There is memory for all. -/
theorem getPACL_eq (hmem : ∀ k, refused = some k → d.acl.length < k) :
    getPACL refused d = .ok (some (aclOf d.aclRevision (canonical d.acl)))
      { d with acl := canonical d.acl, pAcl := some (aclOf d.aclRevision (canonical d.acl)) } := by
  have hperm := canonical_perm d.acl
  have hmem' : ∀ k, refused.map (· - 1) = some k → (canonical d.acl).length ≤ k := by
    intro k hk
    obtain ⟨m, hm, rfl⟩ := Option.map_eq_some_iff.mp hk
    rw [hperm.length_eq]
    exact Nat.le_sub_one_of_lt (hmem m hm)
  have hadd : addAces d.aclRevision ⟨d.aclRevision, sizeOfAcl + totalLength d.acl, 0, []⟩ (canonical d.acl)
      (refused.map (· - 1)) = _ :=
    addAces_eq (hr.subset fun a ha => hperm.mem_iff.mp ha) rfl (by rw [totalLength_perm hperm]; exact Nat.le_refl _)
      hmem'
  rw [Nat.zero_add, List.nil_append] at hadd
  have hne : refused ≠ some 0 := fun h => absurd (hmem 0 h) (Nat.not_lt_zero _)
  rw [aclOf, totalLength_perm hperm]
  exact (getPACL_loop hp hn hr hfits hne).1 _ hadd

/-- There is none for one of the entries: what was added is kept, and will be given. -/
theorem getPACL_refused {k : Nat} (hk : k < d.acl.length) : getPACL (some (k + 1)) d =
    .error .outOfMemory { d with
      acl := canonical d.acl
      pAcl := some ⟨d.aclRevision, sizeOfAcl + totalLength d.acl, k, ((canonical d.acl).take k).flatMap layout⟩ } := by
  have hperm := canonical_perm d.acl
  have hadd : addAces d.aclRevision ⟨d.aclRevision, sizeOfAcl + totalLength d.acl, 0, []⟩ (canonical d.acl)
      (some k) = _ :=
    addAces_refused (hr.subset fun a ha => hperm.mem_iff.mp ha) rfl
      (by rw [totalLength_perm hperm]; exact Nat.le_refl _) (hperm.length_eq ▸ hk)
  rw [Nat.zero_add, List.nil_append] at hadd
  exact (getPACL_loop hp hn hr hfits (by simp)).2 _ _ hadd

end GetPACL

/-! ## Read back -/

theorem size_layout (a : CAccessAce) (rest : List UInt8) :
    (peek 2 2 (a.layout ++ rest)).map numberOf = some a.length := by
  have hpeek : peek 2 2 (a.layout ++ rest) = some (bytesOf 2 a.length) := by
    simp only [layout, head, List.append_assoc]
    exact (peek_skip (show [a.aceType, a.aceFlags].length = 2 from rfl) 0 2).trans (peek_first (length_bytesOf 2 _))
  have := a.length_le
  rw [hpeek, Option.map_some, numberOf_bytesOf (by omega)]

theorem walk_flatMap {aces : List CAccessAce} {i : Nat} (hi : i ≤ aces.length) :
    walk i (aces.flatMap layout) = some ((aces.drop i).flatMap layout) := by
  induction i generalizing aces with
  | zero => rfl
  | succ i ih =>
    cases aces with
    | nil => exact absurd hi (Nat.not_succ_le_zero i)
    | cons a as =>
      obtain ⟨size, hpeek, hsize⟩ := Option.map_eq_some_iff.mp (size_layout a (as.flatMap layout))
      have hlen := a.length_layout
      rw [List.flatMap_cons, walk, hpeek, Option.bind_eq_bind, Option.bind_some, hsize,
        if_pos (by rw [List.length_append]; omega), List.drop_left' hlen, List.drop_succ_cons]
      exact ih (Nat.le_of_succ_le_succ hi)

theorem copyAces_eq (aclRevision : Nat) (aces : List CAccessAce) {n i : Nat} (hn : n + i = aces.length) (d : CDacl) :
    copyAces (aclOf aclRevision aces) n i d = .ok () { d with acl := d.acl ++ aces.drop i } := by
  induction n generalizing i d with
  | zero =>
    rw [List.drop_eq_nil_of_le (by omega), List.append_nil]
    rfl
  | succ n ih =>
    have hi : i < aces.length := by omega
    have hget : (aclOf aclRevision aces).getAce i = some ((aces.drop i).flatMap layout) := by
      unfold getAce
      rw [if_pos (show i < (aclOf aclRevision aces).aceCount from hi)]
      exact walk_flatMap (Nat.le_of_lt hi)
    have hdrop := List.drop_eq_getElem_cons hi
    rw [hdrop, List.flatMap_cons] at hget
    simp only [copyAces, hget, copyAce_layout]
    refine (ih (by omega) _).trans ?_
    rw [hdrop]
    simp

/-- `Copy` takes every entry as it was, after those that are there. -/
theorem copyAcl_eq {aclRevision : Nat} (hv : validRevision aclRevision = true) (aces : List CAccessAce) (d : CDacl) :
    copyAcl (some (aclOf aclRevision aces)) d =
      .ok () { d with acl := d.acl ++ aces, pAcl := none, aclRevision := aclRevision } := by
  have hcopy := copyAces_eq aclRevision aces (show aces.length + 0 = aces.length from rfl)
    { d with pAcl := none, aclRevision := aclRevision }
  rw [List.drop_zero] at hcopy
  unfold copyAcl
  simp only [show (aclOf aclRevision aces).aclRevision = aclRevision from rfl, hv, if_true]
  exact hcopy

end CDacl

end Dumbnose.Security
