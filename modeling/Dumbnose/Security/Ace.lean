/-
  Dumbnose.Security.Ace — the entries of a discretionary access list (`CDacl::CAccessAce`
  and `CDacl::CAccessObjectAce` of `wilsecurity.hpp`).

  An entry is written into memory of its `length` a field at a time (`getACE`), and read
  back from there by `CDacl::Copy` (`copyAce`). An object entry has two GUIDs, each of which
  may be missing. The fields after a missing one move up, and the flags in between say
  which are there.

  No write is outside the memory, and what is written are the fields one after another
  (`getACE_eq`). Every entry is read back as it was (`copyAce_layout`).
-/

import Dumbnose.Security.Sid

namespace Dumbnose.Security

open Lib.Bytes

abbrev Guid := Vector UInt8 16

/-- What the two pointers of a `CAccessObjectAce` point to. -/
structure ObjectTypes where
  objectType : Option Guid
  inheritedObjectType : Option Guid
  deriving DecidableEq

structure CAccessAce where
  sid : Sid
  accessMask : UInt32
  aceFlags : UInt8
  allow : Bool
  /-- Of a `CAccessObjectAce`. -/
  object : Option ObjectTypes
  deriving DecidableEq

namespace CAccessAce

def accessAllowedAceType : UInt8 := 0
def accessDeniedAceType : UInt8 := 1
def accessAllowedObjectAceType : UInt8 := 5
def accessDeniedObjectAceType : UInt8 := 6

def aceObjectTypePresent : Nat := 1
def aceInheritedObjectTypePresent : Nat := 2

def isObjectAce (a : CAccessAce) : Bool := a.object.isSome

/-- `INHERITED_ACE`. -/
def inherited (a : CAccessAce) : Bool := a.aceFlags &&& 0x10 ≠ 0

def aceType (a : CAccessAce) : UInt8 :=
  if a.isObjectAce then if a.allow then accessAllowedObjectAceType else accessDeniedObjectAceType
  else if a.allow then accessAllowedAceType else accessDeniedAceType

def sizeOfGuid : Nat := 16

/-- Offsets in `ACCESS_ALLOWED_ACE`, and in `ACCESS_ALLOWED_OBJECT_ACE`. -/
def offsetOfSidStart : Nat := 8
def offsetOfFlags : Nat := 8
def offsetOfObjectType : Nat := 12
def offsetOfInheritedObjectType : Nat := 28
def offsetOfObjectSidStart : Nat := 44

/-- Where the sid of an object entry begins, by whether the GUIDs are there. -/
def sidStart (hasObjectType hasInheritedObjectType : Bool) : Nat :=
  offsetOfObjectSidStart - (if hasObjectType then 0 else sizeOfGuid) -
    (if hasInheritedObjectType then 0 else sizeOfGuid)

def length (a : CAccessAce) : Nat :=
  match a.object with
  | none => offsetOfSidStart + a.sid.length
  | some t => sidStart t.objectType.isSome t.inheritedObjectType.isSome + a.sid.length

/-! ## Writing -/

/-- The header and the mask, in memory that was zeroed. -/
def writeHeader (a : CAccessAce) : Option (List UInt8) := do
  let ace ← poke 2 (bytesOf 2 a.length) (List.replicate a.length 0)
  let ace ← poke 1 [a.aceFlags] ace
  let ace ← poke 0 [a.aceType] ace
  poke 4 (bytesOf 4 a.accessMask.toNat) ace

/-- `pAce->Flags |= flag`. -/
def orFlags (flag : Nat) (ace : List UInt8) : Option (List UInt8) := do
  let flags ← peek offsetOfFlags 4 ace
  poke offsetOfFlags (bytesOf 4 (numberOf flags ||| flag)) ace

/-- A GUID, and the flag that it is there. -/
def writeGuid (guid : Option Guid) (offset flag : Nat) (ace : List UInt8) : Option (List UInt8) :=
  match guid with
  | none => some ace
  | some g => do orFlags flag (← poke offset g.toList ace)

def getACE (a : CAccessAce) : Option (List UInt8) := do
  let ace ← a.writeHeader
  match a.object with
  | none => poke offsetOfSidStart a.sid.bytes ace
  | some t => do
    let ace ← poke offsetOfFlags (bytesOf 4 0) ace
    let ace ← writeGuid t.objectType offsetOfObjectType aceObjectTypePresent ace
    let ace ← writeGuid t.inheritedObjectType
      (if t.objectType.isSome then offsetOfInheritedObjectType else offsetOfObjectType)
      aceInheritedObjectTypePresent ace
    poke (sidStart t.objectType.isSome t.inheritedObjectType.isSome) a.sid.bytes ace

/-! ## Reading -/

def readGuid (present : Bool) (offset : Nat) (ace : List UInt8) : Option (Option Guid) :=
  if present then (Sid.takeVector sizeOfGuid (ace.drop offset)).map some else some none

/-- One entry of `CDacl::Copy`; an entry of another type is passed over. -/
def copyAce (ace : List UInt8) : Option (Option CAccessAce) := do
  let header ← peek 0 2 ace
  let mask ← peek 4 4 ace
  let accessMask := UInt32.ofNat (numberOf mask)
  let aceFlags := header.getLastD 0
  let type := header.headD 0
  if type = accessAllowedAceType ∨ type = accessDeniedAceType then
    let sid ← Sid.copy (ace.drop offsetOfSidStart)
    some (some ⟨sid, accessMask, aceFlags, type = accessAllowedAceType, none⟩)
  else if type = accessAllowedObjectAceType ∨ type = accessDeniedObjectAceType then
    let flags ← peek offsetOfFlags 4 ace
    let hasObjectType := decide (numberOf flags &&& aceObjectTypePresent ≠ 0)
    let hasInherited := decide (numberOf flags &&& aceInheritedObjectTypePresent ≠ 0)
    let sid ← Sid.copy (ace.drop (sidStart hasObjectType hasInherited))
    let objectType ← readGuid hasObjectType offsetOfObjectType ace
    let inheritedObjectType ← readGuid hasInherited
      (if hasObjectType then offsetOfInheritedObjectType else offsetOfObjectType) ace
    some (some ⟨sid, accessMask, aceFlags, type = accessAllowedObjectAceType,
      some ⟨objectType, inheritedObjectType⟩⟩)
  else some none

/-! ## The layout -/

/-- The first eight bytes. -/
def head (a : CAccessAce) : List UInt8 :=
  [a.aceType, a.aceFlags] ++ bytesOf 2 a.length ++ bytesOf 4 a.accessMask.toNat

def guidBytes (guid : Option Guid) : List UInt8 := guid.elim [] Vector.toList

def ObjectTypes.flags (t : ObjectTypes) : Nat :=
  (if t.objectType.isSome then aceObjectTypePresent else 0) |||
    (if t.inheritedObjectType.isSome then aceInheritedObjectTypePresent else 0)

/-- The fields of an object entry before its sid. -/
def objectBytes (t : ObjectTypes) : List UInt8 :=
  bytesOf 4 (ObjectTypes.flags t) ++ (guidBytes t.objectType ++ guidBytes t.inheritedObjectType)

/-- The fields, one after another. -/
def layout (a : CAccessAce) : List UInt8 := a.head ++ (a.object.elim [] objectBytes ++ a.sid.bytes)

theorem length_head (a : CAccessAce) : a.head.length = 8 := by simp [head]

@[simp] theorem length_guidBytes (guid : Option Guid) : (guidBytes guid).length = if guid.isSome then 16 else 0 := by
  cases guid <;> simp [guidBytes]

theorem sidStart_eq (t : ObjectTypes) : sidStart t.objectType.isSome t.inheritedObjectType.isSome =
    12 + ((guidBytes t.objectType).length + (guidBytes t.inheritedObjectType).length) := by
  rw [length_guidBytes, length_guidBytes]
  cases t.objectType <;> cases t.inheritedObjectType <;> rfl

theorem length_layout (a : CAccessAce) : a.layout.length = a.length := by
  obtain ⟨sid, accessMask, aceFlags, allow, object⟩ := a
  cases object with
  | none => simp [layout, length_head, length, offsetOfSidStart]
  | some t =>
    obtain ⟨objectType, inheritedObjectType⟩ := t
    cases objectType <;> cases inheritedObjectType <;>
      simp [layout, length_head, length, objectBytes, sidStart, offsetOfObjectSidStart, sizeOfGuid] <;> omega

theorem length_pos (a : CAccessAce) : 0 < a.length := by
  rw [← length_layout, layout, List.length_append, length_head]
  omega

theorem writeHeader_eq (a : CAccessAce) : a.writeHeader = some (a.head ++ List.replicate (a.length - 8) 0) := by
  obtain ⟨n, hn⟩ : ∃ n, a.length = 8 + n := ⟨a.length - 8, by
    rw [← length_layout, layout, List.length_append, length_head]
    omega⟩
  rw [hn, Nat.add_sub_cancel_left]
  simp [writeHeader, head, hn, List.replicate_add, List.replicate_succ, poke, bytesOf]

section Fields
variable {head before old after : List UInt8} (hhead : head.length = 8)
include hhead

theorem orFlags_eq {flags : Nat} (hflags : flags < 2 ^ 32) (flag : Nat) (rest : List UInt8) :
    orFlags flag (head ++ (bytesOf 4 flags ++ rest)) = some (head ++ (bytesOf 4 (flags ||| flag) ++ rest)) := by
  have hpeek : peek offsetOfFlags 4 (head ++ (bytesOf 4 flags ++ rest)) = some (bytesOf 4 flags) :=
    (peek_skip hhead 0 4).trans (peek_first (length_bytesOf 4 _))
  have hpoke : ∀ n, poke offsetOfFlags (bytesOf 4 n) (head ++ (bytesOf 4 flags ++ rest)) =
      some (head ++ (bytesOf 4 n ++ rest)) := by
    intro n
    refine (poke_skip hhead 0).trans ?_
    rw [poke_first (by rw [length_bytesOf, length_bytesOf])]
    rfl
  rw [orFlags, hpeek, Option.bind_eq_bind, Option.bind_some, numberOf_bytesOf hflags, hpoke]

/-- A GUID is written where it belongs, and nothing else but its flag. -/
theorem writeGuid_eq {flags : Nat} (hflags : flags < 2 ^ 32) (guid : Option Guid) {offset : Nat} (flag : Nat)
    (hold : old.length = (guidBytes guid).length) (hoffset : offset = 12 + before.length) :
    writeGuid guid offset flag (head ++ (bytesOf 4 flags ++ (before ++ (old ++ after)))) =
      some (head ++ (bytesOf 4 (flags ||| if guid.isSome then flag else 0) ++
        (before ++ (guidBytes guid ++ after)))) := by
  cases guid with
  | none =>
    obtain rfl : old = [] := List.eq_nil_of_length_eq_zero hold
    simp [writeGuid, guidBytes]
  | some g =>
    have hpoke : poke offset g.toList (head ++ (bytesOf 4 flags ++ (before ++ (old ++ after)))) =
        some (head ++ (bytesOf 4 flags ++ (before ++ (g.toList ++ after)))) := by
      rw [hoffset, show 12 + before.length = 8 + (4 + (before.length + 0)) by omega, poke_skip hhead,
        poke_skip (length_bytesOf 4 _), poke_skip rfl, poke_first (by rw [hold]; rfl)]
      rfl
    show (poke offset g.toList _).bind (orFlags flag) = _
    rw [hpoke, Option.bind_some, orFlags_eq hhead hflags]
    rfl

/-- The two GUIDs and the sid. -/
theorem writeObject_eq (t : ObjectTypes) {oldObject oldInherited oldSid sid : List UInt8}
    (ho : oldObject.length = (guidBytes t.objectType).length)
    (hi : oldInherited.length = (guidBytes t.inheritedObjectType).length) (hs : sid.length = oldSid.length) :
    (do
      let ace ← writeGuid t.objectType offsetOfObjectType aceObjectTypePresent
        (head ++ (bytesOf 4 0 ++ (oldObject ++ (oldInherited ++ oldSid))))
      let ace ← writeGuid t.inheritedObjectType
        (if t.objectType.isSome then offsetOfInheritedObjectType else offsetOfObjectType)
        aceInheritedObjectTypePresent ace
      poke (sidStart t.objectType.isSome t.inheritedObjectType.isSome) sid ace) =
    some (head ++ (objectBytes t ++ sid)) := by
  have hobject : writeGuid t.objectType offsetOfObjectType aceObjectTypePresent
      (head ++ (bytesOf 4 0 ++ (oldObject ++ (oldInherited ++ oldSid)))) =
      some (head ++ (bytesOf 4 (0 ||| if t.objectType.isSome then aceObjectTypePresent else 0) ++
        (guidBytes t.objectType ++ (oldInherited ++ oldSid)))) :=
    writeGuid_eq hhead (by decide) t.objectType aceObjectTypePresent ho
      (show _ = 12 + ([] : List UInt8).length from rfl)
  have hinherited : writeGuid t.inheritedObjectType
      (if t.objectType.isSome then offsetOfInheritedObjectType else offsetOfObjectType) aceInheritedObjectTypePresent
      (head ++ (bytesOf 4 (0 ||| if t.objectType.isSome then aceObjectTypePresent else 0) ++
        (guidBytes t.objectType ++ (oldInherited ++ oldSid)))) =
      some (head ++ (bytesOf 4 (ObjectTypes.flags t) ++
        (guidBytes t.objectType ++ (guidBytes t.inheritedObjectType ++ oldSid)))) := by
    rw [Nat.zero_or]
    refine writeGuid_eq hhead ?_ t.inheritedObjectType _ hi ?_
    · split <;> decide
    · rw [length_guidBytes]
      split <;> rfl
  have hsid : poke (sidStart t.objectType.isSome t.inheritedObjectType.isSome) sid
      (head ++ (bytesOf 4 (ObjectTypes.flags t) ++
        (guidBytes t.objectType ++ (guidBytes t.inheritedObjectType ++ oldSid)))) =
      some (head ++ (objectBytes t ++ sid)) := by
    rw [sidStart_eq, show 12 + ((guidBytes t.objectType).length + (guidBytes t.inheritedObjectType).length) =
        8 + (4 + ((guidBytes t.objectType).length + ((guidBytes t.inheritedObjectType).length + 0))) by omega,
      poke_skip hhead, poke_skip (length_bytesOf 4 _), poke_skip rfl, poke_skip rfl,
      ← List.append_nil oldSid, poke_first hs]
    simp [objectBytes]
  rw [hobject, Option.bind_eq_bind, Option.bind_some, hinherited, Option.bind_some, hsid]

end Fields

/-- What is written are the fields; nothing is written outside the memory. -/
theorem getACE_eq (a : CAccessAce) : a.getACE = some a.layout := by
  have hsid : a.sid.bytes.length = a.sid.length := Sid.length_bytes _
  cases ho : a.object with
  | none =>
    have hn : a.length = 8 + a.sid.length := by rw [length, ho, offsetOfSidStart]
    have hpoke : poke offsetOfSidStart a.sid.bytes (a.head ++ List.replicate (a.length - 8) 0) =
        some (a.head ++ (a.sid.bytes ++ [])) := by
      refine (poke_skip a.length_head 0).trans ?_
      rw [← List.append_nil (List.replicate _ _), poke_first (by rw [List.length_replicate]; omega)]
      rfl
    rw [getACE, writeHeader_eq, Option.bind_eq_bind, Option.bind_some, ho]
    simp only [hpoke, layout, ho, Option.elim_none, List.append_nil, List.nil_append]
  | some t =>
    have hn : a.length = 8 + (4 + ((guidBytes t.objectType).length +
        ((guidBytes t.inheritedObjectType).length + a.sid.length))) := by
      rw [length, ho]
      show sidStart _ _ + _ = _
      rw [sidStart_eq]
      omega
    have hflags : poke offsetOfFlags (bytesOf 4 0) (a.head ++ List.replicate (a.length - 8) 0) =
        some (a.head ++ (bytesOf 4 0 ++ (List.replicate (guidBytes t.objectType).length 0 ++
          (List.replicate (guidBytes t.inheritedObjectType).length 0 ++ List.replicate a.sid.length 0)))) := by
      refine (poke_skip a.length_head 0).trans ?_
      rw [hn, Nat.add_sub_cancel_left, List.replicate_add, poke_first (by simp), List.replicate_add, List.replicate_add]
      rfl
    rw [getACE, writeHeader_eq, Option.bind_eq_bind, Option.bind_some, ho]
    simp only [hflags, Option.bind_some]
    refine (writeObject_eq a.length_head t List.length_replicate List.length_replicate ?_).trans ?_
    · rw [hsid, List.length_replicate]
    · rw [layout, ho]
      rfl

/-! ## Read back -/

theorem length_le (a : CAccessAce) : a.length ≤ 112 := by
  have hfew := a.sid.few
  have hsid : a.sid.length = 8 + 4 * a.sid.subAuthority.length := rfl
  cases ho : a.object with
  | none =>
    rw [length, ho]
    show 8 + a.sid.length ≤ 112
    omega
  | some t =>
    rw [length, ho]
    show sidStart _ _ + a.sid.length ≤ 112
    have : sidStart t.objectType.isSome t.inheritedObjectType.isSome ≤ 44 := by
      unfold sidStart offsetOfObjectSidStart
      omega
    omega

theorem readGuid_eq {before : List UInt8} (guid : Option Guid) {offset : Nat} (rest : List UInt8)
    (hoffset : before.length = offset) :
    readGuid guid.isSome offset (before ++ (guidBytes guid ++ rest)) = some guid := by
  cases guid with
  | none => rfl
  | some g =>
    show (Sid.takeVector sizeOfGuid ((before ++ (g.toList ++ rest)).drop offset)).map some = some (some g)
    rw [List.drop_left' hoffset]
    exact congrArg (Option.map some) (Sid.takeVector_append g rest)

/-- The flags say which GUIDs are there. -/
theorem numberOf_flags (t : ObjectTypes) : numberOf (bytesOf 4 (ObjectTypes.flags t)) = ObjectTypes.flags t ∧
    decide (ObjectTypes.flags t &&& aceObjectTypePresent ≠ 0) = t.objectType.isSome ∧
    decide (ObjectTypes.flags t &&& aceInheritedObjectTypePresent ≠ 0) = t.inheritedObjectType.isSome := by
  unfold ObjectTypes.flags
  cases t.objectType <;> cases t.inheritedObjectType <;>
    simp [aceObjectTypePresent, aceInheritedObjectTypePresent, bytesOf, numberOf]

/-- What was written is read back, whatever follows. -/
theorem copyAce_layout (a : CAccessAce) (rest : List UInt8) : copyAce (a.layout ++ rest) = some (some a) := by
  have hheader : peek 0 2 (a.layout ++ rest) = some [a.aceType, a.aceFlags] := by
    simp only [layout, head, List.append_assoc]
    exact peek_first rfl
  have hmask : peek 4 4 (a.layout ++ rest) = some (bytesOf 4 a.accessMask.toNat) := by
    simp only [layout, head, List.append_assoc]
    rw [← List.append_assoc [a.aceType, a.aceFlags]]
    exact (peek_skip (by simp) 0 4).trans (peek_first (length_bytesOf 4 _))
  have hnumber : UInt32.ofNat (numberOf (bytesOf 4 a.accessMask.toNat)) = a.accessMask := by
    rw [numberOf_bytesOf a.accessMask.toNat_lt, UInt32.ofNat_toNat]
  obtain ⟨sid, accessMask, aceFlags, allow, object⟩ := a
  cases object with
  | none =>
    have hsid : (layout ⟨sid, accessMask, aceFlags, allow, none⟩ ++ rest).drop offsetOfSidStart =
        sid.bytes ++ rest := by
      rw [layout, List.append_assoc]
      exact List.drop_left' (length_head _)
    unfold copyAce
    simp only [hheader, hmask, hsid, hnumber, Sid.copy_bytes, Option.bind_eq_bind, Option.bind_some]
    cases allow <;> rfl
  | some t =>
    have hlayout : layout ⟨sid, accessMask, aceFlags, allow, some t⟩ ++ rest =
        head ⟨sid, accessMask, aceFlags, allow, some t⟩ ++ (bytesOf 4 (ObjectTypes.flags t) ++
          (guidBytes t.objectType ++ (guidBytes t.inheritedObjectType ++ (sid.bytes ++ rest)))) := by
      simp [layout, objectBytes]
    have hflags : peek offsetOfFlags 4 (layout ⟨sid, accessMask, aceFlags, allow, some t⟩ ++ rest) =
        some (bytesOf 4 (ObjectTypes.flags t)) := by
      rw [hlayout]
      exact (peek_skip (length_head _) 0 4).trans (peek_first (length_bytesOf 4 _))
    have hsid : (layout ⟨sid, accessMask, aceFlags, allow, some t⟩ ++ rest).drop
        (sidStart t.objectType.isSome t.inheritedObjectType.isSome) = sid.bytes ++ rest := by
      rw [hlayout]
      simp only [← List.append_assoc _ _ (sid.bytes ++ rest)]
      apply List.drop_left'
      rw [sidStart_eq]
      simp only [List.length_append, length_head, length_bytesOf]
      omega
    have hobject : readGuid t.objectType.isSome offsetOfObjectType
        (layout ⟨sid, accessMask, aceFlags, allow, some t⟩ ++ rest) = some t.objectType := by
      rw [hlayout, ← List.append_assoc (head _)]
      exact readGuid_eq _ _ (by simp [length_head, offsetOfObjectType])
    have hinherited : readGuid t.inheritedObjectType.isSome
        (if t.objectType.isSome then offsetOfInheritedObjectType else offsetOfObjectType)
        (layout ⟨sid, accessMask, aceFlags, allow, some t⟩ ++ rest) = some t.inheritedObjectType := by
      rw [hlayout, ← List.append_assoc (head _), ← List.append_assoc _ (guidBytes t.objectType)]
      refine readGuid_eq _ _ ?_
      simp only [List.length_append, length_head, length_bytesOf, length_guidBytes]
      split <;> rfl
    obtain ⟨hnum, hbit1, hbit2⟩ := numberOf_flags t
    unfold copyAce
    simp only [hheader, hmask, hflags, hnumber, hnum, hbit1, hbit2, hsid, hobject, hinherited, Sid.copy_bytes,
      Option.bind_eq_bind, Option.bind_some]
    cases allow <;> rfl

end CAccessAce

end Dumbnose.Security
