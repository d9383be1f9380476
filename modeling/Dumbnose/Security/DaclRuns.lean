/-
  Dumbnose.Security.DaclRuns — an access list through any sequence of calls.

  Beside the object stands what it is for (`AccessList`): no list, which grants all access,
  or a list of entries. It keeps no `ACL`; `GetPACL` makes one each time.

  The two answer alike (`run_agrees`) in every run in which no `RemoveAce` comes while an
  `ACL` is kept, no `ACL` is assigned to a null list, no list with a `GUID_NULL` is
  assigned, and no `GetPACL` runs out of memory. `RemoveAce` does not call `Dirty` as its
  siblings do, so the next `GetPACL` still has the entry; `operator=(const ACL &)` leaves
  the list null, so the entries it has taken are not there for `GetPACL`, and the next call
  that adds one drops them; `Copy` takes a GUID that is `GUID_NULL` for none; and a
  `GetPACL` that throws for want of memory may leave half of an `ACL`, which the next one
  gives (`half_kept`). These are the only ways to be seen to differ (`agrees_iff`).

  What `GetPACL` gives is in order, and makes any other list it is assigned to have the
  same entries (`run_getPACL`).
-/

import Dumbnose.Lib.Runs
import Dumbnose.Security.Dacl

namespace Dumbnose.Security

open Lib.Runs CAccessAce Acl CDacl

/-! ## Calls -/

inductive Call where
  /-- One of the four functions that add an entry. -/
  | add (allow : Bool) (rSid : Option Sid) (accessMask : UInt32) (aceFlags : UInt8) (types : Option ObjectTypes)
  | removeAce (nIndex : Nat)
  | removeAces (rSid : Option Sid)
  | removeAllAces
  | setNull
  | setEmpty
  | getAceCount
  | isNull
  /-- With the memory that is refused. -/
  | getPACL (refused : Option Nat)
  | assign (rhs : CDacl)
  /-- A null pointer, or the `ACL` of some entries. -/
  | assignAcl (rhs : Option (Nat × List CAccessAce))

inductive Seen where
  | done
  | bool (b : Bool)
  | count (n : Nat)
  | pAcl (p : Option Acl)
  | thrown (e : Err)
  deriving DecidableEq

def addOf (allow : Bool) (rSid : Option Sid) (accessMask : UInt32) (aceFlags : UInt8) (types : Option ObjectTypes) :
    M Bool :=
  match allow, types with
  | true, none => addAllowedAce rSid accessMask aceFlags
  | false, none => addDeniedAce rSid accessMask aceFlags
  | true, some t => addAllowedObjectAce rSid accessMask aceFlags t
  | false, some t => addDeniedObjectAce rSid accessMask aceFlags t

def Call.exec : Call → M Seen
  | .add allow rSid accessMask aceFlags types => Seen.bool <$> addOf allow rSid accessMask aceFlags types
  | .removeAce nIndex => (fun _ => Seen.done) <$> CDacl.removeAce nIndex
  | .removeAces rSid => Seen.bool <$> CDacl.removeAces rSid
  | .removeAllAces => (fun _ => Seen.done) <$> CDacl.removeAllAces
  | .setNull => (fun _ => Seen.done) <$> CDacl.setNull
  | .setEmpty => (fun _ => Seen.done) <$> CDacl.setEmpty
  | .getAceCount => (fun d => Seen.count (CDacl.getAceCount d)) <$> get
  | .isNull => (fun d => Seen.bool d.null) <$> get
  | .getPACL refused => Seen.pAcl <$> CDacl.getPACL refused
  | .assign rhs => (fun _ => Seen.done) <$> CDacl.assign rhs
  | .assignAcl rhs => (fun _ => Seen.done) <$> CDacl.assignAcl (rhs.map fun r => aclOf r.1 r.2)

def seenOf (r : EStateM.Result Err CDacl Seen) : CDacl × List Seen :=
  match r with
  | .ok o d => (d, [o])
  | .error e d => (d, [.thrown e])

def CDacl.step : Step CDacl Call Seen := fun d c => some (seenOf (c.exec d))

/-! ## What it is for -/

structure AccessList where
  entries : Option (List CAccessAce)
  aclRevision : Nat

namespace AccessList

def new : AccessList := ⟨some [], Acl.revision⟩

/-- Without GUIDs it is a plain entry. -/
def entry (allow : Bool) (sid : Sid) (accessMask : UInt32) (aceFlags : UInt8) (types : Option ObjectTypes) :
    CAccessAce :=
  ⟨sid, accessMask, aceFlags, allow, types.filter (· ≠ ⟨none, none⟩)⟩

instance {aclRevision : Nat} {aces : List CAccessAce} : Decidable (RevisionOk aclRevision aces) :=
  decidable_of_iff (validRevision aclRevision = true ∧ ∀ a ∈ aces, a.isObjectAce = true → aclRevision = revisionDs)
    ⟨fun h => ⟨h.1, h.2⟩, fun h => ⟨h.valid, h.objects⟩⟩

/-- Blocked where the entries come to 4 GiB or to 2 ^ 32, and for what is no access list. -/
def step : Step AccessList Call Seen := fun s c =>
  match c with
  | .add _ none _ _ _ => some (s, [.bool false])
  | .add allow (some sid) accessMask aceFlags types =>
    let a := entry allow sid accessMask aceFlags types
    if (s.entries.getD []).length + 1 < 2 ^ 32 then
      some (⟨some (s.entries.getD [] ++ [a]), if a.isObjectAce then revisionDs else s.aclRevision⟩, [.bool true])
    else none
  | .removeAce nIndex =>
    if nIndex < (s.entries.getD []).length then some ({ s with entries := s.entries.map (·.eraseIdx nIndex) }, [.done])
    else some (s, [.thrown .invalidArg])
  | .removeAces none => some (s, [.thrown .invalidArg])
  | .removeAces (some sid) =>
    some ({ s with entries := s.entries.map (·.filter fun a => !sid.equal a.sid) },
      [.bool ((s.entries.getD []).any fun a => sid.equal a.sid)])
  | .removeAllAces => some ({ s with entries := s.entries.map fun _ => [] }, [.done])
  | .setNull => some ({ s with entries := none }, [.done])
  | .setEmpty => some ({ s with entries := some [] }, [.done])
  | .getAceCount => some (s, [.count (s.entries.getD []).length])
  | .isNull => some (s, [.bool s.entries.isNone])
  | .getPACL _ =>
    match s.entries with
    | none => some (s, [.pAcl none])
    | some l =>
      if sizeOfAcl + totalLength l < 2 ^ 16 then
        some ({ s with entries := some (canonical l) }, [.pAcl (some (aclOf s.aclRevision (canonical l)))])
      else if sizeOfAcl + totalLength l < 2 ^ 32 then some (s, [.thrown .lastWin32])
      else none
  | .assign rhs =>
    if RevisionOk rhs.aclRevision rhs.acl ∧ (rhs.null = true → rhs.acl = []) ∧ rhs.acl.length < 2 ^ 32 then
      some (⟨if rhs.null then none else some rhs.acl, rhs.aclRevision⟩, [.done])
    else none
  | .assignAcl none => some ({ s with entries := none }, [.done])
  | .assignAcl (some (aclRevision, aces)) =>
    if RevisionOk aclRevision aces ∧ sizeOfAcl + totalLength aces < 2 ^ 16 then
      some (⟨some aces, aclRevision⟩, [.done])
    else none

end AccessList

/-! ## When they agree -/

def ranOut {α : Type} : EStateM.Result Err CDacl α → Bool
  | .error .outOfMemory _ => true
  | _ => false

/-- The calls after which they agree. -/
def ok (d : CDacl) : Call → Bool
  | .removeAce nIndex => d.acl.length ≤ nIndex ∨ d.pAcl = none
  | .getPACL refused => !ranOut (CDacl.getPACL refused d)
  | .assign rhs => rhs.acl.map recopied = rhs.acl
  | .assignAcl (some _) => d.null = false
  | _ => true

structure Matches (d : CDacl) (s : AccessList) : Prop where
  null : d.null = s.entries.isNone
  acl : d.acl = s.entries.getD []
  aclRevision : d.aclRevision = s.aclRevision
  revisionOk : RevisionOk d.aclRevision d.acl
  counted : d.acl.length < 2 ^ 32
  kept : ∀ p, d.pAcl = some p → d.null = false ∧ canonical d.acl = d.acl ∧
    p = aclOf d.aclRevision d.acl ∧ sizeOfAcl + totalLength d.acl < 2 ^ 16

theorem matches_new : Matches CDacl.new AccessList.new :=
  ⟨rfl, rfl, rfl, ⟨rfl, fun a ha => by cases ha⟩, by decide, fun p hp => by cases hp⟩

/-- Nothing is kept after a change. -/
theorem Matches.changed {d : CDacl} {s : AccessList} (hnull : d.null = s.entries.isNone)
    (hacl : d.acl = s.entries.getD []) (hrev : d.aclRevision = s.aclRevision) (hr : RevisionOk d.aclRevision d.acl)
    (hc : d.acl.length < 2 ^ 32) (hp : d.pAcl = none) : Matches d s :=
  ⟨hnull, hacl, hrev, hr, hc, fun p h => by rw [hp] at h; cases h⟩

section Calls
variable {d : CDacl} {s : AccessList} (hm : Matches d s)
include hm

theorem Matches.pAcl_null (hn : d.null = true) : d.pAcl = none := by
  cases hp : d.pAcl with
  | none => rfl
  | some p =>
    obtain ⟨h, -⟩ := hm.kept p hp
    rw [hn] at h
    cases h

theorem Matches.acl_null (hn : d.null = true) : d.acl = [] := by
  rw [hm.acl]
  rw [hm.null] at hn
  rw [Option.isNone_iff_eq_none.mp hn]
  rfl

end Calls

/-! ## One call -/

theorem addOf_none (allow : Bool) (accessMask : UInt32) (aceFlags : UInt8) (types : Option ObjectTypes) (d : CDacl) :
    addOf allow none accessMask aceFlags types d = .ok false d := by
  cases allow <;> cases types <;>
    simp only [addOf, addAllowedAce, addDeniedAce, addAllowedObjectAce, addDeniedObjectAce]
  · rfl
  · split <;> rfl
  · rfl
  · split <;> rfl

theorem addAccessAce_some (sid : Sid) (accessMask : UInt32) (aceFlags : UInt8) (allow : Bool)
    (object : Option ObjectTypes) (d : CDacl) : addAccessAce (some sid) accessMask aceFlags allow object d =
      .ok true ⟨(if d.null then [] else d.acl) ++ [⟨sid, accessMask, aceFlags, allow, object⟩], none, false,
        if object.isSome then revisionDs else d.aclRevision⟩ := by
  obtain ⟨acl, pAcl, null, aclRevision⟩ := d
  cases null <;> cases object <;> rfl

theorem addOf_some (allow : Bool) (sid : Sid) (accessMask : UInt32) (aceFlags : UInt8) (types : Option ObjectTypes)
    (d : CDacl) : addOf allow (some sid) accessMask aceFlags types d =
      .ok true ⟨(if d.null then [] else d.acl) ++ [AccessList.entry allow sid accessMask aceFlags types], none, false,
        if (AccessList.entry allow sid accessMask aceFlags types).isObjectAce then revisionDs else d.aclRevision⟩ := by
  cases types with
  | none => cases allow <;> exact addAccessAce_some ..
  | some t =>
    by_cases ht : t = ⟨none, none⟩
    · have hentry : AccessList.entry allow sid accessMask aceFlags (some t) =
          ⟨sid, accessMask, aceFlags, allow, none⟩ := by
        rw [AccessList.entry, ht]
        rfl
      rw [hentry]
      cases allow <;>
        (simp only [addOf, addAllowedObjectAce, addDeniedObjectAce, ht, if_true]; exact addAccessAce_some ..)
    · have hentry : AccessList.entry allow sid accessMask aceFlags (some t) =
          ⟨sid, accessMask, aceFlags, allow, some t⟩ := by
        simp [AccessList.entry, Option.filter, ht]
      rw [hentry]
      cases allow <;>
        (simp only [addOf, addAllowedObjectAce, addDeniedObjectAce, ht, if_false]; exact addAccessAce_some ..)

theorem removeFrom_eq (sid : Sid) (acl : List CAccessAce) (nIndex : Nat) (bRet : Bool) (hc : acl.length < 2 ^ 32) :
    removeFrom sid acl nIndex bRet = (acl.take nIndex ++ (acl.drop nIndex).filter (fun a => !sid.equal a.sid),
      bRet || (acl.drop nIndex).any fun a => sid.equal a.sid) := by
  induction acl, nIndex, bRet using removeFrom.induct sid with
  | case1 acl nIndex bRet h hlt heq ih =>
    have hlen : (acl.take nIndex).length = nIndex := List.length_take_of_le (Nat.le_of_lt hlt)
    have hc' : (acl.eraseIdx nIndex).length < 2 ^ 32 := (List.length_eraseIdx_le _ _).trans_lt hc
    rw [removeFrom, dif_pos h, if_pos heq, ih hc', List.eraseIdx_eq_take_drop_succ, List.take_left' hlen,
      List.drop_left' hlen, List.drop_eq_getElem_cons hlt, List.filter_cons_of_neg (by simp [heq]), List.any_cons, heq]
    simp
  | case2 acl nIndex bRet h hlt hne ih =>
    rw [removeFrom, dif_pos h, if_neg hne, ih hc, List.drop_eq_getElem_cons hlt, List.take_succ_eq_append_getElem hlt,
      List.filter_cons_of_pos (by simp [hne]), List.any_cons, Bool.eq_false_iff.mpr hne, List.append_assoc]
    rfl
  | case3 acl nIndex bRet h =>
    rw [Nat.mod_eq_of_lt hc] at h
    rw [removeFrom, dif_neg (by rwa [Nat.mod_eq_of_lt hc]), List.drop_eq_nil_of_le (Nat.le_of_not_lt h),
      List.take_of_length_le (Nat.le_of_not_lt h)]
    simp

theorem removeAce_eq (nIndex : Nat) (d : CDacl) : CDacl.removeAce nIndex d =
    if nIndex < d.acl.length then .ok () { d with acl := d.acl.eraseIdx nIndex } else .error .invalidArg d := by
  show (if nIndex < d.acl.length then set { d with acl := d.acl.eraseIdx nIndex }
    else throw .invalidArg : M Unit) d = _
  split <;> rfl

theorem removeAces_some (sid : Sid) {d : CDacl} (hn : d.null = true → d.acl = []) (hc : d.acl.length < 2 ^ 32) :
    CDacl.removeAces (some sid) d =
    .ok (d.acl.any fun a => sid.equal a.sid) { d with
      acl := d.acl.filter fun a => !sid.equal a.sid
      pAcl := if (d.acl.any fun a => sid.equal a.sid) then none else d.pAcl } := by
  unfold CDacl.removeAces
  cases hnull : d.null with
  | true =>
    obtain ⟨acl, pAcl, null, aclRevision⟩ := d
    cases hnull
    obtain rfl : acl = [] := hn rfl
    rfl
  | false =>
    simp only [removeFrom_eq sid d.acl 0 false hc, List.take_zero, List.drop_zero, List.nil_append, Bool.false_or,
      Bool.false_eq_true, if_false]

theorem assignAcl_eq {aclRevision : Nat} {aces : List CAccessAce} (hr : RevisionOk aclRevision aces) (d : CDacl) :
    CDacl.assignAcl (some (aclOf aclRevision aces)) d = .ok () ⟨aces, none, d.null, aclRevision⟩ :=
  copyAcl_eq hr.valid aces { d with acl := [], pAcl := none }

theorem assign_eq {rhs : CDacl} (hc : rhs.acl.length < 2 ^ 32) (d : CDacl) : CDacl.assign rhs d =
    .ok () ⟨rhs.acl.map recopied, none, rhs.null, rhs.aclRevision⟩ := by
  have htake := take_getAceCount hc (rfl : rhs.acl.length = rhs.acl.length)
  unfold CDacl.assign CDacl.copy
  rw [htake]
  obtain ⟨acl, pAcl, null, aclRevision⟩ := rhs
  cases null <;> rfl

section Step
variable {d : CDacl} {c : Call} {α : Type} {x : M α} {f : α → Seen}

theorem step_ok (hc : c.exec = f <$> x) {a : α} {t : CDacl} (hx : x d = .ok a t) :
    CDacl.step d c = some (t, [f a]) := by
  have : (f <$> x) d = .ok (f a) t := by
    show EStateM.map f x d = _
    rw [EStateM.map, hx]
  rw [CDacl.step, hc, this]
  rfl

theorem step_error (hc : c.exec = f <$> x) {e : Err} {t : CDacl} (hx : x d = .error e t) :
    CDacl.step d c = some (t, [.thrown e]) := by
  have : (f <$> x) d = .error e t := by
    show EStateM.map f x d = _
    rw [EStateM.map, hx]
  rw [CDacl.step, hc, this]
  rfl

end Step

section Matches
variable {d : CDacl} {s : AccessList} (hm : Matches d s)
include hm

theorem Matches.add (a : CAccessAce) (hc : (s.entries.getD []).length + 1 < 2 ^ 32) :
    Matches ⟨(if d.null then [] else d.acl) ++ [a], none, false, if a.isObjectAce then revisionDs else d.aclRevision⟩
      ⟨some (s.entries.getD [] ++ [a]), if a.isObjectAce then revisionDs else s.aclRevision⟩ := by
  have hacl : (if d.null then [] else d.acl) = s.entries.getD [] := by
    split
    · next hn => rw [← hm.acl, hm.acl_null hn]
    · exact hm.acl
  refine .changed rfl ?_ ?_ ?_ ?_ rfl
  · rw [hacl]
    rfl
  · rw [hm.aclRevision]
  · rw [hacl, ← hm.acl]
    exact hm.revisionOk.add a
  · rw [hacl, List.length_append]
    exact hc

/-- An operation on the entries that are there, after which nothing is kept, or that leaves
    all as it was. -/
theorem Matches.entries (f : List CAccessAce → List CAccessAce) (hf : ∀ l, (f l).Sublist l) {pAcl : Option Acl}
    (hp : pAcl = none ∨ f d.acl = d.acl ∧ pAcl = d.pAcl) :
    Matches { d with acl := f d.acl, pAcl := pAcl } { s with entries := s.entries.map f } := by
  have hacl : f d.acl = (s.entries.map f).getD [] := by
    rw [hm.acl]
    cases s.entries with
    | none => exact List.sublist_nil.mp (hf [])
    | some l => rfl
  refine ⟨?_, hacl, hm.aclRevision, hm.revisionOk.subset fun a ha => (hf d.acl).subset ha,
    (hf d.acl).length_le.trans_lt hm.counted, fun p h => ?_⟩
  · rw [Option.isNone_map]
    exact hm.null
  · rcases hp with rfl | ⟨hsame, rfl⟩
    · cases h
    · simp only [hsame]
      exact hm.kept p h

theorem Matches.getPACL {refused : Option Nat} (hok : ranOut (CDacl.getPACL refused d) = false) {s' : AccessList}
    {o o' : List Seen} {d' : CDacl} (hd : CDacl.step d (.getPACL refused) = some (d', o))
    (hs : AccessList.step s (.getPACL refused) = some (s', o')) : o = o' ∧ Matches d' s' := by
  cases he : s.entries with
  | none =>
    have hn : d.null = true := by rw [hm.null, he]; rfl
    have hget : CDacl.getPACL refused d = .ok none d := by
      unfold CDacl.getPACL
      rw [if_neg (by simp [hn]), hm.pAcl_null hn]
    rw [step_ok rfl hget] at hd
    simp only [AccessList.step, he] at hs
    cases hd
    cases hs
    exact ⟨rfl, hm⟩
  | some l =>
    have hn : d.null = false := by rw [hm.null, he]; rfl
    have hl : d.acl = l := by rw [hm.acl, he]; rfl
    simp only [AccessList.step, he, ← hl, ← hm.aclRevision] at hs
    cases hp : d.pAcl with
    | some p =>
      obtain ⟨-, hcanonical, rfl, hfits⟩ := hm.kept p hp
      have hget : CDacl.getPACL refused d = .ok d.pAcl d := by
        unfold CDacl.getPACL
        rw [if_neg (by simp [hp])]
      rw [step_ok rfl hget] at hd
      rw [if_pos hfits, hcanonical] at hs
      cases hd
      cases hs
      exact ⟨by rw [hp], hn, rfl, rfl, hm.revisionOk, hm.counted, hm.kept⟩
    | none =>
      have hne : refused ≠ some 0 := by
        rintro rfl
        rw [getPACL_zero hp hn] at hok
        cases hok
      by_cases hfits : sizeOfAcl + totalLength d.acl < 2 ^ 16
      · have hmem : ∀ k, refused = some k → d.acl.length < k := by
          rintro (_ | k) rfl
          · exact absurd rfl hne
          · by_contra hk
            rw [getPACL_refused hp hn hm.revisionOk hfits (by omega)] at hok
            cases hok
        have hperm := canonical_perm d.acl
        rw [step_ok rfl (getPACL_eq hp hn hm.revisionOk hfits hmem)] at hd
        rw [if_pos hfits] at hs
        cases hd
        cases hs
        refine ⟨rfl, hn, rfl, rfl, hm.revisionOk.subset fun a ha => hperm.mem_iff.mp ha, ?_, ?_⟩
        · exact hperm.length_eq.trans_lt hm.counted
        · rintro p ⟨⟩
          exact ⟨hn, canonical_canonical _, rfl, by rw [totalLength_perm hperm]; exact hfits⟩
      · rw [if_neg hfits] at hs
        by_cases hsmall : sizeOfAcl + totalLength d.acl < 2 ^ 32
        · rw [step_error rfl (getPACL_eq_error hp hn hne (by omega) hsmall)] at hd
          rw [if_pos hsmall] at hs
          cases hd
          cases hs
          exact ⟨rfl, hm⟩
        · rw [if_neg hsmall] at hs
          cases hs

end Matches

/-- Everything but what `ok` leaves out: the object answers as the list does, and goes on
    matching it. -/
theorem Matches.step {d d' : CDacl} {s s' : AccessList} {c : Call} {o o' : List Seen} (hm : Matches d s)
    (hok : ok d c = true) (hd : CDacl.step d c = some (d', o)) (hs : AccessList.step s c = some (s', o')) :
    o = o' ∧ Matches d' s' := by
  cases c with
  | add allow rSid accessMask aceFlags types =>
    cases rSid with
    | none =>
      rw [step_ok rfl (addOf_none ..)] at hd
      cases hd
      cases hs
      exact ⟨rfl, hm⟩
    | some sid =>
      rw [step_ok rfl (addOf_some ..)] at hd
      obtain ⟨hc, hs⟩ := Option.ite_none_right_eq_some.mp hs
      cases hd
      cases hs
      exact ⟨rfl, hm.add _ hc⟩
  | removeAce nIndex =>
    have hremove := removeAce_eq nIndex d
    simp only [AccessList.step, ← hm.acl] at hs
    by_cases h : nIndex < d.acl.length
    · rw [if_pos h] at hremove hs
      rw [step_ok rfl hremove] at hd
      cases hd
      cases hs
      have hp : d.pAcl = none := (of_decide_eq_true hok).resolve_left (by omega)
      exact ⟨rfl, hm.entries (·.eraseIdx nIndex) (fun l => List.eraseIdx_sublist l nIndex) (.inl hp)⟩
    · rw [if_neg h] at hremove hs
      rw [step_error rfl hremove] at hd
      cases hd
      cases hs
      exact ⟨rfl, hm⟩
  | removeAces rSid =>
    cases rSid with
    | none =>
      rw [step_error rfl (show CDacl.removeAces none d = .error .invalidArg d from rfl)] at hd
      cases hd
      cases hs
      exact ⟨rfl, hm⟩
    | some sid =>
      rw [step_ok rfl (removeAces_some sid hm.acl_null hm.counted)] at hd
      cases hd
      cases hs
      refine ⟨by rw [hm.acl], hm.entries (·.filter fun a => !sid.equal a.sid) (fun l => List.filter_sublist) ?_⟩
      cases hany : d.acl.any fun a => sid.equal a.sid with
      | true => exact .inl rfl
      | false =>
        refine .inr ⟨List.filter_eq_self.mpr fun a ha => ?_, rfl⟩
        have := List.any_eq_false.mp hany a ha
        rw [Bool.not_eq_true] at this
        rw [this]
        rfl
  | removeAllAces =>
    rw [step_ok rfl (show CDacl.removeAllAces d = .ok () { d with acl := [], pAcl := none } from rfl)] at hd
    cases hd
    cases hs
    exact ⟨rfl, hm.entries (fun _ => []) List.nil_sublist (.inl rfl)⟩
  | setNull =>
    rw [step_ok rfl (show CDacl.setNull d = .ok () ⟨[], none, true, d.aclRevision⟩ from rfl)] at hd
    cases hd
    cases hs
    exact ⟨rfl, .changed rfl rfl hm.aclRevision (hm.revisionOk.subset fun a ha => by cases ha) (Nat.two_pow_pos 32) rfl⟩
  | setEmpty =>
    rw [step_ok rfl (show CDacl.setEmpty d = .ok () ⟨[], none, false, d.aclRevision⟩ from rfl)] at hd
    cases hd
    cases hs
    exact ⟨rfl, .changed rfl rfl hm.aclRevision (hm.revisionOk.subset fun a ha => by cases ha) (Nat.two_pow_pos 32) rfl⟩
  | getAceCount =>
    rw [step_ok rfl (show (get : M CDacl) d = .ok d d from rfl)] at hd
    cases hd
    cases hs
    exact ⟨by rw [getAceCount, Nat.mod_eq_of_lt hm.counted, hm.acl], hm⟩
  | isNull =>
    rw [step_ok rfl (show (get : M CDacl) d = .ok d d from rfl)] at hd
    cases hd
    cases hs
    exact ⟨by rw [hm.null], hm⟩
  | getPACL refused => exact hm.getPACL (by simpa [ok] using hok) hd hs
  | assign rhs =>
    obtain ⟨⟨hr, hnil, hc⟩, hs⟩ := Option.ite_none_right_eq_some.mp hs
    rw [step_ok rfl (assign_eq hc d)] at hd
    have hsame : rhs.acl.map recopied = rhs.acl := of_decide_eq_true hok
    rw [hsame] at hd
    cases hd
    cases hs
    refine ⟨rfl, .changed ?_ ?_ rfl hr hc rfl⟩
    · cases rhs.null <;> rfl
    · cases hnull : rhs.null with
      | true => rw [hnil hnull]; rfl
      | false => rfl
  | assignAcl rhs =>
    cases rhs with
    | none =>
      rw [step_ok rfl (show CDacl.assignAcl none d = .ok () ⟨[], none, true, d.aclRevision⟩ from rfl)] at hd
      cases hd
      cases hs
      have hr := hm.revisionOk.subset fun a (ha : a ∈ []) => by cases ha
      exact ⟨rfl, .changed rfl rfl hm.aclRevision hr (Nat.two_pow_pos 32) rfl⟩
    | some r =>
      obtain ⟨⟨hr, hfits⟩, hs⟩ := Option.ite_none_right_eq_some.mp hs
      rw [step_ok rfl (assignAcl_eq hr d)] at hd
      cases hd
      cases hs
      have hn : d.null = false := of_decide_eq_true hok
      have hlen := length_le_totalLength r.2
      exact ⟨rfl, .changed hn rfl rfl hr (by dsimp only; omega) rfl⟩

/-! ## Every run -/

section Run
variable {calls : List Call} {d : CDacl} {s : AccessList} {seen seen' : List Seen}

theorem matches_run (hd : exec (only (fun d c => ok d c = true) CDacl.step) CDacl.new calls = some (d, seen))
    (hs : exec AccessList.step AccessList.new calls = some (s, seen')) : seen = seen' ∧ Matches d s := by
  refine exec_agree Matches ?_ calls matches_new hd hs
  intro d s c d' s' o o' hm hd hs
  obtain ⟨hok, hd⟩ := only_eq_some.mp hd
  exact hm.step hok hd hs

/-- `WD` and `BA`. -/
def world : Sid := ⟨⟨#[0, 0, 0, 0, 0, 1], rfl⟩, [0], by decide⟩
def admins : Sid := ⟨⟨#[0, 0, 0, 0, 0, 5], rfl⟩, [32, 544], by decide⟩

def someCalls : List Call :=
  [.add true (some world) 1 0 none, .add true (some admins) 3 16 (some ⟨some guidNull, none⟩), .removeAce 0,
    .add false (some world) 2 0 none, .getAceCount, .getPACL none]

/-- `GetPACL` gives the entries in order, as the bytes that `GetACE` writes. Any other list
    that it is assigned to has them then, and gives the same, but a null list stays null and
    gives nothing. Or there is nothing to give, or too much. -/
def Gives (d : CDacl) : Prop :=
  (d.null = true ∧ CDacl.getPACL none d = .ok none d) ∨
  (d.null = false ∧ sizeOfAcl + totalLength d.acl < 2 ^ 16 ∧ ∃ aces p d',
    aces.Perm d.acl ∧ (aces.Pairwise fun x y => x.rank ≤ y.rank) ∧ CDacl.getPACL none d = .ok (some p) d' ∧
    p.aclRevision = d.aclRevision ∧ p.aclSize = sizeOfAcl + p.aces.length ∧ p.aceCount = aces.length ∧
    some p.aces = (aces.mapM getACE).map List.flatten ∧
    ∀ e : CDacl, CDacl.assignAcl (some p) e = .ok () ⟨aces, none, e.null, d.aclRevision⟩ ∧
      ∃ e', CDacl.getPACL none ⟨aces, none, e.null, d.aclRevision⟩ = .ok (if e.null then none else some p) e') ∨
  (d.null = false ∧ 2 ^ 16 ≤ sizeOfAcl + totalLength d.acl ∧
    (sizeOfAcl + totalLength d.acl < 2 ^ 32 → CDacl.getPACL none d = .error .lastWin32 d))

theorem mapM_getACE (aces : List CAccessAce) : (aces.mapM getACE).map List.flatten = some (aces.flatMap layout) := by
  induction aces with
  | nil => rfl
  | cons a as ih =>
    obtain ⟨bytes, hbytes, hflat⟩ := Option.map_eq_some_iff.mp ih
    rw [List.mapM_cons, getACE_eq, hbytes, List.flatMap_cons, ← hflat]
    rfl

theorem length_flatMap_layout (aces : List CAccessAce) : (aces.flatMap layout).length = totalLength aces := by
  induction aces with
  | nil => rfl
  | cons a as ih => rw [List.flatMap_cons, List.length_append, length_layout, ih, totalLength]

theorem Matches.gives {d : CDacl} {s : AccessList} (hm : Matches d s) : Gives d := by
  cases hn : d.null with
  | true =>
    refine .inl ⟨hn, ?_⟩
    unfold CDacl.getPACL
    rw [if_neg (by simp [hn]), hm.pAcl_null hn]
  | false =>
    have hperm := canonical_perm d.acl
    have hr := hm.revisionOk.subset fun a ha => hperm.mem_iff.mp ha
    have hgives : ∀ d', sizeOfAcl + totalLength d.acl < 2 ^ 16 →
        CDacl.getPACL none d = .ok (some (aclOf d.aclRevision (canonical d.acl))) d' → Gives d := by
      intro d' hfits hget
      refine .inr (.inl ⟨hn, hfits, canonical d.acl, _, d', hperm, canonical_sorted _, hget, rfl, ?_, rfl,
        (mapM_getACE _).symm, fun e => ⟨assignAcl_eq hr e, ?_⟩⟩)
      · exact congrArg (sizeOfAcl + ·) (length_flatMap_layout _).symm
      · cases hnull : e.null with
        | true => exact ⟨_, rfl⟩
        | false =>
          have hback : CDacl.getPACL none ⟨canonical d.acl, none, false, d.aclRevision⟩ = _ :=
            getPACL_eq rfl rfl hr (by rw [totalLength_perm hperm]; exact hfits) fun k hk => by cases hk
          rw [canonical_canonical] at hback
          exact ⟨_, hback⟩
    cases hp : d.pAcl with
    | some p =>
      obtain ⟨-, hcanonical, hkept, hfits⟩ := hm.kept p hp
      refine hgives d hfits ?_
      unfold CDacl.getPACL
      rw [if_neg (by simp [hp]), hp, hkept, hcanonical]
    | none =>
      by_cases hfits : sizeOfAcl + totalLength d.acl < 2 ^ 16
      · exact hgives _ hfits (getPACL_eq hp hn hm.revisionOk hfits fun k hk => by cases hk)
      · exact .inr (.inr ⟨hn, by omega, getPACL_eq_error hp hn (by simp) (by omega)⟩)

theorem run_getPACL (hd : exec (only (fun d c => ok d c = true) CDacl.step) CDacl.new calls = some (d, seen))
    (hs : exec AccessList.step AccessList.new calls = some (s, seen')) : Gives d :=
  (matches_run hd hs).2.gives

theorem run_getPACL_some : ∃ d s seen seen',
    exec (only (fun d c => ok d c = true) CDacl.step) CDacl.new someCalls = some (d, seen) ∧
      exec AccessList.step AccessList.new someCalls = some (s, seen') ∧ Gives d := by
  have hsome : (exec (only (fun d c => ok d c = true) CDacl.step) CDacl.new someCalls).isSome = true := by
    decide +kernel
  obtain ⟨⟨d, seen⟩, hd⟩ := Option.isSome_iff_exists.mp hsome
  have hs : exec AccessList.step AccessList.new someCalls = some (_, _) := rfl
  exact ⟨d, _, seen, _, hd, hs, run_getPACL hd hs⟩

/-- What a `GetPACL` leaves that ran out of memory at an entry: the next one gives the `ACL`
    of those before it. -/
theorem half_kept (hd : exec (only (fun d c => ok d c = true) CDacl.step) CDacl.new calls = some (d, seen))
    (hs : exec AccessList.step AccessList.new calls = some (s, seen')) (hp : d.pAcl = none) (hn : d.null = false)
    (hfits : sizeOfAcl + totalLength d.acl < 2 ^ 16) {k : Nat} (hk : k < d.acl.length) (refused : Option Nat) :
    ∃ d' p, CDacl.getPACL (some (k + 1)) d = .error .outOfMemory d' ∧ CDacl.getPACL refused d' = .ok (some p) d' ∧
      p.aceCount = k ∧ p.aces = ((canonical d.acl).take k).flatMap layout := by
  refine ⟨_, ⟨d.aclRevision, sizeOfAcl + totalLength d.acl, k, ((canonical d.acl).take k).flatMap layout⟩,
    getPACL_refused hp hn (matches_run hd hs).2.revisionOk hfits hk, ?_, rfl, rfl⟩
  unfold CDacl.getPACL
  rw [if_neg (by simp)]

end Run

end Dumbnose.Security
