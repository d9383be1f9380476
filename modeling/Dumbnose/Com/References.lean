/-
  Dumbnose.Com.References — whose the references to an object are.

  `Owned`: an object has as many references as there are pointers to it with callers, and
  it is there as long as it has any. The call that is running may have more (`loose`).
  `AddRef`, `Release` and `QueryInterface` keep this, and so does `CreateInstance`, whose
  `Release` at the end gives up the reference that `new` began with.

  `RegisterClassObject` makes a reference for `CoRegisterClassObject` to be called with
  and gives it up nowhere: whatever it is called on outlives every pointer to it. Beside
  that only an object of no interfaces, which does not answer `IUnknown`, and a count of
  2^32 are in the way (`balanced_iff`).
-/

import Dumbnose.Lib.Splits
import Dumbnose.Com.ClassFactory

namespace Dumbnose.Com.Server

open Unknown

variable {I : Type}

/-- The references there are: those of the running call, and the pointers with callers. -/
def owners (loose : List Nat) (s : Server I) (o : Nat) : Nat := loose.count o + s.held.countP fun p => p.object = o

section Updates
variable {loose : List Nat} {s : Server I} {o : Nat}

@[simp] theorem setObject_self (s : Server I) (o : Nat) (x : Object I) : (s.setObject o x).object o = x :=
  Function.update_self _ _ _

theorem setObject_of_ne {o' : Nat} (x : Object I) (h : o' ≠ o) : (s.setObject o x).object o' = s.object o' :=
  Function.update_of_ne h _ _

/-- What holds of the new object and of all others. -/
theorem forall_setObject {P : Nat → Object I → Prop} {x : Object I} (hx : P o x)
    (hr : ∀ o', o' ≠ o → P o' (s.object o')) : ∀ o', P o' ((s.setObject o x).object o') := by
  intro o'
  by_cases e : o' = o
  · subst e
    rwa [setObject_self]
  · rw [setObject_of_ne x e]
    exact hr o' e

theorem owners_give (p : Pointer I) (o : Nat) : owners loose (s.give p) o = owners (p.object :: loose) s o := by
  unfold owners give
  rw [List.countP_cons, List.count_cons]
  by_cases e : p.object = o
  · simp [e]; omega
  · simp [e]

theorem countP_give (p : Pointer I) : ((s.give p).held.countP fun q => q.object = p.object) =
    (s.held.countP fun q => q.object = p.object) + 1 := by
  simp [Server.give]

end Updates

variable (iidUnknown : I)

/-- What was answered, and whose the references are. -/
structure Balanced (s : Server I) : Prop where
  answers : ∀ o riid out before after, .queried o riid out before after ∈ s.log →
    (out.isSome = true ↔ riid = iidUnknown ∨ riid ∈ (s.object o).interfaces)
  identity : ∀ o q q' b a b' a', .queried o iidUnknown (some q) b a ∈ s.log →
    .queried o iidUnknown (some q') b' a' ∈ s.log → q = q'
  counts : ∀ o riid out before after, .queried o riid out before after ∈ s.log →
    after = before + if out.isSome then 1 else 0
  created : ∀ out references, .created out references ∈ s.log → references = if out.isSome then some 1 else none
  references : ∀ o, (s.object o).alive = true → (s.object o).refCount = s.held.countP fun p => p.object = o
  deleted : ∀ o, o < s.next → ((s.object o).alive = true ↔ ∃ p ∈ s.held, p.object = o)

/-- The object answers for itself, and its count has room for one more. -/
def Room (s : Server I) (o : Nat) (riid : I) : Prop :=
  (riid = iidUnknown → (s.object o).interfaces ≠ []) ∧
    (riid = iidUnknown ∨ riid ∈ (s.object o).interfaces → (s.object o).refCount + 1 < 2 ^ 32)

/-- If the call is made: no factory registers itself, no object of no interfaces is asked for
    `IUnknown`, and no count gets to 2^32. -/
def Returned (s : Server I) (c : Call I) : Prop :=
  (∀ p ∈ c.through, p ∈ s.held) →
    match c with
    | .new _ | .newFactory _ | .release _ => True
    | .addRef p => (s.object p.object).refCount + 1 < 2 ^ 32
    | .queryInterface p riid => Room iidUnknown s p.object riid
    | .createInstance p aggregated memory riid =>
      ¬ aggregated → memory → riid = iidUnknown → (s.object p.object).creates ≠ some []
    | .registerClassObject p _ => (s.object p.object).creates = none

/-- A reference more than there are pointers, or fewer. -/
theorem not_balanced_of_count {t : Server I} {o : Nat} (ha : (t.object o).alive = true)
    (hc : (t.object o).refCount ≠ t.held.countP fun p => p.object = o) : ¬ Balanced iidUnknown t := fun hb =>
  hc (hb.references o ha)

variable [DecidableEq I]

/-- What the log may say of an object that is there or was. -/
def Answered (s : Server I) : Seen I → Prop
  | .queried o riid out before after =>
    o < s.next ∧ (riid = iidUnknown → (s.object o).interfaces ≠ []) ∧
      out = queryInterface iidUnknown (s.object o).interfaces riid ∧ after = before + if out.isSome then 1 else 0
  | .created out references => references = if out.isSome then some 1 else none

structure Owned (loose : List Nat) (s : Server I) : Prop where
  count : ∀ o, (s.object o).refCount = owners loose s o
  alive : ∀ o, (s.object o).alive = true ↔ (s.object o).refCount ≠ 0
  small : ∀ o, (s.object o).refCount < 2 ^ 32
  made : ∀ o, (s.object o).refCount ≠ 0 → o < s.next
  logged : ∀ e ∈ s.log, Answered iidUnknown s e

/-! ## One update at a time -/

section Updates
variable {iidUnknown} {loose : List Nat} {s : Server I} {o : Nat}

/-- What is made later, and a change of other fields than the interfaces, leaves the log right. -/
theorem Answered.mono {t : Server I} {e : Seen I} (h : Answered iidUnknown s e) (hn : s.next ≤ t.next)
    (hi : ∀ o, o < s.next → (t.object o).interfaces = (s.object o).interfaces) : Answered iidUnknown t e := by
  cases e with
  | created out references => exact h
  | queried o riid out before after =>
    obtain ⟨ho, hne, hout, ha⟩ := h
    refine ⟨ho.trans_le hn, ?_, ?_, ha⟩
    · rwa [hi o ho]
    · rwa [hi o ho]

/-- One object's count is changed, with the references to it. -/
theorem Owned.setObject (h : Owned iidUnknown loose s) {loose' : List Nat} {x : Object I} (ho : o < s.next)
    (hi : x.interfaces = (s.object o).interfaces) (ha : x.alive = true ↔ x.refCount ≠ 0) (hs : x.refCount < 2 ^ 32)
    (hc : x.refCount = owners loose' s o) (hl : ∀ o', o' ≠ o → loose'.count o' = loose.count o') :
    Owned iidUnknown loose' (s.setObject o x) := by
  refine ⟨?_, ?_, ?_, ?_, fun e he => ?_⟩
  · apply forall_setObject (P := fun o' y => y.refCount = owners loose' s o') hc
    intro o' hne
    rw [h.count]
    exact congrArg (· + _) (hl o' hne).symm
  · exact forall_setObject (P := fun _ y => y.alive = true ↔ y.refCount ≠ 0) ha fun o' _ => h.alive o'
  · exact forall_setObject (P := fun _ y => y.refCount < 2 ^ 32) hs fun o' _ => h.small o'
  · exact forall_setObject (P := fun o' y => y.refCount ≠ 0 → o' < s.next) (fun _ => ho) fun o' _ => h.made o'
  · refine (h.logged e he).mono le_rfl fun o' _ => ?_
    exact forall_setObject (P := fun o' y => y.interfaces = (s.object o').interfaces) hi (fun _ _ => rfl) o'

theorem Owned.addRef (h : Owned iidUnknown loose s) (ho : (s.object o).refCount ≠ 0)
    (hs : (s.object o).refCount + 1 < 2 ^ 32) : Owned iidUnknown (o :: loose) (s.addRef o) := by
  have hinc : interlockedIncrement (s.object o).refCount = (s.object o).refCount + 1 := if_neg (Nat.ne_of_lt hs)
  refine h.setObject (h.made o ho) rfl ?_ ?_ ?_ fun o' hne => List.count_cons_of_ne (Ne.symm hne)
  · rw [hinc, h.alive]
    exact ⟨fun _ => Nat.succ_ne_zero _, fun _ => ho⟩
  · rwa [hinc]
  · show interlockedIncrement _ = _
    rw [hinc, h.count, owners, owners, List.count_cons_self]
    omega

theorem Owned.release (h : Owned iidUnknown (o :: loose) s) : Owned iidUnknown loose (s.release o) := by
  have hc : (s.object o).refCount = owners loose s o + 1 := by
    rw [h.count, owners, owners, List.count_cons_self]
    omega
  have hdec : interlockedDecrement (s.object o).refCount = owners loose s o := by rw [hc]; rfl
  refine h.setObject (h.made o (by omega)) rfl ?_ ?_ hdec fun o' hne => (List.count_cons_of_ne (Ne.symm hne)).symm
  · rw [decide_eq_true_iff]
  · have := h.small o
    show interlockedDecrement _ < _
    rw [hdec]
    omega

theorem Owned.see (h : Owned iidUnknown loose s) {e : Seen I} (he : Answered iidUnknown s e) :
    Owned iidUnknown loose (s.see e) := by
  refine ⟨h.count, h.alive, h.small, h.made, fun e' he' => ?_⟩
  have hmono : ∀ e', Answered iidUnknown s e' → Answered iidUnknown (s.see e) e' := fun e' h' =>
    h'.mono le_rfl fun _ _ => rfl
  rcases List.mem_append.mp he' with he' | he'
  · exact hmono e' (h.logged e' he')
  · rw [List.mem_singleton.mp he']
    exact hmono e he

/-- A reference of the call is the caller's. -/
theorem Owned.give {p : Pointer I} (h : Owned iidUnknown (p.object :: loose) s) :
    Owned iidUnknown loose (s.give p) := by
  refine ⟨fun o => ?_, h.alive, h.small, h.made, fun e he => (h.logged e he).mono le_rfl fun _ _ => rfl⟩
  rw [owners_give]
  exact h.count o

/-- A reference of a caller is the call's. -/
theorem Owned.take {p : Pointer I} (h : Owned iidUnknown loose s) (hp : p ∈ s.held) :
    Owned iidUnknown (p.object :: loose) { s with held := s.held.erase p } := by
  refine ⟨fun o => ?_, h.alive, h.small, h.made, fun e he => (h.logged e he).mono le_rfl fun _ _ => rfl⟩
  have hperm : s.held.countP (fun q => q.object = o) = (p :: s.held.erase p).countP fun q => q.object = o :=
    (List.perm_cons_erase hp).countP_eq _
  have ho : owners loose s o = owners loose (({ s with held := s.held.erase p } : Server I).give p) o :=
    congrArg (loose.count o + ·) hperm
  exact (h.count o).trans (ho.trans (owners_give p o))

theorem Owned.count_next (h : Owned iidUnknown loose s) : owners loose s s.next = 0 := by
  by_contra hne
  rw [← h.count] at hne
  exact Nat.lt_irrefl _ (h.made _ hne)

theorem Owned.new (h : Owned iidUnknown loose s) (interfaces : List I) (creates : Option (List I)) :
    Owned iidUnknown (s.next :: loose) (s.new interfaces creates) := by
  have hnext := h.count_next
  unfold owners at hnext
  refine ⟨?_, ?_, ?_, ?_, fun e he => ?_⟩
  · apply forall_setObject (P := fun o y => y.refCount = owners (s.next :: loose) s o)
    · rw [owners, List.count_cons_self]
      show 1 = _
      omega
    · intro o hne
      rw [h.count, owners, owners, List.count_cons_of_ne (Ne.symm hne)]
  · exact forall_setObject (P := fun _ y => y.alive = true ↔ y.refCount ≠ 0) (by simp) fun o _ => h.alive o
  · exact forall_setObject (P := fun _ y => y.refCount < 2 ^ 32) (by simp) fun o _ => h.small o
  · apply forall_setObject (P := fun o y => y.refCount ≠ 0 → o < s.next + 1)
    · exact fun _ => Nat.lt_succ_self _
    · exact fun o _ h0 => (h.made o h0).trans (Nat.lt_succ_self _)
  · refine (h.logged e he).mono (Nat.le_succ _) fun o ho => ?_
    exact congrArg Object.interfaces (setObject_of_ne _ (Nat.ne_of_lt ho))

end Updates

/-! ## What the calls do -/

section Calls
variable {iidUnknown} {loose : List Nat} {s : Server I} {o : Nat} {riid : I}

theorem query_of_none (hq : queryInterface iidUnknown (s.object o).interfaces riid = none) :
    s.query iidUnknown o riid =
      (none, s.see (.queried o riid none (s.object o).refCount (s.object o).refCount)) := by
  unfold query
  rw [hq]

theorem query_of_some {type : I} (hq : queryInterface iidUnknown (s.object o).interfaces riid = some type) :
    s.query iidUnknown o riid =
      (some type, (s.addRef o).see
        (.queried o riid (some type) (s.object o).refCount ((s.addRef o).object o).refCount)) := by
  unfold query
  rw [hq]

theorem query_fst (s : Server I) (o : Nat) (riid : I) :
    (s.query iidUnknown o riid).1 = queryInterface iidUnknown (s.object o).interfaces riid := by
  cases hq : queryInterface iidUnknown (s.object o).interfaces riid with
  | none => rw [query_of_none hq]
  | some type => rw [query_of_some hq]

theorem query_held (s : Server I) (o : Nat) (riid : I) : (s.query iidUnknown o riid).2.held = s.held := by
  cases hq : queryInterface iidUnknown (s.object o).interfaces riid with
  | none => rw [query_of_none hq]; rfl
  | some type => rw [query_of_some hq]; rfl

theorem Owned.query_none (h : Owned iidUnknown loose s) (ho : (s.object o).refCount ≠ 0) (hr : Room iidUnknown s o riid)
    (hq : queryInterface iidUnknown (s.object o).interfaces riid = none) :
    Owned iidUnknown loose (s.query iidUnknown o riid).2 := by
  rw [query_of_none hq]
  exact h.see ⟨h.made o ho, hr.1, hq.symm, rfl⟩

theorem Owned.query_some (h : Owned iidUnknown loose s) (ho : (s.object o).refCount ≠ 0) (hr : Room iidUnknown s o riid)
    {type : I} (hq : queryInterface iidUnknown (s.object o).interfaces riid = some type) :
    Owned iidUnknown (o :: loose) (s.query iidUnknown o riid).2 := by
  have hany : riid = iidUnknown ∨ riid ∈ (s.object o).interfaces := by
    have := (queryInterface_isSome iidUnknown (s.object o).interfaces riid).mp (by rw [hq]; rfl)
    exact this.imp_left And.left
  have hi : ((s.addRef o).object o).interfaces = (s.object o).interfaces := by simp [Server.addRef]
  have hafter : ((s.addRef o).object o).refCount = (s.object o).refCount + 1 := by
    simp only [Server.addRef, setObject_self]
    exact if_neg (Nat.ne_of_lt (hr.2 hany))
  rw [query_of_some hq]
  refine (h.addRef ho (hr.2 hany)).see ⟨h.made o ho, ?_, ?_, hafter⟩
  · rw [hi]
    exact hr.1
  · rw [hi]
    exact hq.symm

theorem Owned.performQuery (h : Owned iidUnknown [] s) {p : Pointer I} (ho : (s.object p.object).refCount ≠ 0)
    (hr : Room iidUnknown s p.object riid) (iidClassFactory : I) :
    Owned iidUnknown [] (s.perform iidUnknown iidClassFactory (.queryInterface p riid)) := by
  cases hq : queryInterface iidUnknown (s.object p.object).interfaces riid with
  | none =>
    have := h.query_none ho hr hq
    rw [query_of_none hq] at this
    simpa only [perform, query_of_none hq] using this
  | some type =>
    have := h.query_some ho hr hq
    rw [query_of_some hq] at this
    simpa only [perform, query_of_some hq] using Owned.give (p := ⟨p.object, some type⟩) this

/-- The count of the object that was made is the caller's one reference, or the object is gone. -/
theorem Owned.createInstance (h : Owned iidUnknown [] s) {interfaces : List I} {aggregated memory : Bool}
    (hr : ¬ aggregated → memory → riid = iidUnknown → interfaces ≠ []) :
    Owned iidUnknown [] (s.createInstance iidUnknown interfaces aggregated memory riid) := by
  unfold Server.createInstance
  split_ifs with hc
  · exact h.see rfl
  obtain ⟨ha, hm⟩ := not_or.mp hc
  have hnew := h.new interfaces none
  have hself : (s.new interfaces none).object s.next = ⟨interfaces, none, 1, true⟩ := setObject_self _ _ _
  have hnone : (s.held.countP fun p => p.object = s.next) = 0 := by
    have := h.count_next
    unfold owners at this
    omega
  have hroom : Room iidUnknown (s.new interfaces none) s.next riid := by
    refine ⟨?_, fun _ => ?_⟩
    · rw [hself]
      exact hr ha (not_not.mp hm)
    · rw [hself]
      exact (by decide : 1 + 1 < 2 ^ 32)
  have hcount : ((s.new interfaces none).object s.next).refCount ≠ 0 := by rw [hself]; exact Nat.one_ne_zero
  have hq : _ = queryInterface iidUnknown _ riid := query_fst (s.new interfaces none) s.next riid
  have hheld : ((s.new interfaces none).query iidUnknown s.next riid).2.held = s.held := query_held ..
  rcases e : (s.new interfaces none).query iidUnknown s.next riid with ⟨out, t⟩
  rw [e] at hq hheld
  rw [← hheld] at hnone
  dsimp only
  rw [e]
  cases out with
  | none =>
    have ht := (hnew.query_none hcount hroom hq.symm).release
    rw [e] at ht
    refine ht.see ?_
    have hdead := ht.count s.next
    rw [owners, List.count_nil, Nat.zero_add] at hdead
    refine if_neg fun hal => (ht.alive s.next).mp hal ?_
    exact hdead.trans hnone
  | some type =>
    have ht := (hnew.query_some hcount hroom hq.symm).release
    rw [e] at ht
    refine (Owned.give (p := ⟨s.next, some type⟩) ht).see ?_
    have hone := ht.count s.next
    rw [owners, List.count_singleton_self] at hone
    replace hone := hone.trans (congrArg (1 + ·) hnone)
    exact (if_pos ((ht.alive s.next).mpr (by rw [hone]; exact Nat.one_ne_zero))).trans (congrArg some hone)

theorem Owned.held_ne_zero (h : Owned iidUnknown loose s) {p : Pointer I} (hp : p ∈ s.held) :
    (s.object p.object).refCount ≠ 0 := by
  have : 0 < s.held.countP fun q => q.object = p.object := List.countP_pos_iff.mpr ⟨p, hp, by simp⟩
  rw [h.count, owners]
  omega

theorem Owned.exec (h : Owned iidUnknown [] s) (iidClassFactory : I) {c : Call I} (hc : Returned iidUnknown s c) :
    Owned iidUnknown [] (s.exec iidUnknown iidClassFactory c) := by
  unfold Server.exec
  split_ifs with hp
  swap
  · exact h
  specialize hc hp
  cases c with
  | new interfaces => exact Owned.give (p := ⟨s.next, none⟩) (h.new interfaces none)
  | newFactory creates => exact Owned.give (p := ⟨s.next, none⟩) (h.new [iidClassFactory] (some creates))
  | addRef p => exact (h.addRef (h.held_ne_zero (hp p rfl)) hc).give
  | release p => exact (h.take (hp p rfl)).release
  | queryInterface p riid => exact h.performQuery (h.held_ne_zero (hp p rfl)) hc iidClassFactory
  | createInstance p aggregated memory riid =>
    simp only [perform]
    cases hcr : (s.object p.object).creates with
    | none => exact h
    | some interfaces =>
      refine h.createInstance fun ha hm hu => ?_
      rintro rfl
      exact hc ha hm hu hcr
  | registerClassObject p registers =>
    simp only [perform]
    rw [if_neg (by rw [hc]; exact Bool.false_ne_true)]
    exact h

theorem Owned.balanced (h : Owned iidUnknown [] s) : Balanced iidUnknown s := by
  refine ⟨fun o riid out b a he => ?_, fun o q q' b a b' a' he he' => ?_, fun o riid out b a he => ?_,
    fun out references he => h.logged _ he, fun o _ => ?_, fun o _ => ?_⟩
  · obtain ⟨-, hne, rfl, -⟩ := h.logged _ he
    rw [queryInterface_isSome]
    refine or_congr_left ⟨And.left, fun e => ⟨e, hne e⟩⟩
  · obtain ⟨-, -, hq, -⟩ := h.logged _ he
    obtain ⟨-, -, hq', -⟩ := h.logged _ he'
    exact Option.some.inj (hq.trans hq'.symm)
  · exact (h.logged _ he).2.2.2
  · rw [h.count, owners, List.count_nil, Nat.zero_add]
  · rw [h.alive, h.count, owners, List.count_nil, Nat.zero_add, ← Nat.pos_iff_ne_zero, List.countP_pos_iff]
    simp

end Calls

/-! ## What goes wrong -/

section Wrong
variable {iidUnknown} {loose : List Nat} {s : Server I} {o : Nat} {riid : I}

/-- One more than there is room for, or `IUnknown` of an object that has nothing to answer with. -/
theorem Owned.query_wrong (h : Owned iidUnknown loose s) (hr : ¬ Room iidUnknown s o riid) {t : Server I}
    (ht : ∀ e ∈ (s.query iidUnknown o riid).2.log, e ∈ t.log) : ¬ Balanced iidUnknown t := by
  intro hb
  cases hq : queryInterface iidUnknown (s.object o).interfaces riid with
  | none =>
    have hnot := (queryInterface_isSome iidUnknown (s.object o).interfaces riid).not.mp
      (by rw [hq]; exact Bool.false_ne_true)
    have hmem := (not_or.mp hnot).2
    rw [query_of_none hq] at ht
    have he := ht _ (List.mem_append_right _ (List.mem_singleton_self _))
    by_cases e : riid = iidUnknown
    · have := (hb.answers _ _ _ _ _ he).mpr (.inl e)
      cases this
    · exact hr ⟨fun e' => absurd e' e, fun hor => absurd hor (not_or.mpr ⟨e, hmem⟩)⟩
  | some type =>
    have hany := (queryInterface_isSome iidUnknown (s.object o).interfaces riid).mp (by rw [hq]; rfl)
    rw [query_of_some hq] at ht
    have he := ht _ (List.mem_append_right _ (List.mem_singleton_self _))
    have hcount := hb.counts _ _ _ _ _ he
    have hinc : ((s.addRef o).object o).refCount = interlockedIncrement (s.object o).refCount := by simp [Server.addRef]
    rw [hinc] at hcount
    refine hr ⟨fun e hnil => ?_, fun _ => ?_⟩
    · rw [hnil] at hany
      simp at hany
    · have := h.small o
      rw [Option.isSome_some, if_pos rfl, interlockedIncrement] at hcount
      split_ifs at hcount
      omega

theorem interlockedIncrement_ne (n : Nat) : interlockedIncrement n ≠ n := by
  unfold interlockedIncrement
  split_ifs <;> omega

/-- The reference of `unk` is nobody's. -/
theorem Owned.registerClassObject (h : Owned iidUnknown [] s) (ho : (s.object o).refCount ≠ 0) (registers : Bool) :
    ¬ Balanced iidUnknown (s.registerClassObject iidUnknown o registers) := by
  unfold Server.registerClassObject
  by_cases hr : Room iidUnknown s o iidUnknown
  swap
  · refine h.query_wrong hr fun e he => ?_
    rcases hq : s.query iidUnknown o iidUnknown with ⟨out, t⟩
    rw [hq] at he
    cases out with
    | none => exact he
    | some unk =>
      dsimp only
      split_ifs <;> exact he
  have hsome : (queryInterface iidUnknown (s.object o).interfaces iidUnknown).isSome = true :=
    (queryInterface_isSome ..).mpr (.inl ⟨rfl, hr.1 rfl⟩)
  obtain ⟨unk, hq⟩ := Option.isSome_iff_exists.mp hsome
  have ht := h.query_some ho hr hq
  have hout : (s.query iidUnknown o iidUnknown).1 = _ := query_fst ..
  rcases e : s.query iidUnknown o iidUnknown with ⟨out, t⟩
  rw [e] at ht hout
  obtain rfl : out = some unk := hout.trans hq
  replace ht : Owned iidUnknown [o] t := ht
  have hcount : (t.object o).refCount = (t.held.countP fun p => p.object = o) + 1 := by
    rw [ht.count, owners, List.count_singleton_self]
    omega
  have halive : (t.object o).alive = true := (ht.alive o).mpr (by omega)
  dsimp only
  split_ifs
  · apply not_balanced_of_count iidUnknown (o := o)
    · simpa [Server.addRef, Server.give] using halive
    · rw [countP_give ⟨o, some unk⟩, show (t.addRef o).held = t.held from rfl, ← hcount]
      simpa [Server.addRef, Server.give] using interlockedIncrement_ne _
  · exact not_balanced_of_count iidUnknown halive (by omega)

theorem Owned.exec_wrong (h : Owned iidUnknown [] s) (iidClassFactory : I) {c : Call I}
    (hc : ¬ Returned iidUnknown s c) : ¬ Balanced iidUnknown (s.exec iidUnknown iidClassFactory c) := by
  obtain ⟨hp, hc⟩ := Classical.not_imp.mp hc
  unfold Server.exec
  rw [if_pos hp]
  cases c with
  | new interfaces => exact absurd trivial hc
  | newFactory creates => exact absurd trivial hc
  | release p => exact absurd trivial hc
  | addRef p =>
    have hheld := h.held_ne_zero (hp p rfl)
    have hcount := h.count p.object
    rw [owners, List.count_nil, Nat.zero_add] at hcount
    apply not_balanced_of_count iidUnknown (o := p.object)
    · simpa [perform, Server.addRef, Server.give] using (h.alive _).mpr hheld
    · show ((s.addRef p.object).object p.object).refCount ≠ ((s.addRef p.object).give p).held.countP _
      rw [countP_give, show (s.addRef p.object).held = s.held from rfl, ← hcount]
      simp only [Server.addRef, setObject_self, interlockedIncrement]
      have := h.small p.object
      split_ifs <;> omega
  | queryInterface p riid =>
    refine h.query_wrong hc fun e he => ?_
    rcases hq : s.query iidUnknown p.object riid with ⟨out, t⟩
    rw [hq] at he
    simp only [perform, hq]
    cases out <;> exact he
  | createInstance p aggregated memory riid =>
    simp only [Classical.not_imp, not_not] at hc
    obtain ⟨ha, hm, rfl, hcr⟩ := hc
    have hr : ¬ Room riid (s.new [] none) s.next riid := fun hr => hr.1 rfl (by simp [Server.new])
    refine (h.new [] none).query_wrong hr fun e he => ?_
    rcases hq : (s.new [] none).query riid s.next riid with ⟨out, t⟩
    rw [hq] at he
    simp only [perform, hcr, Server.createInstance, ha, hm, hq]
    cases out <;> exact List.mem_append_left _ he
  | registerClassObject p registers =>
    simp only [perform]
    rw [if_pos (Option.isSome_iff_ne_none.mpr hc)]
    exact h.registerClassObject (h.held_ne_zero (hp p rfl)) registers

end Wrong

theorem empty_owned : Owned iidUnknown [] (empty : Server I) := by
  refine ⟨fun o => rfl, fun o => ?_, fun o => ?_, fun o h => absurd rfl h, fun e he => ?_⟩
  · simp [empty]
  · simp [empty]
  · cases he

theorem run_snoc (iidClassFactory : I) (s : Server I) (p : List (Call I)) (c : Call I) :
    s.run iidUnknown iidClassFactory (p ++ [c]) =
      (s.run iidUnknown iidClassFactory p).exec iidUnknown iidClassFactory c :=
  Lib.Splits.run_concat (exec iidUnknown iidClassFactory) (fun _ => rfl) (fun _ _ _ => rfl) s p c

/-- The references balance all through exactly the runs in which no factory registers itself, no
    object of no interfaces is asked for `IUnknown`, and no count gets to 2^32. -/
theorem balanced_iff (iidClassFactory : I) (calls : List (Call I)) :
    (∀ p, p <+: calls → Balanced iidUnknown (empty.run iidUnknown iidClassFactory p)) ↔
      ∀ p c, p ++ [c] <+: calls → Returned iidUnknown (empty.run iidUnknown iidClassFactory p) c := by
  refine Lib.Splits.forall_run_iff (run iidUnknown iidClassFactory empty) (exec iidUnknown iidClassFactory)
    (run_snoc iidUnknown iidClassFactory empty) (I := Owned iidUnknown []) (empty_owned iidUnknown) ?_ ?_ ?_ calls
  · intro s h
    exact h.balanced
  · intro s c h hc
    exact h.exec iidClassFactory hc
  · intro s c h hc
    exact h.exec_wrong iidClassFactory hc

/-- A factory is registered and everybody lets go of it, COM too. It stays. -/
theorem factory_stays :
    let s := (empty : Server Nat).run 0 1
      [.newFactory [7], .registerClassObject ⟨0, none⟩ true, .release ⟨0, some 1⟩, .release ⟨0, none⟩]
    s.held = [] ∧ (s.object 0).alive = true ∧ (s.object 0).refCount = 1 ∧ ¬ Balanced 0 s := by
  refine ⟨rfl, rfl, rfl, fun h => ?_⟩
  have := h.references 0 rfl
  cases this

end Dumbnose.Com.Server
