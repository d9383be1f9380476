/-
  Dumbnose.Btree.Limit — the file of 4 GiB beside a file without a limit.

  From `L` blocks on nothing can be counted, and every call that counts them stops. A
  call of `allocate_block` may make the last one all the same: it counted before. Each
  method of a node goes on to use the block it has allocated through a link, so it stops
  there. So a method does on the file with a limit what it does on the one without
  (`File.unlimited`), as long as that does not come to `L` blocks, and where it would,
  it stops (`mirrors_insert`, `mirrors_find`, ..; over trees `exec_cases`).

  The methods get at the file through `allocate_block` and `get_reference` alone.
  `Calls s t` says so of what became of a file without a limit: anything may be written
  to its blocks, but how many there are and which refusals are still to come is the work
  of some calls.
-/

import Dumbnose.Lib.Mirror
import Dumbnose.Btree.Memory
import Dumbnose.Mmap.BackingRuns

namespace Dumbnose.Btree

open Lib.Exec Lib.Runs
open Mmap (fileStep stock)

variable {K R : Type} {N : Nat} {L : Option Nat}

/-- The same file, without a limit on its length. -/
def File.unlimited (s : File K R N L) : File K R N := ⟨s.addr, s.blocks, s.blockCount, s.os⟩

def Tree.unlimited (t : Tree K R N L) : Tree K R N := ⟨t.file.unlimited, t.root⟩

theorem Counts.le {n m : Nat} (h : Counts L m) (hn : n ≤ m) : Counts L n := fun l hl => hn.trans_lt (h l hl)

/-! ## What the calls make of a file -/

/-- `t` is `s` after some calls, with anything written to its blocks. -/
structure Calls (s t : File K R N) : Prop where
  addr : t.addr = s.addr
  calls : ∃ calls seen, ∀ u : File K R N,
    exec fileStep (stock u s.blockCount s.os) calls = some (stock u t.blockCount t.os, seen)

theorem Calls.refl (s : File K R N) : Calls s s := ⟨rfl, [], [], fun _ => rfl⟩

theorem Calls.trans {s t u : File K R N} (hst : Calls s t) (htu : Calls t u) : Calls s u := by
  obtain ⟨calls, seen, hrun⟩ := hst.calls
  obtain ⟨calls', seen', hrun'⟩ := htu.calls
  exact ⟨htu.addr.trans hst.addr, calls ++ calls', seen ++ seen', fun v => exec_append (hrun v) (hrun' v)⟩

instance : IsPreorder (File K R N) Calls where
  refl := .refl
  trans _ _ _ := .trans

/-- No block is ever given back. -/
theorem Calls.le {s t : File K R N} (h : Calls s t) : s.blockCount ≤ t.blockCount := by
  obtain ⟨calls, seen, hrun⟩ := h.calls
  obtain ⟨n, rest, ht, hle⟩ := Mmap.exec_stock (hrun s)
  rwa [show t.blockCount = n from congrArg File.blockCount ht]

theorem calls_write (s : File K R N) (b : Nat) (n : Node K R N) :
    Calls s { s with blocks := Function.update s.blocks b n } := ⟨rfl, [], [], fun _ => rfl⟩

theorem calls_allocateBlock (file : Nat) : Moves Calls (allocateBlock file : M K R N none Nat) := by
  intro s
  by_cases hf : file = s.addr
  · obtain ⟨a, rest, hstep⟩ := Mmap.fileStep_allocates (K := K) (R := R) (N := N) s.blockCount s.os
    have hs : fileStep s .allocateBlock = some (stock s (Mmap.blocksAfter s.blockCount a) rest, _) := hstep s
    have hcalls : Calls s (stock s (Mmap.blocksAfter s.blockCount a) rest) :=
      ⟨rfl, [.allocateBlock], _, fun u => exec_cons (hstep u) rfl⟩
    unfold wp
    rw [hf]
    cases hx : allocateBlock s.addr s with
    | ok b t =>
      simp only [fileStep, hx] at hs
      rw [(Prod.mk.inj (Option.some.inj hs)).1]
      exact hcalls
    | error e t =>
      simp only [fileStep, hx] at hs
      rw [(Prod.mk.inj (Option.some.inj hs)).1]
      exact hcalls
  · simp [allocateBlock, useFile, hf, Calls.refl]

/-! ## A bound on the number of blocks -/

/-- What the methods see of a file is the same. -/
structure Alike (s : File K R N L) (u : File K R N) : Prop where
  addr : u.addr = s.addr
  blocks : u.blocks = s.blocks
  blockCount : u.blockCount = s.blockCount

/-- What the methods need of a bound on a file: it is one on how many blocks there are,
    and where a call of `allocate_block` comes past it, that was the last block. -/
structure Counted (c : Bound (File K R N L) (File K R N) Err) : Prop where
  stop : c.stop = .fileLength
  alike : ∀ s, Alike s (c.free s)
  counts : ∀ s, c.within s → Counts L s.blockCount
  write : ∀ s b n, c.within s → c.within { s with blocks := Function.update s.blocks b n } ∧
    c.free { s with blocks := Function.update s.blocks b n } =
      { c.free s with blocks := Function.update s.blocks b n }
  may_write : ∀ (u : File K R N) b n, c.may u { u with blocks := Function.update u.blocks b n }
  may_allocate : ∀ file, Moves c.may (allocateBlock file)
  allocate : ∀ file s, c.within s → wp (allocateBlock file)
    (fun i t => c.within t ∧ allocateBlock file (c.free s) = .ok i (c.free t) ∨
      i ≠ 0 ∧ file = t.addr ∧ ¬ Counts L t.blockCount ∧ ∀ n, n.recordCount = 0 →
        Past c (allocateBlock file) { t with blocks := Function.update t.blocks i n } (c.free s))
    (fun e t => allocateBlock file (c.free s) = .error e (c.free t)) s

section Methods
variable {c : Bound (File K R N L) (File K R N) Err} (hc : Counted c) {this : Nat}
include hc

/-! ### Memory and the file -/

theorem mirrors_get {α : Type} {f : File K R N L → M K R N L α} {g : File K R N → M K R N none α}
    (h : ∀ s u, Alike s u → Mirrors c (f s) (g u)) : Mirrors c (get >>= f) (get >>= g) :=
  .get_bind hc.alike (fun u => ⟨⟨u.addr, u.blocks, u.blockCount, u.os⟩, rfl, rfl, rfl⟩) h

theorem mirrors_node : Mirrors c (node this) (node this) :=
  .ite (.throw _) (mirrors_get hc fun s u h => by rw [h.blocks]; exact .pure _)

theorem mirrors_update (f : Node K R N → Node K R N) : Mirrors c (update this f) (update this f) := by
  refine .ite (.throw _) ⟨fun u => hc.may_write u this _, fun s hs => ?_⟩
  obtain ⟨h1, h2⟩ := hc.write s this (f (s.blocks this)) hs
  refine ⟨h1, ?_⟩
  rw [h2, ← (hc.alike s).blocks]
  rfl

theorem mirrors_entry (i : Nat) : Mirrors c (entry this i) (entry this i) := by
  refine (mirrors_node hc).bind fun n => ?_
  cases n.entries[i]? with
  | some e => exact .pure e
  | none => exact .throw _

theorem mirrors_setEntry (i : Nat) (e : Entry K R) : Mirrors c (setEntry this i e) (setEntry this i e) :=
  .ite (mirrors_update hc _) (.throw _)

omit hc in
theorem mirrors_assert (p : Prop) [Decidable p] : Mirrors c (assert p) (assert p) := .ite (.pure _) (.throw _)

theorem mirrors_useFile (file : Nat) : Mirrors c (useFile file) (useFile file) :=
  mirrors_get hc fun s u h => by rw [h.addr]; exact .ite (.pure _) (.throw _)

omit hc in
theorem countBlocks_ok {s : File K R N L} (hs : Counts L s.blockCount) : countBlocks s = .ok s.blockCount s := by
  show (if Counts L s.blockCount then pure s.blockCount else throw .fileLength : M K R N L Nat) s = _
  rw [if_pos hs]
  rfl

omit hc in
theorem countBlocks_past {s : File K R N L} (hs : ¬ Counts L s.blockCount) : countBlocks s = .error .fileLength s := by
  show (if Counts L s.blockCount then pure s.blockCount else throw .fileLength : M K R N L Nat) s = _
  rw [if_neg hs]
  rfl

theorem mirrors_countBlocks : Mirrors c (countBlocks : M K R N L Nat) countBlocks := by
  refine ⟨.bind .get fun u => .ite (.pure _) (.throw _), fun s hs => ?_⟩
  have hcounts := hc.counts s hs
  rw [countBlocks_ok (counts_none _), (hc.alike s).blockCount]
  unfold countBlocks
  rw [wp_bind, wp_get, if_pos hcounts, wp_pure]
  exact ⟨hs, rfl⟩

theorem mirrors_getReference (file index : Nat) : Mirrors c (getReference file index) (getReference file index) :=
  (mirrors_useFile hc file).bind fun _ => (mirrors_countBlocks hc).bind fun _ => .ite (.pure _) (.throw _)

theorem mirrors_construct (b file thisNode parent : Nat) :
    Mirrors c (construct b file thisNode parent) (construct b file thisNode parent) := mirrors_update hc _

theorem mirrors_convertWith (file index : Nat) : Mirrors c (convertWith file index) (convertWith file index) :=
  .ite (.pure _) ((mirrors_getReference hc file index).bind fun _ => (mirrors_update hc _).bind fun _ => .pure _)

theorem mirrors_convertIndexToPtr (index : Nat) :
    Mirrors c (convertIndexToPtr this index) (convertIndexToPtr this index) :=
  (mirrors_node hc).bind fun _ => mirrors_convertWith hc _ _

theorem mirrors_setParentNode (parent : Nat) : Mirrors c (setParentNode this parent) (setParentNode this parent) :=
  mirrors_update hc _

/-- A node tells a child that it is its parent. -/
theorem mirrors_adopt (child : Nat) : Mirrors c
    (do
      let child ← convertIndexToPtr this child
      setParentNode child (← node this).thisNode)
    (do
      let child ← convertIndexToPtr this child
      setParentNode child (← node this).thisNode) :=
  (mirrors_convertIndexToPtr hc child).bind fun _ => (mirrors_node hc).bind fun _ => mirrors_setParentNode hc _

theorem mirrors_setLargerNode (larger : Nat) : Mirrors c (setLargerNode this larger) (setLargerNode this larger) :=
  (mirrors_update hc _).bind fun _ => .ite (mirrors_adopt hc larger) (.pure _)

theorem mirrors_full : Mirrors c (full this) (full this) := (mirrors_node hc).bind fun _ => .pure _

theorem mirrors_findRootFrom (f : Nat) : Mirrors c (findRootFrom f this) (findRootFrom f this) := by
  induction f generalizing this with
  | zero => exact .throw _
  | succ f ih =>
    exact (mirrors_node hc).bind fun n => .ite (.pure _) ((mirrors_convertIndexToPtr hc _).bind fun _ => ih)

theorem mirrors_findRoot : Mirrors c (findRoot this) (findRoot this) :=
  mirrors_get hc fun s u h => by rw [h.blockCount]; exact mirrors_findRootFrom hc _

/-! ### Inserting into a node -/

theorem mirrors_findNodePtr (nodeRef : Nat) : Mirrors c (findNodePtr this nodeRef) (findNodePtr this nodeRef) := by
  refine (mirrors_node hc).bind fun n => .ite (.pure _) ?_
  refine (Mirrors.scan (fun i => (mirrors_entry hc i).bind fun e => .pure _) _ _).bind fun o => ?_
  cases o with
  | some i => exact .pure _
  | none => exact (mirrors_assert _).bind fun _ => .throw _

theorem mirrors_setSlot (ref : Slot) (index : Nat) : Mirrors c (setSlot this ref index) (setSlot this ref index) := by
  unfold setSlot
  cases ref with
  | larger => exact mirrors_update hc _
  | smaller i => exact (mirrors_entry hc i).bind fun e => mirrors_setEntry hc i _

theorem mirrors_freeUpFrom (position i : Nat) :
    Mirrors c (freeUpFrom this position i) (freeUpFrom this position i) := by
  induction i with
  | zero => exact .pure ()
  | succ i ih =>
    exact .ite ((mirrors_entry hc i).bind fun e => (mirrors_setEntry hc _ e).bind fun _ => ih) (.pure ())

theorem mirrors_freeUp (position : Nat) : Mirrors c (freeUp this position) (freeUp this position) :=
  (mirrors_node hc).bind fun _ => mirrors_freeUpFrom hc position _

theorem mirrors_insertOnEndUnsafe (e : Entry K R) : Mirrors c (insertOnEndUnsafe this e) (insertOnEndUnsafe this e) :=
  (mirrors_node hc).bind fun _ => (mirrors_assert _).bind fun _ => .ite (.throw _) <|
    (mirrors_setEntry hc _ e).bind fun _ => .bind (.ite (mirrors_adopt hc _) (.pure _)) fun _ => mirrors_update hc _

/-! ### Splitting -/

omit hc in
/-- Past the limit no link leads anywhere. -/
theorem convertWith_stops {file index : Nat} {s : File K R N L} (hf : file = s.addr) (h0 : index ≠ 0)
    (hs : ¬ Counts L s.blockCount) {Q : Nat → File K R N L → Prop} {E : Err → File K R N L → Prop} :
    wp (convertWith file index) Q E s ↔ E .fileLength s := by
  simp [convertWith, h0, getReference, useFile, hf, countBlocks, hs]

omit hc in
/-- The block that came past the limit gets its node all the same. -/
theorem wp_construct {i file thisNode parent : Nat} {t : File K R N L} (h0 : i ≠ 0) {Q : Unit → File K R N L → Prop}
    {E : Err → File K R N L → Prop} : wp (construct i file thisNode parent) Q E t ↔
      Q () { t with blocks := Function.update t.blocks i { t.blocks i with
        file := file, thisNode := thisNode, parentNode := parent, recordCount := 0,
        entries := (t.blocks i).entries.map fun e => { e with smallerNode := 0 } } } := by
  simp [construct, update, h0]

omit hc in
theorem convertIndexToPtr_past {index : Nat} {s : File K R N L} (h0 : index ≠ 0) (hs : ¬ Counts L s.blockCount) :
    wp (convertIndexToPtr this index) (fun _ _ => False) (fun _ _ => True) s := by
  unfold convertIndexToPtr
  rw [wp_bind]
  by_cases ht : this = 0
  · simp [node, ht]
  · rw [wp_node ht]
    by_cases hf : (s.blocks this).file = s.addr
    · exact (convertWith_stops hf h0 hs).mpr trivial
    · simp [convertWith, h0, getReference, useFile, hf]

theorem mirrors_splitNode : Mirrors c (splitNode this) (splitNode this) := by
  refine (mirrors_node hc).bind fun n => .bind_near (hc.may_allocate _) (fun s hs => ?_) fun index => ?_
  · -- the new node's parent is set through a link
    refine (hc.allocate n.file s hs).mono (fun i t h => ?_) fun _ _ h => h
    refine h.imp_right fun ⟨h0, hf, ht, hp⟩ => ?_
    rw [wp_bind, wp_construct h0, wp_bind, wp_node h0]
    simp only [Function.update_self, ne_eq, h0, not_false_eq_true, if_true]
    rw [wp_bind, wp_bind]
    exact (convertWith_stops (by exact hf) h0 (by exact ht)).mpr ⟨hc.stop.symm, hp _ rfl⟩
  · refine (mirrors_construct hc _ _ _ _).bind fun _ => (mirrors_node hc).bind fun new => ?_
    refine .bind (.ite ?_ (.pure _)) fun _ => ?_
    · exact (mirrors_convertWith hc _ _).bind fun p => (mirrors_node hc).bind fun _ => mirrors_setParentNode hc _
    refine .bind (Mirrors.upto (fun i => ?_) _ _) fun _ => ?_
    · exact (mirrors_entry hc i).bind fun e => mirrors_insertOnEndUnsafe hc e
    refine (mirrors_node hc).bind fun _ => (mirrors_setLargerNode hc _).bind fun _ => ?_
    refine (mirrors_entry hc _).bind fun _ => (mirrors_setLargerNode hc _).bind fun _ => ?_
    refine (mirrors_entry hc _).bind fun mid => (mirrors_node hc).bind fun n => ?_
    exact (mirrors_update hc _).bind fun _ => .pure _

omit hc in
/-- The node split off is a node. -/
theorem splitNode_larger (s : File K R N L) :
    wp (splitNode this) (fun subtree _ => subtree.largerNode ≠ 0) (fun _ _ => True) s := by
  refine wp_bind_any fun n s => wp_bind_any fun index s => ?_
  rw [wp_bind]
  by_cases h0 : index = 0
  · simp [construct, update, h0]
  · rw [wp_construct h0, wp_bind, wp_node h0]
    simp only [Function.update_self]
    refine wp_bind_any fun _ s => wp_bind_any fun _ s => wp_bind_any fun _ s => wp_bind_any fun _ s => ?_
    refine wp_bind_any fun _ s => wp_bind_any fun _ s => wp_bind_any fun _ s => wp_bind_any fun _ s => ?_
    exact wp_bind_any fun _ s => h0

theorem mirrors_splitRoot : Mirrors c (splitRoot this) (splitRoot this) := by
  refine (mirrors_splitNode hc).bind_of splitNode_larger (fun subtree hl => ?_) fun subtree => ?_
  · refine (mirrors_node hc).bind fun n => .bind_near (hc.may_allocate _) (fun s hs => ?_) fun index => ?_
    · -- the new root gets its larger node through a link
      refine (hc.allocate n.file s hs).mono (fun i t h => ?_) fun _ _ h => h
      refine h.imp_right fun ⟨h0, hf, ht, hp⟩ => ?_
      rw [wp_bind, wp_construct h0, wp_bind]
      unfold setLargerNode convertIndexToPtr
      rw [wp_bind, update, if_neg h0, wp_modify, if_pos hl, wp_bind, wp_bind, wp_node h0]
      simp only [Function.update_self, Function.update_idem]
      exact (convertWith_stops (by exact hf) hl (by exact ht)).mpr ⟨hc.stop.symm, hp _ rfl⟩
    · refine (mirrors_construct hc _ _ _ _).bind fun _ => (mirrors_setLargerNode hc _).bind fun _ => ?_
      exact (mirrors_insertOnEndUnsafe hc _).bind fun _ => (mirrors_setParentNode hc _).bind fun _ => .pure _
  · refine (mirrors_node hc).moves.bind fun n => (hc.may_allocate _).bind fun index => ?_
    refine (mirrors_construct hc _ _ _ _).moves.bind fun _ => (mirrors_setLargerNode hc _).moves.bind fun _ => ?_
    exact (mirrors_insertOnEndUnsafe hc _).moves.bind fun _ => (mirrors_setParentNode hc _).moves.bind fun _ => .pure _

theorem mirrors_depthFrom (f : Nat) : Mirrors c (depthFrom f this) (depthFrom f this) := by
  induction f generalizing this with
  | zero => exact .throw _
  | succ f ih =>
    refine (mirrors_entry hc 0).bind fun e => .ite (.pure _) ?_
    exact (mirrors_convertIndexToPtr hc _).bind fun child => ih.bind fun d => .pure _

theorem mirrors_depth : Mirrors c (Node.depth this) (Node.depth this) :=
  mirrors_get hc fun s u h => by rw [h.blockCount]; exact mirrors_depthFrom hc _

/-! ### Loops over the children -/

variable [LinearOrder K]

theorem mirrors_findPosition (key : K) : Mirrors c (findPosition this key) (findPosition this key) := by
  refine (mirrors_node hc).bind fun n => .bind (.scan (fun i => ?_) _ _) fun _ => .pure _
  exact (mirrors_entry hc i).bind fun e => .ite (.pure _) ((mirrors_assert _).bind fun _ => .pure _)

theorem mirrors_place (e : Entry K R) : Mirrors c (place this e) (place this e) :=
  (mirrors_findPosition hc _).bind fun _ => (mirrors_freeUp hc _).bind fun _ => (mirrors_setEntry hc _ e).bind fun _ =>
    .bind (.ite (mirrors_adopt hc _) (.pure _)) fun _ => mirrors_update hc _

theorem mirrors_insertIntoNode (subtree : Subtree K R) :
    Mirrors c (insertIntoNode this subtree) (insertIntoNode this subtree) := by
  refine (mirrors_full hc).bind fun _ => (mirrors_assert _).bind fun _ => ?_
  refine (mirrors_full hc).bind fun _ => .ite (.throw _) ?_
  refine (mirrors_convertWith hc _ _).bind fun larger => .bind (.ite ?_ (.pure _)) fun _ => mirrors_place hc _
  exact (mirrors_assert _).bind fun _ => (mirrors_findNodePtr hc _).bind fun ref => mirrors_setSlot hc ref _

theorem mirrors_split : Mirrors c (split this) (split this) := by
  refine (mirrors_node hc).bind fun n => .ite (mirrors_splitRoot hc) ?_
  refine (mirrors_splitNode hc).bind fun subtree => (mirrors_node hc).bind fun _ => ?_
  refine (mirrors_convertIndexToPtr hc _).bind fun parent => (mirrors_insertIntoNode hc subtree).bind fun _ => ?_
  exact (mirrors_node hc).bind fun _ => mirrors_convertIndexToPtr hc _

theorem mirrors_makeRoomFrom (f : Nat) : Mirrors c (makeRoomFrom f this) (makeRoomFrom f this) := by
  induction f generalizing this with
  | zero => exact .throw _
  | succ f ih =>
    refine (mirrors_full hc).bind fun b => .ite ?_ (.pure _)
    refine (mirrors_node hc).bind fun n => .bind (.ite ?_ (.pure _)) fun _ => ?_
    · exact (mirrors_convertIndexToPtr hc _).bind fun parent => ih.bind fun _ => .pure _
    · exact (mirrors_split hc).bind fun _ => .pure _

theorem mirrors_makeRoom : Mirrors c (makeRoom this) (makeRoom this) :=
  mirrors_get hc fun s u h => by rw [h.blockCount]; exact mirrors_makeRoomFrom hc _

theorem mirrors_searchLoop (key : K) (f : Nat) (current step : Int) :
    Mirrors c (searchLoop this key f current step) (searchLoop this key f current step) := by
  induction f generalizing current step with
  | zero => exact .throw _
  | succ f ih =>
    refine (mirrors_node hc).bind fun n => .ite ?_ (.ite (.pure _) (.pure _))
    refine (mirrors_entry hc _).bind fun e => .ite (.pure _) (.ite (.ite (.pure _) ?_) (ih _ _))
    exact (mirrors_entry hc _).bind fun before => .ite (.pure _) (ih _ _)

theorem mirrors_findRecordAndNode (f : Nat) (key : K) :
    Mirrors c (findRecordAndNode f this key) (findRecordAndNode f this key) := by
  induction f generalizing this with
  | zero => exact .throw _
  | succ f ih =>
    refine (mirrors_node hc).bind fun n => (mirrors_searchLoop hc key _ _ _).bind fun stop => ?_
    cases stop with
    | record r => exact .pure _
    | child index => exact .ite ((mirrors_convertIndexToPtr hc _).bind fun _ => ih) (.pure _)
    | nothing => exact .pure _

theorem mirrors_find (key : K) : Mirrors c (Node.find this key) (Node.find this key) :=
  mirrors_get hc fun s u h => by rw [h.blockCount]; exact (mirrors_findRecordAndNode hc _ key).bind fun _ => .pure _

theorem mirrors_locate (key : K) : Mirrors c (locate this key) (locate this key) := by
  refine mirrors_get hc fun s u h => ?_
  rw [h.blockCount]
  refine (mirrors_findRecordAndNode hc _ key).bind fun here => ?_
  obtain ⟨found, location⟩ := here
  refine .ite (.throw _) ((mirrors_assert _).bind fun _ => .ite (.throw _) ((mirrors_makeRoom hc).bind fun made => ?_))
  refine .ite ((mirrors_findRoot hc).bind fun root => mirrors_get hc fun s u h => ?_) (.pure _)
  rw [h.blockCount]
  refine (mirrors_findRecordAndNode hc _ key).bind fun there => ?_
  obtain ⟨_, location⟩ := there
  exact (mirrors_assert _).bind fun _ => .ite (.throw _) (.pure _)

theorem mirrors_insertFrom (f : Nat) (key : K) (record : R) :
    Mirrors c (insertFrom f this key record) (insertFrom f this key record) := by
  induction f generalizing this with
  | zero => exact .throw _
  | succ f ih =>
    refine (mirrors_node hc).bind fun n => .ite ((mirrors_findRoot hc).bind fun _ => ih) ?_
    exact (mirrors_locate hc key).bind fun location => mirrors_insertIntoNode hc _

theorem mirrors_insert (key : K) (record : R) : Mirrors c (Node.insert this key record) (Node.insert this key record) :=
  mirrors_get hc fun s u h => by rw [h.blockCount]; exact mirrors_insertFrom hc _ key record

/-! ### Validation -/

end Methods

/-! ## The tree object -/

/-- The bound on the file of a tree. -/
def onTree (c : Bound (File K R N L) (File K R N) Err) : Bound (Tree K R N L) (Tree K R N) Err where
  free t := ⟨c.free t.file, t.root⟩
  within t := c.within t.file
  stop := c.stop
  may t u := c.may t.file u.file
  past t o u := c.past t.file o u.file
  may_refl t := c.may_refl t.file
  may_trans := c.may_trans
  past_may := c.past_may

section Trees
variable {c : Bound (File K R N L) (File K R N) Err}

theorem mirrors_onFile {α : Type} {x : M K R N L α} {y : M K R N none α} (h : Mirrors c x y) :
    Mirrors (onTree c) (onFile x) (onFile y) := by
  have hok : ∀ {L : Option Nat} {x : M K R N L α} {t : Tree K R N L} {a f}, x t.file = .ok a f →
      onFile x t = .ok a { t with file := f } := fun h => by rw [onFile, h]
  have herr : ∀ {L : Option Nat} {x : M K R N L α} {t : Tree K R N L} {e f}, x t.file = .error e f →
      onFile x t = .error e { t with file := f } := fun h => by rw [onFile, h]
  refine ⟨fun t => ?_, fun t ht => ?_⟩
  · rcases (h.moves t.file).run with ⟨a, f, hy, hm⟩ | ⟨e, f, hy, hm⟩
    · exact (wp_ok (hok hy)).mpr hm
    · exact (wp_error (herr hy)).mpr hm
  · rcases (h.run t.file ht).run with ⟨a, f, hx, hf, hy⟩ | ⟨e, f, hx, hy | ⟨rfl, hp⟩⟩
    · exact (wp_ok (hok hx)).mpr ⟨hf, hok (t := ⟨c.free t.file, t.root⟩) hy⟩
    · exact (wp_error (herr hx)).mpr (.inl (herr (t := ⟨c.free t.file, t.root⟩) hy))
    · refine (wp_error (herr hx)).mpr (.inr ⟨rfl, ?_⟩)
      rcases wp.run hp with ⟨a, f', hy, hp⟩ | ⟨e, f', hy, hp⟩
      · exact (wp_ok (hok (t := ⟨c.free t.file, t.root⟩) hy)).mpr hp
      · exact (wp_error (herr (t := ⟨c.free t.file, t.root⟩) hy)).mpr hp

theorem mirrors_getRoot {α : Type} {f : Tree K R N L → EStateM Err (Tree K R N L) α}
    {g : Tree K R N → EStateM Err (Tree K R N) α} (h : ∀ t u, u.root = t.root → Mirrors (onTree c) (f t) (g u)) :
    Mirrors (onTree c) (get >>= f) (get >>= g) :=
  .get_bind (S := fun t u => u.root = t.root) (fun _ => rfl)
    (fun u => ⟨⟨⟨u.file.addr, u.file.blocks, u.file.blockCount, u.file.os⟩, u.root⟩, rfl⟩) h

variable (hc : Counted c)
include hc

theorem mirrors_treeDepth : Mirrors (onTree c) Tree.depth Tree.depth :=
  mirrors_getRoot fun t u h => by rw [h]; exact mirrors_onFile (mirrors_depth hc)

variable [LinearOrder K]

theorem mirrors_treeFind (key : K) : Mirrors (onTree c) (Tree.find key) (Tree.find key) :=
  mirrors_getRoot fun t u h => by rw [h]; exact mirrors_onFile (mirrors_find hc key)

theorem mirrors_treeInsert (key : K) (record : R) :
    Mirrors (onTree c) (Tree.insert key record) (Tree.insert key record) := by
  refine mirrors_getRoot fun t u h => ?_
  rw [h]
  refine (mirrors_onFile (mirrors_insert hc key record)).bind fun _ => mirrors_getRoot fun t u h => ?_
  rw [h]
  refine (mirrors_onFile (mirrors_findRoot hc)).bind fun root => ?_
  exact ⟨fun t => c.may_refl t.file, fun t ht => ⟨ht, rfl⟩⟩

end Trees

/-! ## The limit of the file -/

section Allocate
variable {s : File K R N L}

theorem allocateBlock_stale {file : Nat} (hf : file ≠ s.addr) : allocateBlock file s = .error .staleFile s := by
  have h : wp (allocateBlock file) (fun _ _ => False) (fun e t => e = .staleFile ∧ t = s) s := by
    simp [allocateBlock, useFile, hf]
  obtain ⟨e, t, hx, rfl, rfl⟩ := h.throws
  exact hx

theorem allocateBlock_throws (hs : Counts L s.blockCount) {extended : Bool} {os : List Alloc}
    (hos : s.os = .throws extended :: os) : allocateBlock s.addr s = .error .allocateBlock
      { s with os := os, blockCount := if extended then s.blockCount + 1 else s.blockCount } := by
  have h : wp (allocateBlock s.addr) (fun _ _ => False) (fun e t => e = .allocateBlock ∧
      t = { s with os := os, blockCount := if extended then s.blockCount + 1 else s.blockCount }) s := by
    simp [allocateBlock, useFile, countBlocks, hs, hos]
  obtain ⟨e, t, hx, rfl, rfl⟩ := h.throws
  exact hx

theorem allocateBlock_ok (hs : Counts L s.blockCount) (hos : ∀ extended os, s.os ≠ .throws extended :: os) :
    allocateBlock s.addr s = .ok s.blockCount { s with os := s.os.tail, blockCount := s.blockCount + 1 } := by
  have h : Returns (allocateBlock s.addr)
      (fun i t => i = s.blockCount ∧ t = { s with os := s.os.tail, blockCount := s.blockCount + 1 }) s := by
    rcases e : s.os with _ | ⟨_ | x, os⟩
    · simp [Returns, allocateBlock, useFile, countBlocks, hs, e]
    · simp [Returns, allocateBlock, useFile, countBlocks, hs, e]
    · exact absurd e (hos x os)
  obtain ⟨i, t, hx, rfl, rfl⟩ := h.run
  exact hx

end Allocate

/-- `L` blocks cannot be counted. A method that stops there has made the last block a
    node without records. -/
def limit (L : Option Nat) : Bound (File K R N L) (File K R N) Err where
  free := File.unlimited
  within s := Counts L s.blockCount
  stop := .fileLength
  may := Calls
  past t _ u := ¬ Counts L t.blockCount ∧ ¬ Counts L u.blockCount ∧ (t.blocks (t.blockCount - 1)).recordCount = 0
  may_refl := .refl
  may_trans := .trans
  past_may := fun _ ⟨h1, h2, h3⟩ hm => ⟨h1, fun h => h2 (h.le hm.le), h3⟩

/-- Block 0 is none of a node's, so a file that can count two blocks can count that one. -/
theorem limit_counted (hL : Counts L 2) : Counted (limit L : Bound (File K R N L) (File K R N) Err) := by
  refine ⟨rfl, fun s => ⟨rfl, rfl, rfl⟩, fun s h => h, fun s b n h => ⟨h, rfl⟩, calls_write, calls_allocateBlock,
    fun file s hs => ?_⟩
  have hu := counts_none s.unlimited.blockCount
  by_cases hf : file = s.addr
  · subst hf
    by_cases hos : ∀ extended os, s.os ≠ .throws extended :: os
    · rw [wp_ok (allocateBlock_ok hs hos)]
      have hy := allocateBlock_ok (s := s.unlimited) hu hos
      by_cases hc : Counts L (s.blockCount + 1)
      · exact .inl ⟨hc, hy⟩
      · refine .inr ⟨fun h0 => hc (hL.le (by omega)), rfl, hc, fun n hn => (wp_ok hy).mpr ⟨hc, hc, ?_⟩⟩
        show (Function.update s.blocks s.blockCount n s.blockCount).recordCount = 0
        rw [Function.update_self, hn]
    · simp only [not_forall, not_not] at hos
      obtain ⟨extended, os, hos⟩ := hos
      rw [wp_error (allocateBlock_throws hs hos)]
      exact allocateBlock_throws (s := s.unlimited) hu hos
  · rw [wp_error (allocateBlock_stale hf)]
    exact allocateBlock_stale (s := s.unlimited) hf

/-! ## What a tree does below the limit -/

/-- `u` is a tree that the limit stopped: its last block is a node without records. -/
structure Stopped (u : Tree K R N L) : Prop where
  uncounted : ¬ Counts L u.file.blockCount
  last : (u.file.blocks (u.file.blockCount - 1)).recordCount = 0

theorem stopped_of_past {α : Type} {y : EStateM Err (Tree K R N) α} {u : Tree K R N L} {v : Tree K R N}
    (h : Past (onTree (limit L)) y u v) :
    Stopped u ∧ wp y (fun _ w => ¬ Counts L w.file.blockCount) (fun _ w => ¬ Counts L w.file.blockCount) v := by
  refine ⟨?_, wp.mono h (fun _ _ h => h.2.1) fun _ _ h => h.2.1⟩
  rcases wp.run h with ⟨_, _, _, h⟩ | ⟨_, _, _, h⟩ <;> exact ⟨h.1, h.2.2⟩

/-- What a caller sees of a program of the tree. -/
def seen {α : Type} (f : α → Res R) : EStateM.Result Err (Tree K R N L) α → Res R × Tree K R N L
  | .ok a t => (f a, t)
  | .error e t => (.threw e, t)

/-- A program that throws leaves the object with the root it had. -/
theorem seen_root {α : Type} {f : α → Res R} (hf : ∀ a e, f a ≠ .threw e) {x : EStateM Err (Tree K R N L) α}
    {t : Tree K R N L} {e : Err} (hx : wp x (fun _ _ => True) (fun _ u => u.root = t.root) t)
    (h : (seen f (x t)).1 = .threw e) : (seen f (x t)).2.root = t.root := by
  rcases hx.run with ⟨a, u, hr, -⟩ | ⟨e, u, hr, hu⟩ <;> rw [hr] at h ⊢
  · exact absurd h (hf a _)
  · exact hu

/-- A program does what it does without the limit, or the limit stops it. -/
theorem seen_cases {α : Type} {f : α → Res R} {x : EStateM Err (Tree K R N L) α}
    {y : EStateM Err (Tree K R N) α} (h : Mirrors (onTree (limit L)) x y) {t : Tree K R N L}
    (ht : Counts L t.file.blockCount) :
    (seen f (y t.unlimited) = ((seen f (x t)).1, (seen f (x t)).2.unlimited) ∧
      ((∀ e, (seen f (x t)).1 ≠ .threw e) → Counts L (seen f (x t)).2.file.blockCount)) ∨
    ((seen f (x t)).1 = .threw .fileLength ∧ Stopped (seen f (x t)).2 ∧
      ¬ Counts L (seen f (y t.unlimited)).2.file.blockCount) := by
  cases hx : x t with
  | ok a u =>
    obtain ⟨hu, hy⟩ := h.ok ht hx
    have hy : y t.unlimited = .ok a u.unlimited := hy
    rw [hy]
    exact .inl ⟨rfl, fun _ => hu⟩
  | error e u =>
    rcases h.error ht hx with hy | ⟨rfl, hp⟩
    · have hy : y t.unlimited = .error e u.unlimited := hy
      rw [hy]
      exact .inl ⟨rfl, fun h => absurd rfl (h e)⟩
    · obtain ⟨hu, hv⟩ := stopped_of_past hp
      refine .inr ⟨rfl, hu, ?_⟩
      rcases hv.run with ⟨a, v, hy, hv⟩ | ⟨e, v, hy, hv⟩
      · have hy : y t.unlimited = .ok a v := hy
        rw [hy]
        exact hv
      · have hy : y t.unlimited = .error e v := hy
        rw [hy]
        exact hv

section Exec
variable [LinearOrder K]

theorem exec_insert (t : Tree K R N L) (key : K) (record : R) :
    (Op.insert key record).exec t = seen (fun _ => .inserted) (Tree.insert key record t) := by
  cases h : Tree.insert key record t <;> simp only [Op.exec, h, seen]

theorem exec_find (t : Tree K R N L) (key : K) : (Op.find key : Op K R).exec t = seen .found (Tree.find key t) := by
  cases h : Tree.find key t <;> simp only [Op.exec, h, seen]

theorem exec_root {t : Tree K R N L} {op : Op K R} {e : Err} (h : (op.exec t).1 = .threw e) :
    (op.exec t).2.root = t.root := by
  have honFile : ∀ {α : Type} (x : M K R N L α) (t : Tree K R N L),
      wp (onFile x) (fun _ u => u.root = t.root) (fun _ u => u.root = t.root) t := by
    intro α x t
    unfold wp onFile
    cases x t.file <;> rfl
  cases op with
  | find key =>
    rw [exec_find] at h ⊢
    have hfind := (honFile (Node.find t.root key) t).mono (fun _ _ _ => trivial) fun _ _ h => h
    exact seen_root (fun _ _ h => by cases h) hfind h
  | insert key record =>
    rw [exec_insert] at h ⊢
    refine seen_root (fun _ _ h => by cases h) ?_ h
    unfold Tree.insert
    rw [wp_bind, wp_get, wp_bind]
    refine (honFile _ t).mono (fun _ u hu => ?_) fun _ _ h => h
    rw [wp_bind, wp_get, wp_bind]
    exact (honFile _ u).mono (fun _ _ _ => trivial) fun _ _ h => h.trans hu

theorem exec_cases (hL : Counts L 2) {t : Tree K R N L} (ht : Counts L t.file.blockCount) (op : Op K R) :
    (op.exec t.unlimited = ((op.exec t).1, (op.exec t).2.unlimited) ∧
      ((∀ e, (op.exec t).1 ≠ .threw e) → Counts L (op.exec t).2.file.blockCount)) ∨
    ((op.exec t).1 = .threw .fileLength ∧ Stopped (op.exec t).2 ∧
      ¬ Counts L (op.exec t.unlimited).2.file.blockCount) := by
  cases op with
  | find key =>
    simp only [exec_find]
    exact seen_cases (mirrors_treeFind (limit_counted hL) key) ht
  | insert key record =>
    simp only [exec_insert]
    exact seen_cases (mirrors_treeInsert (limit_counted hL) key record) ht

end Exec

end Dumbnose.Btree
