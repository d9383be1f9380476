/-
  Dumbnose.Btree.Insert — the operations of the tree object on a whole tree.

  An insert searches, makes room from the root down to the leaf the search ended at,
  searches again, and puts the record into the leaf: `Inserts` is that as moves and
  one write. It adds the key and nothing else (`Inserts.has`). It throws for a key
  that is there, having followed links only, and where an allocation fails
  (`Sound.insert_wp`); no other exception, assertion or bad index is reached.
-/

import Dumbnose.Btree.Cascade
import Dumbnose.Btree.Tree

namespace Dumbnose.Btree

open Lib.Exec Lib.Gaps

variable {K R : Type} {N : Nat} [LinearOrder K]

/-- `t` is `s` after moves and the new record at a leaf with room. -/
structure Inserts (s : File K R N) (G : Ghost K) (key : K) (record : R) (t : File K R N) (H : Ghost K) : Prop where
  absent : ∀ r, ¬ s.pages.Has G key r
  moves : ∃ u l ps qs, Steps s G u H ∧ H.live l ∧ H.level l = 0 ∧ Within (H.lo l) (H.hi l) key ∧
    (u.pages.recs l).length < N ∧ u.pages.recs l = ps ++ qs ∧ (∀ e ∈ ps, e.key < key) ∧ (∀ e ∈ qs, key < e.key) ∧
    Does u t (u.pages.setRecs l (ps ++ ⟨0, key, record⟩ :: qs))
  solid : Solid s.pages G → Climbs N s.pages G key 0 → Solid t.pages H
  hollow : N < 5 → Drops N s.pages G key 0 → ¬ Solid t.pages H
  /-- The blocks are those of the room made at the leaf the search ends at. -/
  count : ∀ n l, Finds s.pages key n G.root none l → t.blockCount = s.blockCount + s.pages.needs N s.blockCount l

section Inserts
variable {s t : File K R N} {G H : Ghost K} {key : K} {record : R} (hi : Inserts s G key record t H)
include hi

theorem Inserts.keeps : Keeps s t := by
  obtain ⟨u, l, ps, qs, h1, -, -, -, -, -, -, -, h2⟩ := hi.moves
  exact h1.keeps.trans h2.toKeeps

theorem Inserts.os : ∃ n, t.os = s.os.drop n := by
  obtain ⟨u, l, ps, qs, h1, -, -, -, -, -, -, -, h2⟩ := hi.moves
  obtain ⟨n, hn⟩ := h1.os
  exact ⟨n, by rw [h2.os, hn]⟩

theorem Inserts.live {b : Nat} (hb : G.live b) : H.live b := by
  obtain ⟨u, l, ps, qs, h1, -⟩ := hi.moves
  exact h1.live hb

theorem Inserts.sound (h : Sound s G) : Sound t H := by
  obtain ⟨u, l, ps, qs, h1, hl, hl0, hw, hlt, hr, hp, hq, h2⟩ := hi.moves
  have hu := h1.sound h
  exact ⟨⟨h2.pages ▸ hu.shaped.insert hl hl0 hr hp hq hw hlt rfl, fun b hb => h2.bounded b (hu.bounded b hb),
    fun b hb => h2.blockCount ▸ hu.alloc b hb⟩, (h2.held _ hu.rootHeld).trans h2.addr.symm⟩

theorem Inserts.has (h : Sound s G) {k : K} {r : R} :
    t.pages.Has H k r ↔ s.pages.Has G k r ∨ k = key ∧ r = record := by
  obtain ⟨u, l, ps, qs, h1, hl, -, -, -, hr, -, -, h2⟩ := hi.moves
  rw [h2.pages, Pages.has_insert hl hr, h1.has h]

end Inserts

/-! ## The node's methods -/

/-- A key that is not among increasing keys has a place. -/
theorem exists_place {es : List (Entry K R)} {lo hi : Option K} {k : K} (ho : Ordered Entry.key lo es hi)
    (hk : ∀ e ∈ es, e.key ≠ k) :
    ∃ ps qs, es = ps ++ qs ∧ (∀ e ∈ ps, e.key < k) ∧ ∀ e ∈ qs, k < e.key := by
  cases hs : linear k 0 es with
  | here e =>
    obtain ⟨he, hke⟩ := seek_here Entry.smallerNode Entry.key hs
    exact absurd hke (hk e he)
  | down c =>
    obtain ⟨g, hg, -, hw⟩ := seek_down Entry.smallerNode Entry.key none none hs
    obtain ⟨ps, qs, rfl, rfl⟩ := gaps_at Entry.smallerNode Entry.key hg
    have ho' : Ordered Entry.key none (ps ++ qs) none := ⟨ho.sorted, fun e _ => within_none _⟩
    have := gap_sides Entry.key ho' (hw (within_none k))
    exact ⟨ps, qs, rfl, this⟩

section Sound
variable {s : File K R N} {G : Ghost K} (h : Sound s G) {key : K} {record : R}
include h

theorem Sound.find_root (k : K) : ∃ r l,
    Returns (findRecordAndNode s.blockCount G.root k)
      (fun o t => Refreshed s t ∧ o = (r, l) ∧ (t.blocks l).file = t.addr) s ∧
    ((∃ n, Finds s.pages k n G.root r l)) := by
  obtain ⟨n, r, l, hf, -⟩ := h.shaped.finds k h.shaped.rootLive
  exact ⟨r, l, h.find_returns h.shaped.rootLive h.rootHeld hf, n, hf⟩

theorem Sound.nodeFind_returns (k : K) :
    Returns (Node.find G.root k) (fun o t => Refreshed s t ∧ ∀ r, o = some r ↔ s.pages.Has G k r) s := by
  obtain ⟨o, l, hr, n, hf⟩ := h.find_root k
  unfold Returns Node.find
  rw [wp_bind, wp_get, wp_bind]
  apply hr.wp
  intro _ t h
  obtain ⟨h1, rfl, -⟩ := h
  refine ⟨h1, fun r => ⟨?_, fun hh => ?_⟩⟩
  · intro e
    subst e
    exact h.shaped.finds_iff.mp ⟨n, l, hf⟩
  · obtain ⟨n', l', hf'⟩ := h.shaped.finds_iff.mpr hh
    exact (hf.det hf').2.1

/-- A new key goes into its leaf. -/
theorem Sound.place_returns {l : Nat} (hl : G.live l) (hlt : (s.pages.recs l).length < N)
    (hno : ∀ r, ¬ s.pages.Has G key r) (hh : (s.blocks l).file = s.addr) (file : Nat) :
    Returns (insertIntoNode l ⟨file, ⟨0, key, record⟩, 0⟩) (fun _ t => ∃ ps qs, s.pages.recs l = ps ++ qs ∧
      (∀ e ∈ ps, e.key < key) ∧ (∀ e ∈ qs, key < e.key) ∧
      Does s t (s.pages.setRecs l (ps ++ ⟨0, key, record⟩ :: qs))) s := by
  have hk : ∀ e ∈ s.pages.recs l, e.key ≠ key := fun e he hke => hno e.record ⟨l, hl, e, he, hke, rfl⟩
  obtain ⟨ps, qs, hr, hp, hq⟩ := exists_place (h.shaped.ordered l hl) hk
  exact (insertIntoNode_does_leaf (h.at hl hh) hlt hr hp hq rfl).mono fun _ t ht => ⟨ps, qs, hr, hp, hq, ht⟩

/-- A search from the root that the tree has by then. -/
theorem Sound.findAgain_returns {b l n : Nat} {k : K} {r : Option R} (hb : G.live b) (hh : (s.blocks b).file = s.addr)
    (hf : Finds s.pages k n G.root r l) :
    Returns (do
        let root ← findRoot b
        findRecordAndNode (← get).blockCount root k)
      (fun o t => o = (r, l) ∧ Refreshed s t ∧ (t.blocks l).file = t.addr) s := by
  unfold Returns
  rw [wp_bind]
  apply (h.findRoot_returns hb hh).wp
  intro _ t ht
  obtain ⟨ht, rfl, -⟩ := ht
  have hts := h.refreshed ht
  rw [← ht.does.pages] at hf
  rw [wp_bind, wp_get]
  apply (hts.find_returns hts.shaped.rootLive hts.rootHeld hf).wp
  intro _ u hu
  exact ⟨hu.2.1, ht.trans hu.1, hu.2.2⟩

/-- The second search of `insert`, from the root the tree has by then: it ends at the
    leaf the key belongs to. -/
theorem Sound.searchAgain_returns {b l : Nat} (hb : G.live b) (hh : (s.blocks b).file = s.addr) (hl : G.live l)
    (hl0 : G.level l = 0) (hw : Within (G.lo l) (G.hi l) key) (hk : ∀ e ∈ s.pages.recs l, e.key ≠ key) :
    Returns (do
        let root ← findRoot b
        let (_, location) ← findRecordAndNode (← get).blockCount root key
        assert (location ≠ 0)
        if location = 0 then throw .nullLocation else return location)
      (fun o t => o = l ∧ Refreshed s t ∧ (t.blocks l).file = t.addr) s := by
  obtain ⟨n, hf⟩ := h.shaped.finds_none hl hl0 hw hk
  have hfind := h.findAgain_returns hb hh hf
  rw [Returns, wp_bind] at hfind ⊢
  refine hfind.mono (fun root t ht => ?_) fun _ _ he => he
  rw [wp_bind, wp_get] at ht ⊢
  rw [wp_bind]
  refine ht.mono (fun o u hu => ?_) fun _ _ he => he
  obtain ⟨rfl, hu, hhu⟩ := hu
  simp only
  rw [wp_bind, wp_assert (h.shaped.pos l hl), if_neg (h.shaped.pos l hl), wp_pure]
  exact ⟨rfl, hu, hhu⟩

/-- The node to insert into: a leaf with room and the key in its bounds. -/
theorem Sound.locate_wp (hN : 3 ≤ N) :
    wp (locate G.root key)
      (fun l t => (∀ r, ¬ s.pages.Has G key r) ∧ ∃ H, Steps s G t H ∧ H.live l ∧ H.level l = 0 ∧
        Within (H.lo l) (H.hi l) key ∧ (t.pages.recs l).length < N ∧ (t.blocks l).file = t.addr ∧
        (Solid s.pages G → Climbs N s.pages G key 0 → ∀ b, H.live b → t.pages.recs b = [] →
          b = l ∨ b = H.root ∧ H.level b = 0) ∧
        (N < 5 → Drops N s.pages G key 0 → ∃ b, H.live b ∧ t.pages.recs b = [] ∧ ¬ Within (H.lo b) (H.hi b) key) ∧
        ∀ n l, Finds s.pages key n G.root none l → t.blockCount = s.blockCount + s.pages.needs N s.blockCount l)
      (fun e t => (e = .nodeAlreadyExists ∧ (∃ r, s.pages.Has G key r) ∧ Refreshed s t) ∨
        (e = .allocateBlock ∧ (∀ r, ¬ s.pages.Has G key r) ∧ (¬ s.Grants ∨ Spare N s.pages G key 0 → Spared s G t) ∧
          (s.Grants → ¬ Spare N s.pages G key 0 → Broken s G t))) s := by
  obtain ⟨o, l, hret, n, hf⟩ := h.find_root key
  unfold locate
  rw [wp_bind, wp_get, wp_bind]
  apply hret.wp
  intro _ t hst
  obtain ⟨hst, rfl, hheld⟩ := hst
  cases o with
  | some r =>
    simp only [Option.isSome_some, if_true, wp_throw]
    exact .inl ⟨trivial, ⟨r, h.shaped.finds_iff.mp ⟨n, l, hf⟩⟩, hst⟩
  | none =>
    have hno : ∀ r, ¬ s.pages.Has G key r := by
      intro r hh
      obtain ⟨n', l', hf'⟩ := h.shaped.finds_iff.mpr hh
      have := (hf.det hf').2.1
      cases this
    obtain ⟨hl, hl0, -⟩ := h.shaped.leaf_of_none h.shaped.rootLive hf
    have hw : Within (G.lo l) (G.hi l) key := (h.shaped.onPath_iff.mp hf.onPath).2
    have hd := hst.does
    have ht := h.refreshed hst
    have hgr : t.Grants ↔ s.Grants := by unfold File.Grants; rw [hst.os]
    have hroom := ht.makeRoomFrom_wp hN (x := l) (k := key) (f := t.blockCount) hl hheld hw
      (by have := ht.level_lt; omega)
    rw [hl0, hd.pages, hgr] at hroom
    simp only [Option.isSome_none, Bool.false_eq_true, if_false]
    rw [wp_bind, wp_assert (h.shaped.pos l hl), if_neg (h.shaped.pos l hl), wp_bind, makeRoom, wp_bind, wp_get]
    refine hroom.mono (fun b u hu => ?_) fun e u hu => ?_
    · obtain ⟨H, hm, hfalse, -, -, hcount⟩ := hu
      have hcount : ∀ n' l', Finds s.pages key n' G.root none l' →
          u.blockCount = s.blockCount + s.pages.needs N s.blockCount l' := by
        intro n' l' hf'
        obtain ⟨-, -, rfl⟩ := hf.det hf'
        rw [hcount, hst.blockCount]
      have hsu := (Steps.single (.touch hd)).trans hm.steps
      have hsolid := hm.solid key hw
      have hhollow := hm.hollow key hw
      rw [hl0, hd.pages] at hsolid hhollow
      -- at the leaves only the node `key` belongs to may wait for a record
      have hwait : ∀ c, H.live c → H.level c = 0 → Within (H.lo c) (H.hi c) key → Solid s.pages G →
          Climbs N s.pages G key 0 → ∀ b, H.live b → u.pages.recs b = [] → b = c ∨ b = H.root ∧ H.level b = 0 := by
        intro c hc hcl hcw h1 h2 b hb hbe
        refine (hsolid h1 h2 b hb hbe).symm.imp_left fun ⟨h3, h4⟩ => ?_
        exact (hm.steps.sound ht).shaped.unique hb hc h4 hcw (h3.trans hcl.symm)
      cases b with
      | false =>
        obtain ⟨rfl, rfl, hlt⟩ := hfalse rfl
        rw [if_neg (by simp), wp_pure]
        exact ⟨hno, H, hsu, hl, hl0, hw, by rwa [hd.pages], hheld, hwait l hl hl0 hw, hhollow, hcount⟩
      | true =>
        -- the tree has changed: search again, from the root it has now
        have hus := hm.steps.sound ht
        have hhu := (hm.steps.keeps.held _ ht.rootHeld).trans hm.steps.keeps.addr.symm
        have hno' : ∀ r, ¬ t.pages.Has G key r := by rw [hd.pages]; exact hno
        obtain ⟨c, hc, hcl, hcw, hclt⟩ := hm.keys key hw hno'
        rw [hl0] at hcl
        have hck : ∀ e ∈ u.pages.recs c, e.key ≠ key := fun e he hke =>
          hno' e.record ((hm.steps.has ht).mp ⟨c, hc, e, he, hke, rfl⟩)
        rw [if_pos rfl]
        apply (hus.searchAgain_returns (hm.steps.live ht.shaped.rootLive) hhu hc hcl hcw hck).wp
        intro _ v hv
        obtain ⟨rfl, hv, hhv⟩ := hv
        refine ⟨hno, H, hsu.tail (.touch hv.does), hc, hcl, hcw, ?_, hhv, ?_⟩
        · rw [hv.does.pages]; exact hclt
        · rw [hv.does.pages, hv.blockCount]; exact ⟨hwait _ hc hcl hcw, hhollow, hcount⟩
    · obtain ⟨rfl, h1, h2⟩ := hu
      exact .inr ⟨rfl, hno, fun hs => (h1 hs).of_does hd, fun hg hns => (h2 hg hns).of_does hd⟩

theorem Sound.nodeInsert_wp (hN : 3 ≤ N) :
    wp (Node.insert G.root key record)
      (fun _ t => ∃ H, Inserts s G key record t H)
      (fun e t => (e = .nodeAlreadyExists ∧ (∃ r, s.pages.Has G key r) ∧ Refreshed s t) ∨
        (e = .allocateBlock ∧ (∀ r, ¬ s.pages.Has G key r) ∧ (¬ s.Grants ∨ Spare N s.pages G key 0 → Spared s G t) ∧
          (s.Grants → ¬ Spare N s.pages G key 0 → Broken s G t))) s := by
  obtain ⟨f, hf⟩ : ∃ f, s.blockCount = f + 1 := ⟨s.blockCount - 1, by have := h.level_lt; omega⟩
  have h0 := h.shaped.pos _ h.shaped.rootLive
  unfold Node.insert
  rw [wp_bind, wp_get, hf]
  unfold insertFrom
  rw [wp_bind, wp_node h0, ← pages_parent, if_neg (by rw [h.shaped.rootParent]; simp), wp_bind]
  refine (h.locate_wp hN).mono (fun l t ht => ?_) fun _ _ he => he
  obtain ⟨hno, H, hst, hl, hl0, hw, hlt, hh, hsolid, hhollow, hcount⟩ := ht
  have hts := hst.sound h
  refine (hts.place_returns hl hlt (fun r hr => hno r ((hst.has h).mp hr)) hh _).wp ?_
  intro _ u hr
  obtain ⟨ps, qs, hr, hp, hq, hu⟩ := hr
  have hrecs : ∀ b, u.pages.recs b = [] → b ≠ l ∧ t.pages.recs b = [] := by
    intro b hb
    have hbl : b ≠ l := by intro e; subst e; rw [hu.pages] at hb; simp at hb
    exact ⟨hbl, by rwa [hu.pages, Pages.setRecs_recs_ne _ _ hbl] at hb⟩
  refine ⟨H, hno, ⟨t, l, ps, qs, hst, hl, hl0, hw, hlt, hr, hp, hq, hu⟩, fun h1 h2 b hb hbe => ?_, fun h1 h2 hs => ?_,
    fun n l' hf => hu.blockCount.trans (hcount n l' hf)⟩
  · obtain ⟨h3, h4⟩ := hrecs b hbe
    exact (hsolid h1 h2 b hb h4).resolve_left h3
  · obtain ⟨b, hb, hbe, hbw⟩ := hhollow h1 h2
    have hbl : b ≠ l := by intro e; subst e; exact hbw hw
    obtain ⟨rfl, -⟩ := hs b hb (by rw [hu.pages, Pages.setRecs_recs_ne _ _ hbl, hbe])
    exact hbw (by rw [hts.shaped.rootLo, hts.shaped.rootHi]; exact within_none key)

end Sound

/-! ## The tree object -/

omit [LinearOrder K] in
theorem wp_onFile {α : Type} {L : Option Nat} {x : M K R N L α} {Q : α → Tree K R N L → Prop}
    {E : Err → Tree K R N L → Prop} {t : Tree K R N L} : wp (onFile x) Q E t ↔
      wp x (fun a f => Q a { t with file := f }) (fun e f => E e { t with file := f }) t.file := by
  unfold wp onFile
  cases x t.file <;> rfl

/-- A tree object with a whole tree under it. -/
structure Whole (t : Tree K R N) (G : Ghost K) : Prop extends Sound t.file G where
  root : t.root = G.root

section Whole
variable {t : Tree K R N} {G : Ghost K} (h : Whole t G) {key : K} {record : R}
include h

theorem Whole.find_returns (k : K) :
    Returns (Tree.find k)
      (fun o u => Refreshed t.file u.file ∧ u.root = t.root ∧ ∀ r, o = some r ↔ t.file.pages.Has G k r) t := by
  unfold Returns Tree.find
  rw [wp_bind, wp_get, wp_onFile, h.root]
  exact (h.nodeFind_returns k).wp fun o f hf => ⟨hf.1, rfl, hf.2⟩

theorem Whole.insert_wp (hN : 3 ≤ N) (key : K) (record : R) :
    wp (Tree.insert key record)
      (fun _ u => ∃ H, Inserts t.file G key record u.file H ∧ u.root = H.root)
      (fun e u => u.root = t.root ∧
        ((e = .nodeAlreadyExists ∧ (∃ r, t.file.pages.Has G key r) ∧ Refreshed t.file u.file) ∨
        (e = .allocateBlock ∧ (∀ r, ¬ t.file.pages.Has G key r) ∧
          (¬ t.file.Grants ∨ Spare N t.file.pages G key 0 → Spared t.file G u.file) ∧
          (t.file.Grants → ¬ Spare N t.file.pages G key 0 → Broken t.file G u.file)))) t := by
  unfold Tree.insert
  rw [wp_bind, wp_get, wp_bind, wp_onFile, h.root]
  refine (h.nodeInsert_wp hN).mono (fun _ f hf => ?_) fun e f hf => ⟨rfl, hf⟩
  obtain ⟨H, hi⟩ := hf
  have hs := hi.sound h.toSound
  have hh := hi.keeps.held _ h.rootHeld
  rw [wp_bind, wp_get, wp_bind, wp_onFile]
  apply (hs.findRoot_returns (hi.live h.shaped.rootLive) (hh.trans hi.keeps.addr.symm)).wp
  intro _ g hg
  obtain ⟨hg, rfl, -⟩ := hg
  rw [wp_modify]
  refine ⟨H, ⟨hi.absent, ?_, by rw [hg.does.pages]; exact hi.solid, by rw [hg.does.pages]; exact hi.hollow,
    fun n l hf => hg.blockCount.trans (hi.count n l hf)⟩, rfl⟩
  obtain ⟨u, l, ps, qs, h1, hl, hl0, hw, hlt, hr, hp, hq, h2⟩ := hi.moves
  have hd := hg.does
  rw [h2.pages] at hd
  exact ⟨u, l, ps, qs, h1, hl, hl0, hw, hlt, hr, hp, hq, h2.trans hd⟩

end Whole

/-! ## A new tree -/

/-- The tree of one leaf, block 1. -/
def Ghost.single : Ghost K := ⟨1, (· = 1), fun _ => 0, fun _ => none, fun _ => none⟩

omit [LinearOrder K] in
/-- What the constructor makes of a new file: block 1, whose `larger_node_` is whatever
    the block held. -/
theorem fresh_spec (raw : Nat → Node K R N) (addr : Nat) :
    (fresh raw addr).root = 1 ∧
      Makes 1 (newFile raw addr) (fresh raw addr).file ((newFile raw addr).pages.make 1 0) := by
  have hc : Returns create (fun b t => b = 1 ∧ Makes 1 (newFile raw addr) t ((newFile raw addr).pages.make 1 0))
      (newFile raw addr) := by
    unfold Returns create
    rw [wp_bind, wp_get, wp_bind, wp_countBlocks, if_neg (by simp [newFile]), wp_bind,
      wp_allocateBlock rfl (by simp [File.Grants, newFile]), wp_bind]
    exact (construct_makes (newFile raw addr) 0 (by simp [newFile])).wp fun _ t ht => ⟨rfl, ht⟩
  obtain ⟨b, t, h1, rfl, h2⟩ := hc.run
  unfold fresh openTree
  rw [h1]
  exact ⟨rfl, h2⟩

theorem fresh_whole {raw : Nat → Node K R N} (addr : Nat) (hz : (raw 1).largerNode = 0) :
    Whole (fresh raw addr) .single := by
  obtain ⟨hroot, hm⟩ := fresh_spec raw addr
  obtain ⟨h1, h2, -⟩ := hm.fresh 1 (Nat.le_refl _) (by show 1 < 1 + 1; omega)
  have hgaps : (fresh raw addr).file.pages.gaps .single 1 = [⟨none, 0, none⟩] := by
    rw [hm.pages, ← hz]
    simp [Pages.gaps, Pages.make, Ghost.single, gaps_nil]; rfl
  have hrecs : (fresh raw addr).file.pages.recs 1 = [] := by rw [hm.pages]; simp [Pages.make]
  refine ⟨⟨⟨⟨?_, ?_, ?_, ?_, ?_, fun _ _ hl => absurd rfl hl, rfl, ?_, rfl, rfl, ?_, fun _ _ => Nat.le_refl _⟩, ?_, ?_⟩,
    h1.trans hm.addr.symm⟩, hroot⟩
  · intro b hb; rw [hb]; exact Nat.one_ne_zero
  · intro b hb; rw [hb, hm.pages]; simp
  · intro b hb; rw [hb, hrecs]; exact Nat.zero_le _
  · intro b hb; rw [hb, hrecs]; exact ordered_nil _ _ _
  · intro b e _ g hg
    subst e
    rw [hgaps, List.mem_singleton] at hg
    rw [hg]
  · rw [hm.pages]; simp [Pages.make, Ghost.single]
  · intro b hb hne; exact absurd hb hne
  · intro b hb; rw [hb]; exact h2
  · intro b hb; rw [hb, hm.blockCount]; show 1 < 1 + 1; omega

omit [LinearOrder K] in
theorem fresh_empty {raw : Nat → Node K R N} (addr : Nat) (k : K) (r : R) :
    ¬ (fresh raw addr).file.pages.Has .single k r := by
  obtain ⟨-, hm⟩ := fresh_spec raw addr
  intro he
  obtain ⟨b, rfl, e, he, -⟩ := he
  rw [hm.pages] at he
  simp [Pages.make] at he

end Dumbnose.Btree
