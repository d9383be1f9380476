/-
  Dumbnose.Btree.Lookup — following links down and up.

  `Finds` is the search of `find_record_and_node` on the pages alone: linear in each
  node (`searchLoop_returns` says the loop agrees), down one link at a time. In a
  shaped tree it always ends, and the bounds decide where: every node whose bounds
  contain the key is on its path (`Shaped.onPath`), so a key the tree holds is found
  from the root (`Shaped.finds_iff`).

  `Finds.returns` is the code's search. It needs of the nodes on the path only that
  they can be read, so it also speaks of a tree that a failed split left behind.
-/

import Dumbnose.Btree.Moves

namespace Dumbnose.Btree

open Lib.Exec Lib.Gaps

variable {K R : Type} {N : Nat} [LinearOrder K]

/-- The nodes the search for `k` from `b` comes by. -/
inductive OnPath (P : Pages K R) (k : K) : Nat → Nat → Prop
  | refl (b : Nat) : OnPath P k b b
  | down {b c d : Nat} : linear k (P.larger b) (P.recs b) = .down c → c ≠ 0 → OnPath P k c d → OnPath P k b d

/-- The search for `k` from `b` reads `n` nodes and ends at node `l`, with the record. -/
inductive Finds (P : Pages K R) (k : K) : Nat → Nat → Option R → Nat → Prop
  | here {b : Nat} {e : Entry K R} : linear k (P.larger b) (P.recs b) = .here e → Finds P k 1 b (some e.record) b
  | nowhere {b : Nat} : linear k (P.larger b) (P.recs b) = .down 0 → Finds P k 1 b none b
  | down {n b c : Nat} {r : Option R} {l : Nat} : linear k (P.larger b) (P.recs b) = .down c → c ≠ 0 →
      Finds P k n c r l → Finds P k (n + 1) b r l

section Pages
variable {P : Pages K R} {k : K} {b c d l n : Nat} {r : Option R}

theorem OnPath.trans (h : OnPath P k b c) (h' : OnPath P k c d) : OnPath P k b d := by
  induction h with
  | refl => exact h'
  | down h1 h0 _ ih => exact .down h1 h0 (ih h')

theorem Finds.onPath (h : Finds P k n b r l) : OnPath P k b l := by
  induction h with
  | here | nowhere => exact .refl _
  | down h1 h0 _ ih => exact .down h1 h0 ih

theorem Finds.from_above (h : OnPath P k b c) (hf : Finds P k n c r l) : ∃ m, Finds P k m b r l := by
  induction h with
  | refl => exact ⟨n, hf⟩
  | down h1 h0 _ ih => obtain ⟨m, hm⟩ := ih hf; exact ⟨m + 1, .down h1 h0 hm⟩

theorem Finds.det {n' l' : Nat} {r' : Option R} (h : Finds P k n b r l) (h' : Finds P k n' b r' l') :
    n = n' ∧ r = r' ∧ l = l' := by
  induction h generalizing n' with
  | here h1 =>
    cases h' with
    | here h2 => rw [h1] at h2; injection h2 with e; subst e; exact ⟨rfl, rfl, rfl⟩
    | nowhere h2 => rw [h1] at h2; cases h2
    | down h2 => rw [h1] at h2; cases h2
  | nowhere h1 =>
    cases h' with
    | here h2 => rw [h1] at h2; cases h2
    | nowhere => exact ⟨rfl, rfl, rfl⟩
    | down h2 h0 => rw [h1] at h2; injection h2 with e; exact absurd e.symm h0
  | down h1 h0 _ ih =>
    cases h' with
    | here h2 => rw [h1] at h2; cases h2
    | nowhere h2 => rw [h1] at h2; injection h2 with e; exact absurd e h0
    | down h2 _ hf =>
      rw [h1] at h2; injection h2 with e; subst e
      obtain ⟨e1, e2, e3⟩ := ih hf
      exact ⟨by rw [e1], e2, e3⟩

theorem Finds.mem {r : R} (h : Finds P k n b (some r) l) : ∃ e ∈ P.recs l, e.key = k ∧ e.record = r := by
  generalize hr : some r = o at h
  induction h with
  | here h1 =>
    injection hr with hr
    obtain ⟨he, hk⟩ := seek_here Entry.smallerNode Entry.key h1
    exact ⟨_, he, hk, hr.symm⟩
  | nowhere => cases hr
  | down _ _ _ ih => exact ih hr

/-- The search only reads the records and larger links of the nodes it comes by. -/
theorem Finds.congr {P' : Pages K R} (h : Finds P k n b r l)
    (hP : ∀ c, OnPath P k b c → P'.larger c = P.larger c ∧ P'.recs c = P.recs c) : Finds P' k n b r l := by
  induction h with
  | here h1 => exact .here (by rw [(hP _ (.refl _)).1, (hP _ (.refl _)).2]; exact h1)
  | nowhere h1 => exact .nowhere (by rw [(hP _ (.refl _)).1, (hP _ (.refl _)).2]; exact h1)
  | down h1 h0 _ ih =>
    exact .down (by rw [(hP _ (.refl _)).1, (hP _ (.refl _)).2]; exact h1) h0 (ih fun c hc => hP c (.down h1 h0 hc))

theorem OnPath.of_congr {P' : Pages K R} (h : OnPath P' k b c)
    (hP : ∀ c, OnPath P k b c → P'.larger c = P.larger c ∧ P'.recs c = P.recs c) : OnPath P k b c := by
  induction h with
  | refl => exact .refl _
  | down h1 h0 _ ih =>
    rw [(hP _ (.refl _)).1, (hP _ (.refl _)).2] at h1
    exact .down h1 h0 (ih fun c hc => hP c (.down h1 h0 hc))

end Pages

/-! ## In a shaped tree -/

section Shaped
variable {P : Pages K R} {G : Ghost K} (h : Shaped N P G) {k : K} {b c d l n : Nat} {r : Option R}
include h

/-- A link the search takes leads to a child, whose bounds contain the key. -/
theorem Shaped.step_down (hb : G.live b) (hd : linear k (P.larger b) (P.recs b) = .down c) (h0 : c ≠ 0) :
    G.live c ∧ G.level c + 1 = G.level b ∧ P.parent c = b ∧
      (Within (G.lo b) (G.hi b) k → Within (G.lo c) (G.hi c) k) := by
  obtain ⟨g, hg, rfl, hw⟩ := seek_down Entry.smallerNode Entry.key (G.lo b) (G.hi b) hd
  by_cases hl : G.level b = 0
  · exact absurd (h.leaf b hb hl g hg) h0
  · obtain ⟨h1, h2, h3, h4, h5⟩ := h.inner b hb hl g hg
    exact ⟨h1, h2, h5, by rw [h3, h4]; exact hw⟩

theorem Shaped.below_of_onPath (hb : G.live b) (hp : OnPath P k b c) :
    G.live c ∧ G.level c ≤ G.level b ∧ (Within (G.lo b) (G.hi b) k → Within (G.lo c) (G.hi c) k) := by
  induction hp with
  | refl => exact ⟨hb, Nat.le_refl _, id⟩
  | down h1 h0 _ ih =>
    obtain ⟨hl, hlv, -, hw⟩ := h.step_down hb h1 h0
    obtain ⟨h2, h3, h4⟩ := ih hl
    exact ⟨h2, by omega, fun h => h4 (hw h)⟩

theorem Shaped.finds (k : K) (hb : G.live b) : ∃ n r l, Finds P k n b r l ∧ n ≤ G.level b + 1 := by
  induction hn : G.level b generalizing b with
  | zero =>
    cases hs : linear k (P.larger b) (P.recs b) with
    | here e => exact ⟨1, _, b, .here hs, Nat.le_refl _⟩
    | down c =>
      by_cases h0 : c = 0
      · exact ⟨1, none, b, .nowhere (h0 ▸ hs), Nat.le_refl _⟩
      · have := (h.step_down hb hs h0).2.1; omega
  | succ m ih =>
    cases hs : linear k (P.larger b) (P.recs b) with
    | here e => exact ⟨1, _, b, .here hs, by omega⟩
    | down c =>
      by_cases h0 : c = 0
      · exact ⟨1, none, b, .nowhere (h0 ▸ hs), by omega⟩
      · obtain ⟨hc, hl, -⟩ := h.step_down hb hs h0
        obtain ⟨n, r, l, hf, hle⟩ := ih hc (by omega)
        exact ⟨n + 1, r, l, .down hs h0 hf, by omega⟩

/-- The key of a record is within the bounds of its node. -/
theorem Shaped.within_of_mem {e : Entry K R} (hb : G.live b) (he : e ∈ P.recs b) : Within (G.lo b) (G.hi b) e.key :=
  (h.ordered b hb).within e he

theorem Shaped.within_parent (hb : G.live b) (hr : b ≠ G.root) (hw : Within (G.lo b) (G.hi b) k) :
    Within (G.lo (P.parent b)) (G.hi (P.parent b)) k := by
  obtain ⟨h1, -, h3⟩ := h.linked b hb hr
  exact within_of_gap _ _ (h.ordered _ h1) h3 hw

/-- Every node whose bounds contain the key is on the path from the root. -/
theorem Shaped.onPath (hb : G.live b) (hw : Within (G.lo b) (G.hi b) k) : OnPath P k G.root b := by
  induction hn : G.level G.root - G.level b generalizing b with
  | zero =>
    by_cases hr : b = G.root
    · subst hr; exact .refl _
    · have h1 := h.linked b hb hr
      have := h.below _ h1.1
      omega
  | succ m ih =>
    by_cases hr : b = G.root
    · subst hr; exact .refl _
    · obtain ⟨h1, h2, h3⟩ := h.linked b hb hr
      refine (ih h1 (h.within_parent hb hr hw) (by omega)).trans (.down ?_ (h.pos b hb) (.refl _))
      exact seek_of_gap Entry.smallerNode Entry.key (h.ordered _ h1) h3 hw

theorem Shaped.onPath_iff : OnPath P k G.root b ↔ G.live b ∧ Within (G.lo b) (G.hi b) k := by
  refine ⟨fun hp => ?_, fun ⟨h1, h2⟩ => h.onPath h1 h2⟩
  obtain ⟨h1, -, h2⟩ := h.below_of_onPath h.rootLive hp
  exact ⟨h1, h2 (by rw [h.rootLo, h.rootHi]; exact within_none k)⟩

/-- One node of each level has the key in its bounds. -/
theorem Shaped.unique (hb : G.live b) (hc : G.live c) (hwb : Within (G.lo b) (G.hi b) k)
    (hwc : Within (G.lo c) (G.hi c) k)
    (hl : G.level b = G.level c) : b = c := by
  have root_of_level : ∀ d, G.live d → G.level d = G.level G.root → d = G.root := by
    intro d hd e
    by_contra hr
    have h1 := h.linked d hd hr
    have := h.below _ h1.1
    omega
  induction hn : G.level G.root - G.level b generalizing b c with
  | zero =>
    have := h.below b hb
    rw [root_of_level b hb (by omega), root_of_level c hc (by omega)]
  | succ m ih =>
    have hbr : b ≠ G.root := by intro e; subst e; omega
    have hcr : c ≠ G.root := by intro e; subst e; omega
    obtain ⟨hb1, hb2, hb3⟩ := h.linked b hb hbr
    obtain ⟨hc1, hc2, hc3⟩ := h.linked c hc hcr
    have hp := ih hb1 hc1 (h.within_parent hb hbr hwb) (h.within_parent hc hcr hwc) (by omega) (by omega)
    rw [← hp] at hc3
    have h1 := seek_of_gap Entry.smallerNode Entry.key (h.ordered _ hb1) hb3 hwb
    have h2 := seek_of_gap Entry.smallerNode Entry.key (h.ordered _ hb1) hc3 hwc
    rw [h1] at h2
    exact Ruling.down.inj h2

/-- The search for a key that a node holds stops there. -/
theorem Shaped.finds_of_mem {e : Entry K R} (hb : G.live b) (he : e ∈ P.recs b) :
    ∃ n, Finds P e.key n G.root (some e.record) b := by
  have hs := (h.ordered b hb).sorted
  exact (Finds.here (seek_of_mem Entry.smallerNode Entry.key _ hs he rfl)).from_above
    (h.onPath hb (h.within_of_mem hb he))

/-- The tree is a map, and the search from the root reads it. -/
theorem Shaped.finds_iff {r : R} : (∃ n l, Finds P k n G.root (some r) l) ↔ P.Has G k r := by
  constructor
  · intro hf
    obtain ⟨n, l, hf⟩ := hf
    exact ⟨l, (h.below_of_onPath h.rootLive hf.onPath).1, hf.mem⟩
  · intro hb
    obtain ⟨b, hb, e, he, rfl, rfl⟩ := hb
    obtain ⟨n, hf⟩ := h.finds_of_mem hb he
    exact ⟨n, b, hf⟩

/-- Bounds are nested along a path. -/
theorem Shaped.within_of_onPath {k' : K} (hb : G.live b) (hp : OnPath P k b c) (hw : Within (G.lo c) (G.hi c) k') :
    Within (G.lo b) (G.hi b) k' := by
  induction hp with
  | refl => exact hw
  | @down b c _ h1 h0 _ ih =>
    obtain ⟨hc, -, hpar, -⟩ := h.step_down hb h1 h0
    have hr : c ≠ G.root := fun e => h.pos b hb (by rw [← hpar, e, h.rootParent])
    have := h.within_parent hc hr (ih hc hw)
    rwa [hpar] at this

/-- A search from a node for a key outside its bounds finds nothing. -/
theorem Shaped.finds_outside (hb : G.live b) (hw : ¬ Within (G.lo b) (G.hi b) k)
    (hf : Finds P k n b r l) : r = none := by
  cases r with
  | none => rfl
  | some r =>
    obtain ⟨e, he, rfl, -⟩ := hf.mem
    have hl := (h.below_of_onPath hb hf.onPath).1
    exact absurd (h.within_of_onPath hb hf.onPath (h.within_of_mem hl he)) hw

/-- A search that ends with nothing ends at a leaf, and the key is not there. -/
theorem Shaped.leaf_of_none (hb : G.live b) (hf : Finds P k n b none l) :
    G.live l ∧ G.level l = 0 ∧ ∀ e ∈ P.recs l, e.key ≠ k := by
  generalize hr : (none : Option R) = o at hf
  induction hf with
  | here => cases hr
  | @nowhere l h1 =>
    refine ⟨hb, ?_, fun e he hk => ?_⟩
    · by_contra hl
      obtain ⟨g, hg, h0, -⟩ := seek_down Entry.smallerNode Entry.key (G.lo l) (G.hi l) h1
      exact h.pos _ (h.inner l hb hl g hg).1 h0
    · have := seek_of_mem Entry.smallerNode Entry.key (P.larger l) (h.ordered l hb).sorted he hk
      rw [linear, this] at h1
      cases h1
  | down h1 h0 _ ih => exact ih (h.step_down hb h1 h0).1 hr

/-- From a leaf with the key in its bounds, and not among its records. -/
theorem Shaped.finds_none (hb : G.live b) (hl : G.level b = 0) (hw : Within (G.lo b) (G.hi b) k)
    (hk : ∀ e ∈ P.recs b, e.key ≠ k) : ∃ n, Finds P k n G.root none b := by
  refine Finds.from_above (h.onPath hb hw) (Finds.nowhere ?_)
  cases hs : linear k (P.larger b) (P.recs b) with
  | here e =>
    obtain ⟨he, hke⟩ := seek_here Entry.smallerNode Entry.key hs
    exact absurd hke (hk e he)
  | down c =>
    by_cases h0 : c = 0
    · rw [h0]
    · have := (h.step_down hb hs h0).2.1; omega

end Shaped

/-! ## The code's search -/

/-- A node that a search can read. -/
structure Ready (s : File K R N) (b : Nat) : Prop where
  ne : b ≠ 0
  lt : b < s.blockCount
  bounded : (s.blocks b).recordCount ≤ N
  sorted : (s.pages.recs b).Pairwise (·.key < ·.key)

theorem Finds.returns {s : File K R N} {k : K} {n b l : Nat} {r : Option R} (hf : Finds s.pages k n b r l) {f : Nat}
    (hn : n ≤ f) (hh : (s.blocks b).file = s.addr) (hr : ∀ c, OnPath s.pages k b c → Ready s c) :
    Returns (findRecordAndNode f b k)
      (fun o t => Refreshed s t ∧ o = (r, l) ∧ (t.blocks l).file = t.addr) s := by
  generalize hP : s.pages = P at hf
  induction hf generalizing s f with
  | here h1 | nowhere h1 =>
    obtain ⟨f, rfl⟩ := Nat.exists_eq_add_of_le' hn
    subst hP
    have hb := hr _ (.refl _)
    unfold Returns findRecordAndNode
    rw [wp_bind, wp_node hb.ne, wp_bind]
    apply (searchLoop_returns hb.ne hb.bounded hb.sorted k).wp
    intro o t h
    obtain ⟨rfl, rfl⟩ := h
    rw [pages_larger, pages_recs] at h1
    rw [h1]
    exact ⟨.refl _, rfl, hh⟩
  | @down n b c r l h1 h0 _ ih =>
    obtain ⟨f, rfl⟩ : ∃ f', f = f' + 1 := ⟨f - 1, by omega⟩
    subst hP
    have hb := hr _ (.refl _)
    have hc := hr _ (.down h1 h0 (.refl _))
    have hd := (refreshed_refresh h0 hc.lt).does
    unfold Returns findRecordAndNode
    rw [wp_bind, wp_node hb.ne, wp_bind]
    apply (searchLoop_returns hb.ne hb.bounded hb.sorted k).wp
    intro o t h
    obtain ⟨rfl, rfl⟩ := h
    rw [pages_larger, pages_recs] at h1
    simp only [h1, Stop.of]
    rw [if_pos h0, wp_bind, wp_convert hb.ne hh h0 hc.lt]
    refine (ih (s := t.refresh c) (by omega) (by simp [File.refresh]) (fun d hd' => ?_) hd.pages).wp ?_
    · rw [hd.pages] at hd'
      obtain ⟨h2, h3, h4, h5⟩ := hr d (.down h1 h0 hd')
      refine ⟨h2, h3, ?_, by rw [hd.pages]; exact h5⟩
      have := (refreshed_refresh h0 hc.lt).body d
      rw [this.2.2.2.1]; exact h4
    · intro o u h
      obtain ⟨h2, h3, h4⟩ := h
      exact ⟨(refreshed_refresh h0 hc.lt).trans h2, h3, h4⟩

/-- The bytes of a file whose tree is whole. Blocks outside the tree are not spoken of. -/
structure Laid (s : File K R N) (G : Ghost K) : Prop where
  shaped : Shaped N s.pages G
  bounded : ∀ b, G.live b → (s.blocks b).recordCount ≤ N
  alloc : ∀ b, G.live b → b < s.blockCount

/-- A file whose tree is whole, with a root that points at the live `mmap_file`. -/
structure Sound (s : File K R N) (G : Ghost K) : Prop extends Laid s G where
  rootHeld : (s.blocks G.root).file = s.addr

section Laid
variable {s t : File K R N} {G : Ghost K} (h : Laid s G) {k : K} {b c l : Nat}
include h

theorem Laid.at (hb : G.live b) (hh : (s.blocks b).file = s.addr) : At s b := ⟨h.shaped.pos b hb, hh, h.bounded b hb⟩

theorem Laid.ready (hb : G.live b) : Ready s b :=
  ⟨h.shaped.pos b hb, h.alloc b hb, h.bounded b hb, (h.shaped.ordered b hb).sorted⟩

/-- There are blocks enough for every walk along links. -/
theorem Laid.level_lt : G.level G.root + 1 < s.blockCount := h.shaped.level_lt h.alloc

theorem Laid.does (hd : Does s t s.pages) : Laid t G :=
  ⟨hd.pages ▸ h.shaped, fun b hb => hd.bounded b (h.bounded b hb), fun b hb => hd.blockCount ▸ h.alloc b hb⟩

theorem Laid.refreshed (hr : Refreshed s t) : Laid t G := h.does hr.does

theorem Laid.find_returns {n : Nat} {r : Option R} (hb : G.live b) (hh : (s.blocks b).file = s.addr)
    (hf : Finds s.pages k n b r l) :
    Returns (findRecordAndNode s.blockCount b k)
      (fun o t => Refreshed s t ∧ o = (r, l) ∧ (t.blocks l).file = t.addr) s := by
  obtain ⟨n', r', l', hf', hn⟩ := h.shaped.finds k hb
  obtain ⟨rfl, -, -⟩ := hf.det hf'
  have := h.level_lt
  have := h.shaped.below b hb
  exact hf.returns (by omega) hh fun c hc => h.ready (h.shaped.below_of_onPath hb hc).1

theorem Laid.findRootFrom_returns {f : Nat} (hb : G.live b) (hh : (s.blocks b).file = s.addr)
    (hf : G.level G.root < f + G.level b) :
    Returns (findRootFrom f b) (fun o t => Refreshed s t ∧ o = G.root ∧ (t.blocks G.root).file = t.addr) s := by
  induction f generalizing s b with
  | zero => have := h.shaped.below b hb; omega
  | succ f ih =>
    have h0 := h.shaped.pos b hb
    unfold Returns findRootFrom
    rw [wp_bind, wp_node h0, ← pages_parent]
    by_cases hp : s.pages.parent b = 0
    · obtain rfl := h.shaped.root_of_parent_zero hb hp
      rw [if_pos hp]
      exact ⟨.refl s, rfl, hh⟩
    · have hr : b ≠ G.root := by intro e; subst e; exact hp h.shaped.rootParent
      obtain ⟨h1, h2, -⟩ := h.shaped.linked b hb hr
      have href := refreshed_refresh hp (h.alloc _ h1)
      rw [if_neg hp, wp_bind, wp_convert h0 hh hp (h.alloc _ h1)]
      apply (ih (h.refreshed href) h1 (by simp [File.refresh]) (by omega)).wp
      intro o t h
      obtain ⟨h3, h4⟩ := h
      exact ⟨href.trans h3, h4⟩

theorem Laid.findRoot_returns (hb : G.live b) (hh : (s.blocks b).file = s.addr) :
    Returns (findRoot b) (fun o t => Refreshed s t ∧ o = G.root ∧ (t.blocks G.root).file = t.addr) s := by
  unfold Returns findRoot
  rw [wp_bind, wp_get]
  exact h.findRootFrom_returns hb hh (by have := h.level_lt; omega)

end Laid

section Sound
variable {s t : File K R N} {G : Ghost K} (h : Sound s G)
include h

theorem Sound.does (hd : Does s t s.pages) : Sound t G := ⟨h.toLaid.does hd, (hd.held _ h.rootHeld).trans hd.addr.symm⟩

theorem Sound.refreshed (hr : Refreshed s t) : Sound t G := h.does hr.does

end Sound

end Dumbnose.Btree
