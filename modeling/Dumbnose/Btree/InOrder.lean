/-
  Dumbnose.Btree.InOrder — trees in a file that the code need not have built, and the
  order of their keys.

  The links from a root make a finite tree when no walk is longer than some bound
  (`FiniteTree`); the number of blocks is then a bound too (`FiniteTree.deep`), so
  `inorder` with that many levels is all of the tree's keys.

  The in-order sequence is increasing exactly if every node's records are and each
  record is above the right edge of the tree on its left and below the left edge of
  the tree on its right (`inorder_sorted_iff`).
-/

import Mathlib.Data.Fintype.Pigeonhole
import Dumbnose.Btree.Structure

namespace Dumbnose.Btree

open Lib.Exec Lib.Gaps

variable {K R : Type} {N : Nat} [LinearOrder K]

/-! ## Trees in a file -/

/-- The keys below `b`, in order, down to `f` levels. -/
def inorder (s : File K R N) : Nat → Nat → List K
  | 0, _ => []
  | f + 1, b =>
    if b = 0 then []
    else weave Entry.smallerNode Entry.key (inorder s f) (s.blocks b).largerNode (s.blocks b).recs

/-- No walk from `b` takes `f` links. -/
def Deep (s : File K R N) (f b : Nat) : Prop := ∀ p c, follow s b p = some c → p.length < f

/-- Walks from `b` lead to allocated nodes with no more records than fit. -/
def Allocated (s : File K R N) (b : Nat) : Prop :=
  ∀ p c, follow s b p = some c → c ≠ 0 ∧ c < s.blockCount ∧ (s.blocks c).recordCount ≤ N

/-- The links from the root make a finite tree of allocated nodes. -/
structure FiniteTree (t : Tree K R N) : Prop where
  held : (t.file.blocks t.root).file = t.file.addr
  allocated : Allocated t.file t.root
  finite : ∃ d, Deep t.file d t.root

section Deep
variable {s : File K R N} {f b c : Nat}

omit [LinearOrder K] in
theorem Deep.link (h : Deep s (f + 1) b) (hc : c ∈ (s.blocks b).links) (h0 : c ≠ 0) : Deep s f c := by
  obtain ⟨i, hi⟩ := List.mem_iff_getElem?.mp hc
  intro p d hp
  have := h (i :: p) d (follow_cons.mpr ⟨c, hi, h0, hp⟩)
  rw [List.length_cons] at this
  omega

omit [LinearOrder K] in
theorem Allocated.link (h : Allocated s b) (hc : c ∈ (s.blocks b).links) (h0 : c ≠ 0) : Allocated s c := by
  obtain ⟨i, hi⟩ := List.mem_iff_getElem?.mp hc
  exact fun p d hp => h (i :: p) d (follow_cons.mpr ⟨c, hi, h0, hp⟩)

omit [LinearOrder K] in
theorem not_deep_zero : ¬ Deep s 0 b := fun h => absurd (h [] b rfl) (Nat.not_lt_zero _)

omit [LinearOrder K] in
/-- A walk that comes by a node twice can be made as long as one likes. -/
theorem Deep.no_loop {d : Nat} (h : Deep s d b) {p q : List Nat} (hp : follow s b p = some c)
    (hq : follow s c q = some c) :
    q = [] := by
  by_contra hne
  have hlen : 0 < q.length := List.length_pos_iff.mpr hne
  have hloop : ∀ n, ∃ r, follow s c r = some c ∧ n ≤ r.length := by
    intro n
    induction n with
    | zero => exact ⟨[], rfl, Nat.le_refl _⟩
    | succ n ih =>
      obtain ⟨r, hr, hle⟩ := ih
      exact ⟨q ++ r, follow_append.mpr ⟨c, hq, hr⟩, by rw [List.length_append]; omega⟩
  obtain ⟨r, hr, hle⟩ := hloop d
  have := h _ c (follow_append.mpr ⟨c, hp, hr⟩)
  rw [List.length_append] at this
  omega

omit [LinearOrder K] in
/-- The number of blocks is enough for every walk in a finite tree. -/
theorem FiniteTree.deep {t : Tree K R N} (h : FiniteTree t) : Deep t.file t.file.blockCount t.root := by
  obtain ⟨d, hd⟩ := h.finite
  intro p c hp
  by_contra hlen
  -- the nodes on the walk: more than there are blocks
  have hex : ∀ i : Fin (p.length + 1), ∃ b, follow t.file t.root (p.take i) = some b := by
    intro i
    rw [← List.take_append_drop i p] at hp
    obtain ⟨b, hb, -⟩ := follow_append.mp hp
    exact ⟨b, hb⟩
  choose g hg using hex
  have hlt : ∀ i, g i < t.file.blockCount := fun i => (h.allocated _ _ (hg i)).2.1
  obtain ⟨i, j, hij, he⟩ := Fintype.exists_ne_map_eq_of_card_lt (fun i => (⟨g i, hlt i⟩ : Fin t.file.blockCount))
    (by rw [Fintype.card_fin, Fintype.card_fin]; omega)
  have he : g i = g j := congrArg Fin.val he
  have hloop : ∀ i j : Fin (p.length + 1), i < j → g i ≠ g j := by
    intro i j hlt he
    have hsplit : p.take j = p.take i ++ (p.take j).drop i := by
      conv_lhs => rw [← List.take_append_drop i (p.take j), List.take_take, min_eq_left (Nat.le_of_lt hlt)]
    have hj := hg j
    rw [hsplit] at hj
    obtain ⟨b, hb, hq⟩ := follow_append.mp hj
    rw [hg i] at hb
    obtain rfl := Option.some.inj hb
    rw [← he] at hq
    have := congrArg List.length (hd.no_loop (hg i) hq)
    rw [List.length_drop, List.length_take, List.length_nil] at this
    have := j.isLt
    have : (i : Nat) < j := hlt
    omega
  rcases lt_or_gt_of_ne hij with h1 | h1
  · exact hloop i j h1 he
  · exact hloop j i h1 he.symm

omit [LinearOrder K] in
/-- Links that lead down in some rank make a finite tree. -/
theorem FiniteTree.of_rank {t : Tree K R N} (S : Nat → Prop) (rank : Nat → Nat) (hr : S t.root)
    (hh : (t.file.blocks t.root).file = t.file.addr)
    (hS : ∀ b, S b → b ≠ 0 ∧ b < t.file.blockCount ∧ (t.file.blocks b).recordCount ≤ N ∧
      ∀ c ∈ (t.file.blocks b).links, c ≠ 0 → S c ∧ rank c < rank b) : FiniteTree t := by
  have hwalk : ∀ p b c, S b → follow t.file b p = some c → S c ∧ p.length ≤ rank b := by
    intro p
    induction p with
    | nil => intro b c hb hc; cases hc; exact ⟨hb, Nat.zero_le _⟩
    | cons i p ih =>
      intro b c hb hp
      obtain ⟨d, hi, h0, hp⟩ := follow_cons.mp hp
      obtain ⟨hd, hlt⟩ := (hS b hb).2.2.2 d (List.mem_of_getElem? hi) h0
      obtain ⟨hc, hle⟩ := ih d c hd hp
      exact ⟨hc, by rw [List.length_cons]; omega⟩
  refine ⟨hh, fun p c hp => ?_, rank t.root + 1, fun p c hp => ?_⟩
  · obtain ⟨h1, h2, h3, -⟩ := hS c (hwalk p _ c hr hp).1
    exact ⟨h1, h2, h3⟩
  · exact Nat.lt_succ_of_le (hwalk p _ c hr hp).2

end Deep

theorem Whole.finiteTree {t : Tree K R N} {G : Ghost K} (h : Whole t G) : FiniteTree t := by
  have hr := h.rootHeld
  have hl := h.shaped.rootLive
  rw [← h.root] at hr hl
  refine .of_rank G.live G.level hl hr fun b hb => ⟨h.shaped.pos b hb, h.alloc b hb, h.bounded b hb, fun c hc h0 => ?_⟩
  obtain ⟨h1, -, h2⟩ := h.link_mem hb hc h0
  exact ⟨h1, by omega⟩

/-! ## When the in-order sequence is increasing -/

/-- From `c` down its larger links. -/
inductive RightEdge (s : File K R N) : Nat → Nat → Prop
  | here {c : Nat} : c ≠ 0 → RightEdge s c c
  | down {c d : Nat} : c ≠ 0 → RightEdge s (s.blocks c).largerNode d → RightEdge s c d

/-- From `c` down its first links. -/
inductive LeftEdge (s : File K R N) : Nat → Nat → Prop
  | here {c : Nat} : c ≠ 0 → LeftEdge s c c
  | down {c d : Nat} : c ≠ 0 →
      LeftEdge s (first Entry.smallerNode (s.blocks c).largerNode (s.blocks c).recs) d → LeftEdge s c d

omit [LinearOrder K] in
theorem RightEdge.ne {s : File K R N} {c d : Nat} (h : RightEdge s c d) : c ≠ 0 := by cases h <;> assumption

omit [LinearOrder K] in
theorem LeftEdge.ne {s : File K R N} {c d : Nat} (h : LeftEdge s c d) : c ≠ 0 := by cases h <;> assumption

/-- The records of a node are increasing, and between the edges of their subtrees. -/
structure InOrder (s : File K R N) (b : Nat) : Prop where
  increasing : (s.blocks b).recs.Pairwise (·.key < ·.key)
  above : ∀ (i : Nat) (e : Entry K R) (c d : Nat), (s.blocks b).recs[i]? = some e →
    (s.blocks b).links[i]? = some c → RightEdge s c d →
    ∀ e' ∈ (s.blocks d).recs, e'.key < e.key
  below : ∀ (i : Nat) (e : Entry K R) (c d : Nat), (s.blocks b).recs[i]? = some e →
    (s.blocks b).links[i + 1]? = some c → LeftEdge s c d →
    ∀ e' ∈ (s.blocks d).recs, e.key < e'.key

section InOrder
variable {s : File K R N} {f b c : Nat} {k : K}

omit [LinearOrder K] in
@[simp] theorem inorder_null (f : Nat) : inorder s f 0 = [] := by cases f <;> rfl

omit [LinearOrder K] in
theorem inorder_succ (h0 : b ≠ 0) : inorder s (f + 1) b =
    weave Entry.smallerNode Entry.key (inorder s f) (s.blocks b).largerNode (s.blocks b).recs := by
  rw [inorder, if_neg h0]

omit [LinearOrder K] in
theorem first_mem_links : first Entry.smallerNode (s.blocks b).largerNode (s.blocks b).recs ∈ (s.blocks b).links := by
  rw [Node.links]
  cases (s.blocks b).recs <;> simp [first]

/-- The greatest keys of a tree are on its right edge. -/
theorem inorder_lt_iff (hd : c ≠ 0 → Deep s f c) (hs : (inorder s f c).Pairwise (· < ·)) :
    (∀ k' ∈ inorder s f c, k' < k) ↔ ∀ d, RightEdge s c d → ∀ e ∈ (s.blocks d).recs, e.key < k := by
  induction f generalizing c with
  | zero =>
    by_cases h0 : c = 0
    · subst h0
      refine ⟨fun _ d hd => ?_, fun _ k' hk' => by simp at hk'⟩
      cases hd with
      | here h0 | down h0 _ => exact absurd rfl h0
    · exact absurd (hd h0) not_deep_zero
  | succ f ih =>
    by_cases h0 : c = 0
    · subst h0
      refine ⟨fun _ d hd => ?_, fun _ k' hk' => by simp at hk'⟩
      cases hd with
      | here h0 | down h0 _ => exact absurd rfl h0
    rw [inorder_succ h0] at hs ⊢
    have hlarger : (s.blocks c).largerNode ∈ (s.blocks c).links := by simp [Node.links]
    have ih := ih (fun h1 => (hd h0).link hlarger h1) (sub_of_weave hs _ hlarger)
    constructor
    · intro h d hd
      cases hd with
      | here => exact fun e he => h _ (mem_weave_key he)
      | down _ hd => exact ih.mp (fun k' hk' => h k' (mem_weave_last hk')) d hd
    · intro h k' hk'
      rcases weave_le hs hk' with hk' | ⟨e, he, hle⟩
      · exact ih.mpr (fun d hd => h d (.down h0 hd)) k' hk'
      · exact hle.trans_lt (h c (.here h0) e he)

/-- The least keys of a tree are on its left edge. -/
theorem lt_inorder_iff (hd : c ≠ 0 → Deep s f c) (hs : (inorder s f c).Pairwise (· < ·)) :
    (∀ k' ∈ inorder s f c, k < k') ↔ ∀ d, LeftEdge s c d → ∀ e ∈ (s.blocks d).recs, k < e.key := by
  induction f generalizing c with
  | zero =>
    by_cases h0 : c = 0
    · subst h0
      refine ⟨fun _ d hd => ?_, fun _ k' hk' => by simp at hk'⟩
      cases hd with
      | here h0 | down h0 _ => exact absurd rfl h0
    · exact absurd (hd h0) not_deep_zero
  | succ f ih =>
    by_cases h0 : c = 0
    · subst h0
      refine ⟨fun _ d hd => ?_, fun _ k' hk' => by simp at hk'⟩
      cases hd with
      | here h0 | down h0 _ => exact absurd rfl h0
    rw [inorder_succ h0] at hs ⊢
    have hfirst := first_mem_links (s := s) (b := c)
    have ih := ih (fun h1 => (hd h0).link hfirst h1) (sub_of_weave hs _ hfirst)
    constructor
    · intro h d hd
      cases hd with
      | here => exact fun e he => h _ (mem_weave_key he)
      | down _ hd => exact ih.mp (fun k' hk' => h k' (mem_weave_first hk')) d hd
    · intro h k' hk'
      rcases weave_ge hs hk' with hk' | ⟨e, he, hle⟩
      · exact ih.mpr (fun d hd => h d (.down h0 hd)) k' hk'
      · exact (h c (.here h0) e he).trans_le hle

theorem inorder_sorted_iff (h0 : b ≠ 0) (hd : Deep s f b) :
    (inorder s f b).Pairwise (· < ·) ↔ ∀ p d, follow s b p = some d → InOrder s d := by
  induction f generalizing b with
  | zero => exact absurd hd not_deep_zero
  | succ f ih =>
    rw [inorder_succ h0, weave_sorted]
    have hsub : (∀ c ∈ (s.blocks b).links, (inorder s f c).Pairwise (· < ·)) ↔
        ∀ i p d, follow s b (i :: p) = some d → InOrder s d := by
      constructor
      · intro h i p d hp
        obtain ⟨c, hi, hc0, hp⟩ := follow_cons.mp hp
        have hc := List.mem_of_getElem? hi
        exact (ih hc0 (hd.link hc hc0)).mp (h c hc) p d hp
      · intro h c hc
        by_cases hc0 : c = 0
        · subst hc0; rw [inorder_null]; exact .nil
        · obtain ⟨i, hi⟩ := List.mem_iff_getElem?.mp hc
          exact (ih hc0 (hd.link hc hc0)).mpr fun p d hp => h i p d (follow_cons.mpr ⟨c, hi, hc0, hp⟩)
    have hedge : (∀ c ∈ (s.blocks b).links, (inorder s f c).Pairwise (· < ·)) →
        ((s.blocks b).recs.Pairwise (·.key < ·.key) ∧ (∀ i e, (s.blocks b).recs[i]? = some e →
          (∀ c ∈ (s.blocks b).links[i]?, ∀ k ∈ inorder s f c, k < e.key) ∧
          ∀ c ∈ (s.blocks b).links[i + 1]?, ∀ k ∈ inorder s f c, e.key < k) ↔ InOrder s b) := by
      intro hs
      have hdeep : ∀ c ∈ (s.blocks b).links, c ≠ 0 → Deep s f c := fun c hc hc0 => hd.link hc hc0
      constructor
      · intro h
        obtain ⟨h1, h2⟩ := h
        refine ⟨h1, fun i e c d he hc hr => ?_, fun i e c d he hc hl => ?_⟩
        · have hm := List.mem_of_getElem? hc
          exact (inorder_lt_iff (hdeep c hm) (hs c hm)).mp ((h2 i e he).1 c hc) d hr
        · have hm := List.mem_of_getElem? hc
          exact (lt_inorder_iff (hdeep c hm) (hs c hm)).mp ((h2 i e he).2 c hc) d hl
      · intro h
        obtain ⟨h1, h2, h3⟩ := h
        refine ⟨h1, fun i e he => ⟨fun c hc => ?_, fun c hc => ?_⟩⟩
        · have hm := List.mem_of_getElem? hc
          exact (inorder_lt_iff (hdeep c hm) (hs c hm)).mpr fun d hr => h2 i e c d he hc hr
        · have hm := List.mem_of_getElem? hc
          exact (lt_inorder_iff (hdeep c hm) (hs c hm)).mpr fun d hl => h3 i e c d he hc hl
    constructor
    · intro h p d hp
      obtain ⟨h1, h2, h3⟩ := h
      cases p with
      | nil => cases hp; exact (hedge h2).mp ⟨h1, h3⟩
      | cons i p => exact hsub.mp h2 i p d hp
    · intro h
      have h2 := hsub.mpr fun i p d hp => h (i :: p) d hp
      obtain ⟨h1, h3⟩ := (hedge h2).mpr (h [] b rfl)
      exact ⟨h1, h2, h3⟩

end InOrder

end Dumbnose.Btree
