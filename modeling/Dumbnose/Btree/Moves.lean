/-
  Dumbnose.Btree.Moves — the moves an insert makes, and that each keeps the invariant.

  `splitUp` cuts a node in two and puts the record between the halves into its
  parent. `grow` puts an empty root over the root, and splitting the root is `grow`
  and then `splitUp` (`Pages.splitRoot_eq`). Neither changes what the tree holds
  (`Splits.has`, `Pages.grow_has`). `setRecs` at a leaf adds the record.
-/

import Dumbnose.Btree.Shape

namespace Dumbnose.Btree

open Lib.Gaps

variable {K R : Type} {N : Nat} [LinearOrder K]

/-! ## Splitting a node below its parent -/

/-- `insert_into_node` with the record a split sent up: `mid` goes between `ps` and
    `qs`, and the link right of it now leads to `y`. -/
def Pages.link (P : Pages K R) (p y : Nat) (ps qs : List (Entry K R)) (mid : Entry K R) : Pages K R :=
  ((P.setRecs p (ps ++ mid :: relink y qs)).setLarger p (if qs = [] then y else P.larger p)).adopt [mid.smallerNode]
    (P.this p)

/-- A split of `x` with the record between the halves sent to its parent. -/
def Pages.splitUp (P : Pages K R) (x y : Nat) (as : List (Entry K R)) (mid : Entry K R) (bs ps qs : List (Entry K R)) :
    Pages K R :=
  (P.splitNode x y as mid bs).link (P.parent x) y ps qs { mid with smallerNode := x }

def Ghost.split (G : Ghost K) (x y : Nat) (k : K) : Ghost K where
  root := G.root
  live b := G.live b ∨ b = y
  level := Function.update G.level y (G.level x)
  lo := Function.update G.lo y (some k)
  hi := Function.update (Function.update G.hi y (G.hi x)) x (some k)

structure Splits (N : Nat) (P : Pages K R) (G : Ghost K) (x y : Nat) (as : List (Entry K R)) (mid : Entry K R)
    (bs ps qs : List (Entry K R)) : Prop where
  shaped : Shaped N P G
  live : G.live x
  nonroot : x ≠ G.root
  fresh : ¬ G.live y
  ne : y ≠ 0
  recs : P.recs x = as ++ mid :: bs
  parentRecs : P.recs (P.parent x) = ps ++ qs
  gap : (⟨G.lo x, x, G.hi x⟩ : Gap Nat K) = ⟨low Entry.key (G.lo (P.parent x)) ps,
    first Entry.smallerNode (P.larger (P.parent x)) qs, top Entry.key (G.hi (P.parent x)) qs⟩
  room : (P.recs (P.parent x)).length < N

theorem Shaped.exists_sides {P : Pages K R} {G : Ghost K} (h : Shaped N P G) {x : Nat} (hx : G.live x)
    (hr : x ≠ G.root) :
    ∃ ps qs, P.recs (P.parent x) = ps ++ qs ∧
      (⟨G.lo x, x, G.hi x⟩ : Gap Nat K) = ⟨low Entry.key (G.lo (P.parent x)) ps,
        first Entry.smallerNode (P.larger (P.parent x)) qs, top Entry.key (G.hi (P.parent x)) qs⟩ :=
  gaps_at Entry.smallerNode Entry.key (h.linked x hx hr).2.2

section SplitUpFields
variable (P : Pages K R) (x y : Nat) (as : List (Entry K R)) (mid : Entry K R) (bs ps qs : List (Entry K R)) (b : Nat)

omit [LinearOrder K] in
theorem Pages.splitUp_this : (P.splitUp x y as mid bs ps qs).this b = if b = y then y else P.this b := by
  simp [Pages.splitUp, Pages.link, Pages.splitNode, Pages.make, Function.update_apply]

omit [LinearOrder K] in
theorem Pages.splitUp_recs : (P.splitUp x y as mid bs ps qs).recs b =
    if b = P.parent x then ps ++ { mid with smallerNode := x } :: relink y qs else if b = x then as
    else if b = y then bs else P.recs b := by
  simp only [Pages.splitUp, Pages.link, Pages.splitNode, Pages.setRecs, Pages.setLarger, Pages.adopt, Pages.make,
    Function.update_apply]
  split
  · rfl
  · split
    · rfl
    · split <;> rfl

omit [LinearOrder K] in
theorem Pages.splitNode_parent : (P.splitNode x y as mid bs).parent b =
    if b = mid.smallerNode ∧ b ≠ 0 then P.this x else if b ∈ bs.map Entry.smallerNode ++ [P.larger x] ∧ b ≠ 0 then y
    else if b = y then P.parent x else P.parent b := by
  show (if b ∈ [mid.smallerNode] ∧ b ≠ 0 then P.this x else if b ∈ [P.larger x] ∧ b ≠ 0 then y
    else if b ∈ bs.map Entry.smallerNode ∧ b ≠ 0 then y else Function.update P.parent y (P.parent x) b) = _
  simp only [List.mem_singleton, List.mem_append, Function.update_apply]
  generalize bs.map Entry.smallerNode = cs
  generalize P.larger x = l
  by_cases e0 : b = 0
  · simp [e0]
  · rcases eq_or_ne b l with rfl | e2 <;> by_cases e1 : b ∈ cs <;> simp [*]

end SplitUpFields

section SplitUp
variable {P : Pages K R} {G : Ghost K} {x y : Nat} {as : List (Entry K R)} {mid : Entry K R}
    {bs ps qs : List (Entry K R)}
  (h : Splits N P G x y as mid bs ps qs)
include h

theorem Splits.ne_x : x ≠ y := fun e => h.fresh (e ▸ h.live)

theorem Splits.parent_level : G.level (P.parent x) = G.level x + 1 := (h.shaped.linked x h.live h.nonroot).2.1

theorem Splits.parent_live : G.live (P.parent x) := (h.shaped.linked x h.live h.nonroot).1

theorem Splits.parent_ne : P.parent x ≠ x := fun e => by have := h.parent_level; rw [e] at this; omega

theorem Splits.parent_ne_y : P.parent x ≠ y := fun e => h.fresh (e ▸ h.parent_live)

theorem Splits.mid_within : Within (G.lo x) (G.hi x) mid.key :=
  (h.shaped.ordered x h.live).within mid (by rw [h.recs]; simp)

/-- The record sent up goes between `ps` and `qs`. -/
theorem Splits.sides : (∀ e ∈ ps, e.key < mid.key) ∧ ∀ e ∈ qs, mid.key < e.key := by
  have ho := h.shaped.ordered _ h.parent_live
  rw [h.parentRecs] at ho
  have hg := h.gap
  injection hg with h1 _ h2
  exact gap_sides Entry.key ho (h1 ▸ h2 ▸ h.mid_within)

theorem Splits.splitUp_larger (b : Nat) : (P.splitUp x y as mid bs ps qs).larger b =
    if b = P.parent x then (if qs = [] then y else P.larger (P.parent x)) else if b = x then mid.smallerNode
    else if b = y then P.larger x else P.larger b := by
  have h1 := h.parent_ne
  have h2 := h.parent_ne_y
  simp only [Pages.splitUp, Pages.link, Pages.splitNode, Pages.setLarger, Pages.adopt_larger, Pages.setRecs_larger,
    Function.update_apply, h1, h2, if_false, Pages.make]

theorem Splits.splitUp_parent (b : Nat) : (P.splitUp x y as mid bs ps qs).parent b =
    if b = x then P.parent x else if b = mid.smallerNode ∧ b ≠ 0 then x
    else if b ∈ bs.map Entry.smallerNode ++ [P.larger x] ∧ b ≠ 0 then y
    else if b = y then P.parent x else P.parent b := by
  have hp : (P.splitNode x y as mid bs).this (P.parent x) = P.parent x := by
    simp [Pages.splitNode, Pages.make, Function.update_of_ne h.parent_ne_y, h.shaped.this _ h.parent_live]
  show (if b ∈ [x] ∧ b ≠ 0 then (P.splitNode x y as mid bs).this (P.parent x)
    else (P.splitNode x y as mid bs).parent b) = _
  rw [hp, Pages.splitNode_parent, h.shaped.this x h.live]
  by_cases e : b = x
  · rw [if_pos ⟨by simp [e], e ▸ h.shaped.pos x h.live⟩, if_pos e]
  · rw [if_neg (by simp [e]), if_neg e]

theorem Splits.gaps_x : (P.splitUp x y as mid bs ps qs).gaps (G.split x y mid.key) x =
    Lib.Gaps.gaps Entry.smallerNode Entry.key (G.lo x) as mid.smallerNode (some mid.key) := by
  have h1 := h.parent_ne.symm
  have h2 := h.ne_x
  simp [Pages.gaps, Pages.splitUp_recs, h.splitUp_larger, Ghost.split, h1, h2]

theorem Splits.gaps_y : (P.splitUp x y as mid bs ps qs).gaps (G.split x y mid.key) y =
    Lib.Gaps.gaps Entry.smallerNode Entry.key (some mid.key) bs (P.larger x) (G.hi x) := by
  have h1 := h.parent_ne_y.symm
  have h2 := h.ne_x.symm
  simp [Pages.gaps, Pages.splitUp_recs, h.splitUp_larger, Ghost.split, h1, h2]

/-- The two halves share out the children. -/
theorem Splits.gaps_halves : P.gaps G x = (P.splitUp x y as mid bs ps qs).gaps (G.split x y mid.key) x ++
    (P.splitUp x y as mid bs ps qs).gaps (G.split x y mid.key) y := by
  rw [h.gaps_x, h.gaps_y, Pages.gaps, h.recs, gaps_mid]

theorem Splits.gaps_other {b : Nat} (h1 : b ≠ x) (h2 : b ≠ y) (h3 : b ≠ P.parent x) :
    (P.splitUp x y as mid bs ps qs).gaps (G.split x y mid.key) b = P.gaps G b := by
  simp [Pages.gaps, Pages.splitUp_recs, h.splitUp_larger, Ghost.split, h1, h2, h3]

/-- The parent's gap for `x` is now two. -/
theorem Splits.mem_gaps_parent {g : Gap Nat K} :
    g ∈ (P.splitUp x y as mid bs ps qs).gaps (G.split x y mid.key) (P.parent x) ↔
      g = ⟨G.lo x, x, some mid.key⟩ ∨ g = ⟨some mid.key, y, G.hi x⟩ ∨ g ∈ P.gaps G (P.parent x) ∧ g.child ≠ x := by
  have hg := h.gap
  injection hg with h1 h2 h3
  have hP : P.gaps G (P.parent x) = inits Entry.smallerNode Entry.key (G.lo (P.parent x)) ps ++
      ⟨G.lo x, x, G.hi x⟩ :: rest Entry.smallerNode Entry.key (P.larger (P.parent x)) (G.hi (P.parent x)) qs := by
    rw [Pages.gaps, h.parentRecs, gaps_append, gaps_eq_first, ← h1, ← h2, ← h3]
  have hP' : (P.splitUp x y as mid bs ps qs).gaps (G.split x y mid.key) (P.parent x) =
      inits Entry.smallerNode Entry.key (G.lo (P.parent x)) ps ++ ⟨G.lo x, x, some mid.key⟩ ::
        ⟨some mid.key, y, G.hi x⟩ ::
        rest Entry.smallerNode Entry.key (P.larger (P.parent x)) (G.hi (P.parent x)) qs := by
    have h4 := h.parent_ne
    have h5 := h.parent_ne_y
    simp only [Pages.gaps, Pages.splitUp_recs, h.splitUp_larger, Ghost.split, Function.update_of_ne h4,
      Function.update_of_ne h5, if_true]
    rw [gaps_append, gaps_cons, gaps_relink, ← h1, ← h3]
  have hnd := h.shaped.children_nodup h.parent_live (by rw [h.parent_level]; omega)
  rw [hP, List.map_append, List.map_cons] at hnd
  obtain ⟨-, hr, hd⟩ := List.nodup_append'.mp hnd
  have hr := (List.nodup_cons.mp hr).1
  have hi : ∀ g ∈ inits Entry.smallerNode Entry.key (G.lo (P.parent x)) ps, g.child ≠ x := fun g hg e =>
    hd (List.mem_map.mpr ⟨g, hg, e⟩) List.mem_cons_self
  have hr : ∀ g ∈ rest Entry.smallerNode Entry.key (P.larger (P.parent x)) (G.hi (P.parent x)) qs, g.child ≠ x :=
    fun g hg e => hr (List.mem_map.mpr ⟨g, hg, e⟩)
  rw [hP, hP']
  simp only [List.mem_append, List.mem_cons]
  constructor
  · intro hg
    rcases hg with hg | rfl | rfl | hg
    · exact .inr (.inr ⟨.inl hg, hi g hg⟩)
    · exact .inl rfl
    · exact .inr (.inl rfl)
    · exact .inr (.inr ⟨.inr (.inr hg), hr g hg⟩)
  · intro hg
    rcases hg with rfl | rfl | ⟨hg | rfl | hg, hne⟩
    · exact .inr (.inl rfl)
    · exact .inr (.inr (.inl rfl))
    · exact .inl hg
    · exact absurd rfl hne
    · exact .inr (.inr (.inr hg))

/-! ### Parents -/

theorem Splits.child_of_x {c : Nat} (hc : c ∈ (P.recs x).map Entry.smallerNode ++ [P.larger x]) (h0 : c ≠ 0) :
    G.live c ∧ P.parent c = x := ⟨(h.shaped.link h.live hc h0).1, (h.shaped.link h.live hc h0).2.1⟩

theorem Splits.parent_stays {c : Nat} (hc : c ≠ y) (hcx : c ≠ x) (hp : P.parent c ≠ x) :
    (P.splitUp x y as mid bs ps qs).parent c = P.parent c := by
  have hno : ∀ d ∈ (P.recs x).map Entry.smallerNode ++ [P.larger x], d ≠ 0 → c ≠ d := by
    rintro d hd h0 rfl; exact hp (h.child_of_x hd h0).2
  rw [h.recs] at hno
  rw [h.splitUp_parent, if_neg hcx, if_neg, if_neg, if_neg hc]
  · intro h
    obtain ⟨h1, h0⟩ := h
    exact hno c (by simp only [List.map_append, List.map_cons, List.mem_append, List.mem_cons] at h1 ⊢; tauto) h0 rfl
  · intro h
    obtain ⟨h1, h0⟩ := h
    exact hno c (by simp [h1]) h0 rfl

theorem Splits.parent_x : (P.splitUp x y as mid bs ps qs).parent x = P.parent x := by rw [h.splitUp_parent, if_pos rfl]

theorem Splits.parent_y : (P.splitUp x y as mid bs ps qs).parent y = P.parent x := by
  have hno : y ∉ (P.recs x).map Entry.smallerNode ++ [P.larger x] := fun hy => h.fresh (h.child_of_x hy h.ne).1
  rw [h.recs] at hno
  simp only [List.map_append, List.map_cons, List.mem_append, List.mem_cons, not_or] at hno
  rw [h.splitUp_parent, if_neg h.ne_x.symm, if_neg (by tauto), if_neg, if_pos rfl]
  simp only [List.mem_append, List.mem_cons]
  tauto

/-- The children of the two halves know their parent. -/
theorem Splits.parent_halves (hl : G.level x ≠ 0) :
    (∀ g ∈ (P.splitUp x y as mid bs ps qs).gaps (G.split x y mid.key) x,
      (P.splitUp x y as mid bs ps qs).parent g.child = x) ∧
    ∀ g ∈ (P.splitUp x y as mid bs ps qs).gaps (G.split x y mid.key) y,
      (P.splitUp x y as mid bs ps qs).parent g.child = y := by
  have hin := h.shaped.inner x h.live hl
  have hnd := h.shaped.children_nodup h.live hl
  rw [h.gaps_halves] at hin hnd
  rw [List.map_append, h.gaps_x, h.gaps_y, gaps_child, gaps_child] at hnd
  have hd := (List.nodup_append'.mp hnd).2.2
  have hx : ∀ g ∈ P.gaps G x, g.child ≠ x ∧ g.child ≠ y ∧ g.child ≠ 0 := by
    intro g hg
    obtain ⟨h1, h2, -⟩ := h.shaped.inner x h.live hl g hg
    exact ⟨fun e => by rw [e] at h2; omega, fun e => h.fresh (e ▸ h1), h.shaped.pos _ h1⟩
  rw [h.gaps_halves] at hx
  constructor <;> intro g hg
  · obtain ⟨h1, h2, h0⟩ := hx g (List.mem_append_left _ hg)
    have hp := (hin g (List.mem_append_left _ hg)).2.2.2.2
    have hc : g.child ∈ as.map Entry.smallerNode ++ [mid.smallerNode] := by
      have := List.mem_map_of_mem (f := Gap.child) hg
      rwa [h.gaps_x, gaps_child] at this
    rw [h.splitUp_parent, if_neg h1]
    by_cases e : g.child = mid.smallerNode ∧ g.child ≠ 0
    · rw [if_pos e]
    · rw [if_neg e, if_neg fun h3 => hd hc h3.1, if_neg h2, hp]
  · obtain ⟨h1, h2, h0⟩ := hx g (List.mem_append_right _ hg)
    have hc : g.child ∈ bs.map Entry.smallerNode ++ [P.larger x] := by
      have := List.mem_map_of_mem (f := Gap.child) hg
      rwa [h.gaps_y, gaps_child] at this
    rw [h.splitUp_parent, if_neg h1, if_neg, if_pos ⟨hc, h0⟩]
    intro h
    obtain ⟨e, -⟩ := h
    exact hd (by rw [e]; simp) hc

/-- A child of `x` becomes one of the two halves'. -/
theorem Splits.parent_child {c : Nat} (hc : G.live c) (hr : c ≠ G.root) (hp : P.parent c = x) :
    (P.splitUp x y as mid bs ps qs).parent c = x ∨ (P.splitUp x y as mid bs ps qs).parent c = y := by
  obtain ⟨-, h2, h3⟩ := h.shaped.linked c hc hr
  rw [hp] at h2 h3
  have hl : G.level x ≠ 0 := by omega
  rw [h.gaps_halves] at h3
  exact (List.mem_append.mp h3).imp ((h.parent_halves hl).1 _) ((h.parent_halves hl).2 _)

/-- Every key of `x` but the one sent up has its place in one of the two halves. -/
theorem Splits.within_halves {k : K} (hk : Within (G.lo x) (G.hi x) k) (hne : k ≠ mid.key) :
    Within ((G.split x y mid.key).lo x) ((G.split x y mid.key).hi x) k ∨
      Within ((G.split x y mid.key).lo y) ((G.split x y mid.key).hi y) k := by
  have hxy := h.ne_x
  rcases lt_or_gt_of_ne hne with hlt | hgt
  · refine .inl ⟨?_, ?_⟩ <;> simp [Ghost.split, hxy, hlt]
    exact hk.1
  · refine .inr ⟨?_, ?_⟩ <;> simp [Ghost.split, hxy.symm, hgt]
    exact hk.2

/-- A split narrows the bounds of a node, and of none below its parent but `x`. -/
theorem Splits.within_of_split {b : Nat} {k : K} (hb : G.live b)
    (hk : Within ((G.split x y mid.key).lo b) ((G.split x y mid.key).hi b) k) : Within (G.lo b) (G.hi b) k := by
  have hby : b ≠ y := fun e => h.fresh (e ▸ hb)
  have hlo : (G.split x y mid.key).lo b = G.lo b := by simp [Ghost.split, hby]
  by_cases e : b = x
  · subst e
    have hhi : (G.split b y mid.key).hi b = some mid.key := by simp [Ghost.split]
    rw [hlo, hhi] at hk
    exact ⟨hk.1, fun u hu => (hk.2 _ rfl).trans (h.mid_within.2 u hu)⟩
  · have hhi : (G.split x y mid.key).hi b = G.hi b := by simp [Ghost.split, hby, e]
    rwa [hlo, hhi] at hk

theorem Splits.ordered (b : Nat) (hb : G.live b ∨ b = y) : Ordered Entry.key ((G.split x y mid.key).lo b)
    ((P.splitUp x y as mid bs ps qs).recs b) ((G.split x y mid.key).hi b) := by
  obtain ⟨hox, hw, hoy⟩ := (ordered_mid Entry.key).mp (h.recs ▸ h.shaped.ordered x h.live)
  have hop := h.parentRecs ▸ h.shaped.ordered _ h.parent_live
  simp only [Pages.splitUp_recs, Ghost.split, Function.update_apply]
  by_cases e1 : b = P.parent x
  · subst e1
    rw [if_pos rfl, if_neg h.parent_ne_y, if_neg h.parent_ne, if_neg h.parent_ne_y]
    have hg := h.shaped.linked x h.live h.nonroot
    refine (hop.insert Entry.key (m := { mid with smallerNode := x }) ?_ h.sides.1 h.sides.2).congr _ ?_
    · exact within_of_gap _ _ (h.shaped.ordered _ h.parent_live) hg.2.2 h.mid_within
    · simp [relink_keys]
  · rw [if_neg e1]
    by_cases e2 : b = x
    · subst e2
      rw [if_pos rfl, if_neg h.ne_x, if_pos rfl]
      exact hox
    · rw [if_neg e2]
      by_cases e3 : b = y
      · subst e3
        rw [if_pos rfl, if_pos rfl, if_neg e2, if_pos rfl]
        exact hoy
      · rw [if_neg e3, if_neg e3, if_neg e2, if_neg e3]
        exact h.shaped.ordered b (hb.resolve_right e3)

theorem Splits.fits (b : Nat) (hb : G.live b ∨ b = y) : ((P.splitUp x y as mid bs ps qs).recs b).length ≤ N := by
  have hx := h.recs ▸ h.shaped.fits x h.live
  have hp := h.parentRecs ▸ h.room
  simp only [List.length_append, List.length_cons] at hx hp
  rw [Pages.splitUp_recs]
  split
  · simp only [List.length_append, List.length_cons, relink_length]; omega
  · split
    · omega
    · split
      · omega
      · exact h.shaped.fits b (hb.resolve_right (by assumption))

theorem Splits.inner (b : Nat) (hb : G.live b ∨ b = y) (hl : (G.split x y mid.key).level b ≠ 0) (g : Gap Nat K)
    (hg : g ∈ (P.splitUp x y as mid bs ps qs).gaps (G.split x y mid.key) b) :
    (G.split x y mid.key).live g.child ∧ (G.split x y mid.key).level g.child + 1 = (G.split x y mid.key).level b ∧
      (G.split x y mid.key).lo g.child = g.lo ∧ (G.split x y mid.key).hi g.child = g.hi ∧
      (P.splitUp x y as mid bs ps qs).parent g.child = b := by
  have hxy := h.ne_x
  have hlp := h.parent_level
  -- a child it had before, other than `x`
  have old : ∀ b, G.live b → G.level b ≠ 0 → ∀ g ∈ P.gaps G b, g.child ≠ x →
      (G.split x y mid.key).live g.child ∧ (G.split x y mid.key).level g.child + 1 = G.level b ∧
      (G.split x y mid.key).lo g.child = g.lo ∧ (G.split x y mid.key).hi g.child = g.hi ∧
      (b ≠ x → (P.splitUp x y as mid bs ps qs).parent g.child = b) := by
    intro b hb hl g hg hne
    obtain ⟨h1, h2, h3, h4, h5⟩ := h.shaped.inner b hb hl g hg
    have hy : g.child ≠ y := fun e => h.fresh (e ▸ h1)
    simp only [Ghost.split, Function.update_of_ne hy, Function.update_of_ne hne]
    exact ⟨.inl h1, h2, h3, h4, fun hbx => (h.parent_stays hy hne (by rwa [h5])).trans h5⟩
  have hxchild : ∀ g ∈ P.gaps G x, G.level x ≠ 0 → g.child ≠ x := by
    intro g hg hl e
    have := (h.shaped.inner x h.live hl g hg).2.1
    rw [e] at this; omega
  by_cases e1 : b = y
  · subst e1
    simp only [Ghost.split, Function.update_self] at hl
    have hgx : g ∈ P.gaps G x := by rw [h.gaps_halves]; exact List.mem_append_right _ hg
    obtain ⟨h1, h2, h3, h4, -⟩ := old x h.live hl g hgx (hxchild g hgx hl)
    exact ⟨h1, by rw [h2]; simp [Ghost.split], h3, h4, (h.parent_halves hl).2 g hg⟩
  have hlb : (G.split x y mid.key).level b = G.level b := by simp [Ghost.split, Function.update_of_ne e1]
  rw [hlb] at hl ⊢
  by_cases e2 : b = x
  · subst e2
    have hgx : g ∈ P.gaps G b := by rw [h.gaps_halves]; exact List.mem_append_left _ hg
    obtain ⟨h1, h2, h3, h4, -⟩ := old b h.live hl g hgx (hxchild g hgx hl)
    exact ⟨h1, h2, h3, h4, (h.parent_halves hl).1 g hg⟩
  by_cases e3 : b = P.parent x
  · subst e3
    rcases h.mem_gaps_parent.mp hg with rfl | rfl | ⟨hg, hne⟩
    · exact ⟨.inl h.live, by simp [Ghost.split, hxy, hlp], by simp [Ghost.split, hxy], by simp [Ghost.split],
        h.parent_x⟩
    · exact ⟨.inr rfl, by simp [Ghost.split, hlp], by simp [Ghost.split], by simp [Ghost.split, hxy.symm], h.parent_y⟩
    · obtain ⟨h1, h2, h3, h4, h5⟩ := old _ h.parent_live hl g hg hne
      exact ⟨h1, h2, h3, h4, h5 h.parent_ne⟩
  · rw [h.gaps_other e2 e1 e3] at hg
    have hb := hb.resolve_right e1
    obtain ⟨h1, h2, h3, h4, h5⟩ := old b hb hl g hg
      fun e => e3 ((h.shaped.inner b hb hl g hg).2.2.2.2 ▸ by rw [e])
    exact ⟨h1, h2, h3, h4, h5 e2⟩

theorem Splits.linked (b : Nat) (hb : G.live b ∨ b = y) (hr : b ≠ G.root) :
    (G.live ((P.splitUp x y as mid bs ps qs).parent b) ∨ (P.splitUp x y as mid bs ps qs).parent b = y) ∧
      (G.split x y mid.key).level ((P.splitUp x y as mid bs ps qs).parent b) = (G.split x y mid.key).level b + 1 ∧
      ⟨(G.split x y mid.key).lo b, b, (G.split x y mid.key).hi b⟩ ∈
        (P.splitUp x y as mid bs ps qs).gaps (G.split x y mid.key) ((P.splitUp x y as mid bs ps qs).parent b) := by
  have hxy := h.ne_x
  have hlp : (G.split x y mid.key).level (P.parent x) = G.level x + 1 := by
    simp [Ghost.split, Function.update_of_ne h.parent_ne_y, h.parent_level]
  by_cases e1 : b = y
  · subst e1
    rw [h.parent_y, hlp]
    exact ⟨.inl h.parent_live, by simp [Ghost.split], h.mem_gaps_parent.mpr
      (.inr (.inl (by simp [Ghost.split, hxy.symm])))⟩
  by_cases e2 : b = x
  · subst e2
    rw [h.parent_x, hlp]
    exact ⟨.inl h.parent_live, by simp [Ghost.split, hxy], h.mem_gaps_parent.mpr (.inl (by simp [Ghost.split, hxy]))⟩
  have hb := hb.resolve_right e1
  obtain ⟨h1, h2, h3⟩ := h.shaped.linked b hb hr
  have hlb : (G.split x y mid.key).level b = G.level b := by simp [Ghost.split, Function.update_of_ne e1]
  have hlo : (⟨(G.split x y mid.key).lo b, b, (G.split x y mid.key).hi b⟩ : Gap Nat K) = ⟨G.lo b, b, G.hi b⟩ := by
    simp [Ghost.split, Function.update_of_ne e1, Function.update_of_ne e2]
  rw [hlb, hlo]
  by_cases e3 : P.parent b = x
  · rw [e3] at h2 h3
    have hlx : G.level x ≠ 0 := by omega
    rw [h.gaps_halves] at h3
    rcases List.mem_append.mp h3 with h3 | h3
    · have := (h.parent_halves hlx).1 _ h3
      rw [this]
      exact ⟨.inl h.live, by simp [Ghost.split, Function.update_of_ne hxy, h2], h3⟩
    · have := (h.parent_halves hlx).2 _ h3
      rw [this]
      exact ⟨.inr rfl, by simp [Ghost.split, h2], h3⟩
  · have hne : P.parent b ≠ y := fun e => h.fresh (e ▸ h1)
    rw [h.parent_stays e1 e2 e3]
    refine ⟨.inl h1, by simp [Ghost.split, Function.update_of_ne hne, h2], ?_⟩
    by_cases e4 : P.parent b = P.parent x
    · rw [e4] at h3 ⊢
      exact h.mem_gaps_parent.mpr (.inr (.inr ⟨h3, e2⟩))
    · rwa [h.gaps_other e3 hne e4]

theorem Splits.leaf (b : Nat) (hb : G.live b ∨ b = y) (hl : (G.split x y mid.key).level b = 0) (g : Gap Nat K)
    (hg : g ∈ (P.splitUp x y as mid bs ps qs).gaps (G.split x y mid.key) b) : g.child = 0 := by
  by_cases e1 : b = y
  · subst e1
    simp only [Ghost.split, Function.update_self] at hl
    exact h.shaped.leaf x h.live hl g (by rw [h.gaps_halves]; exact List.mem_append_right _ hg)
  have hb := hb.resolve_right e1
  simp only [Ghost.split, Function.update_of_ne e1] at hl
  by_cases e2 : b = x
  · subst e2
    exact h.shaped.leaf b h.live hl g (by rw [h.gaps_halves]; exact List.mem_append_left _ hg)
  · have e3 : b ≠ P.parent x := fun e => by have := h.parent_level; rw [← e] at this; omega
    exact h.shaped.leaf b hb hl g (h.gaps_other e2 e1 e3 ▸ hg)

theorem Splits.splitUp_shaped : Shaped N (P.splitUp x y as mid bs ps qs) (G.split x y mid.key) where
  pos b hb := hb.elim (h.shaped.pos b) fun e => e ▸ h.ne
  this b hb := by
    rw [Pages.splitUp_this]
    split
    · exact Eq.symm (by assumption)
    · exact h.shaped.this b (hb.resolve_right (by assumption))
  fits := h.fits
  ordered := h.ordered
  leaf := h.leaf
  inner := h.inner
  rootLive := .inl h.shaped.rootLive
  rootParent := by
    have hy : G.root ≠ y := fun e => h.fresh (e ▸ h.shaped.rootLive)
    show (P.splitUp x y as mid bs ps qs).parent G.root = 0
    rw [h.parent_stays hy h.nonroot.symm, h.shaped.rootParent]
    rw [h.shaped.rootParent]
    exact (h.shaped.pos x h.live).symm
  rootLo := by
    have hy : G.root ≠ y := fun e => h.fresh (e ▸ h.shaped.rootLive)
    simp [Ghost.split, Function.update_of_ne hy, h.shaped.rootLo]
  rootHi := by
    have hy : G.root ≠ y := fun e => h.fresh (e ▸ h.shaped.rootLive)
    simp [Ghost.split, Function.update_of_ne hy, Function.update_of_ne h.nonroot.symm, h.shaped.rootHi]
  linked := h.linked
  below b hb := by
    have hy : G.root ≠ y := fun e => h.fresh (e ▸ h.shaped.rootLive)
    show Function.update G.level y (G.level x) b ≤ Function.update G.level y (G.level x) G.root
    rw [Function.update_of_ne hy, Function.update_apply]
    split
    · exact h.shaped.below x h.live
    · exact h.shaped.below b (hb.resolve_right (by assumption))

/-- A split moves records and loses none. -/
theorem Splits.has {k : K} {r : R} :
    (P.splitUp x y as mid bs ps qs).Has (G.split x y mid.key) k r ↔ P.Has G k r := by
  have hxp := h.parent_ne.symm
  have hyp := h.parent_ne_y.symm
  have hxy := h.ne_x
  constructor
  · intro hb
    obtain ⟨b, hb, e, he, rfl, rfl⟩ := hb
    rw [Pages.splitUp_recs] at he
    by_cases e1 : b = P.parent x
    · rw [if_pos e1] at he
      rcases List.mem_append.mp he with he | he
      · exact ⟨_, h.parent_live, e, by rw [h.parentRecs]; exact List.mem_append_left _ he, rfl, rfl⟩
      · rcases List.mem_cons.mp he with rfl | he
        · exact ⟨x, h.live, mid, by rw [h.recs]; simp, rfl, rfl⟩
        · obtain ⟨e', he', h1, h2⟩ := mem_relink.mp ⟨e, he, rfl, rfl⟩
          exact ⟨_, h.parent_live, e', by rw [h.parentRecs]; exact List.mem_append_right _ he', h1, h2⟩
    · rw [if_neg e1] at he
      split at he
      · exact ⟨x, h.live, e, by rw [h.recs]; simp [he], rfl, rfl⟩
      · split at he
        · exact ⟨x, h.live, e, by rw [h.recs]; simp [he], rfl, rfl⟩
        · exact ⟨b, hb.resolve_right (by assumption), e, he, rfl, rfl⟩
  · intro hb
    obtain ⟨b, hb, e, he, rfl, rfl⟩ := hb
    by_cases e1 : b = P.parent x
    · subst e1
      rw [h.parentRecs] at he
      rcases List.mem_append.mp he with he | he
      · exact ⟨_, .inl hb, e, by rw [Pages.splitUp_recs, if_pos rfl]; exact List.mem_append_left _ he, rfl, rfl⟩
      · obtain ⟨e', he', h1, h2⟩ := (mem_relink (y := y)).mpr ⟨e, he, rfl, rfl⟩
        exact ⟨_, .inl hb, e', by rw [Pages.splitUp_recs, if_pos rfl]; simp [he'], h1, h2⟩
    · by_cases e2 : b = x
      · subst e2
        rw [h.recs] at he
        rcases List.mem_append.mp he with he | he
        · exact ⟨b, .inl hb, e, by rw [Pages.splitUp_recs, if_neg hxp, if_pos rfl]; exact he, rfl, rfl⟩
        · rcases List.mem_cons.mp he with rfl | he
          · exact ⟨_, .inl h.parent_live, { e with smallerNode := b },
              by rw [Pages.splitUp_recs, if_pos rfl]; simp, rfl, rfl⟩
          · exact ⟨y, .inr rfl, e,
              by rw [Pages.splitUp_recs, if_neg hyp, if_neg hxy.symm, if_pos rfl]; exact he, rfl, rfl⟩
      · have e3 : b ≠ y := fun e => h.fresh (e ▸ hb)
        exact ⟨b, .inl hb, e, by rw [Pages.splitUp_recs, if_neg e1, if_neg e2, if_neg e3]; exact he, rfl, rfl⟩

end SplitUp

/-! ## A new root -/

/-- A node without records above the root `x`. -/
def Pages.grow (P : Pages K R) (z x : Nat) : Pages K R where
  this := Function.update P.this z z
  parent := Function.update (Function.update P.parent z 0) x z
  larger := Function.update P.larger z x
  recs := Function.update P.recs z []

def Ghost.grow (G : Ghost K) (z : Nat) : Ghost K where
  root := z
  live b := G.live b ∨ b = z
  level := Function.update G.level z (G.level G.root + 1)
  lo := Function.update G.lo z none
  hi := Function.update G.hi z none

section Grow
variable {P : Pages K R} {G : Ghost K} {z : Nat}

omit [LinearOrder K] in
theorem Pages.grow_gaps_root : (P.grow z G.root).gaps (G.grow z) z = [⟨none, G.root, none⟩] := by
  simp [Pages.gaps, Pages.grow, Ghost.grow, gaps_nil]

omit [LinearOrder K] in
theorem Pages.grow_gaps {b : Nat} (hb : b ≠ z) : (P.grow z G.root).gaps (G.grow z) b = P.gaps G b := by
  simp [Pages.gaps, Pages.grow, Ghost.grow, hb]

omit [LinearOrder K] in
theorem Pages.grow_parent {b : Nat} (hb : b ≠ z) (hr : b ≠ G.root) : (P.grow z G.root).parent b = P.parent b := by
  simp [Pages.grow, hb, hr]

variable (h : Shaped N P G) (hz : ¬ G.live z)
include hz

include h in
theorem Shaped.grow (h0 : z ≠ 0) : Shaped N (P.grow z G.root) (G.grow z) := by
  have hne : ∀ b, G.live b → b ≠ z := fun b hb e => hz (e ▸ hb)
  have hlev : ∀ b, G.live b → (G.grow z).level b = G.level b := fun b hb => by simp [Ghost.grow, hne b hb]
  have hlo : ∀ b, G.live b → (G.grow z).lo b = G.lo b := fun b hb => by simp [Ghost.grow, hne b hb]
  have hhi : ∀ b, G.live b → (G.grow z).hi b = G.hi b := fun b hb => by simp [Ghost.grow, hne b hb]
  have hrecs : ∀ b, G.live b → (P.grow z G.root).recs b = P.recs b := fun b hb => by simp [Pages.grow, hne b hb]
  have hz' : (G.grow z).level z = G.level G.root + 1 := by simp [Ghost.grow]
  have hroot : (P.grow z G.root).parent G.root = z := by simp [Pages.grow]
  constructor
  case pos => rintro b (hb | rfl); exacts [h.pos b hb, h0]
  case this =>
    intro b hb
    rcases hb with hb | rfl
    · simp [Pages.grow, hne b hb, h.this b hb]
    · simp [Pages.grow]
  case fits =>
    intro b hb
    rcases hb with hb | rfl
    · rw [hrecs b hb]; exact h.fits b hb
    · simp [Pages.grow]
  case ordered =>
    intro b hb
    rcases hb with hb | rfl
    · rw [hrecs b hb, hlo b hb, hhi b hb]; exact h.ordered b hb
    · simpa [Pages.grow] using ordered_nil _ _ _
  case leaf =>
    intro b hb hl g hg
    rcases hb with hb | rfl
    · rw [Pages.grow_gaps (hne b hb)] at hg
      exact h.leaf b hb (hlev b hb ▸ hl) g hg
    · rw [hz'] at hl; omega
  case inner =>
    intro b hb hl g hg
    rcases hb with hb | rfl
    · rw [Pages.grow_gaps (hne b hb)] at hg
      rw [hlev b hb] at hl ⊢
      obtain ⟨h1, h2, h3, h4, h5⟩ := h.inner b hb hl g hg
      have hr : g.child ≠ G.root := fun e => by have := h.below b hb; rw [e] at h2; omega
      exact ⟨.inl h1, by rw [hlev _ h1, h2], by rw [hlo _ h1, h3], by rw [hhi _ h1, h4],
        (Pages.grow_parent (hne _ h1) hr).trans h5⟩
    · rw [Pages.grow_gaps_root, List.mem_singleton] at hg
      subst hg
      exact ⟨.inl h.rootLive, by rw [hlev _ h.rootLive, hz'], by rw [hlo _ h.rootLive, h.rootLo],
        by rw [hhi _ h.rootLive, h.rootHi], hroot⟩
  case rootLive => exact .inr rfl
  case rootParent =>
    have := (hne _ h.rootLive).symm
    simp [Pages.grow, Ghost.grow, this]
  case rootLo => simp [Ghost.grow]
  case rootHi => simp [Ghost.grow]
  case linked =>
    intro b hb hr
    rcases hb with hb | rfl
    · rw [hlev b hb, hlo b hb, hhi b hb]
      by_cases e : b = G.root
      · subst e
        rw [hroot]
        exact ⟨.inr rfl, hz', by rw [Pages.grow_gaps_root, h.rootLo, h.rootHi]; exact List.mem_singleton_self _⟩
      · obtain ⟨h1, h2, h3⟩ := h.linked b hb e
        rw [Pages.grow_parent (hne b hb) e, hlev _ h1, Pages.grow_gaps (hne _ h1)]
        exact ⟨.inl h1, h2, h3⟩
    · exact absurd rfl hr
  case below =>
    intro b hb
    rcases hb with hb | rfl
    · rw [hlev b hb]
      show _ ≤ (G.grow z).level z
      rw [hz']
      exact (h.below b hb).trans (Nat.le_succ _)
    · exact Nat.le_refl _

omit [LinearOrder K] in
theorem Pages.grow_has {k : K} {r : R} : (P.grow z G.root).Has (G.grow z) k r ↔ P.Has G k r := by
  have hne : ∀ b, G.live b → b ≠ z := fun b hb e => hz (e ▸ hb)
  constructor
  · intro hb
    obtain ⟨b, hb | rfl, e, he, hk⟩ := hb
    · exact ⟨b, hb, e, by simpa [Pages.grow, hne b hb] using he, hk⟩
    · simp [Pages.grow] at he
  · intro hb
    obtain ⟨b, hb, e, he, hk⟩ := hb
    exact ⟨b, .inl hb, e, by simpa [Pages.grow, hne b hb] using he, hk⟩

end Grow

/-- What `split_root` leaves, in the order the code writes. -/
def Pages.splitRoot (P : Pages K R) (x y z : Nat) (as : List (Entry K R)) (mid : Entry K R) (bs : List (Entry K R)) :
    Pages K R :=
  (((((P.splitNode x y as mid bs).make z 0).setLarger z y).adopt [y] z).setRecs z
    [{ mid with smallerNode := x }]).adopt [x] z

omit [LinearOrder K] in
/-- Splitting the root is splitting it below a new one. -/
theorem Pages.splitRoot_eq {P : Pages K R} {x y z : Nat} {as : List (Entry K R)} {mid : Entry K R}
    {bs : List (Entry K R)}
    (hxy : x ≠ y) (hxz : x ≠ z) (hyz : y ≠ z) (h0 : x ≠ 0) (hy0 : y ≠ 0)
    (hc : ∀ c ∈ (as ++ mid :: bs).map Entry.smallerNode ++ [P.larger x], c ≠ x ∧ c ≠ y ∧ c ≠ z) :
    P.splitRoot x y z as mid bs = (P.grow z x).splitUp x y as mid bs [] [] := by
  simp only [List.map_append, List.map_cons, List.mem_append, List.mem_cons] at hc
  have hpx : (P.grow z x).parent x = z := by simp [Pages.grow]
  ext b : 2
  · simp only [Pages.splitRoot, Pages.splitUp, Pages.link, Pages.splitNode, Pages.make, Pages.grow, Pages.setRecs,
      Pages.setLarger, Pages.adopt, Function.update_apply]
    by_cases e1 : b = y
    · simp [e1, hyz]
    · simp [e1]
  · have hmid := hc mid.smallerNode (by simp)
    have hlarger := hc (P.larger x) (by simp)
    have hbs : ∀ c ∈ bs.map Entry.smallerNode, c ≠ x ∧ c ≠ y ∧ c ≠ z := fun c hb => hc c (by simp [hb])
    generalize hcs : bs.map Entry.smallerNode = cs at hbs
    simp only [Pages.splitRoot, Pages.splitUp, Pages.link, Pages.splitNode, Pages.make, Pages.grow, Pages.setRecs,
      Pages.setLarger, Pages.adopt, Function.update_apply, hcs, List.mem_singleton]
    by_cases e1 : b = x
    · subst e1; simp [h0, hyz.symm]
    · by_cases e2 : b = y
      · subst e2
        have : b ∉ cs := fun hb => (hbs b hb).2.1 rfl
        simp [e1, hmid.2.1.symm, hlarger.2.1.symm, this, hxz, hy0]
      · by_cases e3 : b = z
        · subst e3
          have : b ∉ cs := fun hb => (hbs b hb).2.2 rfl
          simp [e1, e2, hmid.2.2.symm, hlarger.2.2.symm, this, hxz]
        · simp [e1, e2, e3, hxz]
  · simp only [Pages.splitRoot, Pages.splitUp, Pages.link, Pages.splitNode, Pages.make, Pages.grow, Pages.setRecs,
      Pages.setLarger, Pages.adopt, Function.update_apply]
    by_cases e1 : b = z
    · subst e1; simp
    · by_cases e2 : b = x
      · subst e2; simp [e1]
      · simp [e1, e2, hxz]
  · simp only [Pages.splitRoot, Pages.splitUp, Pages.link, Pages.splitNode, Pages.make, Pages.grow, Pages.setRecs,
      Pages.setLarger, Pages.adopt, Function.update_apply]
    by_cases e1 : b = z
    · subst e1; simp [relink]
    · by_cases e2 : b = x
      · subst e2; simp [e1]
      · simp [e1, e2]

/-! ## A record at a leaf -/

section Leaf
variable {P : Pages K R} {G : Ghost K} {b : Nat} {ps qs : List (Entry K R)} {e : Entry K R} (h : Shaped N P G)
  (hb : G.live b) (hl : G.level b = 0) (hr : P.recs b = ps ++ qs) (hp : ∀ e' ∈ ps, e'.key < e.key)
  (hq : ∀ e' ∈ qs, e.key < e'.key)
include h hb hl hr hp hq

theorem Shaped.insert (hw : Within (G.lo b) (G.hi b) e.key) (hlt : (P.recs b).length < N) (he : e.smallerNode = 0) :
    Shaped N (P.setRecs b (ps ++ e :: qs)) G := by
  have hgaps : ∀ c, c ≠ b → (P.setRecs b (ps ++ e :: qs)).gaps G c = P.gaps G c := fun c hc => by
    rw [Pages.gaps, Pages.setRecs_recs_ne _ _ hc, Pages.setRecs_larger]; rfl
  have hnull : ∀ c ∈ (ps ++ qs).map Entry.smallerNode ++ [P.larger b], c = 0 := by
    intro c hc
    by_contra h0
    have := (h.link hb (hr ▸ hc) h0).2.2
    omega
  refine ⟨h.pos, h.this, fun c hc => ?_, fun c hc => ?_, fun c hc hlc g hg => ?_, fun c hc hlc g hg => ?_, h.rootLive,
    h.rootParent, h.rootLo, h.rootHi, fun c hc hne => ?_, h.below⟩
  · by_cases e1 : c = b
    · subst e1
      rw [hr] at hlt
      simp only [Pages.setRecs_recs, List.length_append, List.length_cons] at hlt ⊢
      omega
    · rw [Pages.setRecs_recs_ne _ _ e1]; exact h.fits c hc
  · by_cases e1 : c = b
    · subst e1
      rw [Pages.setRecs_recs]
      exact (hr ▸ h.ordered c hb).insert Entry.key hw hp hq
    · rw [Pages.setRecs_recs_ne _ _ e1]; exact h.ordered c hc
  · by_cases e1 : c = b
    · subst e1
      have hg := List.mem_map_of_mem (f := Gap.child) hg
      rw [Pages.gaps, gaps_child, Pages.setRecs_recs, Pages.setRecs_larger] at hg
      simp only [List.map_append, List.map_cons, List.mem_append, List.mem_cons] at hg hnull
      rcases hg with (hg | hg | hg) | hg
      · exact hnull _ (.inl (.inl hg))
      · exact hg.trans he
      · exact hnull _ (.inl (.inr hg))
      · exact hnull _ (.inr hg)
    · exact h.leaf c hc hlc g (hgaps c e1 ▸ hg)
  · have e1 : c ≠ b := fun e => hlc (e ▸ hl)
    exact h.inner c hc hlc g (hgaps c e1 ▸ hg)
  · obtain ⟨h1, h2, h3⟩ := h.linked c hc hne
    have e1 : P.parent c ≠ b := fun e => by rw [e] at h2; omega
    exact ⟨h1, h2, (hgaps _ e1).symm ▸ h3⟩

omit [LinearOrder K] h hl hp hq in
theorem Pages.has_insert {k : K} {r : R} :
    (P.setRecs b (ps ++ e :: qs)).Has G k r ↔ P.Has G k r ∨ k = e.key ∧ r = e.record := by
  constructor
  · intro hc
    obtain ⟨c, hc, e', he', hk⟩ := hc
    by_cases e1 : c = b
    · subst e1
      rw [Pages.setRecs_recs] at he'
      simp only [List.mem_append, List.mem_cons] at he'
      rcases he' with he' | rfl | he'
      · exact .inl ⟨c, hb, e', by simp [hr, he'], hk⟩
      · exact .inr ⟨hk.1.symm, hk.2.symm⟩
      · exact .inl ⟨c, hb, e', by simp [hr, he'], hk⟩
    · rw [Pages.setRecs_recs_ne _ _ e1] at he'
      exact .inl ⟨c, hc, e', he', hk⟩
  · intro hc
    rcases hc with ⟨c, hc, e', he', hk⟩ | ⟨rfl, rfl⟩
    · by_cases e1 : c = b
      · subst e1
        rw [hr, List.mem_append] at he'
        exact ⟨c, hc, e', by rw [Pages.setRecs_recs]; simp; tauto, hk⟩
      · exact ⟨c, hc, e', by rwa [Pages.setRecs_recs_ne _ _ e1], hk⟩
    · exact ⟨b, hb, e, by rw [Pages.setRecs_recs]; simp, rfl, rfl⟩

end Leaf

end Dumbnose.Btree
