/-
  Dumbnose.Btree.Shape — the invariant of the tree.

  The invariant is local. `Ghost` labels every node with its level above the leaves
  and the bounds it answers for; `Shaped` says of each node alone that its keys are
  increasing and within its bounds and that its children are one level down, carry
  the bounds of their gaps and name it as their parent, and of each node but the
  root that its parent has a gap for it. So a move that writes three nodes is
  checked at three nodes: every ancestor's bounds follow from its own gap
  (`within_of_gap`).
-/

import Mathlib.Data.Fintype.Card
import Mathlib.Tactic.Choose
import Dumbnose.Btree.Methods

namespace Dumbnose.Btree

open Lib.Gaps

/-- What the invariant knows of each node beyond what the file says. -/
structure Ghost (K : Type) where
  root : Nat
  live : Nat → Prop
  level : Nat → Nat
  lo : Nat → Option K
  hi : Nat → Option K

variable {K R : Type} {N : Nat}

/-- The children of a node with the bounds between its keys. -/
def Pages.gaps (P : Pages K R) (G : Ghost K) (b : Nat) : List (Gap Nat K) :=
  Lib.Gaps.gaps Entry.smallerNode Entry.key (G.lo b) (P.recs b) (P.larger b) (G.hi b)

/-- The tree holds record `r` under key `k`. -/
def Pages.Has (P : Pages K R) (G : Ghost K) (k : K) (r : R) : Prop :=
  ∃ b, G.live b ∧ ∃ e ∈ P.recs b, e.key = k ∧ e.record = r

theorem Pages.gap_of_link (P : Pages K R) (G : Ghost K) {b c : Nat}
    (hc : c ∈ (P.recs b).map Entry.smallerNode ++ [P.larger b]) : ∃ g ∈ P.gaps G b, g.child = c := by
  rw [← gaps_child Entry.smallerNode Entry.key (G.lo b) _ _ (G.hi b)] at hc
  exact List.mem_map.mp hc

variable [LinearOrder K]

structure Shaped (N : Nat) (P : Pages K R) (G : Ghost K) : Prop where
  pos : ∀ b, G.live b → b ≠ 0
  this : ∀ b, G.live b → P.this b = b
  fits : ∀ b, G.live b → (P.recs b).length ≤ N
  ordered : ∀ b, G.live b → Ordered Entry.key (G.lo b) (P.recs b) (G.hi b)
  leaf : ∀ b, G.live b → G.level b = 0 → ∀ g ∈ P.gaps G b, g.child = 0
  inner : ∀ b, G.live b → G.level b ≠ 0 → ∀ g ∈ P.gaps G b, G.live g.child ∧ G.level g.child + 1 = G.level b ∧
    G.lo g.child = g.lo ∧ G.hi g.child = g.hi ∧ P.parent g.child = b
  rootLive : G.live G.root
  rootParent : P.parent G.root = 0
  rootLo : G.lo G.root = none
  rootHi : G.hi G.root = none
  linked : ∀ b, G.live b → b ≠ G.root → G.live (P.parent b) ∧ G.level (P.parent b) = G.level b + 1 ∧
    ⟨G.lo b, b, G.hi b⟩ ∈ P.gaps G (P.parent b)
  below : ∀ b, G.live b → G.level b ≤ G.level G.root

/-! ## Links -/

section Links
variable {P : Pages K R} {G : Ghost K} (h : Shaped N P G) {b : Nat}
include h

/-- A link that is not null leads to a live node whose parent holds the link. -/
theorem Shaped.link {c : Nat} (hb : G.live b) (hc : c ∈ (P.recs b).map Entry.smallerNode ++ [P.larger b]) (h0 : c ≠ 0) :
    G.live c ∧ P.parent c = b ∧ G.level c + 1 = G.level b := by
  obtain ⟨g, hg, rfl⟩ := P.gap_of_link G hc
  by_cases hl : G.level b = 0
  · exact absurd (h.leaf b hb hl g hg) h0
  · obtain ⟨h1, h2, -, -, h5⟩ := h.inner b hb hl g hg
    exact ⟨h1, h5, h2⟩

theorem Shaped.children_nodup (hb : G.live b) (hl : G.level b ≠ 0) : ((P.gaps G b).map Gap.child).Nodup := by
  have hhi : (P.gaps G b).map Gap.hi = ((P.gaps G b).map Gap.child).map G.hi := by
    rw [List.map_map]
    exact List.map_congr_left fun g hg => (h.inner b hb hl g hg).2.2.2.1.symm
  have := gaps_hi_nodup Entry.smallerNode Entry.key (P.larger b) (h.ordered b hb)
  rw [← Pages.gaps, hhi] at this
  exact this.of_map

theorem Shaped.links_nodup (hb : G.live b) (hl : G.level b ≠ 0) :
    ((P.recs b).map Entry.smallerNode ++ [P.larger b]).Nodup := by
  have := h.children_nodup hb hl
  rwa [Pages.gaps, gaps_child] at this

theorem Shaped.root_of_parent_zero (hb : G.live b) (hp : P.parent b = 0) : b = G.root := by
  by_contra hne
  exact h.pos _ (h.linked b hb hne).1 hp

/-- Every level down from the root's has a node. -/
theorem Shaped.exists_level {l : Nat} (hl : l ≤ G.level G.root) : ∃ b, G.live b ∧ G.level b = l := by
  induction hn : G.level G.root - l generalizing l with
  | zero => exact ⟨G.root, h.rootLive, by omega⟩
  | succ n ih =>
    obtain ⟨b, hb, hbl⟩ := ih (l := l + 1) (by omega) (by omega)
    have hlarger : P.larger b ∈ (P.recs b).map Entry.smallerNode ++ [P.larger b] := by simp
    obtain ⟨g, hg, -⟩ := P.gap_of_link G hlarger
    obtain ⟨h1, h2, -⟩ := h.inner b hb (by omega) g hg
    exact ⟨g.child, h1, by omega⟩

/-- The tree is not higher than it has blocks. -/
theorem Shaped.level_lt {n : Nat} (hn : ∀ b, G.live b → b < n) : G.level G.root + 1 < n := by
  have hex : ∀ l : Fin (G.level G.root + 1), ∃ b, G.live b ∧ G.level b = l := fun l => h.exists_level (by omega)
  choose f hf using hex
  have hpos : ∀ l, 0 < f l := fun l => Nat.pos_of_ne_zero (h.pos _ (hf l).1)
  have hinj : Function.Injective fun l =>
    (⟨f l - 1, by have := hn _ (hf l).1; have := hpos l; omega⟩ : Fin (n - 1)) := by
    intro i j hij
    have hij : f i - 1 = f j - 1 := congrArg Fin.val hij
    have hfij : f i = f j := by have := hpos i; have := hpos j; omega
    have h1 := (hf i).2
    rw [hfij, (hf j).2] at h1
    exact Fin.ext h1.symm
  have := Fintype.card_le_of_injective _ hinj
  rw [Fintype.card_fin, Fintype.card_fin] at this
  have := hn _ h.rootLive
  omega

end Links

end Dumbnose.Btree
