/-
  Dumbnose.Tree234.Rebalance — what a deletion does to a node and two of its kids.

  A rotation moves one element and one kid from a sibling through the parent, a merge puts
  two kids with one element each and the element between them into one node with three.
  Neither changes the list (`Good.rotateRight`, `Good.rotateLeft`, `Good.mergeRight`,
  `Good.mergeLeft`), and a merge has one node left over.

  After a merge the parent closes the gap. It does so in two ways, one from the kid that
  is gone and one from the element, which come to the same (`fuse`): `closeDown_eq`,
  `closeUp_eq`.
-/

import Dumbnose.Tree234.Find

namespace Dumbnose.Tree234

open Node

variable {α : Type}

namespace Node

/-- The last of a node's elements. -/
def lastelem (n : Node α) : Nat := if (n.elem 2).isSome then 2 else if (n.elem 1).isSome then 1 else 0

/-- Close the gap at element `j` and the kid after it. -/
def closeUp (n : Node α) : Nat → Nat → Node α
  | 0, j => ((n.setKid (j + 1) null).setCount (j + 1) 0).setElem j none
  | todo + 1, j =>
    if (n.elem (j + 1)).isSome then
      closeUp (((n.setKid (j + 1) (n.kid (j + 2))).setCount (j + 1) (n.count (j + 2))).setElem j
        (n.elem (j + 1))) todo (j + 1)
    else ((n.setKid (j + 1) null).setCount (j + 1) 0).setElem j none

/-- Close the gap at kid `j` and the element after it. -/
def closeDown (n : Node α) : Nat → Nat → Node α
  | 0, j => (n.setKid j null).setCount j 0
  | todo + 1, j =>
    if (n.kid (j + 1)).isNull then ((n.setKid j null).setCount j 0).setElem j none
    else
      closeDown (((n.setKid j (n.kid (j + 1))).setCount j (n.count (j + 1))).setElem j
        (if j < 2 then n.elem (j + 1) else none)) todo (j + 1)

/-- Close the gap at element `i` of a leaf. -/
def closeLeaf (n : Node α) : Nat → Nat → Node α
  | 0, i => n.setElem i none
  | todo + 1, i =>
    if (n.elem (i + 1)).isSome then closeLeaf (n.setElem i (n.elem (i + 1))) todo (i + 1) else n.setElem i none

/-- Case 3a, left-handed: the siblings and the element between them. -/
def rotateRight (sib : Node α) (e : Option α) (sub : Node α) : Node α × Option α × Node α :=
  let lastelem := sib.lastelem
  let sub := ((sub.setKid 2 (sub.kid 1)).setCount 2 (sub.count 1)).setElem 1 (sub.elem 0)
  let sub := ((sub.setKid 1 (sub.kid 0)).setCount 1 (sub.count 0)).setElem 0 e
  let sub := (sub.setKid 0 ((sib.kid (lastelem + 1)).setParent sub.addr)).setCount 0 (sib.count (lastelem + 1))
  let e := sib.elem lastelem
  let sib := ((sib.setKid (lastelem + 1) null).setCount (lastelem + 1) 0).setElem lastelem none
  (sib, e, sub)

/-- Case 3a, right-handed. -/
def rotateLeft (sub : Node α) (e : Option α) (sib : Node α) : Node α × Option α × Node α :=
  let sub := sub.setElem 1 e
  let sub := (sub.setKid 2 ((sib.kid 0).setParent sub.addr)).setCount 2 (sib.count 0)
  let e := sib.elem 0
  let sib := (sib.setKid 0 (sib.kid 1)).setCount 0 (sib.count 1)
  (sub, e, sib.closeUp 2 0)

/-- Case 3b: everything in the node on the right. -/
def mergeRight (sib : Node α) (e : Option α) (sub : Node α) : Node α :=
  let sub := ((sub.setKid 3 (sub.kid 1)).setCount 3 (sub.count 1)).setElem 2 (sub.elem 0)
  let sub := ((sub.setKid 2 (sub.kid 0)).setCount 2 (sub.count 0)).setElem 1 e
  let sub := ((sub.setKid 1 ((sib.kid 1).setParent sub.addr)).setCount 1 (sib.count 1)).setElem 0 (sib.elem 0)
  (sub.setKid 0 ((sib.kid 0).setParent sub.addr)).setCount 0 (sib.count 0)

/-- Case 2c: everything in the node on the left. -/
def mergeLeft (a : Node α) (e : Option α) (b : Node α) : Node α :=
  let a := a.setElem 1 e
  let a := ((a.setKid 2 ((b.kid 0).setParent a.addr)).setCount 2 (b.count 0)).setElem 2 (b.elem 0)
  (a.setKid 3 ((b.kid 1).setParent a.addr)).setCount 3 (b.count 1)

/-- Two neighbours, the element between them, and their counts. -/
def setPair (n : Node α) (i : Nat) (r : Node α × Option α × Node α) : Node α :=
  ((((n.setKid i r.1).setKid (i + 1) r.2.2).setElem i r.2.1).setCount i r.1.countnode).setCount (i + 1) r.2.2.countnode

end Node

section Pair
variable {p h : Nat} {l r : Node α} {y : α}

/-- Two neighbours after a move: the same list, and no other nodes. -/
def Moved (p h : Nat) (l : Node α) (y : α) (r : Node α) (l' : Node α) (z : α) (r' : Node α) : Prop :=
  Good p h l' ∧ Good p h r' ∧ l'.toList ++ z :: r'.toList = l.toList ++ y :: r.toList ∧
    ∀ q, l'.cells q + r'.cells q = l.cells q + r.cells q

theorem Good.rotateRight (hl : Good p (h + 1) l) (h2 : l.elem 1 ≠ none) (hr : Good p (h + 1) r) (h1 : r.elem 1 = none) :
    ∃ l' z r', rotateRight l (some y) r = (l', some z, r') ∧ r'.numElems = 2 ∧ l'.size ≤ l.size ∧
      Moved p (h + 1) l y r l' z r' := by
  cases hr with
  | @two _ _ b k k' w hb g0 g1 =>
    cases hl with
    | two => exact absurd rfl h2
    | @three _ _ a s0 s1 s2 x0 x1 ha f0 f1 f2 =>
      refine ⟨Node.two a p s0 x0 s1, x1, Node.three b p (s2.setParent b) y k w k', ?_, rfl, ?_, .two ha f0 f1,
        .three hb (f2.setParent b) g0 g1, by simp, fun q => ?_⟩
      · simp [Node.rotateRight, lastelem, Node.two, Node.three, Node.kid, Node.count, elem, Node.setKid, setCount,
          setElem, addr]
      · rw [size_two, size_three]
        have := s2.size_nonneg
        omega
      · simp [Node.two, Node.three, cells]; omega
    | @four _ _ a s0 s1 s2 s3 x0 x1 x2 ha f0 f1 f2 f3 =>
      refine ⟨Node.three a p s0 x0 s1 x1 s2, x2, Node.three b p (s3.setParent b) y k w k', ?_, rfl, ?_,
        .three ha f0 f1 f2, .three hb (f3.setParent b) g0 g1, by simp, fun q => ?_⟩
      · simp [Node.rotateRight, lastelem, Node.two, Node.three, Node.four, Node.kid, Node.count, elem, Node.setKid,
          setCount, setElem, addr]
      · rw [size_three, size_four]
        have := s3.size_nonneg
        omega
      · simp [Node.two, Node.three, Node.four, cells]; omega
  | three => cases h1
  | four => cases h1

theorem Good.rotateLeft (hl : Good p (h + 1) l) (h1 : l.elem 1 = none) (hr : Good p (h + 1) r) (h2 : r.elem 1 ≠ none) :
    ∃ l' z r', rotateLeft l (some y) r = (l', some z, r') ∧ l'.numElems = 2 ∧ l.size ≤ l'.size ∧
      Moved p (h + 1) l y r l' z r' := by
  cases hl with
  | @two _ _ b k k' w hb g0 g1 =>
    cases hr with
    | two => exact absurd rfl h2
    | @three _ _ a s0 s1 s2 x0 x1 ha f0 f1 f2 =>
      refine ⟨Node.three b p k w k' y (s0.setParent b), x0, Node.two a p s1 x1 s2, ?_, rfl, ?_,
        .three hb g0 g1 (f0.setParent b), .two ha f1 f2, by simp, fun q => ?_⟩
      · simp [Node.rotateLeft, closeUp, Node.two, Node.three, Node.kid, Node.count, elem, Node.setKid, setCount,
          setElem, addr]
      · rw [size_two, size_three, size_setParent]
        have := s0.size_nonneg
        omega
      · simp [Node.two, Node.three, cells]; omega
    | @four _ _ a s0 s1 s2 s3 x0 x1 x2 ha f0 f1 f2 f3 =>
      refine ⟨Node.three b p k w k' y (s0.setParent b), x0, Node.three a p s1 x1 s2 x2 s3, ?_, rfl, ?_,
        .three hb g0 g1 (f0.setParent b), .three ha f1 f2 f3, by simp, fun q => ?_⟩
      · simp [Node.rotateLeft, closeUp, Node.two, Node.three, Node.four, Node.kid, Node.count, elem, Node.setKid,
          setCount, setElem, addr]
      · rw [size_two, size_three, size_setParent]
        have := s0.size_nonneg
        omega
      · simp [Node.two, Node.three, Node.four, cells]; omega
  | three => cases h1
  | four => cases h1

theorem Good.mergeRight (hl : Good p (h + 1) l) (h1 : l.elem 1 = none) (hr : Good p (h + 1) r) (h2 : r.elem 1 = none) :
    Good p (h + 1) (mergeRight l (some y) r) ∧ (mergeRight l (some y) r).numElems = 3 ∧
      (mergeRight l (some y) r).toList = l.toList ++ y :: r.toList ∧
      ∀ q, (mergeRight l (some y) r).cells q + (if l.addr = q then 1 else 0) = l.cells q + r.cells q := by
  cases hl with
  | @two _ _ a s0 s1 x ha f0 f1 =>
    cases hr with
    | @two _ _ b k k' w hb g0 g1 =>
      have he : Node.mergeRight (Node.two a p s0 x s1) (some y) (Node.two b p k w k') =
          Node.four b p (s0.setParent b) x (s1.setParent b) y k w k' := by
        simp [Node.mergeRight, Node.two, Node.four, Node.kid, Node.count, elem, Node.setKid, setCount, setElem, addr]
      rw [he]
      refine ⟨.four hb (f0.setParent b) (f1.setParent b) g0 g1, rfl, by simp, fun q => ?_⟩
      change _ + (if a = q then 1 else 0) = _
      simp [Node.two, Node.four, cells]
      omega
    | three => cases h2
    | four => cases h2
  | three => cases h1
  | four => cases h1

theorem Good.mergeLeft (hl : Good p (h + 1) l) (h1 : l.elem 1 = none) (hr : Good p (h + 1) r) (h2 : r.elem 1 = none) :
    Good p (h + 1) (mergeLeft l (some y) r) ∧ (mergeLeft l (some y) r).numElems = 3 ∧
      (mergeLeft l (some y) r).toList = l.toList ++ y :: r.toList ∧
      (mergeLeft l (some y) r).count 0 + (mergeLeft l (some y) r).count 1 + 1 = l.size ∧
      ∀ q, (mergeLeft l (some y) r).cells q + (if r.addr = q then 1 else 0) = l.cells q + r.cells q := by
  cases hl with
  | @two _ _ a s0 s1 x ha f0 f1 =>
    cases hr with
    | @two _ _ b k k' w hb g0 g1 =>
      have he : Node.mergeLeft (Node.two a p s0 x s1) (some y) (Node.two b p k w k') =
          Node.four a p s0 x s1 y (k.setParent a) w (k'.setParent a) := by
        simp [Node.mergeLeft, Node.two, Node.four, Node.kid, Node.count, elem, Node.setKid, setCount, setElem, addr]
      rw [he]
      refine ⟨.four ha f0 f1 (g0.setParent a) (g1.setParent a), rfl, by simp, ?_, fun q => ?_⟩
      · rw [size_two]
        rfl
      · change _ + (if b = q then 1 else 0) = _
        simp [Node.two, Node.four, cells]
        omega
    | three => cases h2
    | four => cases h2
  | three => cases h1
  | four => cases h1

end Pair

/-! ## The parent -/

namespace Node

/-- A node with `m` in the place of kids `i` and `i + 1` and the element between them. -/
def fuse (n : Node α) (i : Nat) (m : Node α) : Node α :=
  match n, i with
  | null, _ => null
  | mk a p _ _ k2 k3 _ _ c2 c3 _ e1 e2, 0 => mk a p m k2 k3 null m.size c2 c3 0 e1 e2 none
  | mk a p k0 _ _ k3 c0 _ _ c3 e0 _ e2, 1 => mk a p k0 m k3 null c0 m.size c3 0 e0 e2 none
  | mk a p k0 k1 _ _ c0 c1 _ _ e0 e1 _, _ => mk a p k0 k1 m null c0 c1 m.size 0 e0 e1 none

end Node

section Parent
variable {p h : Nat} {n m l r : Node α} {z : α} {i : Nat}

theorem Good.closeDown_eq (hg : Good p (h + 2) n) (hi : i < n.numElems) (hm : Good n.addr (h + 1) m) :
    ((n.setKid (i + 1) m).setCount (i + 1) m.countnode).closeDown (3 - i) i = n.fuse i m := by
  rw [hm.countnode]
  have hm0 := hm.isNull
  cases hg with
  | two =>
    rw [numElems_two] at hi
    interval_cases i
    simp [Node.two, Node.setKid, setCount, setElem, Node.kid, Node.count, elem, closeDown, fuse, hm0]
  | three _ _ _ h3 =>
    rw [numElems_three] at hi
    have h3' := h3.isNull
    interval_cases i <;>
      simp [Node.three, Node.setKid, setCount, setElem, Node.kid, Node.count, elem, closeDown, fuse, hm0, h3']
  | four _ _ _ h3 h4 =>
    rw [numElems_four] at hi
    have h3' := h3.isNull
    have h4' := h4.isNull
    interval_cases i <;>
      simp [Node.four, Node.setKid, setCount, setElem, Node.kid, Node.count, elem, closeDown, fuse, hm0, h3', h4']

theorem Good.closeUp_eq (hg : Good p (h + 2) n) (hi : i < n.numElems) (hm : Good n.addr (h + 1) m) :
    ((n.setKid i m).setCount i m.countnode).closeUp (2 - i) i = n.fuse i m := by
  rw [hm.countnode]
  cases hg with
  | two =>
    rw [numElems_two] at hi
    interval_cases i
    simp [Node.two, Node.setKid, setCount, setElem, elem, closeUp, fuse]
  | three =>
    rw [numElems_three] at hi
    interval_cases i <;>
      simp [Node.three, Node.setKid, setCount, setElem, Node.kid, Node.count, elem, closeUp, fuse]
  | four =>
    rw [numElems_four] at hi
    interval_cases i <;>
      simp [Node.four, Node.setKid, setCount, setElem, Node.kid, Node.count, elem, closeUp, fuse]

/-- The fused node, while it has an element left. -/
theorem Good.fuse (hg : Good p (h + 1) n) (hn : 2 ≤ n.numElems) (hi : i < n.numElems) (hm : Good n.addr h m) :
    Good p (h + 1) (n.fuse i m) ∧ i ≤ (n.fuse i m).numElems ∧ (n.fuse i m).elem 0 ≠ none := by
  cases hg with
  | two => simp at hn
  | three ha h1 h2 h3 =>
    rw [numElems_three] at hi
    interval_cases i
    · exact ⟨.two ha hm h3, Nat.zero_le _, by simp [Node.fuse, Node.three, elem]⟩
    · exact ⟨.two ha h1 hm, le_rfl, by simp [Node.fuse, Node.three, elem]⟩
  | four ha h1 h2 h3 h4 =>
    rw [numElems_four] at hi
    interval_cases i
    · exact ⟨.three ha hm h3 h4, Nat.zero_le _, by simp [Node.fuse, Node.four, elem]⟩
    · exact ⟨.three ha h1 hm h4, Nat.le_succ _, by simp [Node.fuse, Node.four, elem]⟩
    · exact ⟨.three ha h1 h2 hm, le_rfl, by simp [Node.fuse, Node.four, elem]⟩

/-- A root with one element has none left. -/
theorem Good.fuse_one (hg : Good p (h + 1) n) (h1 : n.numElems = 1) : (n.fuse 0 m).elem 0 = none := by
  cases hg with
  | two => rfl
  | three => simp at h1
  | four => simp at h1

theorem Good.cells_one (hg : Good p (h + 1) n) (h1 : n.numElems = 1) (q : Nat) :
    n.cells q = (if n.addr = q then 1 else 0) + (n.kid 0).cells q + (n.kid 1).cells q := by
  cases hg with
  | two => rfl
  | three => simp at h1
  | four => simp at h1

theorem Good.fuse_parts (hg : Good p (h + 1) n) (hi : i < n.numElems) :
    (n.fuse i m).kid i = m ∧ (n.fuse i m).before i = n.before i ∧ (n.fuse i m).after i = n.after (i + 1) ∧
      ∀ q, (n.fuse i m).cells q + (n.kid i).cells q + (n.kid (i + 1)).cells q = n.cells q + m.cells q := by
  cases hg with
  | two =>
    rw [numElems_two] at hi
    interval_cases i
    refine ⟨rfl, rfl, by simp [Node.fuse, Node.two, Node.kid, elem, after], fun q => ?_⟩
    simp only [Node.fuse, Node.two, Node.kid, cells]
    omega
  | three =>
    rw [numElems_three] at hi
    interval_cases i <;>
      refine ⟨rfl, rfl, by simp [Node.fuse, Node.three, Node.kid, elem, after], fun q => ?_⟩ <;>
      simp only [Node.fuse, Node.three, Node.kid, cells] <;> omega
  | four =>
    rw [numElems_four] at hi
    interval_cases i <;>
      refine ⟨rfl, rfl, by simp [Node.fuse, Node.four, Node.kid, elem, after], fun q => ?_⟩ <;>
      simp only [Node.fuse, Node.four, Node.kid, cells] <;> omega

/-- Two other kids and another element between them. -/
theorem Good.setPair (hg : Good p (h + 1) n) (hi : i < n.numElems) (hl : Good n.addr h l) (hr : Good n.addr h r) :
    Good p (h + 1) (n.setPair i (l, some z, r)) ∧ (n.setPair i (l, some z, r)).numElems = n.numElems := by
  unfold Node.setPair
  dsimp only
  rw [hl.countnode, hr.countnode]
  cases hg with
  | two ha h1 h2 =>
    rw [numElems_two] at hi
    interval_cases i
    exact ⟨.two ha hl hr, rfl⟩
  | three ha h1 h2 h3 =>
    rw [numElems_three] at hi
    interval_cases i
    exacts [⟨.three ha hl hr h3, rfl⟩, ⟨.three ha h1 hl hr, rfl⟩]
  | four ha h1 h2 h3 h4 =>
    rw [numElems_four] at hi
    interval_cases i
    exacts [⟨.four ha hl hr h3 h4, rfl⟩, ⟨.four ha h1 hl hr h4, rfl⟩, ⟨.four ha h1 h2 hl hr, rfl⟩]

theorem Good.setPair_parts (hg : Good p (h + 1) n) (hi : i < n.numElems) :
    (n.setPair i (l, some z, r)).kid i = l ∧ (n.setPair i (l, some z, r)).kid (i + 1) = r ∧
      (n.setPair i (l, some z, r)).before i = n.before i ∧
      (n.setPair i (l, some z, r)).elem i = some z ∧
      (n.setPair i (l, some z, r)).count i = l.countnode ∧
      (n.setPair i (l, some z, r)).after (i + 1) = n.after (i + 1) ∧
      ∀ q, (n.setPair i (l, some z, r)).cells q + (n.kid i).cells q + (n.kid (i + 1)).cells q =
        n.cells q + l.cells q + r.cells q := by
  unfold Node.setPair
  cases hg with
  | two =>
    rw [numElems_two] at hi
    interval_cases i
    refine ⟨rfl, rfl, rfl, rfl, rfl, rfl, fun q => ?_⟩
    simp only [Node.two, Node.kid, Node.setKid, setElem, setCount, cells]
    omega
  | three =>
    rw [numElems_three] at hi
    interval_cases i <;> refine ⟨rfl, rfl, rfl, rfl, rfl, rfl, fun q => ?_⟩ <;>
      simp only [Node.three, Node.kid, Node.setKid, setElem, setCount, cells] <;> omega
  | four =>
    rw [numElems_four] at hi
    interval_cases i <;> refine ⟨rfl, rfl, rfl, rfl, rfl, rfl, fun q => ?_⟩ <;>
      simp only [Node.four, Node.kid, Node.setKid, setElem, setCount, cells] <;> omega

/-- A leaf with an element to spare. -/
theorem Good.closeLeaf (hg : Good p 1 n) (h2 : 2 ≤ n.numElems) (hi : i < n.numElems) :
    Good p 1 (n.closeLeaf (2 - i) i) ∧
      (n.closeLeaf (2 - i) i).toList = n.before i ++ (n.kid i).toList ++ ((n.kid (i + 1)).toList ++ n.after (i + 1)) ∧
      ∀ q, (n.closeLeaf (2 - i) i).cells q = n.cells q := by
  cases hg with
  | two => simp at h2
  | three ha g0 g1 g2 =>
    cases g0
    cases g1
    cases g2
    rw [numElems_three] at hi
    interval_cases i
    · exact ⟨.two ha .null .null, rfl, fun q => rfl⟩
    · exact ⟨.two ha .null .null, rfl, fun q => rfl⟩
  | four ha g0 g1 g2 g3 =>
    cases g0
    cases g1
    cases g2
    cases g3
    rw [numElems_four] at hi
    interval_cases i
    · exact ⟨.three ha .null .null .null, rfl, fun q => rfl⟩
    · exact ⟨.three ha .null .null .null, rfl, fun q => rfl⟩
    · exact ⟨.three ha .null .null .null, rfl, fun q => rfl⟩

end Parent

end Dumbnose.Tree234
