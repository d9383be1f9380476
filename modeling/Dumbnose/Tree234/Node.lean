/-
  Dumbnose.Tree234.Node — the nodes of the counted 2-3-4 tree (`tree234.c`).

  A node is what `node234` has, with the address it was allocated at. A pointer to a kid
  is the kid: the nodes form a tree, and only `parent` leads back. Address 0 is NULL.

  An `int` is an `Int`. That is exact while the tree has fewer than 2 ^ 31 elements: the
  code adds up counts of subtrees that lie beside each other, and elements, so no sum
  passes the size of the tree, and every count it stores is an `int` (`Good.ints`).

  `Good p h n` is what the tree's own test code checks of a subtree (`chknode`): leaves
  all at one depth, one to three elements in a node and one kid more, every count the size
  of its kid, every parent pointer right.
-/

import Mathlib.Algebra.Group.Int.Defs
import Mathlib.Algebra.Group.Nat.Defs
import Mathlib.Data.List.Basic
import Mathlib.Tactic.Common

namespace Dumbnose.Tree234

/-- `node234`. -/
inductive Node (α : Type) where
  | null
  | mk (addr parent : Nat) (kid0 kid1 kid2 kid3 : Node α) (count0 count1 count2 count3 : Int)
      (elem0 elem1 elem2 : Option α)

namespace Node

variable {α : Type}

def isNull : Node α → Bool
  | null => true
  | mk .. => false

@[simp] theorem isNull_null : (null : Node α).isNull = true := rfl

theorem isNull_iff {n : Node α} : n.isNull = true ↔ n = null := by
  cases n <;> simp [isNull]

def addr : Node α → Nat
  | null => 0
  | mk a .. => a

def parent : Node α → Nat
  | null => 0
  | mk _ p .. => p

def kid : Node α → Nat → Node α
  | mk _ _ k _ _ _ _ _ _ _ _ _ _, 0 => k
  | mk _ _ _ k _ _ _ _ _ _ _ _ _, 1 => k
  | mk _ _ _ _ k _ _ _ _ _ _ _ _, 2 => k
  | mk _ _ _ _ _ k _ _ _ _ _ _ _, 3 => k
  | _, _ => null

def count : Node α → Nat → Int
  | mk _ _ _ _ _ _ c _ _ _ _ _ _, 0 => c
  | mk _ _ _ _ _ _ _ c _ _ _ _ _, 1 => c
  | mk _ _ _ _ _ _ _ _ c _ _ _ _, 2 => c
  | mk _ _ _ _ _ _ _ _ _ c _ _ _, 3 => c
  | _, _ => 0

def elem : Node α → Nat → Option α
  | mk _ _ _ _ _ _ _ _ _ _ e _ _, 0 => e
  | mk _ _ _ _ _ _ _ _ _ _ _ e _, 1 => e
  | mk _ _ _ _ _ _ _ _ _ _ _ _ e, 2 => e
  | _, _ => none

/-- `if (n) n->parent = p`. -/
def setParent (p : Nat) : Node α → Node α
  | null => null
  | mk a _ k0 k1 k2 k3 c0 c1 c2 c3 e0 e1 e2 => mk a p k0 k1 k2 k3 c0 c1 c2 c3 e0 e1 e2

def setKid (n : Node α) (i : Nat) (k : Node α) : Node α :=
  match n, i with
  | mk a p _ k1 k2 k3 c0 c1 c2 c3 e0 e1 e2, 0 => mk a p k k1 k2 k3 c0 c1 c2 c3 e0 e1 e2
  | mk a p k0 _ k2 k3 c0 c1 c2 c3 e0 e1 e2, 1 => mk a p k0 k k2 k3 c0 c1 c2 c3 e0 e1 e2
  | mk a p k0 k1 _ k3 c0 c1 c2 c3 e0 e1 e2, 2 => mk a p k0 k1 k k3 c0 c1 c2 c3 e0 e1 e2
  | mk a p k0 k1 k2 _ c0 c1 c2 c3 e0 e1 e2, 3 => mk a p k0 k1 k2 k c0 c1 c2 c3 e0 e1 e2
  | n, _ => n

def setCount (n : Node α) (i : Nat) (c : Int) : Node α :=
  match n, i with
  | mk a p k0 k1 k2 k3 _ c1 c2 c3 e0 e1 e2, 0 => mk a p k0 k1 k2 k3 c c1 c2 c3 e0 e1 e2
  | mk a p k0 k1 k2 k3 c0 _ c2 c3 e0 e1 e2, 1 => mk a p k0 k1 k2 k3 c0 c c2 c3 e0 e1 e2
  | mk a p k0 k1 k2 k3 c0 c1 _ c3 e0 e1 e2, 2 => mk a p k0 k1 k2 k3 c0 c1 c c3 e0 e1 e2
  | mk a p k0 k1 k2 k3 c0 c1 c2 _ e0 e1 e2, 3 => mk a p k0 k1 k2 k3 c0 c1 c2 c e0 e1 e2
  | n, _ => n

def setElem (n : Node α) (i : Nat) (e : Option α) : Node α :=
  match n, i with
  | mk a p k0 k1 k2 k3 c0 c1 c2 c3 _ e1 e2, 0 => mk a p k0 k1 k2 k3 c0 c1 c2 c3 e e1 e2
  | mk a p k0 k1 k2 k3 c0 c1 c2 c3 e0 _ e2, 1 => mk a p k0 k1 k2 k3 c0 c1 c2 c3 e0 e e2
  | mk a p k0 k1 k2 k3 c0 c1 c2 c3 e0 e1 _, 2 => mk a p k0 k1 k2 k3 c0 c1 c2 c3 e0 e1 e
  | n, _ => n

/-- `countnode234`. -/
def countnode : Node α → Int
  | null => 0
  | mk _ _ _ _ _ _ c0 c1 c2 c3 e0 e1 e2 =>
    c0 + c1 + c2 + c3 + (if e0.isSome then 1 else 0) + (if e1.isSome then 1 else 0) + (if e2.isSome then 1 else 0)

/-- The elements from left to right. -/
def toList : Node α → List α
  | null => []
  | mk _ _ k0 k1 k2 k3 _ _ _ _ e0 e1 e2 =>
    k0.toList ++ e0.toList ++ (k1.toList ++ e1.toList) ++ (k2.toList ++ e2.toList) ++ k3.toList

@[simp] theorem toList_null : (null : Node α).toList = [] := rfl

/-- How many of the nodes are at this address. -/
def cells (q : Nat) : Node α → Nat
  | null => 0
  | mk a _ k0 k1 k2 k3 _ _ _ _ _ _ _ => (if a = q then 1 else 0) + k0.cells q + k1.cells q + k2.cells q + k3.cells q

@[simp] theorem cells_null (q : Nat) : (null : Node α).cells q = 0 := rfl

/-- `freenode234`: the addresses in the order they are freed in. -/
def freenode : Node α → List Nat
  | null => []
  | mk a _ k0 k1 k2 k3 _ _ _ _ _ _ _ => k0.freenode ++ k1.freenode ++ k2.freenode ++ k3.freenode ++ [a]

theorem count_freenode (q : Nat) (n : Node α) : n.freenode.count q = n.cells q := by
  induction n with
  | null => rfl
  | mk a p k0 k1 k2 k3 c0 c1 c2 c3 e0 e1 e2 h0 h1 h2 h3 =>
    simp only [freenode, cells, List.count_append, List.count_singleton, h0, h1, h2, h3, beq_iff_eq]
    omega

/-! ## Well-formed nodes -/

/-- The size of a subtree. -/
def size (n : Node α) : Int := n.toList.length

@[simp] theorem size_null : (null : Node α).size = 0 := rfl

theorem size_nonneg (n : Node α) : 0 ≤ n.size := Int.natCast_nonneg _

def two (a p : Nat) (l : Node α) (x : α) (r : Node α) : Node α :=
  mk a p l r null null l.size r.size 0 0 (some x) none none

def three (a p : Nat) (l : Node α) (x : α) (m : Node α) (y : α) (r : Node α) : Node α :=
  mk a p l m r null l.size m.size r.size 0 (some x) (some y) none

def four (a p : Nat) (l : Node α) (x : α) (m : Node α) (y : α) (m' : Node α) (z : α) (r : Node α) : Node α :=
  mk a p l m m' r l.size m.size m'.size r.size (some x) (some y) (some z)

@[simp] theorem toList_two (a p : Nat) (l : Node α) (x : α) (r : Node α) :
    (two a p l x r).toList = l.toList ++ x :: r.toList := by
  simp [two, toList]

@[simp] theorem toList_three (a p : Nat) (l : Node α) (x : α) (m : Node α) (y : α) (r : Node α) :
    (three a p l x m y r).toList = l.toList ++ x :: (m.toList ++ y :: r.toList) := by
  simp [three, toList]

@[simp] theorem toList_four (a p : Nat) (l : Node α) (x : α) (m : Node α) (y : α) (m' : Node α) (z : α) (r : Node α) :
    (four a p l x m y m' z r).toList = l.toList ++ x :: (m.toList ++ y :: (m'.toList ++ z :: r.toList)) := by
  simp [four, toList]

theorem size_two (a p : Nat) (l : Node α) (x : α) (r : Node α) : (two a p l x r).size = l.size + r.size + 1 := by
  simp only [size, toList_two, List.length_append, List.length_cons]
  omega

theorem size_three (a p : Nat) (l : Node α) (x : α) (m : Node α) (y : α) (r : Node α) :
    (three a p l x m y r).size = l.size + m.size + r.size + 2 := by
  simp only [size, toList_three, List.length_append, List.length_cons]
  omega

theorem size_four (a p : Nat) (l : Node α) (x : α) (m : Node α) (y : α) (m' : Node α) (z : α) (r : Node α) :
    (four a p l x m y m' z r).size = l.size + m.size + m'.size + r.size + 3 := by
  simp only [size, toList_four, List.length_append, List.length_cons]
  omega

end Node

open Node

/-- A subtree of height `h` below the node at `p`, as it should be. -/
inductive Good {α : Type} : Nat → Nat → Node α → Prop
  | null {p : Nat} : Good p 0 null
  | two {p h a : Nat} {l r : Node α} {x : α} : a ≠ 0 → Good a h l → Good a h r → Good p (h + 1) (two a p l x r)
  | three {p h a : Nat} {l m r : Node α} {x y : α} : a ≠ 0 → Good a h l → Good a h m → Good a h r →
      Good p (h + 1) (three a p l x m y r)
  | four {p h a : Nat} {l m m' r : Node α} {x y z : α} : a ≠ 0 → Good a h l → Good a h m → Good a h m' →
      Good a h r → Good p (h + 1) (four a p l x m y m' z r)

/-- Every count is one that an `int` can have. -/
def Node.Ints {α : Type} : Node α → Prop
  | null => True
  | mk _ _ k0 k1 k2 k3 c0 c1 c2 c3 _ _ _ =>
    (∀ c ∈ [c0, c1, c2, c3], 0 ≤ c ∧ c < 2 ^ 31) ∧ k0.Ints ∧ k1.Ints ∧ k2.Ints ∧ k3.Ints

section Good
variable {α : Type} {p h : Nat} {n : Node α}

theorem Good.countnode (hg : Good p h n) : n.countnode = n.size := by
  cases hg with
  | null => rfl
  | two => rw [size_two]; simp [Node.two, Node.countnode]
  | three => rw [size_three]; simp [Node.three, Node.countnode]; omega
  | four => rw [size_four]; simp [Node.four, Node.countnode]; omega

@[simp] theorem toList_setParent (q : Nat) (n : Node α) : (n.setParent q).toList = n.toList := by
  cases n <;> rfl

@[simp] theorem size_setParent (q : Nat) (n : Node α) : (n.setParent q).size = n.size := by
  unfold size
  rw [toList_setParent]

@[simp] theorem cells_setParent (q a : Nat) (n : Node α) : (n.setParent a).cells q = n.cells q := by
  cases n <;> rfl

@[simp] theorem addr_setParent (q : Nat) (n : Node α) : (n.setParent q).addr = n.addr := by
  cases n <;> rfl

@[simp] theorem isNull_setParent (q : Nat) (n : Node α) : (n.setParent q).isNull = n.isNull := by
  cases n <;> rfl

theorem Good.setParent (hg : Good p h n) (q : Nat) : Good q h (n.setParent q) := by
  cases hg with
  | null => exact .null
  | two ha h1 h2 => exact .two ha h1 h2
  | three ha h1 h2 h3 => exact .three ha h1 h2 h3
  | four ha h1 h2 h3 h4 => exact .four ha h1 h2 h3 h4

theorem Good.parent_eq (hg : Good p (h + 1) n) : n.parent = p := by
  cases hg <;> rfl

theorem Good.isNull_iff (hg : Good p h n) : n.isNull = true ↔ h = 0 := by
  cases hg <;> simp [isNull, Node.two, Node.three, Node.four]

theorem Good.kid0_isNull (hg : Good p (h + 1) n) : (n.kid 0).isNull = true ↔ h = 0 := by
  cases hg with
  | two _ h1 => exact h1.isNull_iff
  | three _ h1 => exact h1.isNull_iff
  | four _ h1 => exact h1.isNull_iff

/-- A tree of height `h` has between 2 ^ h - 1 and 4 ^ h - 1 elements. -/
theorem Good.size_bounds (hg : Good p h n) : 2 ^ h ≤ n.toList.length + 1 ∧ n.toList.length + 1 ≤ 4 ^ h := by
  induction hg with
  | null => simp [toList]
  | two _ _ _ h1 h2 =>
    rw [toList_two, List.length_append, List.length_cons, Nat.pow_succ, Nat.pow_succ]
    omega
  | three _ _ _ _ h1 h2 h3 =>
    rw [toList_three, List.length_append, List.length_cons, List.length_append, List.length_cons, Nat.pow_succ,
      Nat.pow_succ]
    omega
  | four _ _ _ _ _ h1 h2 h3 h4 =>
    rw [toList_four, List.length_append, List.length_cons, List.length_append, List.length_cons, List.length_append,
      List.length_cons, Nat.pow_succ, Nat.pow_succ]
    omega

theorem size_int (hs : n.toList.length < 2 ^ 31) : 0 ≤ n.size ∧ n.size < 2 ^ 31 :=
  ⟨n.size_nonneg, by unfold size; omega⟩

theorem Good.ints (hg : Good p h n) (hs : n.toList.length < 2 ^ 31) : n.Ints := by
  induction hg with
  | null => trivial
  | @two p h a l r x _ _ _ h1 h2 =>
    rw [toList_two, List.length_append, List.length_cons] at hs
    refine ⟨?_, h1 (by omega), h2 (by omega), trivial, trivial⟩
    have hl := size_int (n := l) (by omega)
    have hr := size_int (n := r) (by omega)
    simpa using ⟨hl, hr⟩
  | @three p h a l m r x y _ _ _ _ h1 h2 h3 =>
    rw [toList_three, List.length_append, List.length_cons, List.length_append, List.length_cons] at hs
    refine ⟨?_, h1 (by omega), h2 (by omega), h3 (by omega), trivial⟩
    have hl := size_int (n := l) (by omega)
    have hm := size_int (n := m) (by omega)
    have hr := size_int (n := r) (by omega)
    simpa using ⟨hl, hm, hr⟩
  | @four p h a l m m' r x y z _ _ _ _ _ h1 h2 h3 h4 =>
    rw [toList_four, List.length_append, List.length_cons, List.length_append, List.length_cons,
      List.length_append, List.length_cons] at hs
    refine ⟨?_, h1 (by omega), h2 (by omega), h3 (by omega), h4 (by omega)⟩
    have hl := size_int (n := l) (by omega)
    have hm := size_int (n := m) (by omega)
    have hm' := size_int (n := m') (by omega)
    have hr := size_int (n := r) (by omega)
    simpa using ⟨hl, hm, hm', hr⟩

end Good

end Dumbnose.Tree234
