/-
  Dumbnose.Tree234.Path — a node below the root, with what is above it.

  The code walks down the tree and comes back by `parent`. Here the way down is a path:
  each node on it with the number of the kid that the walk went on to, the last one first.
  So the parent of a node is the head of its path, and where the node is among its
  siblings stands beside it.

  `Hangs h s path`: below the path there is room for a subtree of height `h`, and the
  nodes on the path count `s` elements there.
-/

import Mathlib.Tactic.IntervalCases
import Dumbnose.Tree234.Node

namespace Dumbnose.Tree234

open Node

variable {α : Type}

namespace Node

def numElems : Node α → Nat
  | null => 0
  | mk _ _ _ _ _ _ _ _ _ _ e0 e1 e2 =>
    (if e0.isSome then 1 else 0) + (if e1.isSome then 1 else 0) + (if e2.isSome then 1 else 0)

@[simp] theorem numElems_null : (null : Node α).numElems = 0 := rfl
@[simp] theorem numElems_two (a p : Nat) (l : Node α) (x : α) (r : Node α) : (two a p l x r).numElems = 1 := rfl
@[simp] theorem numElems_three (a p : Nat) (l : Node α) (x : α) (m : Node α) (y : α) (r : Node α) :
    (three a p l x m y r).numElems = 2 := rfl
@[simp] theorem numElems_four (a p : Nat) (l : Node α) (x : α) (m : Node α) (y : α) (m' : Node α) (z : α)
    (r : Node α) : (four a p l x m y m' z r).numElems = 3 := rfl

/-- What is left of kid `i`, and what is right of it. -/
def before (n : Node α) : Nat → List α
  | 0 => []
  | i + 1 => n.before i ++ (n.kid i).toList ++ (n.elem i).toList

def after (n : Node α) : Nat → List α
  | 0 => (n.elem 0).toList ++ ((n.kid 1).toList ++ (n.elem 1).toList) ++ ((n.kid 2).toList ++ (n.elem 2).toList) ++
      (n.kid 3).toList
  | 1 => (n.elem 1).toList ++ ((n.kid 2).toList ++ (n.elem 2).toList) ++ (n.kid 3).toList
  | 2 => (n.elem 2).toList ++ (n.kid 3).toList
  | _ => []

theorem toList_kid (n : Node α) {i : Nat} (hi : i ≤ 3) : n.toList = n.before i ++ (n.kid i).toList ++ n.after i := by
  cases n with
  | null => interval_cases i <;> rfl
  | mk a p k0 k1 k2 k3 c0 c1 c2 c3 e0 e1 e2 =>
    interval_cases i <;> simp [toList, before, after, kid, elem]

theorem le_of_elem (n : Node α) {i : Nat} {x : α} (hx : n.elem i = some x) : i ≤ 3 := by
  cases n with
  | null => cases hx
  | mk => rcases i with _ | _ | _ | i <;> first | omega | cases hx

theorem before_elem (n : Node α) {i : Nat} {x : α} (hx : n.elem i = some x) :
    n.before (i + 1) = n.before i ++ (n.kid i).toList ++ [x] := by
  rw [before, hx, Option.toList_some]

theorem after_elem (n : Node α) {i : Nat} {x : α} (hx : n.elem i = some x) :
    n.after i = x :: ((n.kid (i + 1)).toList ++ n.after (i + 1)) := by
  cases n with
  | null => cases hx
  | mk a p k0 k1 k2 k3 c0 c1 c2 c3 e0 e1 e2 =>
    rcases i with _ | _ | _ | i
    · cases hx
      simp [after, kid, elem]
    · cases hx
      simp [after, kid, elem]
    · cases hx
      simp [after, kid, elem]
    · cases hx

theorem toList_elem (n : Node α) {i : Nat} (hi : i ≤ 3) {x : α} (hx : n.elem i = some x) :
    n.toList = (n.before i ++ (n.kid i).toList) ++ x :: ((n.kid (i + 1)).toList ++ n.after (i + 1)) := by
  rw [n.toList_kid hi, n.after_elem hx]

theorem cells_kid (q : Nat) (n : Node α) (i : Nat) : (n.kid i).cells q ≤ n.cells q := by
  cases n with
  | null => exact Nat.zero_le _
  | mk a p k0 k1 k2 k3 c0 c1 c2 c3 e0 e1 e2 =>
    rcases i with _ | _ | _ | _ | i <;> simp only [kid, cells] <;> omega

theorem size_kid (n : Node α) {i : Nat} (hi : i ≤ 3) :
    n.size = (n.before i).length + (n.kid i).size + (n.after i).length := by
  rw [size, toList_kid n hi, List.length_append, List.length_append]
  push_cast
  rfl

end Node

section Good
variable {p h : Nat} {n : Node α}

theorem Good.numElems_le (hg : Good p h n) : n.numElems ≤ 3 := by
  cases hg <;> simp

theorem Good.numElems_pos (hg : Good p (h + 1) n) : 1 ≤ n.numElems := by
  cases hg <;> simp

theorem Good.addr_ne (hg : Good p (h + 1) n) : n.addr ≠ 0 := by
  cases hg <;> assumption

theorem Good.kid (hg : Good p (h + 1) n) {i : Nat} (hi : i ≤ n.numElems) : Good n.addr h (n.kid i) := by
  cases hg with
  | two ha h1 h2 =>
    rw [numElems_two] at hi
    interval_cases i
    exacts [h1, h2]
  | three ha h1 h2 h3 =>
    rw [numElems_three] at hi
    interval_cases i
    exacts [h1, h2, h3]
  | four ha h1 h2 h3 h4 =>
    rw [numElems_four] at hi
    interval_cases i
    exacts [h1, h2, h3, h4]

theorem Good.kid_null (hg : Good p h n) {i : Nat} (hi : n.numElems < i) : n.kid i = .null := by
  cases hg with
  | null => rcases i with _ | _ | _ | _ | i <;> rfl
  | two =>
    rw [numElems_two] at hi
    rcases i with _ | _ | _ | _ | i <;> first | omega | rfl
  | three =>
    rw [numElems_three] at hi
    rcases i with _ | _ | _ | _ | i <;> first | omega | rfl
  | four =>
    rw [numElems_four] at hi
    rcases i with _ | _ | _ | _ | i <;> first | omega | rfl

theorem Good.count (hg : Good p (h + 1) n) {i : Nat} (hi : i ≤ n.numElems) : n.count i = (n.kid i).size := by
  cases hg with
  | two ha h1 h2 =>
    rw [numElems_two] at hi
    interval_cases i <;> rfl
  | three ha h1 h2 h3 =>
    rw [numElems_three] at hi
    interval_cases i <;> rfl
  | four ha h1 h2 h3 h4 =>
    rw [numElems_four] at hi
    interval_cases i <;> rfl

theorem Good.elem_isSome (hg : Good p (h + 1) n) (i : Nat) : (n.elem i).isSome = true ↔ i < n.numElems := by
  cases hg with
  | two =>
    rw [numElems_two]
    rcases i with _ | _ | _ | i <;> simp [Node.two, Node.elem]
  | three =>
    rw [numElems_three]
    rcases i with _ | _ | _ | i <;> simp [Node.three, Node.elem]
  | four =>
    rw [numElems_four]
    rcases i with _ | _ | _ | i <;> simp [Node.four, Node.elem]

theorem Good.elem_some (hg : Good p (h + 1) n) {i : Nat} (hi : i < n.numElems) : ∃ x, n.elem i = some x :=
  Option.isSome_iff_exists.mp ((hg.elem_isSome i).mpr hi)

theorem Good.elem_none (hg : Good p (h + 1) n) {i : Nat} (he : n.elem i = none) : n.numElems ≤ i := by
  have := (hg.elem_isSome i).not
  rw [he] at this
  simpa using this

theorem Good.elem_one (hg : Good p (h + 1) n) : n.elem 1 = none ↔ n.numElems = 1 := by
  have h1 := hg.elem_isSome 1
  have h2 := hg.numElems_pos
  rw [← Option.not_isSome_iff_eq_none, h1]
  omega

theorem Good.before_succ (hg : Good p (h + 1) n) {i : Nat} (hi : i < n.numElems) :
    ((n.before (i + 1)).length : Int) = (n.before i).length + n.count i + 1 := by
  obtain ⟨x, hx⟩ := hg.elem_some hi
  rw [hg.count hi.le, before, hx, size]
  simp only [Option.toList_some, List.length_append, List.length_singleton, Nat.cast_add, Nat.cast_one]

theorem Good.after_last (hg : Good p (h + 1) n) : n.after n.numElems = [] := by
  cases hg <;> rfl

theorem Good.size_last (hg : Good p (h + 1) n) :
    n.size = (n.before n.numElems).length + n.count n.numElems := by
  rw [n.size_kid hg.numElems_le, hg.after_last, hg.count le_rfl, List.length_nil, Nat.cast_zero, Int.add_zero]

/-- Another subtree of that height in the place of a kid, with its count. -/
theorem Good.setKid (hg : Good p (h + 1) n) {i : Nat} (hi : i ≤ n.numElems) {k : Node α} (hk : Good n.addr h k) :
    Good p (h + 1) ((n.setKid i k).setCount i k.size) := by
  cases hg with
  | @two _ _ a l r x ha h1 h2 =>
    rw [numElems_two] at hi
    interval_cases i
    exacts [.two ha hk h2, .two ha h1 hk]
  | @three _ _ a l m r x y ha h1 h2 h3 =>
    rw [numElems_three] at hi
    interval_cases i
    exacts [.three ha hk h2 h3, .three ha h1 hk h3, .three ha h1 h2 hk]
  | @four _ _ a l m m' r x y z ha h1 h2 h3 h4 =>
    rw [numElems_four] at hi
    interval_cases i
    exacts [.four ha hk h2 h3 h4, .four ha h1 hk h3 h4, .four ha h1 h2 hk h4, .four ha h1 h2 h3 hk]

theorem Node.setKid_toList (n : Node α) {i : Nat} (hi : i ≤ 3) (hn : n.isNull = false) (k : Node α) (c : Int) :
    ((n.setKid i k).setCount i c).toList = n.before i ++ k.toList ++ n.after i := by
  cases n with
  | null => cases hn
  | mk a p k0 k1 k2 k3 c0 c1 c2 c3 e0 e1 e2 =>
    interval_cases i <;> simp [Node.setKid, setCount, toList, before, after, Node.kid, elem]

theorem Node.setKid_cells (n : Node α) {i : Nat} (hi : i ≤ 3) (hn : n.isNull = false) (k : Node α) (c : Int) (q : Nat) :
    ((n.setKid i k).setCount i c).cells q + (n.kid i).cells q = n.cells q + k.cells q := by
  cases n with
  | null => cases hn
  | mk a p k0 k1 k2 k3 c0 c1 c2 c3 e0 e1 e2 =>
    interval_cases i <;> simp only [Node.setKid, setCount, Node.kid, cells] <;> omega

theorem Good.isNull (hg : Good p (h + 1) n) : n.isNull = false := by
  cases hg <;> rfl

end Good

/-! ## Paths -/

abbrev Path (α : Type) := List (Node α × Nat)

namespace Path

/-- The address of the node that the path ends at. -/
def top : Path α → Nat
  | [] => 0
  | (n, _) :: _ => n.addr

def before : Path α → List α
  | [] => []
  | (n, i) :: path => before path ++ n.before i

def after : Path α → List α
  | [] => []
  | (n, i) :: path => n.after i ++ after path

/-- The cells of the nodes on the path and beside it. -/
def cells (q : Nat) : Path α → Nat
  | [] => 0
  | (n, i) :: path => n.cells q - (n.kid i).cells q + cells q path

end Path

inductive Hangs : Nat → Int → Path α → Prop
  | root {h : Nat} {s : Int} : Hangs h s []
  | kid {h : Nat} {n : Node α} {i : Nat} {path : Path α} : Good path.top (h + 1) n → i ≤ n.numElems →
      Hangs (h + 1) n.size path → Hangs h (n.kid i).size ((n, i) :: path)

theorem Hangs.top_eq {h : Nat} {s : Int} {path : Path α} (hp : Hangs h s path) : path.top = 0 ↔ path = [] := by
  cases hp with
  | root => simp [Path.top]
  | kid hm => simpa [Path.top] using hm.addr_ne

/-- A kid, below the path that goes on to it. -/
theorem Good.under {h : Nat} {n : Node α} {path : Path α} (hg : Good path.top (h + 1) n) {i : Nat}
    (hi : i ≤ n.numElems) : Good (Path.top ((n, i) :: path)) h (n.kid i) := hg.kid hi

section Down
variable {h : Nat} {n : Node α} {path : Path α}

theorem Path.toList_down (n : Node α) (path : Path α) {i : Nat} (hi : i ≤ 3) :
    Path.before ((n, i) :: path) ++ (n.kid i).toList ++ Path.after ((n, i) :: path) =
      path.before ++ n.toList ++ path.after := by
  simp only [Path.before, Path.after, n.toList_kid hi, List.append_assoc]

theorem Path.cells_down (q : Nat) (n : Node α) (path : Path α) (i : Nat) :
    (n.kid i).cells q + Path.cells q ((n, i) :: path) = n.cells q + path.cells q := by
  have := n.cells_kid q i
  simp only [Path.cells]
  omega

end Down

end Dumbnose.Tree234
