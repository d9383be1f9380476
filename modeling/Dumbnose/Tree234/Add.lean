/-
  Dumbnose.Tree234.Add — adding an element (`add234_internal`).

  The descent ends at a leaf, or at an element that compares equal. From there the element
  goes up: a node with room takes it, a node with three elements splits around it, and
  where the root splits the tree gets a new one. Above a node that had room only the
  counts change.

  `none` is where the code reads outside the arrays of a node, or through a NULL.

  By index the descent is sound up to the size of the tree (`descend_index`). The upper
  bound, which `addpos234` leaves to it, it does not check: see `Tree234.Bounds`.
-/

import Dumbnose.Lib.Compare
import Dumbnose.Tree234.Path

namespace Dumbnose.Tree234

open Node Lib.Compare

variable {α : Type}

/-- What `mknew` and `sfree` did: addresses from 1 on, and those that were given back. -/
structure Heap where
  next : Nat
  freed : List Nat
  deriving DecidableEq, Repr

/-! ## The descent -/

/-- What one turn of the descent comes to: the kid to go on to and the index there, an
    element that compares equal, or an index out of range. -/
inductive Way (α : Type) where
  | kid (i : Nat) (index : Int)
  | found (e : α)
  | outOfRange
  | undefined

def wayByIndex (n : Node α) (index : Int) : Way α :=
  -- a leaf: the kid with that number
  if (n.kid 0).isNull then .kid index.toNat index
  else if index ≤ n.count 0 then .kid 0 index
  else
    let index := index - (n.count 0 + 1)
    if index ≤ n.count 1 then .kid 1 index
    else
      let index := index - (n.count 1 + 1)
      if index ≤ n.count 2 then .kid 2 index
      else
        let index := index - (n.count 2 + 1)
        if index ≤ n.count 3 then .kid 3 index else .outOfRange

def wayByCmp (cmp : α → α → Int) (e : α) (n : Node α) (index : Int) : Way α :=
  match n.elem 0 with
  | none => .undefined
  | some e0 =>
    if cmp e e0 < 0 then .kid 0 index
    else if cmp e e0 = 0 then .found e0
    else
      match n.elem 1 with
      | none => .kid 1 index
      | some e1 =>
        if cmp e e1 < 0 then .kid 1 index
        else if cmp e e1 = 0 then .found e1
        else
          match n.elem 2 with
          | none => .kid 2 index
          | some e2 =>
            if cmp e e2 < 0 then .kid 2 index else if cmp e e2 = 0 then .found e2 else .kid 3 index

def way (cmp : Option (α → α → Int)) (e : α) (n : Node α) (index : Int) : Way α :=
  if 0 ≤ index then wayByIndex n index
  else
    match cmp with
    | some cmp => wayByCmp cmp e n index
    | none => .undefined

inductive Descent (α : Type) where
  /-- The kid of the last node of the path is NULL. -/
  | bottom (path : Path α)
  | found (e : α)
  | outOfRange
  | undefined

def descend (cmp : Option (α → α → Int)) (e : α) : Node α → Int → Path α → Descent α
  | null, _, path => .bottom path
  | mk a p k0 k1 k2 k3 c0 c1 c2 c3 e0 e1 e2, index, path =>
    let n := mk a p k0 k1 k2 k3 c0 c1 c2 c3 e0 e1 e2
    match way cmp e n index with
    | .kid 0 index => descend cmp e k0 index ((n, 0) :: path)
    | .kid 1 index => descend cmp e k1 index ((n, 1) :: path)
    | .kid 2 index => descend cmp e k2 index ((n, 2) :: path)
    | .kid 3 index => descend cmp e k3 index ((n, 3) :: path)
    | .kid _ _ => .undefined
    | .found e => .found e
    | .outOfRange => .outOfRange
    | .undefined => .undefined

/-! ## The way up -/

namespace Node

/-- The parent pointers of the first `m` kids. -/
def adopt (m : Nat) : Node α → Node α
  | null => null
  | mk a p k0 k1 k2 k3 c0 c1 c2 c3 e0 e1 e2 =>
    mk a p (k0.setParent a) (k1.setParent a) (if 2 < m then k2.setParent a else k2)
      (if 3 < m then k3.setParent a else k3) c0 c1 c2 c3 e0 e1 e2

/-- Insert in a 2-node, at the place of kid `np`. -/
def insert2 (n : Node α) (np : Nat) (left : Node α) (lcount : Int) (e : Option α) (right : Node α)
    (rcount : Int) : Node α :=
  match n with
  | null => null
  | mk a p k0 k1 _ k3 c0 c1 _ c3 e0 _ e2 =>
    if np = 0 then (mk a p left right k1 k3 lcount rcount c1 c3 e e0 e2).adopt 3
    else (mk a p k0 left right k3 c0 lcount rcount c3 e0 e e2).adopt 3

/-- Insert in a 3-node. -/
def insert3 (n : Node α) (np : Nat) (left : Node α) (lcount : Int) (e : Option α) (right : Node α)
    (rcount : Int) : Node α :=
  match n with
  | null => null
  | mk a p k0 k1 k2 _ c0 c1 c2 _ e0 e1 _ =>
    if np = 0 then (mk a p left right k1 k2 lcount rcount c1 c2 e e0 e1).adopt 4
    else if np = 1 then (mk a p k0 left right k2 c0 lcount rcount c2 e0 e e1).adopt 4
    else (mk a p k0 k1 left right c0 c1 lcount rcount e0 e1 e).adopt 4

/-- Insert in a 4-node, split into a new 3-node at `m`, an element, and a 2-node. -/
def split4 (n : Node α) (m np : Nat) (left : Node α) (lcount : Int) (e : Option α) (right : Node α) (rcount : Int) :
    Node α × Option α × Node α :=
  match n with
  | null => (null, e, null)
  | mk a p k0 k1 k2 k3 c0 c1 c2 c3 e0 e1 e2 =>
    if np = 0 then
      ((mk m p left right k1 null lcount rcount c1 0 e e0 none).adopt 3, e1,
        (mk a p k2 k3 null null c2 c3 0 0 e2 none none).adopt 2)
    else if np = 1 then
      ((mk m p k0 left right null c0 lcount rcount 0 e0 e none).adopt 3, e1,
        (mk a p k2 k3 null null c2 c3 0 0 e2 none none).adopt 2)
    else if np = 2 then
      ((mk m p k0 k1 left null c0 c1 lcount 0 e0 e1 none).adopt 3, e,
        (mk a p right k3 null null rcount c3 0 0 e2 none none).adopt 2)
    else
      ((mk m p k0 k1 k2 null c0 c1 c2 0 e0 e1 none).adopt 3, e2,
        (mk a p left right null null lcount rcount 0 0 e none none).adopt 2)

end Node

/-- The counts above a node that had room. -/
def fixCounts : Path α → Node α → Node α
  | [], n => n
  | (p, i) :: path, n => fixCounts path ((p.setKid i n).setCount i n.countnode)

/-- From the place below the path on, upwards: the new root. -/
def ascend : Path α → Node α → Int → Option α → Node α → Int → Heap → Node α × Heap
  | [], left, lcount, e, right, rcount, heap =>
    ((mk heap.next 0 left right null null lcount rcount 0 0 e none none).adopt 2, { heap with next := heap.next + 1 })
  | (n, np) :: path, left, lcount, e, right, rcount, heap =>
    if n.elem 1 = none then (fixCounts path (n.insert2 np left lcount e right rcount), heap)
    else if n.elem 2 = none then (fixCounts path (n.insert3 np left lcount e right rcount), heap)
    else
      let r := n.split4 heap.next np left lcount e right rcount
      ascend path r.1 r.1.countnode r.2.1 r.2.2 r.2.2.countnode { heap with next := heap.next + 1 }

/-- `tree234`, and the memory it has. -/
structure Tree (α : Type) where
  cmp : Option (α → α → Int)
  root : Node α
  heap : Heap

/-- `newtree234`. -/
def Tree.new (cmp : Option (α → α → Int)) : Tree α := ⟨cmp, .null, ⟨1, []⟩⟩

/-- `add234_internal`: what it returns, and the tree. -/
def Tree.addInternal (t : Tree α) (e : α) (index : Int) : Option (Option α × Tree α) :=
  if t.root.isNull then
    some (some e, { t with
      root := .mk t.heap.next 0 .null .null .null .null 0 0 0 0 (some e) none none
      heap := { t.heap with next := t.heap.next + 1 } })
  else
    match descend t.cmp e t.root index [] with
    | .bottom path =>
      let r := ascend path .null 0 (some e) .null 0 t.heap
      some (some e, { t with root := r.1, heap := r.2 })
    | .found e => some (some e, t)
    | .outOfRange => some (none, t)
    | .undefined => none

/-! ## One node -/

section One
variable {p h pl pr : Nat} {n left right : Node α} {x : α}

theorem Good.insert2 (hg : Good p (h + 1) n) (he : n.elem 1 = none) {np : Nat} (hi : np ≤ n.numElems)
    (hl : Good pl h left) (hr : Good pr h right) :
    Good p (h + 1) (n.insert2 np left left.size (some x) right right.size) ∧
      (n.insert2 np left left.size (some x) right right.size).toList =
        n.before np ++ left.toList ++ x :: right.toList ++ n.after np ∧
      ∀ q, (n.insert2 np left left.size (some x) right right.size).cells q + (n.kid np).cells q =
        n.cells q + left.cells q + right.cells q := by
  cases hg with
  | @two _ _ a l r y ha h1 h2 =>
    rw [numElems_two] at hi
    have e0 : (Node.two a p l y r).insert2 0 left left.size (some x) right right.size =
        Node.three a p (left.setParent a) x (right.setParent a) y (r.setParent a) := by
      simp [Node.two, Node.three, Node.insert2, adopt]
    have e1 : (Node.two a p l y r).insert2 1 left left.size (some x) right right.size =
        Node.three a p (l.setParent a) y (left.setParent a) x (right.setParent a) := by
      simp [Node.two, Node.three, Node.insert2, adopt]
    interval_cases np
    · rw [e0]
      refine ⟨.three ha (hl.setParent a) (hr.setParent a) (h2.setParent a), ?_, fun q => ?_⟩
      · simp [before, after, Node.two, Node.kid, elem]
      · simp [Node.two, Node.three, cells, Node.kid]; omega
    · rw [e1]
      refine ⟨.three ha (h1.setParent a) (hl.setParent a) (hr.setParent a), ?_, fun q => ?_⟩
      · simp [before, after, Node.two, Node.kid, elem]
      · simp [Node.two, Node.three, cells, Node.kid]; omega
  | three => cases he
  | four => cases he

theorem Good.insert3 (hg : Good p (h + 1) n) (hs : n.elem 1 ≠ none) (he : n.elem 2 = none) {np : Nat}
    (hi : np ≤ n.numElems) (hl : Good pl h left) (hr : Good pr h right) :
    Good p (h + 1) (n.insert3 np left left.size (some x) right right.size) ∧
      (n.insert3 np left left.size (some x) right right.size).toList =
        n.before np ++ left.toList ++ x :: right.toList ++ n.after np ∧
      ∀ q, (n.insert3 np left left.size (some x) right right.size).cells q + (n.kid np).cells q =
        n.cells q + left.cells q + right.cells q := by
  cases hg with
  | two => exact absurd rfl hs
  | @three _ _ a l m r y z ha g0 g1 g2 =>
    rw [numElems_three] at hi
    have e0 : (Node.three a p l y m z r).insert3 0 left left.size (some x) right right.size =
        Node.four a p (left.setParent a) x (right.setParent a) y (m.setParent a) z (r.setParent a) := by
      simp [Node.three, Node.four, Node.insert3, adopt]
    have e1 : (Node.three a p l y m z r).insert3 1 left left.size (some x) right right.size =
        Node.four a p (l.setParent a) y (left.setParent a) x (right.setParent a) z (r.setParent a) := by
      simp [Node.three, Node.four, Node.insert3, adopt]
    have e2 : (Node.three a p l y m z r).insert3 2 left left.size (some x) right right.size =
        Node.four a p (l.setParent a) y (m.setParent a) z (left.setParent a) x (right.setParent a) := by
      simp [Node.three, Node.four, Node.insert3, adopt]
    have hl' := hl.setParent a
    have hr' := hr.setParent a
    interval_cases np
    · rw [e0]
      refine ⟨.four ha hl' hr' (g1.setParent a) (g2.setParent a), ?_, fun q => ?_⟩
      · simp [before, after, Node.three, Node.kid, elem]
      · simp [Node.three, Node.four, cells, Node.kid]; omega
    · rw [e1]
      refine ⟨.four ha (g0.setParent a) hl' hr' (g2.setParent a), ?_, fun q => ?_⟩
      · simp [before, after, Node.three, Node.kid, elem]
      · simp [Node.three, Node.four, cells, Node.kid]; omega
    · rw [e2]
      refine ⟨.four ha (g0.setParent a) (g1.setParent a) hl' hr', ?_, fun q => ?_⟩
      · simp [before, after, Node.three, Node.kid, elem]
      · simp [Node.three, Node.four, cells, Node.kid]; omega
  | four => cases he

/-- A split node: a 3-node and a 2-node with an element between them. -/
theorem Good.split4 (hg : Good p (h + 1) n) (h1 : n.elem 1 ≠ none) (h2 : n.elem 2 ≠ none) {np m : Nat} (hm : m ≠ 0)
    (hi : np ≤ n.numElems) (hl : Good pl h left) (hr : Good pr h right) :
    ∃ n1 y n2, n.split4 m np left left.size (some x) right right.size = (n1, some y, n2) ∧
      Good p (h + 1) n1 ∧ Good p (h + 1) n2 ∧
      n1.toList ++ y :: n2.toList = n.before np ++ left.toList ++ x :: right.toList ++ n.after np ∧
      ∀ q, n1.cells q + n2.cells q + (n.kid np).cells q =
        n.cells q + left.cells q + right.cells q + if m = q then 1 else 0 := by
  cases hg with
  | two => exact absurd rfl h1
  | three => exact absurd rfl h2
  | @four _ _ a k0 k1 k2 k3 x0 x1 x2 ha g0 g1 g2 g3 =>
    rw [numElems_four] at hi
    have hlm := hl.setParent m
    have hrm := hr.setParent m
    have hla := hl.setParent a
    have hra := hr.setParent a
    interval_cases np
    · refine ⟨Node.three m p (left.setParent m) x (right.setParent m) x0 (k1.setParent m), x1,
        Node.two a p (k2.setParent a) x2 (k3.setParent a), ?_, .three hm hlm hrm (g1.setParent m),
        .two ha (g2.setParent a) (g3.setParent a), ?_, fun q => ?_⟩
      · simp [Node.two, Node.three, Node.four, Node.split4, adopt]
      · simp [before, after, Node.four, Node.kid, elem]
      · simp [Node.two, Node.three, Node.four, cells, Node.kid]; omega
    · refine ⟨Node.three m p (k0.setParent m) x0 (left.setParent m) x (right.setParent m), x1,
        Node.two a p (k2.setParent a) x2 (k3.setParent a), ?_, .three hm (g0.setParent m) hlm hrm,
        .two ha (g2.setParent a) (g3.setParent a), ?_, fun q => ?_⟩
      · simp [Node.two, Node.three, Node.four, Node.split4, adopt]
      · simp [before, after, Node.four, Node.kid, elem]
      · simp [Node.two, Node.three, Node.four, cells, Node.kid]; omega
    · refine ⟨Node.three m p (k0.setParent m) x0 (k1.setParent m) x1 (left.setParent m), x,
        Node.two a p (right.setParent a) x2 (k3.setParent a), ?_, .three hm (g0.setParent m) (g1.setParent m) hlm,
        .two ha hra (g3.setParent a), ?_, fun q => ?_⟩
      · simp [Node.two, Node.three, Node.four, Node.split4, adopt]
      · simp [before, after, Node.four, Node.kid, elem]
      · simp [Node.two, Node.three, Node.four, cells, Node.kid]; omega
    · refine ⟨Node.three m p (k0.setParent m) x0 (k1.setParent m) x1 (k2.setParent m), x2,
        Node.two a p (left.setParent a) x (right.setParent a), ?_,
        .three hm (g0.setParent m) (g1.setParent m) (g2.setParent m), .two ha hla hra, ?_, fun q => ?_⟩
      · simp [Node.two, Node.three, Node.four, Node.split4, adopt]
      · simp [before, after, Node.four, Node.kid, elem]
      · simp [Node.two, Node.three, Node.four, cells, Node.kid]; omega

end One

/-! ## All the way up -/

section Up
variable {h pl pr : Nat} {s : Int} {path : Path α} {n left right : Node α} {x : α}

/-- Above a node that had room: the counts are right again, and nothing else changes. -/
theorem fixCounts_spec (hp : Hangs h s path) (hg : Good path.top h n) :
    ∃ H, Good 0 H (fixCounts path n) ∧ (fixCounts path n).toList = path.before ++ n.toList ++ path.after ∧
      ∀ q, (fixCounts path n).cells q = n.cells q + path.cells q := by
  induction hp generalizing n with
  | root => exact ⟨_, hg, by simp [fixCounts, Path.before, Path.after], fun q => rfl⟩
  | @kid h m i path hm hi hp ih =>
    have h3 := hi.trans hm.numElems_le
    obtain ⟨H, hH, hl, hc⟩ := ih (hm.setKid hi hg)
    refine ⟨H, ?_, ?_, fun q => ?_⟩
    · rw [fixCounts, hg.countnode]
      exact hH
    · rw [fixCounts, hg.countnode, hl, m.setKid_toList h3 hm.isNull]
      simp only [Path.before, Path.after, List.append_assoc]
    · have h1 := m.setKid_cells h3 hm.isNull n n.size q
      have h2 := m.cells_kid q i
      rw [fixCounts, hg.countnode, hc, Path.cells]
      omega

/-- The new root, by induction on the path. -/
theorem ascend_spec (hp : Hangs h s path) (hl : Good pl h left) (hr : Good pr h right) (heap : Heap)
    (hh : heap.next ≠ 0) :
    ∃ H root heap', ascend path left left.size (some x) right right.size heap = (root, heap') ∧ Good 0 H root ∧
      root.toList = path.before ++ left.toList ++ x :: right.toList ++ path.after ∧
      heap'.freed = heap.freed ∧ heap.next ≤ heap'.next ∧
      ∀ q, root.cells q = left.cells q + right.cells q + path.cells q +
        if heap.next ≤ q ∧ q < heap'.next then 1 else 0 := by
  induction hp generalizing left right x heap pl pr with
  | root =>
    refine ⟨_, Node.two heap.next 0 (left.setParent heap.next) x (right.setParent heap.next),
      { heap with next := heap.next + 1 }, ?_,
      .two hh (hl.setParent _) (hr.setParent _), ?_, rfl, Nat.le_succ _, fun q => ?_⟩
    · simp only [ascend, adopt, Node.two, size_setParent]
      rfl
    · simp [Path.before, Path.after]
    · simp only [Node.two, cells, cells_setParent, Path.cells]
      split <;> split <;> omega
  | @kid h n i path hm hi hp ih =>
    by_cases h1 : n.elem 1 = none
    · obtain ⟨g2, hl2, hc2⟩ := hm.insert2 (x := x) h1 hi hl hr
      obtain ⟨H, hH, hl3, hc3⟩ := fixCounts_spec hp g2
      refine ⟨H, _, heap, by rw [ascend, if_pos h1], hH, ?_, rfl, le_rfl, fun q => ?_⟩
      · rw [hl3, hl2]
        simp [Path.before, Path.after]
      · have h1 := hc2 q
        have h2 := n.cells_kid q i
        rw [hc3, Path.cells, if_neg (by omega)]
        omega
    by_cases h2 : n.elem 2 = none
    · obtain ⟨g2, hl2, hc2⟩ := hm.insert3 (x := x) h1 h2 hi hl hr
      obtain ⟨H, hH, hl3, hc3⟩ := fixCounts_spec hp g2
      refine ⟨H, _, heap, by rw [ascend, if_neg h1, if_pos h2], hH, ?_, rfl, le_rfl, fun q => ?_⟩
      · rw [hl3, hl2]
        simp [Path.before, Path.after]
      · have h1 := hc2 q
        have h2 := n.cells_kid q i
        rw [hc3, Path.cells, if_neg (by omega)]
        omega
    · obtain ⟨n1, y, n2, he, g1, g2, hl2, hc2⟩ := hm.split4 (x := x) h1 h2 hh hi hl hr
      obtain ⟨H, root, heap', hr, hH, hl3, hf, hn, hc3⟩ :=
        ih (x := y) g1 g2 { heap with next := heap.next + 1 } (Nat.succ_ne_zero _)
      refine ⟨H, root, heap', ?_, hH, ?_, hf, by simp only at hn; omega, fun q => ?_⟩
      · rw [ascend, if_neg h1, if_neg h2, he]
        dsimp only
        rw [g1.countnode, g2.countnode, hr]
      · calc root.toList = path.before ++ (n1.toList ++ y :: n2.toList) ++ path.after := by rw [hl3]; simp
          _ = _ := by rw [hl2]; simp [Path.before, Path.after]
      · have h1 := hc2 q
        have h2 := n.cells_kid q i
        simp only at hn
        rw [hc3, Path.cells]
        split at h1 <;> split <;> split <;> simp only at * <;> omega

end Up

/-! ## All the way down -/

section Down
variable {cmp : Option (α → α → Int)} {e : α} {p h : Nat} {s : Int} {path : Path α} {n : Node α}

theorem descend_of_way (hn : n.isNull = false) {i : Nat} (hi : i ≤ 3) {index index' : Int}
    (hw : way cmp e n index = .kid i index') :
    descend cmp e n index path = descend cmp e (n.kid i) index' ((n, i) :: path) := by
  cases n with
  | null => cases hn
  | mk a p k0 k1 k2 k3 c0 c1 c2 c3 e0 e1 e2 => interval_cases i <;> simp only [descend, hw, kid]

/-- At a leaf the index is the place. -/
theorem wayByIndex_leaf (hg : Good p 1 n) {index : Int} (h0 : 0 ≤ index) (h1 : index ≤ n.size) :
    wayByIndex n index = .kid index.toNat index ∧ index.toNat ≤ n.numElems ∧ n.kid index.toNat = .null ∧
      (n.before index.toNat).length = index := by
  refine ⟨by rw [wayByIndex, if_pos (hg.kid0_isNull.mpr rfl)], ?_⟩
  cases hg with
  | two _ h2 h3 =>
    cases h2
    cases h3
    simp only [size_two, size_null] at h1
    interval_cases index <;> exact ⟨by simp, rfl, rfl⟩
  | three _ h2 h3 h4 =>
    cases h2
    cases h3
    cases h4
    simp only [size_three, size_null] at h1
    interval_cases index <;> exact ⟨by simp, rfl, rfl⟩
  | four _ h2 h3 h4 h5 =>
    cases h2
    cases h3
    cases h4
    cases h5
    simp only [size_four, size_null] at h1
    interval_cases index <;> exact ⟨by simp, rfl, rfl⟩

/-- At an inner node it goes to the kid whose elements it falls among. -/
theorem wayByIndex_inner (hg : Good p (h + 2) n) {index : Int} (h0 : 0 ≤ index) (h1 : index ≤ n.size) :
    ∃ i index', wayByIndex n index = .kid i index' ∧ i ≤ n.numElems ∧ 0 ≤ index' ∧ index' ≤ (n.kid i).size ∧
      (n.before i).length + index' = index := by
  have hk : ¬ (n.kid 0).isNull = true := by
    rw [hg.kid0_isNull]
    omega
  have hpos := hg.numElems_pos
  have hle := hg.numElems_le
  have hlast := hg.size_last
  have hb1 : ((n.before 1).length : Int) = n.count 0 + 1 := by simpa [before] using hg.before_succ (i := 0) hpos
  rw [wayByIndex, if_neg hk]
  by_cases g0 : index ≤ n.count 0
  · exact ⟨0, index, if_pos g0, by omega, h0, by rwa [← hg.count (by omega)], by simp [before]⟩
  by_cases g1 : index - (n.count 0 + 1) ≤ n.count 1
  · exact ⟨1, _, by rw [if_neg g0, if_pos g1], hpos, by omega, by rwa [← hg.count hpos], by omega⟩
  -- past kid 1 there is another, or the index would be too large
  have n2 : 2 ≤ n.numElems := by
    by_contra hn
    rw [show n.numElems = 1 by omega] at hlast
    omega
  have hb2 : ((n.before 2).length : Int) = (n.before 1).length + n.count 1 + 1 := hg.before_succ n2
  by_cases g2 : index - (n.count 0 + 1) - (n.count 1 + 1) ≤ n.count 2
  · exact ⟨2, _, by rw [if_neg g0, if_neg g1, if_pos g2], n2, by omega, by rwa [← hg.count n2], by omega⟩
  have n3 : n.numElems = 3 := by
    by_contra hn
    rw [show n.numElems = 2 by omega] at hlast
    omega
  have hb3 : ((n.before 3).length : Int) = (n.before 2).length + n.count 2 + 1 := hg.before_succ (by omega)
  rw [n3] at hlast
  have g3 : index - (n.count 0 + 1) - (n.count 1 + 1) - (n.count 2 + 1) ≤ n.count 3 := by omega
  exact ⟨3, _, by rw [if_neg g0, if_neg g1, if_neg g2, if_pos g3], n3.ge, by omega, by rwa [← hg.count n3.ge],
    by omega⟩

/-- Where the descent by index ends. -/
theorem descend_index (cmp : Option (α → α → Int)) (e : α) (hg : Good path.top (h + 1) n)
    (hp : Hangs (h + 1) n.size path) {index : Int} (h0 : 0 ≤ index) (h1 : index ≤ n.size) :
    ∃ path', descend cmp e n index path = .bottom path' ∧ Hangs 0 0 path' ∧
      (path'.before.length : Int) = path.before.length + index ∧
      path'.before ++ path'.after = path.before ++ n.toList ++ path.after ∧
      ∀ q, path'.cells q = n.cells q + path.cells q := by
  induction h generalizing n path index with
  | zero =>
    obtain ⟨hw, hi, hk, hb⟩ := wayByIndex_leaf hg h0 h1
    have hw' : way cmp e n index = .kid index.toNat index := by
      unfold way
      rw [if_pos h0, hw]
    have h3 := hi.trans hg.numElems_le
    refine ⟨(n, index.toNat) :: path, ?_, ?_, ?_, ?_, fun q => ?_⟩
    · rw [descend_of_way hg.isNull h3 hw', hk, descend]
    · have := Hangs.kid hg hi hp
      rwa [hk] at this
    · rw [Path.before, List.length_append]
      omega
    · have := path.toList_down n h3
      rwa [hk, toList_null, List.append_nil] at this
    · have := path.cells_down q n index.toNat
      rw [hk, cells_null] at this
      omega
  | succ h ih =>
    obtain ⟨i, index', hw, hi, h0', h1', hb⟩ := wayByIndex_inner hg h0 h1
    have hw' : way cmp e n index = .kid i index' := by
      unfold way
      rw [if_pos h0, hw]
    have h3 := hi.trans hg.numElems_le
    obtain ⟨path', hd, hp', hl, he, hc⟩ := ih (hg.under hi) (.kid hg hi hp) h0' h1'
    refine ⟨path', ?_, hp', ?_, ?_, fun q => ?_⟩
    · rw [descend_of_way hg.isNull h3 hw', hd]
    · rw [hl, Path.before, List.length_append]
      omega
    · rw [he, Path.toList_down n path h3]
    · rw [hc, Path.cells_down]

end Down

section Sorted
variable {c : α → α → Int} {e : α} {p h : Nat} {s : Int} {path : Path α} {n : Node α}

/-- From an element that is greater on, all are. -/
theorem after_neg {f : α → Int} (hf : Falls f n.toList) {i : Nat} {x : α} (hx : n.elem i = some x) (h : f x < 0) :
    ∀ y ∈ n.after i, f y < 0 := by
  intro y hy
  have hi : i ≤ 3 := n.le_of_elem hx
  rw [n.after_elem hx] at hy
  rw [n.toList_elem hi hx] at hf
  rcases List.mem_cons.mp hy with rfl | hy
  · exact h
  · exact hf.neg h y hy

theorem before_pos {f : α → Int} (hf : Falls f n.toList) {i : Nat} {x : α} (hx : n.elem i = some x) (h : 0 < f x) :
    ∀ y ∈ n.before (i + 1), 0 < f y := by
  intro y hy
  have hi : i ≤ 3 := n.le_of_elem hx
  rw [n.before_elem hx] at hy
  rw [n.toList_elem hi hx] at hf
  rcases List.mem_append.mp hy with hy | hy
  · exact hf.pos h y hy
  · rwa [List.mem_singleton.mp hy]

/-- One turn of the descent by comparison. -/
theorem wayByCmp_spec (hg : Good p (h + 1) n) (hf : Falls (c e) n.toList) (index : Int) :
    (∃ x, wayByCmp c e n index = .found x ∧ x ∈ n.toList ∧ c e x = 0) ∨
      ∃ i, wayByCmp c e n index = .kid i index ∧ i ≤ n.numElems ∧ (∀ x ∈ n.before i, 0 < c e x) ∧
        ∀ x ∈ n.after i, c e x < 0 := by
  have hmem : ∀ {i x}, n.elem i = some x → x ∈ n.toList := by
    intro i x hx
    rw [n.toList_elem (n.le_of_elem hx) hx]
    simp
  have hlast : ∀ y ∈ n.after n.numElems, c e y < 0 := by
    rw [hg.after_last]
    simp
  have hle := hg.numElems_le
  obtain ⟨e0, h0⟩ := hg.elem_some hg.numElems_pos
  unfold wayByCmp
  rw [h0]
  dsimp only
  by_cases l0 : c e e0 < 0
  · exact .inr ⟨0, if_pos l0, by omega, by simp [before], after_neg hf h0 l0⟩
  by_cases z0 : c e e0 = 0
  · exact .inl ⟨e0, by rw [if_neg l0, if_pos z0], hmem h0, z0⟩
  have p0 := before_pos hf h0 (by omega)
  rw [if_neg l0, if_neg z0]
  cases h1 : n.elem 1 with
  | none =>
    rw [show n.numElems = 1 from le_antisymm (hg.elem_none h1) hg.numElems_pos] at hlast
    exact .inr ⟨1, rfl, hg.numElems_pos, p0, hlast⟩
  | some e1 =>
    have n1 : 1 < n.numElems := (hg.elem_isSome 1).mp (by rw [h1]; rfl)
    dsimp only
    by_cases l1 : c e e1 < 0
    · exact .inr ⟨1, if_pos l1, n1.le, p0, after_neg hf h1 l1⟩
    by_cases z1 : c e e1 = 0
    · exact .inl ⟨e1, by rw [if_neg l1, if_pos z1], hmem h1, z1⟩
    have p1 := before_pos hf h1 (by omega)
    rw [if_neg l1, if_neg z1]
    cases h2 : n.elem 2 with
    | none =>
      rw [show n.numElems = 2 from le_antisymm (hg.elem_none h2) n1] at hlast
      exact .inr ⟨2, rfl, n1, p1, hlast⟩
    | some e2 =>
      have n2 : 2 < n.numElems := (hg.elem_isSome 2).mp (by rw [h2]; rfl)
      dsimp only
      by_cases l2 : c e e2 < 0
      · exact .inr ⟨2, if_pos l2, n2.le, p1, after_neg hf h2 l2⟩
      by_cases z2 : c e e2 = 0
      · exact .inl ⟨e2, by rw [if_neg l2, if_pos z2], hmem h2, z2⟩
      rw [show n.numElems = 3 from le_antisymm hle n2] at hlast
      exact .inr ⟨3, by rw [if_neg l2, if_neg z2], n2, before_pos hf h2 (by omega), hlast⟩

/-- Where the descent by comparison ends: at an element that compares equal, or between
    the smaller ones and the greater. -/
theorem descend_cmp (hg : Good path.top h n) (hp : Hangs h n.size path) (hf : Falls (c e) n.toList)
    (hb : ∀ x ∈ path.before, 0 < c e x) (ha : ∀ x ∈ path.after, c e x < 0) {index : Int} (hi : index < 0) :
    (∃ x, descend (some c) e n index path = .found x ∧ x ∈ n.toList ∧ c e x = 0) ∨
      ∃ path', descend (some c) e n index path = .bottom path' ∧ Hangs 0 0 path' ∧
        (∀ x ∈ path'.before, 0 < c e x) ∧ (∀ x ∈ path'.after, c e x < 0) ∧
        path'.before ++ path'.after = path.before ++ n.toList ++ path.after ∧
        ∀ q, path'.cells q = n.cells q + path.cells q := by
  induction h generalizing n path with
  | zero =>
    cases hg
    exact .inr ⟨path, rfl, hp, hb, ha, by simp, fun q => by simp⟩
  | succ h ih =>
    have hw : way (some c) e n index = wayByCmp c e n index := by
      unfold way
      rw [if_neg (by omega)]
    rcases wayByCmp_spec hg hf index with ⟨x, hx, hm, hz⟩ | ⟨i, hx, hi', hb', ha'⟩
    · refine .inl ⟨x, ?_, hm, hz⟩
      cases n with
      | null => cases hg
      | mk => rw [descend, hw, hx]
    · have h3 := hi'.trans hg.numElems_le
      rw [descend_of_way hg.isNull h3 (hw.trans hx)]
      have hf' : Falls (c e) (n.kid i).toList := by
        rw [n.toList_kid h3] at hf
        exact hf.of_append.1.of_append.2
      rcases ih (hg.under hi') (.kid hg hi' hp) hf'
        (by rw [Path.before]; exact List.forall_mem_append.mpr ⟨hb, hb'⟩)
        (by rw [Path.after]; exact List.forall_mem_append.mpr ⟨ha', ha⟩) with
        ⟨x, hd, hm, hz⟩ | ⟨path', hd, hp', hb'', ha'', he, hc⟩
      · refine .inl ⟨x, hd, ?_, hz⟩
        rw [n.toList_kid h3]
        exact List.mem_append_left _ (List.mem_append_right _ hm)
      · exact .inr ⟨path', hd, hp', hb'', ha'', by rw [he, Path.toList_down n path h3],
          fun q => by rw [hc, Path.cells_down]⟩

end Sorted

/-! ## The tree -/

/-- The tree has these elements in this order, its nodes are as they should be, and every
    node there was is in the tree once or was freed once. -/
structure Holds (t : Tree α) (l : List α) : Prop where
  good : ∃ h, Good 0 h t.root
  list : t.root.toList = l
  next : 0 < t.heap.next
  nodes : ∀ q, t.root.cells q + t.heap.freed.count q = if 0 < q ∧ q < t.heap.next then 1 else 0

theorem holds_new (cmp : Option (α → α → Int)) : Holds (Tree.new cmp) [] :=
  ⟨⟨0, .null⟩, rfl, Nat.zero_lt_one, fun q => by rw [if_neg (by simp [Tree.new]; omega)]; rfl⟩

theorem insertIdx_append (a b : List α) (e : α) : (a ++ b).insertIdx a.length e = a ++ e :: b := by
  induction a with
  | nil => rfl
  | cons x a ih => rw [List.length_cons, List.cons_append, List.insertIdx_succ_cons, ih, List.cons_append]

section Tree
variable {t : Tree α} {l : List α}

theorem Holds.eq_nil (ht : Holds t l) (hr : t.root = .null) : l = [] := by
  rw [← ht.list, hr, toList_null]

/-- The first element. -/
theorem Holds.add_first (ht : Holds t l) (hr : t.root = .null) (e : α) (index : Int) :
    ∃ t', t.addInternal e index = some (some e, t') ∧ Holds t' [e] ∧ t'.cmp = t.cmp := by
  refine ⟨{ t with
      root := .mk t.heap.next 0 .null .null .null .null 0 0 0 0 (some e) none none
      heap := { t.heap with next := t.heap.next + 1 } }, ?_, ⟨⟨1, ?_⟩, rfl, Nat.succ_pos _, fun q => ?_⟩, rfl⟩
  · rw [Tree.addInternal, hr]
    rfl
  · exact Good.two (x := e) ht.next.ne' .null .null
  · have h1 := ht.nodes q
    have h2 := ht.next
    rw [hr, cells_null] at h1
    simp only [cells]
    split at h1 <;> split <;> split <;> omega

/-- An element at the place where a descent ended. -/
theorem Holds.add_bottom (ht : Holds t l) (hr : t.root.isNull = false) {e : α} {index : Int} {path : Path α}
    (hd : descend t.cmp e t.root index [] = .bottom path) (hp : Hangs 0 0 path)
    (hc : ∀ q, path.cells q = t.root.cells q) :
    ∃ t', t.addInternal e index = some (some e, t') ∧ Holds t' (path.before ++ e :: path.after) ∧ t'.cmp = t.cmp := by
  obtain ⟨H, root, heap', ha, hH, hl, hf, hn, hq⟩ :=
    ascend_spec (x := e) hp (Good.null (p := 0)) (Good.null (p := 0)) t.heap ht.next.ne'
  refine ⟨{ t with root := root, heap := heap' }, ?_, ⟨⟨H, hH⟩, by simpa using hl,
    ht.next.trans_le hn, fun q => ?_⟩, rfl⟩
  · rw [Tree.addInternal, if_neg (by rw [hr]; simp), hd]
    dsimp only
    rw [size_null] at ha
    rw [ha]
  · have h1 := ht.nodes q
    have h2 := hq q
    have h3 := ht.next
    rw [hc] at h2
    simp only [hf, cells_null] at h2 ⊢
    rw [h2]
    split at h1 <;> split <;> split <;> omega

/-- Up to the size of the tree every index is a place for an element. -/
theorem Holds.addInternal_index (ht : Holds t l) (e : α) {index : Int} (h0 : 0 ≤ index) (h1 : index ≤ l.length) :
    ∃ t', t.addInternal e index = some (some e, t') ∧ Holds t' (l.insertIdx index.toNat e) ∧ t'.cmp = t.cmp := by
  cases hr : t.root.isNull with
  | true =>
    rw [isNull_iff] at hr
    have hl := ht.eq_nil hr
    subst hl
    have h2 : index = 0 := by
      rw [List.length_nil] at h1
      omega
    subst h2
    exact ht.add_first hr e 0
  | false =>
    obtain ⟨h, hg⟩ := ht.good
    obtain ⟨h, rfl⟩ : ∃ h', h = h' + 1 := by
      cases h with
      | zero => rw [hg.isNull_iff.mpr rfl] at hr; cases hr
      | succ h => exact ⟨h, rfl⟩
    have h1' : index ≤ t.root.size := by rwa [size, ht.list]
    have hg' : Good (Path.top (α := α) []) (h + 1) t.root := hg
    obtain ⟨path, hd, hp, hlen, he, hq⟩ := descend_index t.cmp e hg' .root h0 h1'
    obtain ⟨t', ha, hh, hc⟩ := ht.add_bottom hr hd hp hq
    refine ⟨t', ha, ?_, hc⟩
    have h2 : path.before.length = index.toNat := by
      simp only [Path.before, List.length_nil, Nat.cast_zero, Int.zero_add] at hlen
      omega
    have h3 : l = path.before ++ path.after := by
      rw [he, ← ht.list]
      simp [Path.before, Path.after]
    rwa [h3, ← h2, insertIdx_append]

/-- In a sorted tree: the element that compares equal and nothing else, or a new one
    between the smaller ones and the greater. -/
theorem Holds.addInternal_cmp (ht : Holds t l) {c : α → α → Int} (hc : t.cmp = some c) {e : α} (hf : Falls (c e) l) :
    (∃ x, t.addInternal e (-1) = some (some x, t) ∧ x ∈ l ∧ c e x = 0) ∨
      ∃ t' a b, t.addInternal e (-1) = some (some e, t') ∧ l = a ++ b ∧ (∀ x ∈ a, 0 < c e x) ∧ (∀ x ∈ b, c e x < 0) ∧
        Holds t' (a ++ e :: b) ∧ t'.cmp = t.cmp := by
  cases hr : t.root.isNull with
  | true =>
    rw [isNull_iff] at hr
    have hl := ht.eq_nil hr
    subst hl
    obtain ⟨t', ha, hh, hc⟩ := ht.add_first hr e (-1)
    exact .inr ⟨t', [], [], ha, rfl, by simp, by simp, hh, hc⟩
  | false =>
    obtain ⟨h, hg⟩ := ht.good
    have hg' : Good (Path.top (α := α) []) h t.root := hg
    rw [← ht.list] at hf
    rcases descend_cmp hg' .root hf (by simp [Path.before]) (by simp [Path.after])
      (by decide : (-1 : Int) < 0) with ⟨x, hd, hm, hz⟩ | ⟨path, hd, hp, hb, ha, he, hq⟩
    · refine .inl ⟨x, ?_, by rwa [← ht.list], hz⟩
      rw [Tree.addInternal, if_neg (by rw [hr]; simp), hc, hd]
    · rw [← hc] at hd
      obtain ⟨t', ha', hh, hc'⟩ := ht.add_bottom hr hd hp hq
      refine .inr ⟨t', path.before, path.after, ha', ?_, hb, ha, hh, hc'⟩
      rw [he, ← ht.list]
      simp [Path.before, Path.after]

end Tree

end Dumbnose.Tree234
