/-
  Dumbnose.Tree234.Delete — deleting by index (`delpos234_internal`).

  The walk down never enters a node with only one element, except the root: where the next
  one has only one, it first gets a second from a neighbour, or is put together with it.
  So at a leaf there is an element to spare. An element of an inner node is overwritten
  with its neighbour in the list, which is deleted further down in its place.

  Each turn of the loop goes one level down, so a tree is deep enough for its own fuel.

  `none` is where the code reads through a NULL.
-/

import Dumbnose.Tree234.Rebalance

namespace Dumbnose.Tree234

open Node Lib.Compare

variable {α : Type}

namespace Node

/-- `n->elems[1]`, as a condition. -/
def big : Node α → Option Bool
  | null => none
  | n => some (n.elem 1).isSome

/-- The way to the predecessor. -/
def lastOf : Node α → Option α
  | null => none
  | mk _ _ k0 k1 k2 k3 _ _ _ _ e0 e1 e2 =>
    if k0.isNull then (if e2.isSome then e2 else if e1.isSome then e1 else e0)
    else if ¬ k3.isNull then k3.lastOf
    else if ¬ k2.isNull then k2.lastOf
    else if ¬ k1.isNull then k1.lastOf
    else k0.lastOf

/-- The way to the successor. -/
def firstOf : Node α → Option α
  | null => none
  | mk _ _ k0 _ _ _ _ _ _ _ e0 _ _ => if k0.isNull then e0 else k0.firstOf

def depth : Node α → Nat
  | null => 0
  | mk _ _ k0 _ _ _ _ _ _ _ _ _ _ => k0.depth + 1

end Node

/-- The counts above a leaf that lost an element. -/
def decCounts : Path α → Node α → Node α
  | [], n => n
  | (p, i) :: path, n => decCounts path ((p.setKid i n).setCount i (p.count i - 1))

def Heap.free (heap : Heap) (a : Nat) : Heap := { heap with freed := heap.freed ++ [a] }

/-- Where the loop is: the node with its path, the index there, and the heap. -/
structure Place (α : Type) where
  path : Path α
  n : Node α
  index : Int
  heap : Heap

/-- Down to subtree `ki`. If it has only one element, we have to do some transformation
    to start with. -/
def Place.enter (s : Place α) (ki : Nat) (index : Int) : Option (Place α) :=
  let n := s.n
  let sub := n.kid ki
  match sub.big, (if 0 < ki then (n.kid (ki - 1)).big else some false) with
  | some true, _ => some { s with path := (n, ki) :: s.path, n := sub, index := index }
  | some false, some true =>
    let m := n.setPair (ki - 1) (rotateRight (n.kid (ki - 1)) (n.elem (ki - 1)) sub)
    some { s with path := (m, ki) :: s.path, n := m.kid ki, index := index + n.count (ki - 1) - m.count (ki - 1) }
  | some false, some false =>
    if ki < 3 ∧ (n.kid (ki + 1)).big = some true then
      let m := n.setPair ki (rotateLeft sub (n.elem ki) (n.kid (ki + 1)))
      some { s with path := (m, ki) :: s.path, n := m.kid ki, index := index }
    else
      let index := if 0 < ki then index + n.count (ki - 1) + 1 else index
      let ki := ki - 1
      if (n.kid (ki + 1)).isNull then none
      else
        let sub := mergeRight (n.kid ki) (n.elem ki) (n.kid (ki + 1))
        let heap := s.heap.free (n.kid ki).addr
        let m := ((n.setKid (ki + 1) sub).setCount (ki + 1) sub.countnode).closeDown (3 - ki) ki
        -- the root is empty and needs to be removed
        if (m.elem 0).isNone then some ⟨[], sub.setParent 0, index, heap.free n.addr⟩
        else some ⟨(m, ki) :: s.path, sub, index, heap⟩
  | _, _ => none

/-- Element `ei` of an inner node: what is to be deleted next instead of it, and where. -/
def Place.replace (s : Place α) (ei : Nat) : Option (Place α) :=
  let n := s.n
  match (n.kid ei).big, (n.kid (ei + 1)).big with
  | some true, _ =>
    some { s with path := (n.setElem ei (n.kid ei).lastOf, ei) :: s.path, n := n.kid ei, index := n.count ei - 1 }
  | some false, some true =>
    some { s with path := (n.setElem ei (n.kid (ei + 1)).firstOf, ei + 1) :: s.path, n := n.kid (ei + 1), index := 0 }
  | some false, some false =>
    let a := mergeLeft (n.kid ei) (n.elem ei) (n.kid (ei + 1))
    let heap := s.heap.free (n.kid (ei + 1)).addr
    let m := ((n.setKid ei a).setCount ei a.countnode).closeUp (2 - ei) ei
    if (m.elem 0).isNone then some ⟨[], a.setParent 0, a.count 0 + a.count 1 + 1, heap.free n.addr⟩
    else some ⟨(m, ei) :: s.path, a, a.count 0 + a.count 1 + 1, heap⟩
  | _, _ => none

/-- `delpos234_internal`, from a place on: what it returns, the root, and the heap. -/
def delLoop : Nat → Place α → Option α → Option (Option α × Node α × Heap)
  | 0, _, _ => none
  | fuel + 1, s, retval =>
    let n := s.n
    if n.isNull then none
    else
      match locate n s.index with
      | .kid ki index =>
        match s.enter ki index with
        | none => none
        | some s => delLoop fuel s retval
      | .elem ei =>
        let retval := if retval.isNone then n.elem ei else retval
        if n.parent = 0 ∧ n.elem 1 = none ∧ (n.kid 0).isNull then some (retval, null, s.heap.free n.addr)
        else if (n.kid 0).isNull ∧ (n.elem 1).isSome then
          some (retval, decCounts s.path (n.closeLeaf (2 - ei) ei), s.heap)
        else
          match s.replace ei with
          | none => none
          | some s => delLoop fuel s retval

def Tree.delposInternal (t : Tree α) (index : Int) : Option (Option α × Tree α) :=
  (delLoop t.root.depth ⟨[], t.root, index, t.heap⟩ none).map fun r => (r.1, { t with root := r.2.1, heap := r.2.2 })

/-- `delpos234`. -/
def Tree.delpos (t : Tree α) (index : Int) : Option (Option α × Tree α) :=
  if index < 0 ∨ t.root.countnode ≤ index then some (none, t) else t.delposInternal index

/-- `del234`. -/
def Tree.del (t : Tree α) (e : α) : Option (Option α × Tree α) :=
  match t.findrelpos (some e) none .eq with
  | none => none
  | some none => some (none, t)
  | some (some (_, index)) => t.delposInternal index

/-! ## Single steps -/

section Steps
variable {p h : Nat} {n l r : Node α} {x y z : α} {i : Nat} {path : Path α}

theorem Good.big (hg : Good p (h + 1) n) : n.big = some (decide (2 ≤ n.numElems)) := by
  cases hg <;> rfl

theorem Good.depth (hg : Good p h n) : n.depth = h := by
  induction hg with
  | null => rfl
  | two _ _ _ h1 => exact congrArg Nat.succ h1
  | three _ _ _ _ h1 => exact congrArg Nat.succ h1
  | four _ _ _ _ _ h1 => exact congrArg Nat.succ h1

theorem Good.lastOf (hg : Good p (h + 1) n) : ∃ x init, n.lastOf = some x ∧ n.toList = init ++ [x] := by
  generalize hh : h + 1 = h' at hg
  induction hg generalizing h with
  | null => cases hh
  | @two _ h' a l r x _ g0 g1 _ ih =>
    cases h' with
    | zero =>
      cases g0
      cases g1
      exact ⟨x, [], rfl, rfl⟩
    | succ h' =>
      obtain ⟨y, init, hy, hl⟩ := ih rfl
      exact ⟨y, l.toList ++ x :: init, by simp [Node.lastOf, Node.two, g0.isNull, g1.isNull, hy], by simp [hl]⟩
  | @three _ h' a l m r x y _ g0 g1 g2 _ _ ih =>
    cases h' with
    | zero =>
      cases g0
      cases g1
      cases g2
      exact ⟨y, [x], rfl, rfl⟩
    | succ h' =>
      obtain ⟨z, init, hz, hl⟩ := ih rfl
      exact ⟨z, l.toList ++ x :: (m.toList ++ y :: init),
        by simp [Node.lastOf, Node.three, g0.isNull, g2.isNull, hz], by simp [hl]⟩
  | @four _ h' a l m m' r x y z _ g0 g1 g2 g3 _ _ _ ih =>
    cases h' with
    | zero =>
      cases g0
      cases g1
      cases g2
      cases g3
      exact ⟨z, [x, y], rfl, rfl⟩
    | succ h' =>
      obtain ⟨w, init, hw, hl⟩ := ih rfl
      exact ⟨w, l.toList ++ x :: (m.toList ++ y :: (m'.toList ++ z :: init)),
        by simp [Node.lastOf, Node.four, g0.isNull, g3.isNull, hw], by simp [hl]⟩

theorem Good.firstOf (hg : Good p (h + 1) n) : ∃ x rest, n.firstOf = some x ∧ n.toList = x :: rest := by
  induction h generalizing p n with
  | zero => cases hg with
    | @two _ _ a l r x _ g0 =>
      cases g0
      exact ⟨x, r.toList, rfl, by simp⟩
    | @three _ _ a l m r x y _ g0 =>
      cases g0
      exact ⟨x, _, rfl, by simp; rfl⟩
    | @four _ _ a l m m' r x y z _ g0 =>
      cases g0
      exact ⟨x, _, rfl, by simp; rfl⟩
  | succ h ih =>
    have hf : n.firstOf = (n.kid 0).firstOf := by
      have hk := (hg.kid (Nat.zero_le _)).isNull
      cases n with
      | null => cases hg
      | mk =>
        rw [Node.kid] at hk
        rw [Node.firstOf, Node.kid, if_neg (by simp [hk])]
    obtain ⟨x, rest, hx, hl⟩ := ih (hg.kid (Nat.zero_le _))
    exact ⟨x, rest ++ n.after 0, hf.trans hx, by rw [n.toList_kid (Nat.zero_le 3), hl]; rfl⟩

theorem Good.setElem (hg : Good p (h + 1) n) (hi : i < n.numElems) (z : α) :
    Good p (h + 1) (n.setElem i (some z)) ∧ (n.setElem i (some z)).numElems = n.numElems ∧
      (n.setElem i (some z)).elem i = some z ∧ (n.setElem i (some z)).kid i = n.kid i ∧
      (n.setElem i (some z)).kid (i + 1) = n.kid (i + 1) ∧
      (n.setElem i (some z)).before i = n.before i ∧ (n.setElem i (some z)).after (i + 1) = n.after (i + 1) ∧
      ∀ q, (n.setElem i (some z)).cells q = n.cells q := by
  cases hg with
  | two ha h1 h2 =>
    rw [numElems_two] at hi
    interval_cases i
    exact ⟨.two ha h1 h2, rfl, rfl, rfl, rfl, rfl, rfl, fun q => rfl⟩
  | three ha h1 h2 h3 =>
    rw [numElems_three] at hi
    interval_cases i <;> exact ⟨.three ha h1 h2 h3, rfl, rfl, rfl, rfl, rfl, rfl, fun q => rfl⟩
  | four ha h1 h2 h3 h4 =>
    rw [numElems_four] at hi
    interval_cases i <;> exact ⟨.four ha h1 h2 h3 h4, rfl, rfl, rfl, rfl, rfl, rfl, fun q => rfl⟩

/-- Above a leaf that lost an element: the counts are right again, and nothing else changes. -/
theorem decCounts_spec {s : Int} (hp : Hangs h s path) (hg : Good path.top h n) (hs : n.size + 1 = s) :
    ∃ H, Good 0 H (decCounts path n) ∧ (decCounts path n).toList = path.before ++ n.toList ++ path.after ∧
      ∀ q, (decCounts path n).cells q = n.cells q + path.cells q := by
  induction hp generalizing n with
  | root => exact ⟨_, hg, by simp [decCounts, Path.before, Path.after], fun q => rfl⟩
  | @kid h m i path hm hi hp ih =>
    have h3 := hi.trans hm.numElems_le
    have hc : m.count i - 1 = n.size := by
      rw [hm.count hi]
      omega
    have hsz : ((m.setKid i n).setCount i n.size).size + 1 = m.size := by
      rw [size, m.setKid_toList h3 hm.isNull, m.size_kid h3, ← hs]
      simp only [List.length_append, size]
      push_cast
      omega
    obtain ⟨H, hH, hl, hq⟩ := ih (hm.setKid hi hg) hsz
    refine ⟨H, ?_, ?_, fun q => ?_⟩
    · rw [decCounts, hc]
      exact hH
    · rw [decCounts, hc, hl, m.setKid_toList h3 hm.isNull]
      simp only [Path.before, Path.after, List.append_assoc]
    · have h1 := m.setKid_cells h3 hm.isNull n n.size q
      have h2 := m.cells_kid q i
      rw [decCounts, hc, hq, Path.cells]
      omega

end Steps

/-! ## The loop -/

/-- The loop is at a node of height `h`: element `i` of the whole list is element `index`
    of the node, and there is an element to spare unless it is the root. -/
structure At (list : List α) (i : Nat) (nodes : Nat → Nat) (h : Nat) (path : Path α) (n : Node α) (index : Int)
    (heap : Heap) : Prop where
  good : Good path.top h n
  hangs : Hangs h n.size path
  spare : path = [] ∨ 2 ≤ n.numElems
  list : path.before ++ n.toList ++ path.after = list
  nonneg : 0 ≤ index
  lt : index < n.size
  place : path.before.length + index = i
  nodes : ∀ q, n.cells q + path.cells q + heap.freed.count q = nodes q

/-- The element is deleted: what is returned, the root, and the heap. -/
def Deletes (list : List α) (i : Nat) (nodes : Nat → Nat) (retval : Option α) (next : Nat)
    (out : Option (Option α × Node α × Heap)) : Prop :=
  ∃ root heap', out = some (retval.or list[i]?, root, heap') ∧ (∃ h, Good 0 h root) ∧ root.toList = list.eraseIdx i ∧
    heap'.next = next ∧ ∀ q, root.cells q + heap'.freed.count q = nodes q

section Loop
variable {list : List α} {i h : Nat} {nodes : Nat → Nat} {path : Path α} {n m : Node α} {index index' : Int}
  {heap : Heap}

/-- One level down, in a node that may have been changed. -/
theorem At.down (hat : At list i nodes (h + 1) path n index heap) {heap' : Heap} {k : Nat}
    (hm : Good path.top (h + 1) m) (hk : k ≤ m.numElems) (hlist : m.toList = n.toList) (h2 : 2 ≤ (m.kid k).numElems)
    (h0 : 0 ≤ index') (h1 : index' < (m.kid k).size) (hi : (m.before k).length + index' = index)
    (hn : ∀ q, m.cells q + heap'.freed.count q = n.cells q + heap.freed.count q) :
    At list i nodes h ((m, k) :: path) (m.kid k) index' heap' := by
  have hs : m.size = n.size := by rw [size, size, hlist]
  have h3 := hk.trans hm.numElems_le
  refine ⟨hm.kid hk, .kid hm hk (hs ▸ hat.hangs), .inr h2, ?_, h0, h1, ?_, fun q => ?_⟩
  · rw [Path.toList_down m path h3, hlist, hat.list]
  · have := hat.place
    rw [Path.before, List.length_append]
    omega
  · have h4 := hat.nodes q
    have h5 := Path.cells_down q m path k
    have h6 := hn q
    omega

/-- To a kid with elements to spare. -/
theorem At.enter (hat : At list i nodes (h + 1) path n index heap) {k : Nat} (hk : k ≤ n.numElems)
    (h2 : 2 ≤ (n.kid k).numElems) (h0 : 0 ≤ index') (h1 : index' < (n.kid k).size)
    (hi : (n.before k).length + index' = index) : At list i nodes h ((n, k) :: path) (n.kid k) index' heap :=
  hat.down hat.good hk rfl h2 h0 h1 hi fun _ => rfl

theorem Good.setPair_toList {p : Nat} {l r : Node α} {y z : α} {k : Nat} (hg : Good p (h + 1) n) (hk : k < n.numElems)
    (hy : n.elem k = some y) (hl : l.toList ++ z :: r.toList = (n.kid k).toList ++ y :: (n.kid (k + 1)).toList) :
    (n.setPair k (l, some z, r)).toList = n.toList := by
  obtain ⟨h1, h2, h3, h4, -, h5, -⟩ := hg.setPair_parts (l := l) (z := z) (r := r) hk
  rw [Node.toList_elem _ (Node.le_of_elem _ h4) h4, n.toList_elem (n.le_of_elem hy) hy, h1, h2, h3, h5]
  simp only [List.append_assoc]
  rw [← List.cons_append, ← List.append_assoc l.toList, hl]
  simp

/-- Case 3a, left-handed. -/
theorem At.rotateRight (hat : At list i nodes (h + 2) path n index heap) {k : Nat} (hk : k + 1 ≤ n.numElems)
    (h1 : (n.kid (k + 1)).numElems = 1) (h2 : 2 ≤ (n.kid k).numElems) (h0 : 0 ≤ index')
    (hlt : index' < (n.kid (k + 1)).size) (hi : (n.before (k + 1)).length + index' = index) (m : Node α)
    (hm : m = n.setPair k (rotateRight (n.kid k) (n.elem k) (n.kid (k + 1)))) :
    At list i nodes (h + 1) ((m, k + 1) :: path) (m.kid (k + 1)) (index' + n.count k - m.count k) heap := by
  have hg := hat.good
  have gl := hg.kid (i := k) (by omega)
  have gr := hg.kid hk
  obtain ⟨y, hy⟩ := hg.elem_some hk
  obtain ⟨l', z, r', he, hr2, hsz, gl', gr', hl, hq⟩ :=
    gl.rotateRight (y := y) (by rw [Ne, gl.elem_one]; omega) gr (gr.elem_one.mpr h1)
  rw [hy, he] at hm
  subst hm
  obtain ⟨k1, k2, k3, k4, k5, k6, k7⟩ := hg.setPair_parts (l := l') (z := z) (r := r') hk
  obtain ⟨hm, hmn⟩ := hg.setPair (z := z) hk gl' gr'
  have hlen : l'.size + r'.size = (n.kid k).size + (n.kid (k + 1)).size := by
    have := congrArg List.length hl
    simp only [List.length_append, List.length_cons] at this
    simp only [size]
    omega
  have hb : (n.before (k + 1)).length = (n.before k).length + (n.kid k).toList.length + 1 := by
    simp [n.before_elem hy, Nat.add_assoc]
  have hb' : ((n.setPair k (l', some z, r')).before (k + 1)).length = (n.before k).length + l'.toList.length + 1 := by
    simp [Node.before_elem _ k4, k1, k3, Nat.add_assoc]
  rw [k5, gl'.countnode, hg.count (i := k) (by omega)]
  refine hat.down hm (by omega) (hg.setPair_toList hk hy hl) (by rw [k2, hr2]) (by omega) ?_ ?_ fun q => ?_
  · rw [k2]
    omega
  · rw [hb']
    simp only [size]
    omega
  · have h4 := k7 q
    have h5 := hq q
    omega

/-- Case 3a, right-handed. -/
theorem At.rotateLeft (hat : At list i nodes (h + 2) path n index heap) {k : Nat} (hk : k + 1 ≤ n.numElems)
    (h1 : (n.kid k).numElems = 1) (h2 : 2 ≤ (n.kid (k + 1)).numElems) (h0 : 0 ≤ index')
    (hlt : index' < (n.kid k).size) (hi : (n.before k).length + index' = index) (m : Node α)
    (hm : m = n.setPair k (rotateLeft (n.kid k) (n.elem k) (n.kid (k + 1)))) :
    At list i nodes (h + 1) ((m, k) :: path) (m.kid k) index' heap := by
  have hg := hat.good
  have gl := hg.kid (i := k) (by omega)
  have gr := hg.kid hk
  obtain ⟨y, hy⟩ := hg.elem_some hk
  obtain ⟨l', z, r', he, hl2, hsz, gl', gr', hl, hq⟩ :=
    gl.rotateLeft (y := y) (gl.elem_one.mpr h1) gr (by rw [Ne, gr.elem_one]; omega)
  rw [hy, he] at hm
  subst hm
  obtain ⟨k1, k2, k3, k4, k5, k6, k7⟩ := hg.setPair_parts (l := l') (z := z) (r := r') hk
  obtain ⟨hm, hmn⟩ := hg.setPair (z := z) hk gl' gr'
  refine hat.down hm (by omega) (hg.setPair_toList hk hy hl) (by rw [k1, hl2]) h0 ?_ ?_ fun q => ?_
  · rw [k1]
    omega
  · rw [k3, hi]
  · have h4 := k7 q
    have h5 := hq q
    omega

/-- Two kids put together: below the parent, or in the place of a root that has no element
    left. -/
theorem At.fuse (hat : At list i nodes (h + 2) path n index heap) {k a : Nat} (hk : k + 1 ≤ n.numElems) {y : α}
    (hy : n.elem k = some y) {m : Node α} (hm : Good n.addr (h + 1) m) (h2 : m.numElems = 3)
    (hlist : m.toList = (n.kid k).toList ++ y :: (n.kid (k + 1)).toList) (h0 : 0 ≤ index') (hlt : index' < m.size)
    (hi : (n.before k).length + index' = index)
    (hq : ∀ q, m.cells q + (if a = q then 1 else 0) = (n.kid k).cells q + (n.kid (k + 1)).cells q) :
    if ((n.fuse k m).elem 0).isNone then
      At list i nodes (h + 1) [] (m.setParent 0) index' ((heap.free a).free n.addr)
    else At list i nodes (h + 1) ((n.fuse k m, k) :: path) m index' (heap.free a) := by
  have hg := hat.good
  obtain ⟨f1, f2, f3, f4⟩ := hg.fuse_parts (m := m) hk
  have hfree : ∀ q (heap : Heap) (a : Nat),
      (heap.free a).freed.count q = heap.freed.count q + if a = q then 1 else 0 := by
    intro q heap a
    simp [Heap.free, List.count_singleton]
  by_cases hn : 2 ≤ n.numElems
  · obtain ⟨hf, hle, hne⟩ := hg.fuse hn hk hm
    rw [if_neg (by simpa using hne)]
    have hl : (n.fuse k m).toList = n.toList := by
      rw [Node.toList_kid _ (hle.trans hf.numElems_le), f1, f2, f3, n.toList_elem (n.le_of_elem hy) hy, hlist]
      simp
    have : At list i nodes (h + 1) ((n.fuse k m, k) :: path) ((n.fuse k m).kid k) index' (heap.free a) := by
      refine hat.down hf hle hl (by rw [f1, h2]; omega) h0 (by rwa [f1]) (by rw [f2, hi]) fun q => ?_
      have h4 := f4 q
      have h5 := hq q
      rw [hfree]
      omega
    rwa [f1] at this
  · have h1 : n.numElems = 1 := by omega
    have hk0 : k = 0 := by omega
    subst hk0
    have hpath : path = [] := hat.spare.resolve_right hn
    subst hpath
    rw [if_pos (by rw [hg.fuse_one h1]; rfl)]
    have hl : m.toList = n.toList := by
      have hlast := hg.after_last
      rw [h1] at hlast
      rw [hlist, n.toList_elem (Nat.zero_le _) hy, hlast]
      simp [before]
    have hplace := hat.place
    refine ⟨hm.setParent 0, .root, .inl rfl, ?_, h0, by rwa [size_setParent], ?_, fun q => ?_⟩
    · rw [toList_setParent, hl, hat.list]
    · simp only [before, List.length_nil, Nat.cast_zero, Int.zero_add] at hi
      rwa [hi]
    · have h4 := hat.nodes q
      have h5 : _ = (n.kid 0).cells q + (n.kid 1).cells q := hq q
      rw [hfree, hfree, cells_setParent, Path.cells]
      rw [Path.cells] at h4
      have := hg.cells_one h1 q
      omega

theorem eraseIdx_length (P Q : List α) (x : α) : (P ++ x :: Q).eraseIdx P.length = P ++ Q := by
  rw [List.eraseIdx_append_of_length_le le_rfl, Nat.sub_self, List.eraseIdx_cons_zero]

/-- The element is in this node. -/
theorem At.split (hat : At list i nodes (h + 1) path n index heap) {k : Nat} {x : α} (hx : n.elem k = some x)
    (hi : (n.before k).length + (n.kid k).size = index) :
    list = path.before ++ n.before k ++ (n.kid k).toList ++
        x :: ((n.kid (k + 1)).toList ++ n.after (k + 1) ++ path.after) ∧
      i = (path.before ++ n.before k ++ (n.kid k).toList).length := by
  refine ⟨?_, ?_⟩
  · rw [← hat.list, n.toList_elem (n.le_of_elem hx) hx]
    simp
  · have := hat.place
    rw [List.length_append, List.length_append]
    unfold size at hi
    omega

theorem At.getElem (hat : At list i nodes (h + 1) path n index heap) {k : Nat} (hk : k < n.numElems)
    (hi : (n.before k).length + (n.kid k).size = index) : list[i]? = n.elem k := by
  obtain ⟨x, hx⟩ := hat.good.elem_some hk
  obtain ⟨hl, he⟩ := hat.split hx hi
  rw [hx, hl, he, List.getElem?_append_right le_rfl, Nat.sub_self, List.getElem?_cons_zero]

/-- The element overwritten with another, and the loop at another element. -/
theorem At.overwrite (hat : At list i nodes (h + 1) path n index heap) {k : Nat} (hk : k < n.numElems) (t : α)
    {i' : Nat} (h0 : 0 ≤ index') (hlt : index' < n.size)
    (hi' : path.before.length + index' = i') :
    At (path.before ++ n.before k ++ (n.kid k).toList ++ t :: ((n.kid (k + 1)).toList ++ n.after (k + 1) ++ path.after))
      i' nodes (h + 1) path (n.setElem k (some t)) index' heap := by
  obtain ⟨x, hx⟩ := hat.good.elem_some hk
  obtain ⟨hm, hmn, m1, m2, m3, m4, m5, m6⟩ := hat.good.setElem hk t
  have hml : (n.setElem k (some t)).toList =
      n.before k ++ (n.kid k).toList ++ t :: ((n.kid (k + 1)).toList ++ n.after (k + 1)) := by
    rw [Node.toList_elem _ (Node.le_of_elem _ m1) m1, m2, m3, m4, m5]
  have hsz : (n.setElem k (some t)).size = n.size := by
    rw [size, size, hml, n.toList_elem (n.le_of_elem hx) hx]
    simp
  refine ⟨hm, hsz ▸ hat.hangs, ?_, ?_, h0, by rwa [hsz], hi', fun q => by rw [m6, hat.nodes]⟩
  · rw [hmn]
    exact hat.spare
  · rw [hml]
    simp

/-- Case 2a: overwritten with its predecessor, which is deleted in its place. -/
theorem At.predecessor (hat : At list i nodes (h + 2) path n index heap) {k : Nat} (hk : k < n.numElems)
    (hi : (n.before k).length + (n.kid k).size = index) (h2 : 2 ≤ (n.kid k).numElems) :
    ∃ list' i', At list' i' nodes (h + 1) ((n.setElem k (n.kid k).lastOf, k) :: path) (n.kid k) (n.count k - 1) heap ∧
      list'.eraseIdx i' = list.eraseIdx i := by
  have hg := hat.good
  obtain ⟨x, hx⟩ := hg.elem_some hk
  obtain ⟨t, init, ht, hkl⟩ := (hg.kid hk.le).lastOf
  obtain ⟨hm, hmn, m1, m2, m3, m4, m5, m6⟩ := hg.setElem hk t
  obtain ⟨hl, he⟩ := hat.split hx hi
  have hc := hg.count hk.le
  have hpos : 0 < (n.kid k).size := by
    rw [size, hkl]
    simp
  have hlt := hat.lt
  have hplace := hat.place
  have hi' : path.before.length + (index - 1) = ((i - 1 : Nat) : Int) := by omega
  have h0 : 0 ≤ n.count k - 1 := by omega
  have hat' := (hat.overwrite hk t (by omega) (by omega) hi').enter (k := k) (by omega) (by rwa [m2]) h0
    (by rw [m2]; omega) (by rw [m4]; omega)
  rw [m2, ← ht] at hat'
  refine ⟨_, _, hat', ?_⟩
  have hi1 : i = (path.before ++ n.before k ++ init ++ [t]).length := by
    rw [he, hkl]
    simp
  have hi2 : i - 1 = (path.before ++ n.before k ++ init).length := by
    rw [hi1, List.length_append, List.length_singleton, Nat.add_sub_cancel]
  have e1 := eraseIdx_length (path.before ++ n.before k ++ init)
    (t :: ((n.kid (k + 1)).toList ++ n.after (k + 1) ++ path.after)) t
  have e2 := eraseIdx_length (path.before ++ n.before k ++ init ++ [t])
    ((n.kid (k + 1)).toList ++ n.after (k + 1) ++ path.after) x
  rw [← hi2] at e1
  rw [← hi1] at e2
  rw [hl, hkl]
  simp only [List.append_assoc, List.cons_append, List.nil_append] at e1 e2 ⊢
  rw [e1, e2]

/-- Case 2b: overwritten with its successor. -/
theorem At.successor (hat : At list i nodes (h + 2) path n index heap) {k : Nat} (hk : k < n.numElems)
    (hi : (n.before k).length + (n.kid k).size = index) (h2 : 2 ≤ (n.kid (k + 1)).numElems) :
    ∃ list' i',
      At list' i' nodes (h + 1) ((n.setElem k (n.kid (k + 1)).firstOf, k + 1) :: path) (n.kid (k + 1)) 0 heap ∧
      list'.eraseIdx i' = list.eraseIdx i := by
  have hg := hat.good
  obtain ⟨x, hx⟩ := hg.elem_some hk
  obtain ⟨t, rest, ht, hkl⟩ := (hg.kid (i := k + 1) hk).firstOf
  obtain ⟨hm, hmn, m1, m2, m3, m4, m5, m6⟩ := hg.setElem hk t
  obtain ⟨hl, he⟩ := hat.split hx hi
  have hpos : 0 < (n.kid (k + 1)).size := by
    rw [size, hkl]
    simp
  have hb : (n.before (k + 1)).length = (n.before k).length + (n.kid k).toList.length + 1 := by
    simp [n.before_elem hx, Nat.add_assoc]
  have hb' : ((n.setElem k (some t)).before (k + 1)).length = (n.before k).length + (n.kid k).toList.length + 1 := by
    simp [Node.before_elem _ m1, m2, m4, Nat.add_assoc]
  have hsz := n.size_kid (i := k + 1) (by have := hg.numElems_le; omega)
  have hplace := hat.place
  have hnn := hat.nonneg
  have hks : (n.kid k).size = (n.kid k).toList.length := rfl
  have hi' : path.before.length + (index + 1) = ((i + 1 : Nat) : Int) := by omega
  have hat' := (hat.overwrite hk t (by omega) (by omega) hi').enter (k := k + 1) (by omega) (by rwa [m3])
    (le_refl (0 : Int)) (by rw [m3]; omega) (by rw [hb']; omega)
  rw [m3, ← ht] at hat'
  refine ⟨_, _, hat', ?_⟩
  have e1 := eraseIdx_length (path.before ++ n.before k ++ (n.kid k).toList ++ [t])
    (rest ++ n.after (k + 1) ++ path.after) t
  have e2 := eraseIdx_length (path.before ++ n.before k ++ (n.kid k).toList)
    (t :: (rest ++ n.after (k + 1) ++ path.after)) x
  rw [← he] at e2
  rw [List.length_append, ← he, List.length_singleton] at e1
  rw [hl, hkl]
  simp only [List.append_assoc, List.cons_append, List.nil_append] at e1 e2 ⊢
  rw [e1, e2]

/-- The last element of the tree. -/
theorem At.last (hat : At list i nodes 1 path n index heap) (hp : path = []) (h1 : n.numElems = 1) (retval : Option α) :
    Deletes list i nodes retval heap.next (some (retval.or list[i]?, Node.null, heap.free n.addr)) := by
  subst hp
  obtain ⟨hg, -, -, hl, h0, hlt, hi, hn⟩ := hat
  cases hg with
  | @two _ _ a l r x ha g0 g1 =>
    cases g0
    cases g1
    simp only [size_two, size_null] at hlt
    have hi0 : i = 0 := by
      simp only [Path.before, List.length_nil] at hi
      omega
    subst hi0
    refine ⟨_, _, rfl, ⟨0, .null⟩, ?_, rfl, fun q => ?_⟩
    · rw [← hl]
      simp [Path.before, Path.after]
    · rw [← hn q]
      simp [Heap.free, List.count_singleton, Node.two, cells, addr, Path.cells, Nat.add_comm]
  | three => simp at h1
  | four => simp at h1

/-- Case 1. -/
theorem At.leaf (hat : At list i nodes 1 path n index heap) (h2 : 2 ≤ n.numElems) {k : Nat} (hk : k < n.numElems)
    (hi : (n.before k).length + (n.kid k).size = index) (retval : Option α) :
    Deletes list i nodes retval heap.next
      (some (retval.or list[i]?, decCounts path (n.closeLeaf (2 - k) k), heap)) := by
  obtain ⟨hg, hc, hq⟩ := hat.good.closeLeaf h2 hk
  obtain ⟨x, hx⟩ := hat.good.elem_some hk
  obtain ⟨hl, he⟩ := hat.split hx hi
  have hs : (n.closeLeaf (2 - k) k).size + 1 = n.size := by
    rw [size, size, hc, n.toList_elem (n.le_of_elem hx) hx]
    simp only [List.length_append, List.length_cons]
    omega
  obtain ⟨H, hH, hl', hq'⟩ := decCounts_spec hat.hangs hg hs
  refine ⟨_, _, rfl, ⟨H, hH⟩, ?_, rfl, fun q => ?_⟩
  · rw [hl', hc, hl, he, eraseIdx_length]
    simp
  · rw [hq', hq, hat.nodes]

theorem enter_spec {s : Place α} (hat : At list i nodes (h + 2) s.path s.n s.index s.heap) {k : Nat}
    (hk : k ≤ s.n.numElems) (h0 : 0 ≤ index') (hlt : index' < (s.n.kid k).size)
    (hi : (s.n.before k).length + index' = s.index) :
    ∃ s', s.enter k index' = some s' ∧ At list i nodes (h + 1) s'.path s'.n s'.index s'.heap ∧
      s'.heap.next = s.heap.next := by
  have hg := hat.good
  have gk := hg.kid hk
  unfold Place.enter
  dsimp only
  rw [gk.big]
  by_cases h2 : 2 ≤ (s.n.kid k).numElems
  · rw [decide_eq_true h2]
    exact ⟨_, rfl, hat.enter hk h2 h0 hlt hi, rfl⟩
  have h1 : (s.n.kid k).numElems = 1 := by
    have := gk.numElems_pos
    omega
  rw [decide_eq_false h2]
  by_cases hl : ∃ j, k = j + 1 ∧ 2 ≤ (s.n.kid j).numElems
  · obtain ⟨j, rfl, hj⟩ := hl
    rw [if_pos (Nat.succ_pos j), Nat.add_sub_cancel, (hg.kid (i := j) (by omega)).big, decide_eq_true hj]
    exact ⟨_, rfl, hat.rotateRight hk h1 hj h0 hlt hi _ rfl, rfl⟩
  have hleft : (if 0 < k then (s.n.kid (k - 1)).big else some false) = some false := by
    cases k with
    | zero => rfl
    | succ j => rw [if_pos (Nat.succ_pos j), Nat.add_sub_cancel, (hg.kid (i := j) (by omega)).big,
        decide_eq_false fun hj => hl ⟨j, rfl, hj⟩]
  rw [hleft]
  by_cases hr : k + 1 ≤ s.n.numElems ∧ 2 ≤ (s.n.kid (k + 1)).numElems
  · obtain ⟨hk1, hj⟩ := hr
    have hle := hg.numElems_le
    rw [if_pos ⟨by omega, by rw [(hg.kid hk1).big, decide_eq_true hj]⟩]
    exact ⟨_, rfl, hat.rotateLeft hk1 h1 hj h0 hlt hi _ rfl, rfl⟩
  have hright : ¬ (k < 3 ∧ (s.n.kid (k + 1)).big = some true) := by
    intro ⟨_, hb⟩
    by_cases hk1 : k + 1 ≤ s.n.numElems
    · rw [(hg.kid hk1).big, Option.some.injEq, decide_eq_true_iff] at hb
      exact hr ⟨hk1, hb⟩
    · rw [hg.kid_null (by omega)] at hb
      cases hb
  simp only [if_neg hright]
  -- a merge, with the left neighbour where there is one
  have hone : ∀ j, j ≤ s.n.numElems → ¬ 2 ≤ (s.n.kid j).numElems → (s.n.kid j).numElems = 1 := by
    intro j hj h2
    have := (hg.kid hj).numElems_pos
    omega
  obtain ⟨j, idx, hkj, hidx, hj, n0, n1, hi0, hi1, hi2⟩ : ∃ (j : Nat) (idx : Int), k - 1 = j ∧
      (if 0 < k then index' + s.n.count (k - 1) + 1 else index') = idx ∧ j + 1 ≤ s.n.numElems ∧
      (s.n.kid j).numElems = 1 ∧ (s.n.kid (j + 1)).numElems = 1 ∧ 0 ≤ idx ∧
      idx < (s.n.kid j).size + (s.n.kid (j + 1)).size + 1 ∧ (s.n.before j).length + idx = s.index := by
    cases k with
    | zero =>
      have hpos := hg.numElems_pos
      have := (s.n.kid 1).size_nonneg
      exact ⟨0, index', rfl, rfl, hpos, h1, hone 1 hpos fun h => hr ⟨hpos, h⟩, h0, by rw [Nat.zero_add]; omega, hi⟩
    | succ j =>
      have hc := hg.count (i := j) (by omega)
      have hb := hg.before_succ hk
      have := (s.n.kid j).size_nonneg
      exact ⟨j, index' + s.n.count j + 1, rfl, if_pos (Nat.succ_pos j), hk, hone j (by omega) fun h => hl ⟨j, rfl, h⟩,
        h1, by omega, by omega, by omega⟩
  rw [hidx, hkj]
  have g0 := hg.kid (i := j) (by omega)
  have g1 := hg.kid hj
  obtain ⟨y, hy⟩ := hg.elem_some hj
  obtain ⟨gm, hm3, hml, hmq⟩ := g0.mergeRight (y := y) (g0.elem_one.mpr n0) g1 (g1.elem_one.mpr n1)
  have hlt' : idx < (Node.mergeRight (s.n.kid j) (some y) (s.n.kid (j + 1))).size := by
    rw [size, hml, List.length_append, List.length_cons]
    unfold size at hi1
    omega
  have hf := hat.fuse hj hy gm hm3 hml hi0 hlt' hi2 hmq
  rw [hy, if_neg (by simp [g1.isNull]), hg.closeDown_eq hj gm]
  by_cases he : ((s.n.fuse j (Node.mergeRight (s.n.kid j) (some y) (s.n.kid (j + 1)))).elem 0).isNone = true
  · rw [if_pos he] at hf ⊢
    exact ⟨_, rfl, hf, rfl⟩
  · rw [if_neg he] at hf ⊢
    exact ⟨_, rfl, hf, rfl⟩

theorem replace_spec {s : Place α} (hat : At list i nodes (h + 2) s.path s.n s.index s.heap) {k : Nat}
    (hk : k < s.n.numElems) (hi : (s.n.before k).length + (s.n.kid k).size = s.index) :
    ∃ s' list' i', s.replace k = some s' ∧ At list' i' nodes (h + 1) s'.path s'.n s'.index s'.heap ∧
      list'.eraseIdx i' = list.eraseIdx i ∧ s'.heap.next = s.heap.next := by
  have hg := hat.good
  have g0 := hg.kid hk.le
  have g1 := hg.kid (i := k + 1) hk
  unfold Place.replace
  dsimp only
  rw [g0.big, g1.big]
  by_cases h0 : 2 ≤ (s.n.kid k).numElems
  · obtain ⟨list', i', hat', he⟩ := hat.predecessor hk hi h0
    rw [decide_eq_true h0]
    exact ⟨_, list', i', rfl, hat', he, rfl⟩
  by_cases h1 : 2 ≤ (s.n.kid (k + 1)).numElems
  · obtain ⟨list', i', hat', he⟩ := hat.successor hk hi h1
    rw [decide_eq_false h0, decide_eq_true h1]
    exact ⟨_, list', i', rfl, hat', he, rfl⟩
  rw [decide_eq_false h0, decide_eq_false h1]
  dsimp only
  have n0 : (s.n.kid k).numElems = 1 := by
    have := g0.numElems_pos
    omega
  have n1 : (s.n.kid (k + 1)).numElems = 1 := by
    have := g1.numElems_pos
    omega
  obtain ⟨y, hy⟩ := hg.elem_some hk
  obtain ⟨gm, hm3, hml, hmi, hmq⟩ := g0.mergeLeft (y := y) (g0.elem_one.mpr n0) g1 (g1.elem_one.mpr n1)
  have hlt : (s.n.kid k).size < (Node.mergeLeft (s.n.kid k) (some y) (s.n.kid (k + 1))).size := by
    unfold size
    rw [hml, List.length_append, List.length_cons]
    omega
  have hf := hat.fuse hk hy gm hm3 hml (Node.size_nonneg _) hlt hi fun q => by rw [hmq q]
  rw [hy, hg.closeUp_eq hk gm, hmi]
  by_cases he : ((s.n.fuse k (Node.mergeLeft (s.n.kid k) (some y) (s.n.kid (k + 1)))).elem 0).isNone = true
  · rw [if_pos he] at hf ⊢
    exact ⟨_, list, i, rfl, hf, rfl, rfl⟩
  · rw [if_neg he] at hf ⊢
    exact ⟨_, list, i, rfl, hf, rfl, rfl⟩

/-- By induction on the turns of the loop. -/
theorem delLoop_spec (fuel : Nat) {s : Place α} (hat : At list i nodes (h + 1) s.path s.n s.index s.heap)
    (hf : h + 1 ≤ fuel) (retval : Option α) : Deletes list i nodes retval s.heap.next (delLoop fuel s retval) := by
  induction fuel generalizing list i h s retval with
  | zero => omega
  | succ fuel ih =>
    have hg := hat.good
    rw [delLoop]
    dsimp only
    rw [if_neg (by simp [hg.isNull])]
    rcases locate_spec hg hat.nonneg hat.lt with ⟨k, index', hloc, hk, h0, hlt, hi⟩ | ⟨k, hloc, hk, hi⟩
    · rw [hloc]
      cases h with
      | zero =>
        have gk := hg.kid hk
        cases hkk : s.n.kid k with
        | null =>
          rw [hkk, size_null] at hlt
          omega
        | mk =>
          rw [hkk] at gk
          cases gk
      | succ h =>
        obtain ⟨s', he, hat', hn⟩ := enter_spec hat hk h0 hlt hi
        dsimp only
        rw [he, ← hn]
        exact ih hat' (by omega) retval
    · rw [hloc]
      dsimp only
      have hret : (if retval.isNone then s.n.elem k else retval) = retval.or list[i]? := by
        rw [hat.getElem hk hi]
        cases retval <;> rfl
      rw [hret]
      cases h with
      | zero =>
        have hk0 : (s.n.kid 0).isNull = true := hg.kid0_isNull.mpr rfl
        by_cases h1 : s.n.numElems = 1
        · have hp : s.path = [] := hat.spare.resolve_right (by omega)
          have hpar : s.n.parent = 0 := by rw [hg.parent_eq, hat.hangs.top_eq.mpr hp]
          rw [if_pos ⟨hpar, hg.elem_one.mpr h1, hk0⟩]
          exact hat.last hp h1 retval
        · have hpos := hg.numElems_pos
          have he : (s.n.elem 1).isSome = true := (hg.elem_isSome 1).mpr (by omega)
          rw [if_neg (by intro h2; exact h1 (hg.elem_one.mp h2.2.1)), if_pos ⟨hk0, he⟩]
          exact hat.leaf (by omega) hk hi retval
      | succ h =>
        have hk0 : ¬ (s.n.kid 0).isNull = true := by
          rw [hg.kid0_isNull]
          omega
        obtain ⟨s', list', i', he, hat', hl, hn⟩ := replace_spec hat hk hi
        rw [if_neg fun h2 => hk0 h2.2.2, if_neg fun h2 => hk0 h2.1, he, ← hn]
        dsimp only
        obtain ⟨root, heap', ho, hgr, hrl, hnx, hq⟩ := ih hat' (by omega) (retval.or list[i]?)
        obtain ⟨x, hx⟩ := hg.elem_some hk
        refine ⟨root, heap', ?_, hgr, hrl.trans hl, hnx, hq⟩
        rw [ho, hat.getElem hk hi, hx]
        cases retval <;> rfl

end Loop

/-! ## The tree -/

section Tree
variable {t : Tree α} {l : List α}

theorem Holds.delposInternal (ht : Holds t l) {index : Int} (h0 : 0 ≤ index) (h1 : index < l.length) :
    ∃ t', t.delposInternal index = some (l[index.toNat]?, t') ∧ Holds t' (l.eraseIdx index.toNat) ∧ t'.cmp = t.cmp := by
  obtain ⟨h, hg⟩ := ht.good
  have hl := ht.list
  cases h with
  | zero =>
    cases hr : t.root with
    | null =>
      rw [ht.eq_nil hr, List.length_nil] at h1
      omega
    | mk =>
      rw [hr] at hg
      cases hg
  | succ h =>
    have hat : At l index.toNat (fun q => if 0 < q ∧ q < t.heap.next then 1 else 0) (h + 1) [] t.root index t.heap := by
      refine ⟨hg, .root, .inl rfl, ?_, h0, by rwa [size, hl], ?_, fun q => ?_⟩
      · simpa [Path.before, Path.after] using hl
      · simp only [Path.before, List.length_nil]
        omega
      · rw [← ht.nodes q, Path.cells, Nat.add_zero]
    obtain ⟨root, heap', ho, hgr, hrl, hn, hq⟩ :=
      delLoop_spec t.root.depth (s := ⟨[], t.root, index, t.heap⟩) hat hg.depth.ge none
    refine ⟨{ t with root := root, heap := heap' }, ?_, ⟨hgr, hrl, hn ▸ ht.next, fun q => ?_⟩, rfl⟩
    · rw [Tree.delposInternal, ho]
      rfl
    · dsimp only at hn ⊢
      rw [hn, hq q]

/-- `delpos234` at every index. -/
theorem Holds.delpos (ht : Holds t l) (index : Int) :
    ∃ t', t.delpos index = some (if 0 ≤ index then l[index.toNat]? else none, t') ∧
      Holds t' (if 0 ≤ index then l.eraseIdx index.toNat else l) ∧ t'.cmp = t.cmp := by
  obtain ⟨h, hg⟩ := ht.good
  rw [Tree.delpos, hg.countnode, size, ht.list]
  by_cases h0 : 0 ≤ index
  · by_cases h1 : index < l.length
    · rw [if_neg (by omega), if_pos h0, if_pos h0]
      exact ht.delposInternal h0 h1
    · refine ⟨t, ?_, ?_, rfl⟩
      · rw [if_pos (by omega), if_pos h0, List.getElem?_eq_none (by omega)]
      · rwa [if_pos h0, List.eraseIdx_of_length_le (by omega)]
  · exact ⟨t, by rw [if_pos (by omega), if_neg h0], by rwa [if_neg h0], rfl⟩

/-- In a sorted tree: an element that compares equal, if there is one. -/
theorem Holds.del (ht : Holds t l) {c : α → α → Int} (hc : t.cmp = some c) {e : α} (hf : Falls (c e) l) :
    (t.del e = some (none, t) ∧ ∀ x ∈ l, c e x ≠ 0) ∨
      ∃ i x t', t.del e = some (some x, t') ∧ l[i]? = some x ∧ c e x = 0 ∧ Holds t' (l.eraseIdx i) ∧
        t'.cmp = t.cmp := by
  have hce : t.compared (some e) none .eq = some (c e) := by
    rw [Tree.compared, hc]
    rfl
  obtain ⟨r, hr, hm⟩ := ht.findrelpos hce hf (.inl rfl)
  rw [Tree.del, hr]
  cases r with
  | none => exact .inl ⟨rfl, hm⟩
  | some r =>
    obtain ⟨i, hi, hx, hz, -⟩ := hm
    have hlt := (List.getElem?_eq_some_iff.mp hx).1
    obtain ⟨t', ht', hh, hc'⟩ := ht.delposInternal (by omega : 0 ≤ r.2) (by omega)
    rw [hi, Int.toNat_natCast] at ht' hh
    refine .inr ⟨i, r.1, t', ?_, hx, hz, hh, hc'⟩
    rw [← hx, ← ht', ← hi]

end Tree

end Dumbnose.Tree234
