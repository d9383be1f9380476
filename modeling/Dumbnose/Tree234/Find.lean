/-
  Dumbnose.Tree234.Find — lookups by index and by comparison (`index234`, `findrelpos234`).

  Both walk down by what stands in one node, and the counts say where in the whole tree
  they are. So `index234` is the list's own lookup, and a search by comparison that ends
  at index `i` has the smaller elements before `i` and the greater ones after it.

  `findrelpos234` then finds what its header says, for every relation
  (`findrelpos_meets`), as long as at most one element compares equal. Where several do it
  takes one of them, and looks for the smaller or the greater element only next to it.

  In `findrelpos234` an outer `none` is a failed assertion or a call through a NULL
  comparison.
-/

import Dumbnose.Tree234.Add

namespace Dumbnose.Tree234

open Node Lib.Compare

variable {α : Type}

/-! ## By index -/

inductive Spot where
  | kid (i : Nat) (index : Int)
  | elem (i : Nat)
  deriving DecidableEq, Repr

/-- Where in a node an index falls: the chain that `index234` and `delpos234_internal` share. -/
def locate (n : Node α) (index : Int) : Spot :=
  if index < n.count 0 then .kid 0 index
  else
    let index := index - (n.count 0 + 1)
    if index < 0 then .elem 0
    else if index < n.count 1 then .kid 1 index
    else
      let index := index - (n.count 1 + 1)
      if index < 0 then .elem 1
      else if index < n.count 2 then .kid 2 index
      else
        let index := index - (n.count 2 + 1)
        if index < 0 then .elem 2 else .kid 3 index

/-- The loop of `index234`. -/
def indexLoop : Node α → Int → Option α
  | null, _ => none
  | mk a p k0 k1 k2 k3 c0 c1 c2 c3 e0 e1 e2, index =>
    let n := mk a p k0 k1 k2 k3 c0 c1 c2 c3 e0 e1 e2
    match locate n index with
    | .kid 0 index => indexLoop k0 index
    | .kid 1 index => indexLoop k1 index
    | .kid 2 index => indexLoop k2 index
    | .kid _ index => indexLoop k3 index
    | .elem i => n.elem i

/-- `count234`. -/
def Tree.count (t : Tree α) : Int := if t.root.isNull then 0 else t.root.countnode

/-- `index234`. -/
def Tree.index (t : Tree α) (index : Int) : Option α :=
  if t.root.isNull then none
  else if index < 0 ∨ t.root.countnode ≤ index then none
  else indexLoop t.root index

section Index
variable {p h : Nat} {n : Node α}

theorem locate_spec (hg : Good p (h + 1) n) {index : Int} (h0 : 0 ≤ index) (h1 : index < n.size) :
    (∃ i index', locate n index = .kid i index' ∧ i ≤ n.numElems ∧ 0 ≤ index' ∧ index' < (n.kid i).size ∧
      (n.before i).length + index' = index) ∨
    ∃ i, locate n index = .elem i ∧ i < n.numElems ∧ (n.before i).length + (n.kid i).size = index := by
  have hpos := hg.numElems_pos
  have hle := hg.numElems_le
  have hlast := hg.size_last
  have hb1 : ((n.before 1).length : Int) = n.count 0 + 1 := by simpa [before] using hg.before_succ (i := 0) hpos
  unfold locate
  by_cases g0 : index < n.count 0
  · exact .inl ⟨0, index, if_pos g0, by omega, h0, by rwa [← hg.count (by omega)], by simp [before]⟩
  rw [if_neg g0]
  by_cases s0 : index - (n.count 0 + 1) < 0
  · refine .inr ⟨0, if_pos s0, hpos, ?_⟩
    rw [← hg.count (by omega), before, List.length_nil]
    omega
  rw [if_neg s0]
  by_cases g1 : index - (n.count 0 + 1) < n.count 1
  · exact .inl ⟨1, _, if_pos g1, hpos, by omega, by rwa [← hg.count hpos], by omega⟩
  rw [if_neg g1]
  have n2 : 2 ≤ n.numElems := by
    by_contra hn
    rw [show n.numElems = 1 by omega] at hlast
    omega
  have hb2 : ((n.before 2).length : Int) = (n.before 1).length + n.count 1 + 1 := hg.before_succ n2
  by_cases s1 : index - (n.count 0 + 1) - (n.count 1 + 1) < 0
  · refine .inr ⟨1, if_pos s1, n2, ?_⟩
    rw [← hg.count hpos]
    omega
  rw [if_neg s1]
  by_cases g2 : index - (n.count 0 + 1) - (n.count 1 + 1) < n.count 2
  · exact .inl ⟨2, _, if_pos g2, n2, by omega, by rwa [← hg.count n2], by omega⟩
  rw [if_neg g2]
  have n3 : n.numElems = 3 := by
    by_contra hn
    rw [show n.numElems = 2 by omega] at hlast
    omega
  have hb3 : ((n.before 3).length : Int) = (n.before 2).length + n.count 2 + 1 := hg.before_succ (by omega)
  rw [n3] at hlast
  by_cases s2 : index - (n.count 0 + 1) - (n.count 1 + 1) - (n.count 2 + 1) < 0
  · refine .inr ⟨2, if_pos s2, by omega, ?_⟩
    rw [← hg.count n2]
    omega
  · exact .inl ⟨3, _, if_neg s2, n3.ge, by omega, by rw [← hg.count n3.ge]; omega, by omega⟩

theorem indexLoop_of_kid (hn : n.isNull = false) {i : Nat} (hi : i ≤ 3) {index index' : Int}
    (hl : locate n index = .kid i index') : indexLoop n index = indexLoop (n.kid i) index' := by
  cases n with
  | null => cases hn
  | mk a p k0 k1 k2 k3 c0 c1 c2 c3 e0 e1 e2 => interval_cases i <;> simp only [indexLoop, hl, kid]

theorem indexLoop_spec (hg : Good p h n) {index : Int} (h0 : 0 ≤ index) (h1 : index < n.size) :
    indexLoop n index = n.toList[index.toNat]? := by
  induction h generalizing p n index with
  | zero =>
    cases hg
    rw [size_null] at h1
    omega
  | succ h ih =>
    rcases locate_spec hg h0 h1 with ⟨i, index', hl, hi, h0', h1', hb⟩ | ⟨i, hl, hi, hb⟩
    · have h3 := hi.trans hg.numElems_le
      rw [indexLoop_of_kid hg.isNull h3 hl, ih (hg.kid hi) h0' h1', n.toList_kid h3, List.append_assoc,
        List.getElem?_append_right (by omega), List.getElem?_append_left]
      · congr 1
        omega
      · unfold size at h1'
        omega
    · obtain ⟨x, hx⟩ := hg.elem_some hi
      have h2 : index.toNat = (n.before i ++ (n.kid i).toList).length := by
        unfold size at hb
        rw [List.length_append]
        omega
      have he : indexLoop n index = n.elem i := by
        cases n with
        | null => cases hx
        | mk => rw [indexLoop, hl]
      rw [he, hx, n.toList_elem (n.le_of_elem hx) hx, h2, List.getElem?_append_right le_rfl, Nat.sub_self,
        List.getElem?_cons_zero]

end Index

section Index
variable {t : Tree α} {l : List α}

theorem Good.count234 {h : Nat} (hg : Good 0 h t.root) : t.count = t.root.toList.length := by
  cases hr : t.root.isNull with
  | true =>
    rw [Tree.count, if_pos hr, Node.isNull_iff.mp hr]
    rfl
  | false => rw [Tree.count, if_neg (by simp [hr]), hg.countnode, size]

theorem Good.index234 {h : Nat} (hg : Good 0 h t.root) (index : Int) :
    t.index index = if 0 ≤ index then t.root.toList[index.toNat]? else none := by
  cases hr : t.root.isNull with
  | true =>
    rw [Tree.index, if_pos hr, Node.isNull_iff.mp hr]
    simp
  | false =>
    rw [Tree.index, if_neg (by simp [hr]), hg.countnode, size]
    by_cases h0 : 0 ≤ index
    · by_cases h1 : index < t.root.toList.length
      · rw [if_neg (by omega), if_pos h0, indexLoop_spec hg h0 h1]
      · rw [if_pos (by omega), if_pos h0, List.getElem?_eq_none (by omega)]
    · rw [if_pos (by omega), if_neg h0]

theorem Holds.count (ht : Holds t l) : t.count = l.length := by
  obtain ⟨h, hg⟩ := ht.good
  rw [hg.count234, ht.list]

theorem Holds.index (ht : Holds t l) (index : Int) :
    t.index index = if 0 ≤ index then l[index.toNat]? else none := by
  obtain ⟨h, hg⟩ := ht.good
  rw [hg.index234, ht.list]

end Index

/-! ## By comparison -/

inductive Relation where
  | eq
  | lt
  | le
  | gt
  | ge
  deriving DecidableEq, Repr

/-- The loop over the elements of one node: where it ends, the index there, and whether at
    an element that compares equal. -/
def scan (f : α → Int) (n : Node α) : Nat → Nat → Int → Nat × Int × Bool
  | 0, kcount, idx => (kcount, idx, false)
  | todo + 1, kcount, idx =>
    match n.elem kcount with
    | none => (kcount, idx, false)
    | some x =>
      if f x < 0 then (kcount, idx, false)
      else
        let idx := if (n.kid kcount).isNull then idx else idx + n.count kcount
        if f x = 0 then (kcount, idx, true) else scan f n todo (kcount + 1) (idx + 1)

inductive Search (α : Type) where
  | found (e : Option α) (idx : Int)
  | absent (idx : Int)

def search (f : α → Int) : Node α → Int → Search α
  | null, idx => .absent idx
  | mk a p k0 k1 k2 k3 c0 c1 c2 c3 e0 e1 e2, idx =>
    let n := mk a p k0 k1 k2 k3 c0 c1 c2 c3 e0 e1 e2
    match scan f n 3 0 idx with
    | (kcount, idx, true) => .found (n.elem kcount) idx
    | (0, idx, false) => search f k0 idx
    | (1, idx, false) => search f k1 idx
    | (2, idx, false) => search f k2 idx
    | (_, idx, false) => search f k3 idx

/-- What an element compares as: `e` with it, or for a NULL the fake result. -/
def Tree.compared (t : Tree α) (e : Option α) (cmp : Option (α → α → Int)) : Relation → Option (α → Int)
  | relation =>
    match e with
    | some e => (cmp.or t.cmp).map fun c => c e
    | none => if relation = .lt then some fun _ => 1 else if relation = .gt then some fun _ => -1 else none

/-- `findrelpos234`: the element, and what `*index` is set to if there is one. -/
def Tree.findrelpos (t : Tree α) (e : Option α) (cmp : Option (α → α → Int)) (relation : Relation) :
    Option (Option (α × Int)) :=
  if t.root.isNull then some none
  else
    match t.compared e cmp relation with
    | none => none
    | some f =>
      let lookup (idx : Int) := some ((t.index idx).map fun x => (x, idx))
      match search f t.root 0 with
      | .found x idx =>
        if relation = .lt then lookup (idx - 1)
        else if relation = .gt then lookup (idx + 1)
        else some (x.map fun x => (x, idx))
      | .absent idx =>
        if relation = .eq then some none
        else if relation = .lt ∨ relation = .le then lookup (idx - 1)
        else lookup idx

section Search
variable {f : α → Int} {p h : Nat} {n : Node α}

theorem scan_spec (hg : Good p (h + 1) n) (hf : Falls f n.toList) (idx : Int) (todo : Nat) {k : Nat} (hk : todo + k = 3)
    (hn : k ≤ n.numElems) (hb : ∀ x ∈ n.before k, 0 < f x) :
    (∃ k' x, scan f n todo k (idx + (n.before k).length) = (k', idx + (n.before k').length + (n.kid k').size, true) ∧
      n.elem k' = some x ∧ f x = 0) ∨
    ∃ k', scan f n todo k (idx + (n.before k).length) = (k', idx + (n.before k').length, false) ∧ k' ≤ n.numElems ∧
      (∀ x ∈ n.before k', 0 < f x) ∧ ∀ x ∈ n.after k', f x < 0 := by
  have hend : ∀ k, k ≤ n.numElems → n.numElems ≤ k → ∀ x ∈ n.after k, f x < 0 := by
    intro k h1 h2
    rw [le_antisymm h1 h2, hg.after_last]
    simp
  induction todo generalizing k with
  | zero => exact .inr ⟨k, rfl, hn, hb, hend k hn (by have := hg.numElems_le; omega)⟩
  | succ todo ih =>
    cases hx : n.elem k with
    | none => exact .inr ⟨k, by rw [scan, hx], hn, hb, hend k hn (hg.elem_none hx)⟩
    | some x =>
      have hlt : k < n.numElems := (hg.elem_isSome k).mp (by rw [hx]; rfl)
      have hc : (if (n.kid k).isNull then idx + (n.before k).length else idx + (n.before k).length + n.count k) =
          idx + (n.before k).length + (n.kid k).size := by
        rw [hg.count hn]
        cases hk' : (n.kid k).isNull with
        | true => rw [if_pos rfl, isNull_iff.mp hk', size_null, Int.add_zero]
        | false => exact if_neg Bool.false_ne_true
      by_cases hneg : f x < 0
      · exact .inr ⟨k, by rw [scan, hx]; exact if_pos hneg, hn, hb, after_neg hf hx hneg⟩
      by_cases hz : f x = 0
      · refine .inl ⟨k, x, ?_, hx, hz⟩
        rw [scan, hx]
        simp only [if_neg hneg, hc, if_pos hz]
      · have hs : scan f n (todo + 1) k (idx + (n.before k).length) =
            scan f n todo (k + 1) (idx + (n.before (k + 1)).length) := by
          rw [scan, hx]
          simp only [if_neg hneg, hc, if_neg hz]
          rw [hg.before_succ hlt, hg.count hn]
          congr 1
          omega
        rw [hs]
        exact ih (by omega) hlt (before_pos hf hx (by omega))

/-- A search ends at an element that compares equal, or between the smaller ones and the
    greater; and there the index is right. -/
theorem search_spec (hg : Good p h n) (hf : Falls f n.toList) (idx : Int) :
    (∃ x a b, search f n idx = .found (some x) (idx + a.length) ∧ n.toList = a ++ x :: b ∧ f x = 0) ∨
    ∃ a b, search f n idx = .absent (idx + a.length) ∧ n.toList = a ++ b ∧ (∀ x ∈ a, 0 < f x) ∧ ∀ x ∈ b, f x < 0 := by
  induction h generalizing p n idx with
  | zero =>
    cases hg
    exact .inr ⟨[], [], by simp [search], rfl, by simp, by simp⟩
  | succ h ih =>
    have h0 : idx = idx + (n.before 0).length := by simp [before]
    rcases scan_spec hg hf idx 3 (k := 0) rfl (Nat.zero_le _) (by simp [before]) with
      ⟨k, x, hs, hx, hz⟩ | ⟨k, hs, hk, hb, ha⟩
    · refine .inl ⟨x, n.before k ++ (n.kid k).toList, _, ?_, n.toList_elem (n.le_of_elem hx) hx, hz⟩
      cases n with
      | null => cases hx
      | mk =>
        rw [← h0] at hs
        rw [search, hs]
        dsimp only
        rw [hx, List.length_append, size, Nat.cast_add, Int.add_assoc]
    · have h3 := hk.trans hg.numElems_le
      have hstep : search f n idx = search f (n.kid k) (idx + (n.before k).length) := by
        rw [← h0] at hs
        cases n with
        | null => cases hg
        | mk => interval_cases k <;> simp only [search, hs, kid]
      have hl := n.toList_kid h3
      have hf' : Falls f (n.kid k).toList := by
        rw [hl] at hf
        exact hf.of_append.1.of_append.2
      rw [hstep]
      rcases ih (hg.kid hk) hf' (idx + (n.before k).length) with ⟨x, a, b, he, hab, hz⟩ | ⟨a, b, he, hab, hpos, hneg⟩
      · refine .inl ⟨x, n.before k ++ a, b ++ n.after k, ?_, by rw [hl, hab]; simp, hz⟩
        rw [he, List.length_append, Nat.cast_add, Int.add_assoc]
      · refine .inr ⟨n.before k ++ a, b ++ n.after k, ?_, by rw [hl, hab]; simp, List.forall_mem_append.mpr ⟨hb, hpos⟩,
          List.forall_mem_append.mpr ⟨hneg, ha⟩⟩
        rw [he, List.length_append, Nat.cast_add, Int.add_assoc]

end Search

/-! ## What the header says -/

/-- The relation, of an element that compares as `c`. -/
def Relation.Fits : Relation → Int → Prop
  | .eq, c => c = 0
  | .lt, c => 0 < c
  | .le, c => 0 ≤ c
  | .gt, c => c < 0
  | .ge, c => c ≤ 0

instance (relation : Relation) (c : Int) : Decidable (relation.Fits c) :=
  match relation with
  | .eq => inferInstanceAs (Decidable (c = 0))
  | .lt => inferInstanceAs (Decidable (0 < c))
  | .le => inferInstanceAs (Decidable (0 ≤ c))
  | .gt => inferInstanceAs (Decidable (c < 0))
  | .ge => inferInstanceAs (Decidable (c ≤ 0))

/-- For the smaller ones the greatest is wanted, for the greater ones the smallest. -/
def Relation.Nearest : Relation → Nat → Nat → Prop
  | .eq, _, _ => True
  | .lt, i, j => j ≤ i
  | .le, i, j => j ≤ i
  | .gt, i, j => i ≤ j
  | .ge, i, j => i ≤ j

/-- The answer of a search in a list. -/
def Meets (relation : Relation) (f : α → Int) (l : List α) : Option (α × Int) → Prop
  | none => ∀ x ∈ l, ¬ relation.Fits (f x)
  | some (x, idx) => ∃ i : Nat, idx = i ∧ l[i]? = some x ∧ relation.Fits (f x) ∧
      ∀ j y, l[j]? = some y → relation.Fits (f y) → relation.Nearest i j

section Meets
variable {f : α → Int} {l : List α} {lo hi : Nat} {relation : Relation}

/-- A lookup at an index that is the nearest of those that fit, or is out of range. -/
theorem meets_lookup {idx : Int}
    (hn : ∀ (j : Nat) y, l[j]? = some y → relation.Fits (f y) → 0 ≤ idx ∧ idx < l.length ∧ relation.Nearest idx.toNat j)
    (hf : ∀ (j : Nat) y, l[j]? = some y → idx = j → relation.Fits (f y)) :
    Meets relation f l ((if 0 ≤ idx then l[idx.toNat]? else none).map fun x => (x, idx)) := by
  cases hx : (if 0 ≤ idx then l[idx.toNat]? else none) with
  | none =>
    intro x hm hfit
    obtain ⟨j, hj⟩ := List.getElem?_of_mem hm
    obtain ⟨h0, h1, -⟩ := hn j x hj hfit
    rw [if_pos h0, List.getElem?_eq_none_iff] at hx
    omega
  | some x =>
    by_cases h0 : 0 ≤ idx
    · rw [if_pos h0] at hx
      have hi : idx = idx.toNat := by omega
      exact ⟨idx.toNat, hi, hx, hf _ x hx hi, fun j y hy hfit => (hn j y hy hfit).2.2⟩
    · rw [if_neg h0] at hx
      cases hx

/-- Where it is, if there is one. -/
def Relation.place (lo hi : Nat) : Relation → Int
  | .eq => lo
  | .lt => lo - 1
  | .le => hi - 1
  | .gt => hi
  | .ge => lo

theorem Holds.meets {t : Tree α} (ht : Holds t l) (hturn : Turns f l lo hi) (hr : relation = .eq → lo < hi) {idx : Int}
    (hidx : idx = relation.place lo hi) : Meets relation f l ((t.index idx).map fun x => (x, idx)) := by
  have hle := hturn.le
  have hlen := hturn.length
  rw [ht.index]
  refine meets_lookup ?_ ?_
  · intro j y hy hfit
    have h1 := hturn.pos hy
    have h2 := hturn.neg hy
    have h3 := (List.getElem?_eq_some_iff.mp hy).1
    cases relation <;>
      simp only [Relation.Fits, Relation.Nearest, Relation.place, and_true] at hidx hfit ⊢ <;>
      omega
  · intro j y hy hj
    have h1 := hturn.pos hy
    have h2 := hturn.neg hy
    cases relation <;>
      simp only [Relation.Fits, Relation.place, reduceCtorEq, forall_const, IsEmpty.forall_iff] at hidx hr ⊢ <;>
      omega

/-- `findrelpos234` is what its header says, if at most one element compares equal; and
    `REL234_EQ` in any case. -/
theorem Holds.findrelpos {t : Tree α} (ht : Holds t l) {e : Option α} {cmp : Option (α → α → Int)}
    (he : t.compared e cmp relation = some f) (hf : Falls f l)
    (h1 : relation = .eq ∨ l.Pairwise fun x y => f x = 0 → f y ≠ 0) :
    ∃ r, t.findrelpos e cmp relation = some r ∧ Meets relation f l r := by
  obtain ⟨h, hg⟩ := ht.good
  unfold Tree.findrelpos
  by_cases hr : t.root.isNull = true
  · rw [if_pos hr, ht.eq_nil (isNull_iff.mp hr)]
    exact ⟨none, rfl, by simp [Meets]⟩
  rw [if_neg hr, he]
  dsimp only
  have hl := ht.list
  rw [← hl] at hf
  rcases search_spec hg hf 0 with ⟨x, a, b, hs, hab, hz⟩ | ⟨a, b, hs, hab, hpos, hneg⟩
  · rw [hs]
    rw [hl] at hab
    subst hab
    dsimp only
    have hx : ((a ++ x :: b)[a.length]?) = some x := by simp
    by_cases heq : relation = .eq
    · subst heq
      exact ⟨some (x, 0 + a.length), by simp, a.length, by omega, hx, hz, fun _ _ _ _ => trivial⟩
    · have hturn := Falls.turns (hl ▸ hf) hz (h1.resolve_left heq)
      have hfound : some (x, (0 : Int) + a.length) =
          (t.index (0 + a.length)).map fun x => (x, (0 : Int) + a.length) := by
        rw [ht.index, if_pos (by omega), show ((0 : Int) + a.length).toNat = a.length by omega, hx]
        rfl
      have hr : relation = .eq → a.length < a.length + 1 := fun _ => Nat.lt_succ_self _
      cases relation with
      | eq => exact absurd rfl heq
      | lt => exact ⟨_, rfl, ht.meets hturn hr (by simp [Relation.place])⟩
      | gt => exact ⟨_, rfl, ht.meets hturn hr (by simp [Relation.place])⟩
      | le =>
        refine ⟨_, rfl, ?_⟩
        rw [Option.map_some, hfound]
        exact ht.meets hturn hr (by simp [Relation.place])
      | ge =>
        refine ⟨_, rfl, ?_⟩
        rw [Option.map_some, hfound]
        exact ht.meets hturn hr (by simp [Relation.place])
  · rw [hs]
    rw [hl] at hab
    subst hab
    have hturn := turns_append hpos hneg
    cases relation with
    | eq =>
      refine ⟨none, rfl, fun x hx hz => ?_⟩
      rcases List.mem_append.mp hx with hx | hx
      · exact (hpos x hx).ne' hz
      · exact (hneg x hx).ne hz
    | lt => exact ⟨_, rfl, ht.meets hturn (by simp) (by simp [Relation.place])⟩
    | le => exact ⟨_, rfl, ht.meets hturn (by simp) (by simp [Relation.place])⟩
    | gt => exact ⟨_, rfl, ht.meets hturn (by simp) (by simp [Relation.place])⟩
    | ge => exact ⟨_, rfl, ht.meets hturn (by simp) (by simp [Relation.place])⟩

theorem Meets.unique {r r' : Option (α × Int)} (h : Meets relation f l r) (h' : Meets relation f l r')
    (h1 : relation = .eq → l.Pairwise fun x y => f x = 0 → f y ≠ 0) : r = r' := by
  cases r with
  | none =>
    cases r' with
    | none => rfl
    | some y =>
      obtain ⟨i, -, hi, hfit, -⟩ := h'
      exact absurd hfit (h _ (List.mem_of_getElem? hi))
  | some x =>
    obtain ⟨i, hi, hx, hfit, hn⟩ := h
    cases r' with
    | none => exact absurd hfit (h' _ (List.mem_of_getElem? hx))
    | some y =>
      obtain ⟨j, hj, hy, hfit', hn'⟩ := h'
      have hij : i = j := by
        have h2 := hn j _ hy hfit'
        have h3 := hn' i _ hx hfit
        cases relation with
        | eq => exact zero_unique (h1 rfl) hx hy hfit hfit'
        | lt => exact le_antisymm h3 h2
        | le => exact le_antisymm h3 h2
        | gt => exact le_antisymm h2 h3
        | ge => exact le_antisymm h2 h3
      subst hij
      rw [hx] at hy
      exact congrArg some (Prod.ext (Option.some.inj hy) (hi.trans hj.symm))

end Meets

/-! ## The loops of the header -/

/-- `for (p = NULL; (p = findrel234(tree, p, NULL, relation)) != NULL;) consume(p)`, at most
    `fuel` times. -/
def Tree.eachRel (t : Tree α) (relation : Relation) : Nat → Option α → Option (List α)
  | 0, _ => none
  | fuel + 1, p =>
    match t.findrelpos p none relation with
    | none => none
    | some none => some []
    | some (some (x, _)) => (t.eachRel relation fuel (some x)).map (x :: ·)

/-- `for (i = 0; (p = index234(tree, i)) != NULL; i++) consume(p)`. -/
def Tree.eachIndex (t : Tree α) : Nat → Int → Option (List α)
  | 0, _ => none
  | fuel + 1, i =>
    match t.index i with
    | none => some []
    | some x => (t.eachIndex fuel (i + 1)).map (x :: ·)

section Loops
variable {t : Tree α} {l : List α}

theorem Holds.eachIndex_from (ht : Holds t l) {a b : List α} (hl : l = a ++ b) {fuel : Nat} (hf : b.length < fuel) :
    t.eachIndex fuel a.length = some b := by
  induction fuel generalizing a b with
  | zero => omega
  | succ fuel ih =>
    have hx : t.index a.length = b[0]? := by
      rw [ht.index, if_pos (by omega), Int.toNat_natCast, hl, List.getElem?_append_right le_rfl, Nat.sub_self]
    rw [Tree.eachIndex, hx]
    cases b with
    | nil => rfl
    | cons x b =>
      have := ih (a := a ++ [x]) (b := b) (by simp [hl]) (by simpa using hf)
      rw [List.length_append, List.length_singleton, Nat.cast_add, Nat.cast_one] at this
      rw [List.getElem?_cons_zero]
      dsimp only
      rw [this]
      rfl

/-- By index, in order. -/
theorem Holds.eachIndex (ht : Holds t l) {fuel : Nat} (hf : l.length < fuel) : t.eachIndex fuel 0 = some l :=
  ht.eachIndex_from (a := []) rfl hf

variable {c : α → α → Int}

/-- What a search finds, by where the sign turns. -/
theorem Holds.findrelpos_turns (ht : Holds t l) {relation : Relation} {p : Option α} {f : α → Int}
    (he : t.compared p none relation = some f) {lo hi : Nat} (hf : Falls f l)
    (h1 : l.Pairwise fun x y => f x = 0 → f y ≠ 0) (hturn : Turns f l lo hi) (hr : relation = .eq → lo < hi) :
    t.findrelpos p none relation =
      some ((t.index (relation.place lo hi)).map fun x => (x, relation.place lo hi)) := by
  obtain ⟨r, hr', hm⟩ := ht.findrelpos he hf (.inr h1)
  rw [hr', hm.unique (ht.meets hturn hr rfl) fun _ => h1]

/-- `REL234_EQ` where nothing compares equal. -/
theorem Holds.findrelpos_absent (ht : Holds t l) {p : Option α} {f : α → Int}
    (he : t.compared p none .eq = some f) {lo : Nat} (hf : Falls f l) (hturn : Turns f l lo lo) :
    t.findrelpos p none .eq = some none := by
  obtain ⟨r, hr, hm⟩ := ht.findrelpos he hf (.inl rfl)
  rw [hr]
  cases r with
  | none => rfl
  | some x =>
    obtain ⟨i, -, hi, hz, -⟩ := hm
    have h1 := hturn.pos hi
    have h2 := hturn.neg hi
    have hz : f x.1 = 0 := hz
    omega

/-- A NULL, which is below all elements and above them. -/
theorem Holds.findrelpos_first (ht : Holds t l) :
    t.findrelpos none none .gt = some ((t.index 0).map fun x => (x, (0 : Int))) := by
  have hturn : Turns (fun _ : α => -1) l 0 0 := turns_append (l := []) (by simp) (by simp)
  exact ht.findrelpos_turns rfl (List.pairwise_of_forall fun _ _ => ⟨id, id⟩)
    (List.pairwise_of_forall fun _ _ _ => by decide) hturn (by simp)

theorem Holds.findrelpos_last (ht : Holds t l) :
    t.findrelpos none none .lt = some ((t.index ((l.length : Int) - 1)).map fun x => (x, (l.length : Int) - 1)) := by
  have hturn : Turns (fun _ : α => 1) l l.length l.length := by
    simpa using turns_append (l := l) (r := []) (f := fun _ => 1) (by simp) (by simp)
  exact ht.findrelpos_turns rfl (List.pairwise_of_forall fun _ _ => ⟨id, id⟩)
    (List.pairwise_of_forall fun _ _ _ => by decide) hturn (by simp)

variable (hc : t.cmp = some c) (hlaw : Lawful c) (hs : Sorted c l)
include hc hlaw hs

theorem Holds.findrelpos_member (ht : Holds t l) {relation : Relation} (hr : relation ≠ .eq) {a b : List α} {x : α}
    (hl : l = a ++ x :: b) :
    t.findrelpos (some x) none relation = some ((t.index (relation.place a.length (a.length + 1))).map fun y =>
      (y, relation.place a.length (a.length + 1))) := by
  subst hl
  have hx := hlaw.refl x
  exact ht.findrelpos_turns (by rw [Tree.compared, hc]; rfl) (hs.falls hlaw x) (hs.single hlaw x)
    ((hs.falls hlaw x).turns hx (hs.single hlaw x)) fun h => absurd h hr

theorem Holds.eachRel_gt_from (ht : Holds t l) {a b : List α} {x : α} (hl : l = a ++ x :: b) {fuel : Nat}
    (hf : b.length < fuel) : t.eachRel .gt fuel (some x) = some b := by
  induction fuel generalizing a x b with
  | zero => omega
  | succ fuel ih =>
    have hi : t.index (Relation.gt.place a.length (a.length + 1)) = b[0]? := by
      rw [Relation.place, ht.index, if_pos (by omega), Int.toNat_natCast, hl,
        List.getElem?_append_right (Nat.le_succ _), show a.length + 1 - a.length = 1 by omega]
      rfl
    rw [Tree.eachRel, ht.findrelpos_member hc hlaw hs (by simp) hl, hi]
    cases b with
    | nil => rfl
    | cons y b =>
      dsimp only [List.getElem?_cons_zero, Option.map_some]
      rw [ih (a := a ++ [x]) (b := b) (by simp [hl]) (by simpa using hf)]
      rfl

theorem Holds.eachRel_lt_from (ht : Holds t l) {a b : List α} {x : α} (hl : l = a ++ x :: b) {fuel : Nat}
    (hf : a.length < fuel) : t.eachRel .lt fuel (some x) = some a.reverse := by
  induction fuel generalizing a x b with
  | zero => omega
  | succ fuel ih =>
    rw [Tree.eachRel, ht.findrelpos_member hc hlaw hs (by simp) hl, Relation.place]
    rcases List.eq_nil_or_concat' a with rfl | ⟨a', y, rfl⟩
    · rw [ht.index, if_neg (by simp)]
      rfl
    · have hi : t.index ((a' ++ [y]).length - 1 : Int) = some y := by
        rw [ht.index, if_pos (by simp), hl]
        simp
      rw [hi]
      dsimp only [Option.map_some]
      rw [ih (a := a') (b := x :: b) (by simp [hl]) (by simpa using hf)]
      simp

/-- From a NULL the loop with `REL234_GT` has every element in order, and the one with
    `REL234_LT` every element backwards. -/
theorem Holds.eachRel (ht : Holds t l) {fuel : Nat} (hf : l.length < fuel) :
    t.eachRel .gt fuel none = some l ∧ t.eachRel .lt fuel none = some l.reverse := by
  obtain ⟨fuel, rfl⟩ : ∃ f, fuel = f + 1 := ⟨fuel - 1, by omega⟩
  constructor
  · rw [Tree.eachRel, ht.findrelpos_first, ht.index]
    cases hl : l with
    | nil => rfl
    | cons x b =>
      change (t.eachRel .gt fuel (some x)).map (x :: ·) = _
      rw [ht.eachRel_gt_from hc hlaw hs (a := []) hl (by simpa [hl] using hf)]
      rfl
  · rw [Tree.eachRel, ht.findrelpos_last, ht.index]
    rcases List.eq_nil_or_concat' l with hl | ⟨a, y, hl⟩
    · rw [hl]
      rfl
    · have hi : (if 0 ≤ (l.length : Int) - 1 then l[((l.length : Int) - 1).toNat]? else none) = some y := by
        rw [if_pos (by simp [hl]), hl]
        simp
      rw [hi]
      dsimp only [Option.map_some]
      rw [ht.eachRel_lt_from hc hlaw hs (b := []) hl (by simpa [hl] using hf), hl]
      simp

end Loops

end Dumbnose.Tree234
