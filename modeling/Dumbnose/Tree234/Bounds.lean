/-
  Dumbnose.Tree234.Bounds — `addpos234` with an index beyond the count.

  `addpos234` leaves the upper bound to the descent (`this checks the upper bound`), and
  the descent returns NULL where the index is larger than the count of the last kid. It
  means `kids[3]`. In a root with fewer kids the ones that are missing count 0 each, so the
  index can still come to one of them: the element is put there, over the last kid that
  there is, which is lost with all below it. At a leaf nothing is checked at all.

  So the index is refused only if the root has kids and the index is beyond the count by
  more than the kids that it lacks (`addpos_beyond`).
-/

import Dumbnose.Tree234.Runs

namespace Dumbnose.Tree234

open Node Lib.Runs

variable {α : Type}

section Node
variable {p h : Nat} {n : Node α} {index : Int}

theorem Good.count_zero (hg : Good p h n) {i : Nat} (hi : n.numElems < i) : n.count i = 0 := by
  cases hg with
  | null => rcases i with _ | _ | _ | _ | i <;> rfl
  | two =>
    rw [numElems_two] at hi
    rcases i with _ | _ | _ | _ | i <;> first | omega | rfl
  | three =>
    rw [numElems_three] at hi
    rcases i with _ | _ | _ | _ | i <;> first | omega | rfl
  | four =>
    rw [numElems_four] at hi
    rcases i with _ | _ | _ | _ | i <;> first | omega | rfl

theorem Good.height_of_kid (hg : Good p h n) (hk : (n.kid 0).isNull = false) : ∃ h', h = h' + 2 := by
  match h, hg with
  | 0, .null => cases hk
  | 1, hg =>
    rw [hg.kid0_isNull.mpr rfl] at hk
    cases hk
  | h + 2, _ => exact ⟨h, rfl⟩

/-- At an inner node: a kid that is not there, or out of range. -/
theorem wayByIndex_beyond (hg : Good p (h + 2) n) (hi : n.size < index) :
    (index + n.numElems ≤ n.size + 3 ∧ ∃ i, wayByIndex n index = .kid i 0 ∧ n.numElems < i ∧ i ≤ 3) ∨
      (n.size + 3 < index + n.numElems ∧ wayByIndex n index = .outOfRange) := by
  have hk : ¬ (n.kid 0).isNull = true := by
    rw [hg.kid0_isNull]
    omega
  have hpos := hg.numElems_pos
  have hle := hg.numElems_le
  have hlast := hg.size_last
  have hc : ∀ i, i ≤ n.numElems → 0 ≤ n.count i := fun i hi => hg.count hi ▸ Node.size_nonneg _
  have hc0 := hc 0 (by omega)
  have hc1 := hc 1 hpos
  have hb1 : ((n.before 1).length : Int) = n.count 0 + 1 := by simpa [before] using hg.before_succ (i := 0) hpos
  have hb2 : 2 ≤ n.numElems → ((n.before 2).length : Int) = (n.before 1).length + n.count 1 + 1 := hg.before_succ
  have hb3 : 3 ≤ n.numElems → ((n.before 3).length : Int) = (n.before 2).length + n.count 2 + 1 := hg.before_succ
  rw [wayByIndex, if_neg hk]
  dsimp only
  rcases (by omega : n.numElems = 1 ∨ n.numElems = 2 ∨ n.numElems = 3) with hn | hn | hn
  · have z2 := hg.count_zero (i := 2) (by omega)
    have z3 := hg.count_zero (i := 3) (by omega)
    rw [hn] at hlast
    rw [hn, z2, z3, if_neg (by omega), if_neg (by omega)]
    by_cases h2 : index = n.size + 1
    · rw [if_pos (by omega)]
      exact .inl ⟨by omega, 2, congrArg _ (by omega), by omega, by omega⟩
    rw [if_neg (by omega)]
    by_cases h3 : index = n.size + 2
    · rw [if_pos (by omega)]
      exact .inl ⟨by omega, 3, congrArg _ (by omega), by omega, by omega⟩
    · exact .inr ⟨by omega, if_neg (by omega)⟩
  · have hc2 := hc 2 hn.ge
    have z3 := hg.count_zero (i := 3) (by omega)
    have := hb2 hn.ge
    rw [hn] at hlast
    rw [hn, z3, if_neg (by omega), if_neg (by omega), if_neg (by omega)]
    by_cases h3 : index = n.size + 1
    · rw [if_pos (by omega)]
      exact .inl ⟨by omega, 3, congrArg _ (by omega), by omega, by omega⟩
    · exact .inr ⟨by omega, if_neg (by omega)⟩
  · have hc2 := hc 2 (by omega)
    have hc3 := hc 3 hn.ge
    have := hb2 (by omega)
    have := hb3 (by omega)
    rw [hn] at hlast
    rw [hn, if_neg (by omega), if_neg (by omega), if_neg (by omega)]
    exact .inr ⟨by omega, if_neg (by omega)⟩

/-- The element at a kid that is not there: in the place of the last one. -/
theorem ascend_beyond (hg : Good 0 (h + 2) n) {i : Nat} (hi : n.numElems < i) (h3 : i ≤ 3) (e : α) (heap : Heap) :
    ∃ root, ascend [(n, i)] .null 0 (some e) .null 0 heap = (root, heap) ∧
      root.toList = n.before n.numElems ++ [e] ∧
      ∀ a, root.cells a + (n.kid n.numElems).cells a = n.cells a := by
  cases hg with
  | @two _ _ a l r x =>
    rw [numElems_two] at hi ⊢
    refine ⟨(Node.two a 0 l x r).insert2 i .null 0 (some e) .null 0, rfl, ?_, fun b => ?_⟩
    · interval_cases i <;> simp [Node.two, Node.insert2, adopt, toList, before, Node.kid, elem]
    · interval_cases i <;> simp [Node.two, Node.insert2, adopt, cells, Node.kid]
  | @three _ _ a l m r x y =>
    rw [numElems_three] at hi ⊢
    refine ⟨(Node.three a 0 l x m y r).insert3 i .null 0 (some e) .null 0, rfl, ?_, fun b => ?_⟩
    · interval_cases i
      simp [Node.three, Node.insert3, adopt, toList, before, Node.kid, elem]
    · interval_cases i
      simp [Node.three, Node.insert3, adopt, cells, Node.kid]
  | four =>
    rw [numElems_four] at hi
    omega

end Node

section Tree
variable {t : Tree α} {l : List α} {e : α} {index : Int}

/-- In a root with kids. -/
theorem Holds.addpos_ways (ht : Holds t l) (hc : t.cmp = none) (hk : (t.root.kid 0).isNull = false)
    (hi : l.length < index) :
    (index + t.root.numElems ≤ l.length + 3 ∧ ∃ t', t.addpos e index = some (some e, t') ∧ t'.heap = t.heap ∧
      t'.root.toList = t.root.before t.root.numElems ++ [e] ∧
      ∀ a, t'.root.cells a + (t.root.kid t.root.numElems).cells a = t.root.cells a) ∨
    (l.length + 3 < index + t.root.numElems ∧ t.addpos e index = some (none, t)) := by
  obtain ⟨h, hg⟩ := ht.good
  have hs : t.root.size = l.length := by rw [size, ht.list]
  obtain ⟨h, rfl⟩ := hg.height_of_kid hk
  have hadd : t.addpos e index = t.addInternal e index := by
    rw [Tree.addpos, hc, if_neg (by simp; omega)]
  have hway : way t.cmp e t.root index = wayByIndex t.root index := by
    unfold way
    rw [if_pos (by omega)]
  rw [hadd, Tree.addInternal, if_neg (by simp [hg.isNull]), ← hs]
  rcases wayByIndex_beyond hg (by omega : t.root.size < index) with ⟨hle, i, hw, hi', h3⟩ | ⟨hlt, hw⟩
  · obtain ⟨root, ha, hl, hcells⟩ := ascend_beyond hg hi' h3 e t.heap
    refine .inl ⟨hle, { t with root := root }, ?_, rfl, hl, hcells⟩
    rw [descend_of_way hg.isNull h3 (hway.trans hw), hg.kid_null hi', descend]
    dsimp only
    rw [ha]
  · refine .inr ⟨hlt, ?_⟩
    have hd : descend t.cmp e t.root index [] = .outOfRange := by
      cases hr : t.root with
      | null => rw [hr] at hg; cases hg
      | mk => rw [descend, ← hr, hway, hw]
    rw [hd]

/-- At a leaf no index is refused. -/
theorem Holds.addpos_leaf (ht : Holds t l) (hc : t.cmp = none) (hk : (t.root.kid 0).isNull = true)
    (hi : l.length < index) : t.addpos e index ≠ some (none, t) := by
  rw [Tree.addpos, hc, if_neg (by simp; omega), Tree.addInternal]
  obtain ⟨h, hg⟩ := ht.good
  cases hr : t.root.isNull with
  | true =>
    rw [if_pos rfl]
    simp
  | false =>
    obtain rfl : h = 1 := by
      cases h with
      | zero =>
        rw [hg.isNull_iff.mpr rfl] at hr
        cases hr
      | succ h => rw [hg.kid0_isNull.mp hk]
    have hway : way t.cmp e t.root index = .kid index.toNat index := by
      unfold way
      rw [if_pos (by omega), wayByIndex, if_pos hk]
    rw [if_neg (by simp)]
    by_cases h3 : index.toNat ≤ 3
    · have hnull : t.root.kid index.toNat = .null := by
        by_cases hle : index.toNat ≤ t.root.numElems
        · exact isNull_iff.mp ((hg.kid hle).isNull_iff.mpr rfl)
        · exact hg.kid_null (by omega)
      rw [descend_of_way hg.isNull h3 hway, hnull, descend]
      simp
    · have hd : descend t.cmp e t.root index [] = .undefined := by
        obtain ⟨i, hi⟩ : ∃ i, index.toNat = i + 4 := ⟨index.toNat - 4, by omega⟩
        rw [hi] at hway
        cases hn : t.root with
        | null => rw [hn] at hg; cases hg
        | mk =>
          rw [hn] at hway
          simp only [descend, hway]
      rw [hd]
      simp

end Tree

/-- Beyond the count the index is refused only where the root has kids, and then only if it
    is so far beyond that it passes the kids the root lacks. Where it is not refused, and
    the root has kids, the elements of the last kid are lost for the new one, and its nodes
    are out of the tree without being freed. -/
theorem addpos_beyond {calls : List (Call α)} {l : List α} {t : Tree α} {seen seen' : List (Seen α)}
    (he : exec (List234.step none) [] calls = some (l, seen))
    (ht : exec Tree.step (Tree.new none) calls = some (t, seen')) (e : α) {index : Int} (hi : l.length < index) :
    (t.addpos e index = some (none, t) ↔ (t.root.kid 0).isNull = false ∧ l.length + 3 < index + t.root.numElems) ∧
      ((t.root.kid 0).isNull = false → index + t.root.numElems ≤ l.length + 3 →
        ∃ t' lost, t.addpos e index = some (some e, t') ∧ lost ≠ [] ∧ l = t.root.before t.root.numElems ++ lost ∧
          t'.root.toList = t.root.before t.root.numElems ++ [e] ∧ t'.heap = t.heap ∧
          ∀ a, t'.root.cells a + (t.root.kid t.root.numElems).cells a = t.root.cells a) := by
  have hb := beside_of_run (fun c h => by cases h) he ht
  have hc := hb.cmp_eq
  replace ht := hb.holds
  constructor
  · constructor
    · intro hadd
      cases hk : (t.root.kid 0).isNull with
      | true => exact absurd hadd (ht.addpos_leaf hc hk hi)
      | false =>
        rcases ht.addpos_ways (e := e) hc hk hi with ⟨-, t', ha, -⟩ | ⟨hlt, -⟩
        · rw [hadd] at ha
          cases ha
        · exact ⟨rfl, hlt⟩
    · rintro ⟨hk, hlt⟩
      rcases ht.addpos_ways (e := e) hc hk hi with ⟨hle, -⟩ | ⟨-, ha⟩
      · omega
      · exact ha
  · intro hk hle
    rcases ht.addpos_ways (e := e) hc hk hi with ⟨-, t', ha, hh, hl, hcells⟩ | ⟨hlt, -⟩
    · obtain ⟨h, hg⟩ := ht.good
      obtain ⟨h, rfl⟩ := hg.height_of_kid hk
      obtain ⟨x, rest, -, hlost⟩ := (hg.kid le_rfl).firstOf
      refine ⟨t', (t.root.kid t.root.numElems).toList, ha, ?_, ?_, hl, hh, hcells⟩
      · rw [hlost]
        simp
      · rw [← ht.list, t.root.toList_kid hg.numElems_le, hg.after_last, List.append_nil]
    · omega

theorem addpos_beyond_four : ∃ (t : Tree Nat) (seen : List (Seen Nat)),
    exec Tree.step (Tree.new none) [.addpos 0 0, .addpos 1 1, .addpos 2 2, .addpos 3 3] = some (t, seen) ∧
      ((t.addpos 9 6 = some (none, t) ↔ (t.root.kid 0).isNull = false ∧ (4 : Nat) + 3 < (6 : Int) + t.root.numElems) ∧
      ((t.root.kid 0).isNull = false → (6 : Int) + t.root.numElems ≤ (4 : Nat) + 3 →
        ∃ t' lost, t.addpos 9 6 = some (some 9, t') ∧ lost ≠ [] ∧ [0, 1, 2, 3] = t.root.before t.root.numElems ++ lost ∧
          t'.root.toList = t.root.before t.root.numElems ++ [9] ∧ t'.heap = t.heap ∧
          ∀ a, t'.root.cells a + (t.root.kid t.root.numElems).cells a = t.root.cells a)) := by
  have he : exec (List234.step none) [] [.addpos 0 0, .addpos 1 1, .addpos 2 2, .addpos 3 3] =
      some ([0, 1, 2, 3], _) := rfl
  obtain ⟨t, ht, -⟩ := beside_run (fun c h => by cases h) he
  exact ⟨t, _, ht, addpos_beyond he ht 9 (by decide : (4 : Int) < 6)⟩

end Dumbnose.Tree234
