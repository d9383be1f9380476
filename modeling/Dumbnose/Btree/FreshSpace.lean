/-
  Dumbnose.Btree.FreshSpace — what a run reads of the bytes its blocks had before.

  The constructor of a node leaves `larger_node_` as it was. A split assigns it before
  anything reads it, on the right half and on a new root; nothing assigns it on the
  first root. So what a run depends on in the fresh space is that one number, and only
  whether it is null: `FollowsUnstored` tells a run that goes where no operation
  pointed, and `blind_iff` says when two runs are alike and neither does.

  A link no operation has stored is told by marking: every link of the fresh space
  becomes a number no block has, which `get_reference` refuses when it is followed.
-/

import Dumbnose.Btree.Garbage

namespace Dumbnose.Btree

variable {K R : Type} {N : Nat}

/-- A null link stays null: there is nothing to follow. -/
def markLink (mark link : Nat) : Nat := if link = 0 then 0 else mark

/-- The same bytes, but every link in them is `mark`. -/
def marked (mark : Nat) (raw : Nat → Node K R N) (b : Nat) : Node K R N :=
  { raw b with
    parentNode := markLink mark (raw b).parentNode
    largerNode := markLink mark (raw b).largerNode
    entries := (raw b).entries.map fun e => { e with smallerNode := markLink mark e.smallerNode } }

theorem marked_larger (mark : Nat) (raw : Nat → Node K R N) (b : Nat) :
    (marked mark raw b).largerNode = markLink mark (raw b).largerNode := rfl

variable [LinearOrder K]

/-- The run on this fresh space follows a link that no operation has stored. -/
def FollowsUnstored (raw : Nat → Node K R N) (addr : Nat) (ops : List (Op K R)) : Prop :=
  ∃ mark, (run (fresh (marked mark raw) addr) ops).file.blockCount ≤ mark ∧
    .threw .invalidBlockNum ∈ results (fresh (marked mark raw) addr) ops

/-- Two runs that show nothing of the spaces they started from. -/
structure Blind (raw raw' : Nat → Node K R N) (addr : Nat) (ops : List (Op K R)) : Prop where
  same : results (fresh raw addr) ops = results (fresh raw' addr) ops
  stored : ¬ FollowsUnstored raw addr ops
  stored' : ¬ FollowsUnstored raw' addr ops

/-- The map never answers with a fault of the file. -/
theorem invalidBlockNum_notMem (m : K → Option R) (ops : List (Op K R)) :
    .threw .invalidBlockNum ∉ specResults m ops := by
  induction ops generalizing m with
  | nil => exact List.not_mem_nil
  | cons op ops ih =>
    rw [specResults, List.mem_cons, not_or]
    refine ⟨?_, ih _⟩
    cases op with
    | find key => exact fun h => by cases h
    | insert key record => cases hm : m key <;> simp [spec, hm]

/-- The link that is read before it is assigned: `larger_node_` of the first root. -/
theorem followsUnstored_iff (hN : 3 ≤ N) (raw : Nat → Node K R N) (addr : Nat) (ops : List (Op K R)) :
    FollowsUnstored raw addr ops ↔ ops ≠ [] ∧ (raw 1).largerNode ≠ 0 := by
  constructor
  · intro h
    obtain ⟨mark, -, h⟩ := h
    refine ⟨fun e => by rw [e] at h; exact List.not_mem_nil h, fun hz => ?_⟩
    have hm : (marked mark raw 1).largerNode = 0 := by rw [marked_larger, hz]; rfl
    rw [(fresh_good addr hm).results_eq hN] at h
    exact invalidBlockNum_notMem _ _ h
  · intro h
    obtain ⟨hops, hz⟩ := h
    have hm : (marked 2 raw 1).largerNode = 2 := if_neg hz
    have hlarger : (marked 2 raw 1).largerNode ≠ 0 := by rw [hm]; decide
    have hs := fresh_stuck addr hlarger
    refine ⟨2, ?_, ?_⟩
    · rw [(hs.run ops).1, hs.blockCount]
    · rw [(hs.run ops).2, hm, List.mem_map]
      obtain ⟨op, hop⟩ := List.exists_mem_of_ne_nil _ hops
      exact ⟨op, hop, rfl⟩

/-- Two runs show nothing of their fresh space exactly if its first block reads as a
    node without a larger child, in both. -/
theorem blind_iff (hN : 3 ≤ N) (raw raw' : Nat → Node K R N) (addr : Nat) (ops : List (Op K R)) :
    Blind raw raw' addr ops ↔ ops = [] ∨ (raw 1).largerNode = 0 ∧ (raw' 1).largerNode = 0 := by
  have hrw := followsUnstored_iff hN raw addr ops
  have hrw' := followsUnstored_iff hN raw' addr ops
  constructor
  · intro h
    by_cases hops : ops = []
    · exact .inl hops
    · refine .inr ⟨?_, ?_⟩
      · exact by_contra fun hz => h.stored (hrw.mpr ⟨hops, hz⟩)
      · exact by_contra fun hz => h.stored' (hrw'.mpr ⟨hops, hz⟩)
  · intro h
    rcases h with rfl | ⟨hz, hz'⟩
    · exact ⟨rfl, fun h => (hrw.mp h).1 rfl, fun h => (hrw'.mp h).1 rfl⟩
    · refine ⟨?_, fun h => (hrw.mp h).2 hz, fun h => (hrw'.mp h).2 hz'⟩
      rw [(fresh_good addr hz).results_eq hN, (fresh_good addr hz').results_eq hN]

/-- Block 1 comes with an old page in it. -/
def oldPage (b : Nat) : Node Nat Nat 3 :=
  if b = 1 then ⟨40, 9, 8, 5, 2, #v[⟨6, 11, 110⟩, ⟨7, 12, 120⟩, ⟨0, 0, 0⟩]⟩ else zeroed 0 0 b

/-- The old page's last link sends the first insert to block 5. -/
theorem oldPage_not_blind : ¬ Blind oldPage (zeroed 0 0) 7 [.insert 1 10] := by
  intro h
  exact absurd h.same (by decide +kernel)

/-- All other bytes of the fresh space may be anything. -/
theorem blind_iff_three :
    Blind (fun b => { oldPage b with largerNode := 0 }) (zeroed 0 0) 7
        [.insert 1 10, .insert 2 20, .insert 3 30, .insert 4 40, .find 1] ↔
      [Op.insert 1 10, .insert 2 20, .insert 3 30, .insert 4 40, .find 1] = [] ∨
        ({ oldPage 1 with largerNode := 0 } : Node Nat Nat 3).largerNode = 0 ∧
          ((zeroed 0 0 : Nat → Node Nat Nat 3) 1).largerNode = 0 :=
  blind_iff (by decide) _ _ _ _

end Dumbnose.Btree
