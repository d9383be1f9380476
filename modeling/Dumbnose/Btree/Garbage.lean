/-
  Dumbnose.Btree.Garbage — a new tree whose first block did not come zero-filled.

  The constructor of a node does not set `larger_node_`, and nothing sets it for the
  first root before it is split. If block 1 held another number there, the tree is
  `Stuck` from the start: every search follows that number, out of the file or back
  into the root for ever, so every operation fails in the same way and none writes.
-/

import Dumbnose.Btree.Refinement

namespace Dumbnose.Btree

open Lib.Exec Lib.Gaps

variable {K R : Type} {N : Nat}

/-- The only node is an empty root with `c` in its `larger_node_`. -/
structure Stuck (t : Tree K R N) (c : Nat) : Prop where
  root : t.root = 1
  blockCount : t.file.blockCount = 2
  held : (t.file.blocks 1).file = t.file.addr
  parent : (t.file.blocks 1).parentNode = 0
  count : (t.file.blocks 1).recordCount = 0
  larger : (t.file.blocks 1).largerNode = c
  ne : c ≠ 0

/-- What every operation of a stuck tree comes to. -/
def Stuck.err (c : Nat) : Err := if c = 1 then .outOfFuel else .invalidBlockNum

theorem fresh_stuck {raw : Nat → Node K R N} (addr : Nat) (hz : (raw 1).largerNode ≠ 0) :
    Stuck (fresh raw addr) (raw 1).largerNode := by
  obtain ⟨hroot, hm⟩ := fresh_spec raw addr
  obtain ⟨h1, h2, -⟩ := hm.fresh 1 (Nat.le_refl _) (by show 1 < 1 + 1; omega)
  refine ⟨hroot, hm.blockCount, h1.trans hm.addr.symm, ?_, ?_, ?_, hz⟩
  · rw [← pages_parent, hm.pages]; simp [Pages.make]
  · rw [← Node.recs_length h2, ← pages_recs, hm.pages]; simp [Pages.make]
  · rw [← pages_larger, hm.pages]; rfl

variable [LinearOrder K]

section Stuck
variable {t : Tree K R N} {c : Nat} (h : Stuck t c)
include h

omit [LinearOrder K] in
theorem Stuck.refresh : t.file.refresh 1 = t.file := by
  refine (refreshed_refresh Nat.one_ne_zero (by rw [h.blockCount]; omega)).eq fun b h0 hb => ?_
  rw [h.blockCount] at hb
  obtain rfl : b = 1 := by omega
  exact h.held

theorem Stuck.search_wp {f : Nat} (hf : 0 < f) (k : K) {Q : Option R × Nat → File K R N → Prop} :
    wp (findRecordAndNode f 1 k) Q (fun e s => e = Stuck.err c ∧ s = t.file) t.file := by
  induction f with
  | zero => omega
  | succ f ih =>
    have hloop := searchLoop_returns (s := t.file) Nat.one_ne_zero (by rw [h.count]; omega)
      (by rw [Node.recs, h.count, List.take_zero]; exact .nil) k
    unfold findRecordAndNode
    rw [wp_bind, wp_node Nat.one_ne_zero, wp_bind]
    apply hloop.wp
    intro o s h
    obtain ⟨rfl, rfl⟩ := h
    have hrecs : (t.file.blocks 1).recs = [] := by rw [Node.recs, h.count, List.take_zero]
    simp only [hrecs, h.larger, linear, seek, Stop.of]
    rw [if_pos h.ne, wp_bind]
    by_cases hc : c = 1
    · subst hc
      rw [wp_convert Nat.one_ne_zero h.held Nat.one_ne_zero (by rw [h.blockCount]; omega), h.refresh]
      rcases Nat.eq_zero_or_pos f with rfl | hf
      · exact ⟨rfl, rfl⟩
      · exact ih hf
    · have hge : ¬ c < 2 := by have := h.ne; omega
      simp only [convertIndexToPtr, convertWith, getReference, useFile, wp_bind, wp_node Nat.one_ne_zero, h.ne,
        if_false,
        wp_get, wp_countBlocks, h.held, h.blockCount, if_true, hge, wp_pure, wp_throw, Stuck.err, hc]
      exact ⟨trivial, trivial⟩

theorem Stuck.exec (op : Op K R) : op.exec t = (.threw (Stuck.err c), t) := by
  have hfind : ∀ k : K, wp (Tree.find k) (fun _ _ => False) (fun e u => e = Stuck.err c ∧ u = t) t := by
    intro k
    unfold Tree.find Node.find
    rw [wp_bind, wp_get, wp_onFile, wp_bind, wp_get, wp_bind, h.root]
    refine (h.search_wp (Q := fun _ _ => False) (by rw [h.blockCount]; omega) k).mono (fun _ _ hf => hf.elim) ?_
    intro e s h
    obtain ⟨rfl, rfl⟩ := h
    exact ⟨rfl, by rw [← h.root]⟩
  have hinsert : ∀ (k : K) (r : R), wp (Tree.insert k r) (fun _ _ => False) (fun e u => e = Stuck.err c ∧ u = t) t := by
    intro k r
    unfold Tree.insert Node.insert
    rw [wp_bind, wp_get, wp_bind, wp_onFile, wp_bind, wp_get, h.root, h.blockCount]
    unfold insertFrom locate
    rw [wp_bind, wp_node Nat.one_ne_zero, h.parent, if_neg (by simp), wp_bind, wp_bind, wp_get, wp_bind]
    refine (h.search_wp (Q := fun _ _ => False) (by rw [h.blockCount]; omega) k).mono (fun _ _ hf => hf.elim) ?_
    intro e s h
    obtain ⟨rfl, rfl⟩ := h
    exact ⟨rfl, by rw [← h.root]⟩
  cases op with
  | find k =>
    rcases (hfind k).run with ⟨_, _, _, hf⟩ | ⟨e, u, he, rfl, rfl⟩
    · exact hf.elim
    · simp only [Op.exec, he]
  | insert k r =>
    rcases (hinsert k r).run with ⟨_, _, _, hf⟩ | ⟨e, u, he, rfl, rfl⟩
    · exact hf.elim
    · simp only [Op.exec, he]

theorem Stuck.run (ops : List (Op K R)) :
    run t ops = t ∧ results t ops = ops.map fun _ => .threw (Stuck.err c) := by
  induction ops with
  | nil => exact ⟨rfl, rfl⟩
  | cons op ops ih =>
    rw [Btree.run, results, h.exec op]
    exact ⟨ih.1, by rw [ih.2]; rfl⟩

end Stuck

/-! ## Either way -/

/-- The trees of the runs, whatever the first block held. -/
def Attained (t : Tree K R N) : Prop := (∃ G m, Good t G m) ∨ ∃ c, Stuck t c

theorem fresh_attained (raw : Nat → Node K R N) (addr : Nat) : Attained (fresh raw addr) := by
  by_cases hz : (raw 1).largerNode = 0
  · exact .inl ⟨_, _, fresh_good addr hz⟩
  · exact .inr ⟨_, fresh_stuck addr hz⟩

theorem Attained.exec (hN : 3 ≤ N) {t : Tree K R N} (h : Attained t) (op : Op K R) : Attained (op.exec t).2 := by
  rcases h with ⟨G, m, h⟩ | ⟨c, h⟩
  · obtain ⟨-, H, h, -⟩ := h.exec hN op
    exact .inl ⟨H, _, h⟩
  · rw [h.exec op]
    exact .inr ⟨c, h⟩

/-- No answer is about the file's length. -/
theorem Attained.answer_ne (hN : 3 ≤ N) {t : Tree K R N} (h : Attained t) (op : Op K R) :
    (op.exec t).1 ≠ .threw .fileLength := by
  rcases h with ⟨G, m, h⟩ | ⟨c, h⟩
  · rw [(h.exec hN op).1]
    cases op with
    | find key => simp [spec]
    | insert key record =>
      rw [spec]
      cases m key <;> simp
  · rw [h.exec op, Stuck.err]
    split <;> simp

theorem Attained.root_ne {t : Tree K R N} (h : Attained t) : t.root ≠ 0 := by
  rcases h with ⟨G, m, h⟩ | ⟨c, h⟩
  · rw [h.root]
    exact h.shaped.pos _ h.shaped.rootLive
  · rw [h.root]
    exact Nat.one_ne_zero

theorem Attained.root_lt {t : Tree K R N} (h : Attained t) : t.root < t.file.blockCount := by
  rcases h with ⟨G, m, h⟩ | ⟨c, h⟩
  · rw [h.root]
    exact h.alloc _ h.shaped.rootLive
  · rw [h.root, h.blockCount]
    exact Nat.lt_succ_self 1

end Dumbnose.Btree
