/-
  Dumbnose.Mmap.Numbering — block numbers and file sizes, with no call of the system
  failing.

  `ideal` is what an `mmap_file` is for: block numbers are handed out in order, and
  block `i` is the bytes from `i * block_size_` on. The code is that as long as the
  file stays below 4 GiB (`Intact.exec`). At 4 GiB `block_count`, which looks at the
  LowPart of the size, has nothing right to answer, and its assert fails. So the
  numbering of a run is exact exactly if the run ends below 4 GiB
  (`numbering_exact_iff`).
-/

import Dumbnose.Mmap.Blocks

namespace Dumbnose.Mmap

open Lib.Exec

/-! ## The ideal -/

/-- A call on `n` blocks, and how many there are then. -/
def ideal (B : BlockSize) (n : Nat) : Call → Res × Nat
  | .allocateBlock => (.allocated n (n * B.bytes), n + 1)
  | .getReference i => (if i < n then .referenced (i * B.bytes) else .threw .invalidBlockNum, n)

def idealResults (B : BlockSize) (n : Nat) : List Call → List Res
  | [] => []
  | c :: cs => (ideal B n c).1 :: idealResults B (ideal B n c).2 cs

/-- The number of the block, if it is a new one. -/
def Res.blockNum? : Res → Option Nat
  | .allocated blockNum _ => some blockNum
  | _ => none

/-- Block numbers are handed out in order, so none of them twice. -/
theorem ideal_blockNums (B : BlockSize) (n : Nat) (calls : List Call) :
    (idealResults B n calls).filterMap Res.blockNum? = List.range' n (calls.count .allocateBlock) := by
  induction calls generalizing n with
  | nil => rfl
  | cons c cs ih =>
    cases c with
    | allocateBlock =>
      rw [idealResults, List.count_cons_self, List.range'_succ, ← ih]
      rfl
    | getReference i =>
      have hne : Call.getReference i ≠ .allocateBlock := by simp
      rw [idealResults, List.count_cons_of_ne hne, ← ih]
      by_cases hi : i < n
      · rw [ideal, if_pos hi, List.filterMap_cons_none rfl]
      · rw [ideal, if_neg hi, List.filterMap_cons_none rfl]

/-- Sizes and counts are those of `n` blocks, and every view is at its block. -/
structure Numbered (B : BlockSize) (n : Nat) (s : MmapFile) : Prop where
  size : s.size = n * B.bytes
  fileSize : s.fileSize = n * B.bytes
  count : ∃ t, blockCount B s = .ok n t
  placed : ∀ i, ∀ p ∈ s.mappedBlocks i, i < n ∧ p = i * B.bytes
  disjoint : ∀ i j, i ≠ j → ∀ p ∈ s.mappedBlocks i, ∀ q ∈ s.mappedBlocks j, p + B.bytes ≤ q ∨ q + B.bytes ≤ p

/-- The run answers as the ideal one, no block number is handed out twice, and every
    state is in order. -/
structure Exact (B : BlockSize) (n : Nat) (s : MmapFile) (calls : List Call) : Prop where
  answers : results B s calls = idealResults B n calls
  fresh : ((results B s calls).filterMap Res.blockNum?).Nodup
  states : ∀ p, p <+: calls → Numbered B (n + p.count .allocateBlock) (run B s p)

/-! ## Runs below 4 GiB -/

structure Intact (B : BlockSize) (n : Nat) (s : MmapFile) : Prop extends Blocks B n s where
  fileSize : s.fileSize = s.size
  mapped : s.mapping = some s.size
  good : s.os = .good

section Intact
variable {B : BlockSize} {n : Nat} {s : MmapFile}

theorem Intact.place (h : Intact B n s) {i : Nat} (hi : i < n) : Intact B n (s.place B i) :=
  ⟨h.toBlocks.place hi, h.fileSize, h.mapped, h.good⟩

theorem Intact.extend (h : Intact B n s) : Intact B (n + 1) (s.extend ((n + 1) * B.bytes)) := by
  refine ⟨h.toBlocks.extend, Nat.max_eq_right ?_, rfl, h.good⟩
  rw [h.fileSize, h.size]
  exact Nat.mul_le_mul_right _ (Nat.le_succ n)

theorem Intact.numbered (h : Intact B n s) (hs : n * B.bytes < 2 ^ 32) : Numbered B n s := by
  refine ⟨h.size, h.fileSize.trans h.size, h.toBlocks.count_eq (h.size ▸ hs), h.placed, fun i j hij p hp q hq => ?_⟩
  obtain ⟨-, rfl⟩ := h.placed i p hp
  obtain ⟨-, rfl⟩ := h.placed j q hq
  rcases Nat.lt_or_gt_of_ne hij with h1 | h1
  · exact .inl (by rw [← Nat.succ_mul]; exact Nat.mul_le_mul_right _ h1)
  · exact .inr (by rw [← Nat.succ_mul]; exact Nat.mul_le_mul_right _ h1)

theorem Intact.exec (h : Intact B n s) (hs : n * B.bytes < 2 ^ 32) (c : Call) :
    (c.exec B s).1 = (ideal B n c).1 ∧ Intact B (ideal B n c).2 (c.exec B s).2 := by
  have hs' : s.size < 2 ^ 32 := h.size ▸ hs
  cases c with
  | allocateBlock =>
    rcases (allocateBlock_wp h.toBlocks hs').run with ⟨_, t, ht, rfl, rfl, -⟩ | ⟨e, t, -, hf⟩
    · simp only [Call.exec, ht, ideal]
      exact ⟨trivial, h.extend.place (Nat.lt_succ_self n)⟩
    · -- a call of the system would have failed
      rw [Failed, h.good] at hf
      rcases hf with ⟨-, -, hf, -⟩ | ⟨-, hf, -⟩ | ⟨-, -, -, hf, -⟩ <;> cases hf
  | getReference i =>
    rcases (getReference_wp (i := i) h.toBlocks hs').run with ⟨p, t, ht, hi, rfl, hst⟩ | ⟨e, t, ht, rfl, he⟩
    · simp only [Call.exec, ht, ideal, if_pos hi]
      refine ⟨trivial, ?_⟩
      rcases hst with ⟨rfl, -⟩ | ⟨rfl, -⟩
      · exact h
      · exact h.place hi
    · rcases he with ⟨rfl, hi⟩ | ⟨rfl, -, -, hf⟩
      · simp only [Call.exec, ht, ideal, if_neg (Nat.not_lt.mpr hi)]
        exact ⟨trivial, h⟩
      · rw [h.mapped, h.good] at hf
        rcases hf with hf | hf <;> cases hf

theorem ideal_count (c : Call) : (ideal B n c).2 = n + [c].count .allocateBlock := by cases c <;> rfl

theorem Intact.exact (h : Intact B n s) {calls : List Call} (hs : (n + calls.count .allocateBlock) * B.bytes < 2 ^ 32) :
    Exact B n s calls := by
  suffices hrun : results B s calls = idealResults B n calls ∧
      ∀ p, p <+: calls → Numbered B (n + p.count .allocateBlock) (run B s p) by
    obtain ⟨h1, h2⟩ := hrun
    exact ⟨h1, by rw [h1, ideal_blockNums]; exact List.nodup_range', h2⟩
  induction calls generalizing n s with
  | nil =>
    refine ⟨rfl, fun p hp => ?_⟩
    rw [List.prefix_nil.mp hp]
    exact h.numbered hs
  | cons c cs ih =>
    have hcount : (c :: cs).count .allocateBlock = [c].count .allocateBlock + cs.count .allocateBlock := by
      rw [← List.count_append]; rfl
    have hn : n * B.bytes < 2 ^ 32 := (Nat.mul_le_mul_right _ (Nat.le_add_right n _)).trans_lt hs
    obtain ⟨h1, h2⟩ := h.exec hn c
    rw [hcount, ← Nat.add_assoc, ← ideal_count] at hs
    obtain ⟨h3, h4⟩ := ih h2 hs
    refine ⟨by rw [results, idealResults, h1, h3], fun p hp => ?_⟩
    rcases List.prefix_cons_iff.mp hp with rfl | ⟨q, rfl, hq⟩
    · exact h.numbered hn
    · have := h4 q hq
      rw [ideal_count, Nat.add_assoc, ← List.count_append] at this
      exact this

end Intact

/-- The numbering of a run is exact exactly if its file stays below 4 GiB. -/
theorem numbering_exact_iff (B : BlockSize) (existing : Option Nat) {s : MmapFile}
    (ho : create B existing.isSome (onDisk existing .good) = .ok () s) (calls : List Call) :
    Exact B (existing.getD B.bytes / B.bytes) s calls ↔
      (existing.getD B.bytes / B.bytes + calls.count .allocateBlock) * B.bytes < 2 ^ 32 := by
  obtain ⟨-, h1, h2, h3, -, h4⟩ := (wp_ok ho).mp (create_wp (B := B) existing .good)
  have h : Intact B (existing.getD B.bytes / B.bytes) s := ⟨h1, h2, h3, h4⟩
  refine ⟨fun he => ?_, fun hs => h.exact hs⟩
  obtain ⟨hsize, -, ⟨t, hc⟩, -⟩ := he.states calls (List.prefix_refl calls)
  rw [← hsize]
  by_contra hs
  have := (wp_blockCount_asserts (B := B) (E := fun _ _ => True) (Q := fun _ _ => False)
    (Nat.le_of_not_lt hs)).mpr trivial
  rwa [wp_ok hc] at this

/-- A file one block short of 4 GiB: the last block is handed out, and then not even
    block 0 can be asked for. -/
theorem four_gib : ∃ s, create blockSize true (onDisk (some (65535 * 65536)) .good) = .ok () s ∧
    results blockSize s [.allocateBlock, .getReference 0] = [.allocated 65535 (65535 * 65536), .threw .assertion] ∧
    ¬ Exact blockSize 65535 s [.allocateBlock] := by
  refine ⟨⟨65535 * 65536, 65535 * 65536, some (65535 * 65536), fun _ => none, .good⟩, rfl, by decide +kernel,
    fun h => ?_⟩
  obtain ⟨t, hc⟩ := (h.states _ (List.prefix_refl _)).count
  have hn : ¬ Returns (blockCount blockSize) (fun _ _ => True)
      (run blockSize ⟨65535 * 65536, 65535 * 65536, some (65535 * 65536), fun _ => none, .good⟩ [.allocateBlock]) := by
    decide +kernel
  exact hn ((wp_ok hc).mpr trivial)

/-- A new file, three more blocks, and a reference to one that is not there. -/
theorem numbering_exact_three : ∃ s, create blockSize false (onDisk none .good) = .ok () s ∧
    (Exact blockSize 1 s [.allocateBlock, .allocateBlock, .getReference 1, .allocateBlock, .getReference 4] ↔
      (1 + 3) * blockSize.bytes < 2 ^ 32) := by
  have h : Returns (create blockSize false) (fun _ _ => True) (onDisk none .good) := by decide +kernel
  obtain ⟨_, s, hs, -⟩ := h.run
  exact ⟨s, hs, numbering_exact_iff blockSize none hs _⟩

end Dumbnose.Mmap
