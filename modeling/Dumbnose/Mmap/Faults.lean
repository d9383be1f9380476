/-
  Dumbnose.Mmap.Faults — an `allocate_block` that a failed system call ended.

  `extend_file` asks for the new mapping, closes the old one, and only then looks at
  what it was given; `map_block` asks for the view when the size is already the new
  one. So of the three calls that can fail only the closing leaves things as they
  were. Without a new mapping there is none at all until the next `extend_file`, and a
  block that was not mapped before cannot be. Without the view the block counts all
  the same.

  `allocate_failed_iff` says so of every state that calls reach, whatever failed on
  the way to it.
-/

import Dumbnose.Mmap.Blocks

namespace Dumbnose.Mmap

open Lib.Exec

/-- What is so before and after an `allocate_block` that throws. -/
structure AllOrNothing (B : BlockSize) (s u : MmapFile) : Prop where
  count : ∀ n t, blockCount B s = .ok n t → ∃ t', blockCount B u = .ok n t'
  mapped : u.mappedBlocks = s.mappedBlocks
  references : ∀ n t, blockCount B u = .ok n t → ∀ i, i < n → ∃ p v, getReference B i (arm u .good) = .ok p v
  next : ∀ n t, blockCount B s = .ok n t → ∀ os r v, allocateBlock B (arm u os) = .ok r v → r.1 = n

/-- The call that fails is the closing of the old mapping, or there is no new mapping
    and every block has its view. -/
def KeepsBlocks (B : BlockSize) (s : MmapFile) (os : Os) : Prop :=
  (s.mapping ≠ none ∧ os.closeHandle = false) ∨
  (os.createFileMapping = false ∧ ∀ i, i * B.bytes < s.size → s.mappedBlocks i ≠ none)

/-- What a file is after calls, each of which any call of the system may have failed. -/
inductive Reach (B : BlockSize) : MmapFile → Prop
  | created {s : MmapFile} (existing : Option Nat) (os : Os) :
      create B existing.isSome (onDisk existing os) = .ok () s → Reach B s
  | step {s : MmapFile} (os : Os) (c : Call) : Reach B s → Reach B (c.exec B (arm s os)).2

section Calls
variable {B : BlockSize} {n i : Nat} {s t : MmapFile}

theorem Failed.blocks (h : Blocks B n s) {e : Err} (hf : Failed B n s e t) : ∃ m, Blocks B m t := by
  rcases hf with ⟨-, -, -, fileSize, rfl⟩ | ⟨-, -, -, rfl⟩ | ⟨-, -, -, -, rfl⟩
  · exact ⟨n, h.resize fileSize⟩
  · exact ⟨n, h.unmap⟩
  · exact ⟨n + 1, h.extend⟩

/-- From 4 GiB on each call fails the assert of `block_count`. -/
theorem exec_asserts (hs : 2 ^ 32 ≤ s.size) (c : Call) : c.exec B s = (.threw .assertion, s) := by
  cases c with
  | allocateBlock =>
    have hw : wp (allocateBlock B) (fun _ _ => False) (fun e t => e = .assertion ∧ t = s) s := by
      rw [allocateBlock, wp_bind, wp_blockCount_asserts hs]
      exact ⟨rfl, rfl⟩
    obtain ⟨e, t, ht, rfl, rfl⟩ := hw.throws
    simp only [Call.exec, ht]
  | getReference i =>
    have hw : wp (getReference B i) (fun _ _ => False) (fun e t => e = .assertion ∧ t = s) s := by
      rw [getReference, wp_bind, wp_blockCount_asserts hs]
      exact ⟨rfl, rfl⟩
    obtain ⟨e, t, ht, rfl, rfl⟩ := hw.throws
    simp only [Call.exec, ht]

theorem Blocks.exec (h : Blocks B n s) (c : Call) : ∃ m, Blocks B m (c.exec B s).2 := by
  rcases Nat.lt_or_ge s.size (2 ^ 32) with hs | hs
  · cases c with
    | allocateBlock =>
      rcases (allocateBlock_wp h hs).run with ⟨_, t, ht, rfl, rfl, -⟩ | ⟨e, t, ht, hf⟩
      · simp only [Call.exec, ht]
        exact ⟨n + 1, h.extend.place (Nat.lt_succ_self n)⟩
      · simp only [Call.exec, ht]
        exact hf.blocks h
    | getReference i =>
      rcases (getReference_wp (i := i) h hs).run with ⟨p, t, ht, hi, rfl, hst⟩ | ⟨e, t, ht, rfl, -⟩
      · simp only [Call.exec, ht]
        rcases hst with ⟨rfl, -⟩ | ⟨rfl, -⟩
        · exact ⟨n, h⟩
        · exact ⟨n, h.place hi⟩
      · simp only [Call.exec, ht]
        exact ⟨n, h⟩
  · rw [exec_asserts hs]
    exact ⟨n, h⟩

theorem Reach.blocks (h : Reach B s) : ∃ n, Blocks B n s := by
  induction h with
  | created existing os ho => exact ⟨_, ((wp_ok ho).mp (create_wp existing os)).2.1⟩
  | step os c _ ih =>
    obtain ⟨n, h⟩ := ih
    exact (h.arm os).exec c

/-- A block is there to be referenced while there is a mapping, or its view. -/
theorem Blocks.reference_iff (h : Blocks B n s) (hs : s.size < 2 ^ 32) (hi : i < n) :
    (∃ p v, getReference B i (Mmap.arm s .good) = .ok p v) ↔ s.mapping ≠ none ∨ s.mappedBlocks i ≠ none := by
  rcases (getReference_wp (i := i) (h.arm .good) hs).run with ⟨p, v, hv, -, rfl, hst⟩ | ⟨e, v, hv, rfl, he⟩
  · exact ⟨fun _ => hst.symm.imp And.right And.right, fun _ => ⟨_, v, hv⟩⟩
  · rcases he with ⟨-, hle⟩ | ⟨-, -, hu, hm⟩
    · omega
    · constructor
      · intro hv'
        obtain ⟨p, v', hv'⟩ := hv'
        rw [hv] at hv'
        cases hv'
      · intro hm'
        rcases hm' with hm' | hu'
        · exact absurd (hm.resolve_right nofun) hm'
        · exact absurd hu hu'

/-- Of a file with as many blocks as before, only the references are in question. -/
theorem Blocks.allOrNothing_iff (h : Blocks B n s) (hs : s.size < 2 ^ 32) (ht : Blocks B n t) (hts : t.size = s.size)
    (htm : t.mappedBlocks = s.mappedBlocks) :
    AllOrNothing B s t ↔ ∀ i, i < n → t.mapping ≠ none ∨ s.mappedBlocks i ≠ none := by
  have hts' : t.size < 2 ^ 32 := hts ▸ hs
  constructor
  · intro hall i hi
    obtain ⟨u, hu⟩ := ht.count_eq hts'
    rw [← htm]
    exact (ht.reference_iff hts' hi).mp (hall.references n u hu i hi)
  · intro hrefs
    refine ⟨fun m u hm => ?_, htm, fun m u hm i hi => ?_, fun m u hm os r v hv => ?_⟩
    · rw [h.count_unique hs hm]
      exact ht.count_eq hts'
    · rw [ht.count_unique hts' hm] at hi
      rw [ht.reference_iff hts' hi, htm]
      exact hrefs i hi
    · rw [h.count_unique hs hm, ((wp_ok hv).mp (allocateBlock_wp (ht.arm os) hts')).1]

/-- A block more counts, whether it has a view or not. -/
theorem Blocks.not_allOrNothing (h : Blocks B n s) (hs : s.size < 2 ^ 32) (ht : Blocks B (n + 1) t) :
    ¬ AllOrNothing B s t := by
  intro hall
  obtain ⟨u, hu⟩ := h.count_eq hs
  obtain ⟨v, hv⟩ := hall.count n u hu
  rcases Nat.lt_or_ge t.size (2 ^ 32) with hts | hts
  · exact absurd (ht.count_unique hts hv) (Nat.succ_ne_self n).symm
  · have hw := (wp_blockCount_asserts (B := B) (E := fun _ _ => True) (Q := fun _ _ => False) hts).mpr trivial
    rw [wp_ok hv] at hw
    exact hw.elim

/-- An `allocate_block` that throws, but for the assert, does so below 4 GiB. -/
theorem Blocks.failed (h : Blocks B n s) {e : Err} (hf : allocateBlock B s = .error e t) (he : e ≠ .assertion) :
    s.size < 2 ^ 32 ∧ Failed B n s e t := by
  rcases Nat.lt_or_ge s.size (2 ^ 32) with hs | hs
  · have hw := allocateBlock_wp h hs
    rw [wp, hf] at hw
    exact ⟨hs, hw⟩
  · have hw : wp (allocateBlock B) (fun _ _ => False) (fun e _ => e = .assertion) s := by
      rw [allocateBlock, wp_bind, wp_blockCount_asserts hs]
    rw [wp, hf] at hw
    exact absurd hw he

end Calls

theorem allocate_failed_iff (B : BlockSize) {s u : MmapFile} (hr : Reach B s) (os : Os) {e : Err}
    (hf : allocateBlock B (arm s os) = .error e u) (he : e ≠ .assertion) : AllOrNothing B s u ↔ KeepsBlocks B s os := by
  obtain ⟨n, h⟩ := hr.blocks
  have ha := h.arm os
  obtain ⟨hs, hfailed⟩ := ha.failed hf he
  have hs : s.size < 2 ^ 32 := hs
  have hcount : ∀ i, i * B.bytes < s.size ↔ i < n := fun i => by rw [h.size, Nat.mul_lt_mul_right B.pos]
  rcases hfailed with ⟨-, hm, hc, fileSize, rfl⟩ | ⟨-, hc, hm, rfl⟩ | ⟨-, hm, hc, -, rfl⟩
  · -- the old mapping was not closed
    exact ⟨fun _ => .inl ⟨hm, hc⟩, fun _ => (h.allOrNothing_iff hs (ha.resize fileSize) rfl rfl).mpr fun _ _ => .inl hm⟩
  · -- there is no mapping
    rw [h.allOrNothing_iff hs ha.unmap rfl rfl]
    constructor
    · intro hrefs
      exact .inr ⟨hc, fun i hi => (hrefs i ((hcount i).mp hi)).resolve_left fun h => h rfl⟩
    · intro hm' i hi
      rcases hm' with ⟨hm', hc'⟩ | ⟨-, hrefs⟩
      · exact absurd (hc'.symm.trans (hm.resolve_left hm')) Bool.false_ne_true
      · exact .inr (hrefs i ((hcount i).mpr hi))
  · -- the block that has no view is counted
    refine ⟨fun hall => absurd hall (h.not_allOrNothing hs ha.extend), ?_⟩
    intro hm'
    rcases hm' with ⟨hm', hc'⟩ | ⟨hc', -⟩
    · exact absurd (hc'.symm.trans (hm.resolve_left hm')) Bool.false_ne_true
    · exact absurd (hc'.symm.trans hc) Bool.false_ne_true

/-- A new file, and no view of its second block: the block counts. -/
theorem view_refused : ∃ s u, create blockSize false (onDisk none .good) = .ok () s ∧
    allocateBlock blockSize (arm s { Os.good with mapViewOfFile := false }) = .error .mapView u ∧
    ¬ AllOrNothing blockSize s u := by
  refine ⟨⟨65536, 65536, some 65536, fun _ => none, .good⟩,
    ⟨131072, 131072, some 131072, fun _ => none, { Os.good with mapViewOfFile := false }⟩, rfl, rfl, fun h => ?_⟩
  obtain ⟨t, ht⟩ := h.count 1 _ rfl
  have hn : Returns (blockCount blockSize) (fun c _ => c = 2)
      ⟨131072, 131072, some 131072, fun _ => none, { Os.good with mapViewOfFile := false }⟩ := by decide +kernel
  exact absurd ((wp_ok ht).mp hn) (by decide)

/-- A file of two blocks, opened and neither of them mapped, and no mapping of three. -/
theorem allocate_failed_two : ∃ s u, create blockSize true (onDisk (some 131072) .good) = .ok () s ∧
    allocateBlock blockSize (arm s { Os.good with createFileMapping := false }) = .error .createMapping u ∧
    (AllOrNothing blockSize s u ↔ KeepsBlocks blockSize s { Os.good with createFileMapping := false }) := by
  refine ⟨⟨131072, 131072, some 131072, fun _ => none, .good⟩,
    ⟨131072, 131072, none, fun _ => none, { Os.good with createFileMapping := false }⟩, rfl, rfl, ?_⟩
  exact allocate_failed_iff blockSize (.created (some 131072) .good rfl) _ rfl (by decide)

end Dumbnose.Mmap
