/-
  Dumbnose.Mmap.Blocks — what each call does to a file of `n` blocks.

  `Blocks B n s`: the size is that of `n` blocks, the mapping is as long or there is
  none, and the views are those of some of the blocks, each at its block. Every call
  keeps it, whatever the system answers (`getReference_wp`, `allocateBlock_wp`); the
  number of blocks grows by one with `extend_file`, also when the call throws later.
-/

import Mathlib.Tactic.Common
import Mathlib.Tactic.Ring
import Dumbnose.Mmap.MmapFile

namespace Dumbnose.Mmap

open Lib.Exec

structure Blocks (B : BlockSize) (n : Nat) (s : MmapFile) : Prop where
  pos : 0 < n
  size : s.size = n * B.bytes
  mapping : ∀ length ∈ s.mapping, length = s.size
  placed : ∀ i, ∀ p ∈ s.mappedBlocks i, i < n ∧ p = i * B.bytes

/-- Block `i` gets its view. -/
def MmapFile.place (s : MmapFile) (B : BlockSize) (i : Nat) : MmapFile :=
  { s with mappedBlocks := fun j => if j = i then some (i * B.bytes) else s.mappedBlocks j }

/-- The file and its mapping are `size` long. -/
def MmapFile.extend (s : MmapFile) (size : Nat) : MmapFile :=
  { s with fileSize := max s.fileSize size, mapping := some size, size := size }

section Blocks
variable {B : BlockSize} {n i : Nat} {s : MmapFile} (h : Blocks B n s)
include h

theorem Blocks.place (hi : i < n) : Blocks B n (s.place B i) := by
  refine ⟨h.pos, h.size, h.mapping, fun j p hp => ?_⟩
  by_cases e : j = i
  · subst e
    simp only [MmapFile.place, if_true, Option.mem_def, Option.some.injEq] at hp
    exact ⟨hi, hp.symm⟩
  · simp only [MmapFile.place, if_neg e] at hp
    exact h.placed j p hp

theorem Blocks.extend : Blocks B (n + 1) (s.extend ((n + 1) * B.bytes)) := by
  refine ⟨Nat.succ_pos n, rfl, fun length hl => (Option.some.inj hl).symm, fun j p hp => ?_⟩
  obtain ⟨h1, h2⟩ := h.placed j p hp
  exact ⟨by omega, h2⟩

theorem Blocks.unmapped : s.mappedBlocks n = none := by
  cases hm : s.mappedBlocks n with
  | none => rfl
  | some p => exact absurd (h.placed n p hm).1 (Nat.lt_irrefl n)

theorem Blocks.unmap : Blocks B n { s with mapping := none } := ⟨h.pos, h.size, nofun, h.placed⟩

theorem Blocks.arm (os : Os) : Blocks B n (arm s os) := ⟨h.pos, h.size, h.mapping, h.placed⟩

theorem Blocks.resize (fileSize : Nat) : Blocks B n { s with fileSize := fileSize } :=
  ⟨h.pos, h.size, h.mapping, h.placed⟩

end Blocks

/-! ## The calls -/

section Calls
variable {B : BlockSize} {n i : Nat} {s : MmapFile} {E : Err → MmapFile → Prop}

/-- Below 4 GiB. From there on the assert of `block_count` fails. -/
theorem wp_blockCount (h : Blocks B n s) (hs : s.size < 2 ^ 32) {Q : Nat → MmapFile → Prop} :
    wp (blockCount B) Q E s ↔ Q n s := by
  have h0 : s.size / 2 ^ 32 = 0 := Nat.div_eq_of_lt hs
  have hn : s.size % 2 ^ 32 / B.bytes = n := by rw [Nat.mod_eq_of_lt hs, h.size, Nat.mul_div_cancel _ B.pos]
  rw [blockCount, wp_bind, wp_get, wp_bind, assert, if_pos h0, wp_pure, wp_pure, hn]

theorem wp_blockCount_asserts (hs : 2 ^ 32 ≤ s.size) {Q : Nat → MmapFile → Prop} :
    wp (blockCount B) Q E s ↔ E .assertion s := by
  have h0 : s.size / 2 ^ 32 ≠ 0 := (Nat.div_pos hs (by decide)).ne'
  rw [blockCount, wp_bind, wp_get, wp_bind, assert, if_neg h0, wp_throw]

theorem Blocks.count_eq (h : Blocks B n s) (hs : s.size < 2 ^ 32) : ∃ t, blockCount B s = .ok n t := by
  have hw : Returns (blockCount B) (fun c _ => c = n) s := (wp_blockCount h hs).mpr rfl
  obtain ⟨_, t, hc, rfl⟩ := hw.run
  exact ⟨t, hc⟩

theorem Blocks.count_unique (h : Blocks B n s) (hs : s.size < 2 ^ 32) {m : Nat}
    (hc : blockCount B s = .ok m t) : m = n := by
  obtain ⟨t', hn⟩ := h.count_eq hs
  rw [hc] at hn
  cases hn
  rfl

/-- A block of the file is mapped. -/
theorem mapBlock_wp (h : Blocks B n s) (hs : s.size < 2 ^ 32) (hi : i < n) (hu : s.mappedBlocks i = none) :
    wp (mapBlock B i) (fun p t => p = i * B.bytes ∧ t = s.place B i ∧ s.mapping ≠ none)
      (fun e t => e = .mapView ∧ t = s ∧ (s.mapping = none ∨ s.os.mapViewOfFile = false)) s := by
  have hle : i * B.bytes + B.bytes ≤ s.size := by
    rw [h.size, ← Nat.succ_mul]
    exact Nat.mul_le_mul_right _ hi
  have hmod : i * B.bytes % 2 ^ 32 = i * B.bytes := Nat.mod_eq_of_lt (by have := B.pos; omega)
  unfold mapBlock
  simp only [hmod, wp_bind, wp_get, gt_iff_lt, Nat.not_lt.mpr hle, if_false, wp_pure, mapViewOfFile]
  cases hm : s.mapping with
  | none => simp
  | some length =>
    obtain rfl := h.mapping length hm
    by_cases ho : s.os.mapViewOfFile
    · simp [ho, hle, hu, hm, MmapFile.place]
    · simp [ho]

theorem extendFile_wp (size : Nat) :
    wp (extendFile size)
      (fun _ t => t = s.extend size ∧ s.os.createFileMapping = true ∧ (s.mapping = none ∨ s.os.closeHandle = true))
      (fun e t => (e = .closeHandle ∧ s.mapping ≠ none ∧ s.os.closeHandle = false ∧
          ∃ fileSize, t = { s with fileSize := fileSize }) ∨
        (e = .createMapping ∧ s.os.createFileMapping = false ∧ (s.mapping = none ∨ s.os.closeHandle = true) ∧
          t = { s with mapping := none })) s := by
  unfold extendFile createFileMapping assignMapping close
  -- the new mapping is asked for first, then the old handle is closed, then the answer is looked at
  cases hc : s.os.createFileMapping <;> cases hm : s.mapping
  · simp [hm, hc]
  · cases hh : s.os.closeHandle
    · simp only [wp_bind, wp_get, hc, hm, hh, Option.isSome_some, if_true, if_false, wp_pure, wp_throw,
        Bool.false_eq_true]
      exact .inl ⟨trivial, Option.some_ne_none _, trivial, s.fileSize, by rw [← hm]⟩
    · simp [hm, hc, hh]
  · simp [hm, hc, MmapFile.extend]
  · cases hh : s.os.closeHandle <;> simp [hm, hc, hh, MmapFile.extend]

/-- No call of the system that extending the file by a block makes will fail. -/
def Granted (s : MmapFile) : Prop :=
  (s.mapping = none ∨ s.os.closeHandle = true) ∧ s.os.createFileMapping = true ∧ s.os.mapViewOfFile = true

/-- What an `allocate_block` that throws has done by then. -/
def Failed (B : BlockSize) (n : Nat) (s : MmapFile) (e : Err) (t : MmapFile) : Prop :=
  (e = .closeHandle ∧ s.mapping ≠ none ∧ s.os.closeHandle = false ∧ ∃ fileSize, t = { s with fileSize := fileSize }) ∨
  (e = .createMapping ∧ s.os.createFileMapping = false ∧ (s.mapping = none ∨ s.os.closeHandle = true) ∧
    t = { s with mapping := none }) ∨
  (e = .mapView ∧ (s.mapping = none ∨ s.os.closeHandle = true) ∧ s.os.createFileMapping = true ∧
    s.os.mapViewOfFile = false ∧
    t = s.extend ((n + 1) * B.bytes))

theorem allocateBlock_wp (h : Blocks B n s) (hs : s.size < 2 ^ 32) :
    wp (allocateBlock B)
      (fun r t => r = (n, n * B.bytes) ∧ t = (s.extend ((n + 1) * B.bytes)).place B n ∧ Granted s)
      (Failed B n s) s := by
  have hmod : n * B.bytes % 2 ^ 32 = n * B.bytes := Nat.mod_eq_of_lt (h.size ▸ hs)
  have hgt : s.size < n * B.bytes + B.bytes := by rw [h.size]; exact Nat.lt_add_of_pos_right B.pos
  have hu := h.unmapped
  unfold allocateBlock
  rw [wp_bind, wp_blockCount h hs, wp_bind, mapBlock]
  simp only [hmod, wp_bind, wp_get, gt_iff_lt, hgt, if_true]
  refine (extendFile_wp _).mono ?_ ?_
  · intro _ t hc
    obtain ⟨rfl, hc, hm⟩ := hc
    rw [← Nat.succ_mul]
    cases ho : s.os.mapViewOfFile
    · simpa [mapViewOfFile, MmapFile.extend, ho, Failed, hc] using hm
    · simpa [mapViewOfFile, MmapFile.extend, ho, hu, MmapFile.place, Nat.succ_mul, Granted, hc] using hm
  · intro e t he
    rcases he with he | he
    · exact .inl he
    · exact .inr (.inl he)

theorem getReference_wp (h : Blocks B n s) (hs : s.size < 2 ^ 32) :
    wp (getReference B i)
      (fun p t => i < n ∧ p = i * B.bytes ∧ ((t = s ∧ s.mappedBlocks i ≠ none) ∨ (t = s.place B i ∧ s.mapping ≠ none)))
      (fun e t => t = s ∧ ((e = .invalidBlockNum ∧ n ≤ i) ∨
        (e = .mapView ∧ i < n ∧ s.mappedBlocks i = none ∧ (s.mapping = none ∨ s.os.mapViewOfFile = false)))) s := by
  unfold getReference
  rw [wp_bind, wp_blockCount h hs, wp_ite]
  refine ⟨fun hi => ⟨rfl, .inl ⟨rfl, hi⟩⟩, fun hi => ?_⟩
  have hi := Nat.lt_of_not_ge hi
  rw [wp_bind, wp_get]
  cases hm : s.mappedBlocks i with
  | some p => exact ⟨hi, (h.placed i p hm).2, .inl ⟨rfl, nofun⟩⟩
  | none =>
    refine (mapBlock_wp h hs hi hm).mono ?_ ?_
    · intro p t hmap
      obtain ⟨rfl, rfl, hmap⟩ := hmap
      exact ⟨hi, rfl, .inr ⟨rfl, hmap⟩⟩
    · intro e t ho
      obtain ⟨rfl, rfl, ho⟩ := ho
      exact ⟨rfl, .inr ⟨rfl, hi, rfl, ho⟩⟩

theorem firstMapping_wp (hm : s.mapping = none) :
    wp (do
        assignMapping (← createFileMapping (← get).size)
        if (← get).mapping = none then throw .firstMapping else pure ())
      (fun _ t => t = s.extend s.size) (fun _ _ => s.os ≠ Os.good) s := by
  unfold createFileMapping assignMapping close
  cases hc : s.os.createFileMapping
  · have hg : s.os ≠ Os.good := by intro e; rw [e] at hc; cases hc
    simp [hm, hc, hg]
  · simp [hm, hc, MmapFile.extend]

/-- The constructor takes the files of a positive number of blocks, and no others. -/
theorem create_wp (existing : Option Nat) (os : Os) :
    wp (create B existing.isSome)
      (fun _ t => (∀ bytes ∈ existing, bytes ≠ 0 ∧ bytes % B.bytes = 0) ∧ Blocks B (existing.getD B.bytes / B.bytes) t ∧
        t.fileSize = t.size ∧ t.mapping = some t.size ∧ t.mappedBlocks = (fun _ => none) ∧ t.os = os)
      (fun e _ => (e = .zeroLength ∧ existing = some 0) ∨
        (e = .notMultiple ∧ ∃ bytes, existing = some bytes ∧ bytes % B.bytes ≠ 0) ∨ os ≠ Os.good)
      (onDisk existing os) := by
  have hbad : ∀ {c : Bool}, (os = Os.good → c = true) → ¬ c = true → os ≠ Os.good := fun h1 h2 h => h2 (h1 h)
  unfold create
  rw [wp_bind, wp_modify, wp_bind, wp_get, wp_ite]
  refine ⟨fun hf => .inr (.inr (hbad (c := os.createFile) (fun h => by rw [h]; rfl) hf)), fun _ => ?_⟩
  cases existing with
  | none =>
    rw [wp_bind, Option.isSome_none, if_neg Bool.false_ne_true, wp_pure]
    refine (firstMapping_wp rfl).mono ?_ fun _ _ h => .inr (.inr h)
    intro _ t e
    subst e
    refine ⟨nofun, ⟨Nat.div_pos (Nat.le_refl _) B.pos, ?_, fun _ hl => (Option.some.inj hl).symm, nofun⟩, ?_,
      rfl, rfl, rfl⟩
    · exact (Nat.div_mul_cancel (Nat.dvd_refl _)).symm
    · exact Nat.max_eq_right (Nat.zero_le _)
  | some bytes =>
    rw [wp_bind, Option.isSome_some, if_pos rfl, wp_bind, wp_get, wp_ite]
    refine ⟨fun hf => .inr (.inr (hbad (c := os.getFileSizeEx) (fun h => by rw [h]; rfl) hf)), fun _ => ?_⟩
    rw [wp_bind, wp_modify, validate, wp_bind, wp_get, wp_ite]
    refine ⟨fun h0 => .inl ⟨rfl, congrArg some h0⟩, fun h0 => ?_⟩
    rw [wp_bind, wp_get, wp_ite]
    refine ⟨fun hm => .inr (.inl ⟨rfl, bytes, rfl, Nat.ne_of_gt hm⟩), fun hm => ?_⟩
    have h0 : bytes ≠ 0 := h0
    have hm : bytes % B.bytes = 0 := Nat.eq_zero_of_not_pos hm
    have hdvd := Nat.dvd_of_mod_eq_zero hm
    rw [wp_pure]
    refine (firstMapping_wp rfl).mono ?_ fun _ _ h => .inr (.inr h)
    intro _ t e
    subst e
    refine ⟨fun _ hb => (Option.some.inj hb) ▸ ⟨h0, hm⟩,
      ⟨?_, ?_, fun _ hl => (Option.some.inj hl).symm, nofun⟩, ?_, rfl, rfl, rfl⟩
    · exact Nat.div_pos (Nat.le_of_dvd (Nat.pos_of_ne_zero h0) hdvd) B.pos
    · exact (Nat.div_mul_cancel hdvd).symm
    · exact Nat.max_self _

end Calls

end Dumbnose.Mmap
