/-
  Dumbnose.Mmap.Backing — the file of the B-tree is an `mmap_file`.

  A node sees of its `mmap_file` how many blocks there are, which numbers name one, and
  what `allocate_block` comes to (`Btree.File`). Below 4 GiB the object answers both
  calls as that file does, and goes on backing it: a reference to each block can be
  had, either from its view or through the mapping (`Backs`). `answer` is what a call
  of `allocate_block` comes to, by what the system will answer.

  A view that is refused still counts as a block, which is why an `Alloc` that throws
  may have extended the file. A mapping that is refused is the one failure after which
  the object may not back the file: blocks without a view cannot be had. `Allowed` has
  the calls after which it does. Each is a call of the file (`Backs.follow`), and each
  call of the file is one that the system can bring about (`Backs.lead`).
-/

import Dumbnose.Btree.Memory
import Dumbnose.Lib.Runs
import Dumbnose.Mmap.Blocks

namespace Dumbnose.Mmap

open Lib.Exec Lib.Runs

variable {K R : Type} {N : Nat}

structure Backs (B : BlockSize) (m : MmapFile) (s : Btree.File K R N) : Prop where
  blocks : Blocks B s.blockCount m
  small : m.size < 2 ^ 32
  readable : ∀ i, i < s.blockCount → m.mapping ≠ none ∨ m.mappedBlocks i ≠ none

/-- What the next `allocate_block` comes to. -/
def answer (m : MmapFile) : Btree.Alloc :=
  if (m.mapping.isSome ∧ m.os.closeHandle = false) ∨ m.os.createFileMapping = false then .throws false
  else if m.os.mapViewOfFile then .ok
  else .throws true

theorem not_refused {m : MmapFile} (hm : m.mapping = none ∨ m.os.closeHandle = true)
    (hc : m.os.createFileMapping = true) :
    ¬ ((m.mapping.isSome ∧ m.os.closeHandle = false) ∨ m.os.createFileMapping = false) := by
  intro h
  rcases h with ⟨h1, h2⟩ | h1
  · rcases hm with h3 | h3
    · rw [h3] at h1
      cases h1
    · rw [h2] at h3
      cases h3
  · rw [hc] at h1
    cases h1

/-- The file the constructor has opened. -/
theorem backs_of_create {B : BlockSize} {m : MmapFile} {s : Btree.File K R N} {existing : Option Nat} {os : Os}
    (ho : create B existing.isSome (onDisk existing os) = .ok () m) (hs : m.size < 2 ^ 32)
    (hn : s.blockCount = existing.getD B.bytes / B.bytes) : Backs B m s := by
  obtain ⟨-, h, -, hm, -⟩ := (wp_ok ho).mp (create_wp existing os)
  rw [← hn] at h
  refine ⟨h, hs, fun i _ => .inl ?_⟩
  rw [hm]
  exact Option.some_ne_none _

/-- What a node sees of a call. -/
inductive Answer where
  | block (blockNum : Nat)
  | reference
  | invalidBlockNum
  | threw
  deriving DecidableEq, Repr

def Res.answer : Res → Answer
  | .allocated blockNum _ => .block blockNum
  | .referenced _ => .reference
  | .threw e => if e = .invalidBlockNum then .invalidBlockNum else .threw

/-- A call of the object, with what the system will answer while it runs. -/
def objectStep (B : BlockSize) : Step MmapFile (Os × Call) Answer := fun m e =>
  some ((e.2.exec B (arm m e.1)).2, [(e.2.exec B (arm m e.1)).1.answer])

/-- The same call of the file that the nodes of a tree work on. -/
def fileStep : Step (Btree.File K R N) Call Answer := fun s c =>
  match c with
  | .allocateBlock =>
    match Btree.allocateBlock s.addr s with
    | .ok blockNum t => some (t, [.block blockNum])
    | .error e t => some (t, [if e = .invalidBlockNum then .invalidBlockNum else .threw])
  | .getReference blockNum =>
    match Btree.getReference s.addr blockNum s with
    | .ok _ t => some (t, [.reference])
    | .error e t => some (t, [if e = .invalidBlockNum then .invalidBlockNum else .threw])

/-- The calls for which the file stands for the object. -/
def Allowed (B : BlockSize) (m : MmapFile) (e : Os × Call) : Prop :=
  match e.2 with
  | .allocateBlock =>
    m.size + B.bytes < 2 ^ 32 ∧ ((m.mapping ≠ none ∧ e.1.closeHandle = false) ∨ e.1.createFileMapping = true ∨
      ∀ i, i < m.size / B.bytes → m.mappedBlocks i ≠ none)
  | .getReference _ => e.1.mapViewOfFile = true

instance (B : BlockSize) (m : MmapFile) : (e : Os × Call) → Decidable (Allowed B m e)
  | (os, .allocateBlock) => inferInstanceAs (Decidable (m.size + B.bytes < 2 ^ 32 ∧
      ((m.mapping ≠ none ∧ os.closeHandle = false) ∨ os.createFileMapping = true ∨
        ∀ i, i < m.size / B.bytes → m.mappedBlocks i ≠ none)))
  | (os, .getReference _) => inferInstanceAs (Decidable (os.mapViewOfFile = true))

/-- So many blocks, and these refusals to come. -/
def stock (s : Btree.File K R N) (n : Nat) (os : List Btree.Alloc) : Btree.File K R N :=
  { s with blockCount := n, os := os }

/-- How many blocks there are after an `allocate_block`, of `n` before. -/
def blocksAfter (n : Nat) : Btree.Alloc → Nat
  | .throws false => n
  | _ => n + 1

/-- What a node sees of it. -/
def seenOf (n : Nat) : Btree.Alloc → Answer
  | .ok => .block n
  | .throws _ => .threw

/-- What the system answers to bring it about, of a file that has a mapping. -/
def osOf : Btree.Alloc → Os
  | .ok => .good
  | .throws false => { Os.good with closeHandle := false }
  | .throws true => { Os.good with mapViewOfFile := false }

theorem le_blocksAfter (n : Nat) (a : Btree.Alloc) : n ≤ blocksAfter n a := by
  cases a with
  | ok => exact Nat.le_succ n
  | throws extended =>
    cases extended with
    | false => exact Nat.le_refl n
    | true => exact Nat.le_succ n

theorem osOf_mapping (a : Btree.Alloc) : (osOf a).createFileMapping = true := by
  cases a with
  | ok => rfl
  | throws extended => cases extended <;> rfl

/-! ## The file -/

section File
variable {s : Btree.File K R N} {n : Nat} {os : List Btree.Alloc}

theorem fileStep_granted (hg : ∀ extended rest, os ≠ .throws extended :: rest) :
    fileStep (stock s n os) .allocateBlock = some (stock s (n + 1) os.tail, [.block n]) := by
  have haddr : (stock s n os).addr = s.addr := rfl
  have hg : (stock s n os).Grants := hg
  have hw : Returns (Btree.allocateBlock s.addr) (fun b u => b = n ∧ u = stock s (n + 1) os.tail) (stock s n os) :=
    (Btree.wp_allocateBlock rfl hg).mpr ⟨rfl, rfl⟩
  obtain ⟨b, u, hu, rfl, rfl⟩ := hw.run
  simp only [fileStep, haddr, hu]

theorem fileStep_refused (extended : Bool) : fileStep (stock s n (.throws extended :: os)) .allocateBlock =
    some (stock s (if extended then n + 1 else n) os, [.threw]) := by
  have haddr : (stock s n (.throws extended :: os)).addr = s.addr := rfl
  have hos : (stock s n (.throws extended :: os)).os = .throws extended :: os := rfl
  have hw : wp (Btree.allocateBlock s.addr) (fun _ _ => False)
      (fun e u => e = .allocateBlock ∧ u = stock s (if extended then n + 1 else n) os)
      (stock s n (.throws extended :: os)) := (Btree.wp_allocateBlock_refused rfl hos).mpr ⟨rfl, rfl⟩
  obtain ⟨e, u, hu, rfl, rfl⟩ := hw.throws
  simp only [fileStep, haddr, hu]
  rfl

theorem fileStep_allocate (a : Btree.Alloc) :
    fileStep (stock s n (a :: os)) .allocateBlock = some (stock s (blocksAfter n a) os, [seenOf n a]) := by
  cases a with
  | ok => exact fileStep_granted nofun
  | throws extended =>
    rw [fileStep_refused]
    cases extended <;> rfl

/-- Past the end of the list every call is granted. -/
theorem fileStep_allocates (n : Nat) (refusals : List Btree.Alloc) : ∃ a rest, ∀ s : Btree.File K R N,
    fileStep (stock s n refusals) .allocateBlock = some (stock s (blocksAfter n a) rest, [seenOf n a]) := by
  cases refusals with
  | nil => exact ⟨.ok, [], fun s => fileStep_granted nofun⟩
  | cons a rest => exact ⟨a, rest, fun s => fileStep_allocate a⟩

theorem fileStep_reference (i : Nat) : fileStep (stock s n os) (.getReference i) =
    some (stock s n os, [if i < n then .reference else .invalidBlockNum]) := by
  have hw : wp (Btree.getReference (stock s n os).addr i) (fun _ u => i < n ∧ u = stock s n os)
      (fun e u => e = .invalidBlockNum ∧ ¬ i < n ∧ u = stock s n os) (stock s n os) := by
    by_cases hi : i < n
    · simp [Btree.getReference, Btree.useFile, stock, hi]
    · simp [Btree.getReference, Btree.useFile, stock, hi, Nat.not_lt.mp hi]
  rcases hw.run with ⟨a, u, hu, hi, rfl⟩ | ⟨e, u, hu, rfl, hi, rfl⟩
  · simp only [fileStep, hu, if_pos hi]
  · simp only [fileStep, hu, if_neg hi, if_true]

/-- A call leaves the blocks alone and takes none away. -/
theorem fileStep_stock {refusals : List Btree.Alloc} {c : Call} {t : Btree.File K R N} {seen : List Answer}
    (hst : fileStep (stock s n refusals) c = some (t, seen)) : ∃ n' rest, t = stock s n' rest ∧ n ≤ n' := by
  cases c with
  | allocateBlock =>
    obtain ⟨a, rest, hfile⟩ := fileStep_allocates (K := K) (R := R) (N := N) n refusals
    rw [hfile] at hst
    cases hst
    exact ⟨_, rest, rfl, le_blocksAfter n a⟩
  | getReference i =>
    rw [fileStep_reference] at hst
    cases hst
    exact ⟨n, refusals, rfl, Nat.le_refl n⟩

end File

/-! ## One step -/

section Steps
variable {B : BlockSize} {m : MmapFile} {s : Btree.File K R N} {n : Nat} {os : Os}

theorem Backs.counts (h : Backs B m (stock s n [])) : Blocks B n m := h.blocks

/-- A file of `n` blocks that has a mapping, or a view of each. -/
theorem backs_stock (hb : Blocks B n m) (hs : m.size < 2 ^ 32)
    (hr : m.mapping ≠ none ∨ ∀ i, i < n → m.mappedBlocks i ≠ none) : Backs B m (stock s n []) :=
  ⟨hb, hs, fun i hi => hr.imp_right fun h => h i hi⟩

theorem objectStep_allocate (h : Backs B m (stock s n [])) (ha : Allowed B m (os, .allocateBlock)) :
    ∃ m', objectStep B m (os, .allocateBlock) = some (m', [seenOf n (answer (arm m os))]) ∧
      Backs B m' (stock s (blocksAfter n (answer (arm m os))) []) := by
  obtain ⟨hsmall, hmap⟩ := ha
  have hsize : (n + 1) * B.bytes < 2 ^ 32 := by
    rw [Nat.succ_mul, ← h.counts.size]
    exact hsmall
  have hcount : m.size / B.bytes = n := by rw [h.counts.size, Nat.mul_div_cancel _ B.pos]
  rcases (allocateBlock_wp (h.counts.arm os) h.small).run with ⟨r, m', hm, rfl, rfl, hclose, hc, hv⟩ | ⟨e, m', hm, hf⟩
  · have hans : answer (arm m os) = .ok := by rw [answer, if_neg (not_refused hclose hc), if_pos hv]
    have hb : Blocks B (n + 1) (((arm m os).extend ((n + 1) * B.bytes)).place B n) :=
      (h.counts.arm os).extend.place (Nat.lt_succ_self n)
    rw [hans]
    refine ⟨_, ?_, backs_stock hb hsize (.inl (Option.some_ne_none _))⟩
    simp only [objectStep, Call.exec, hm]
    rfl
  · have hstep : objectStep B m (os, .allocateBlock) = some (m', [(Res.threw e).answer]) := by
      simp only [objectStep, Call.exec, hm]
    rw [hstep]
    rcases hf with ⟨rfl, hmapped, hc, fileSize, rfl⟩ | ⟨rfl, hc, hm', rfl⟩ | ⟨rfl, hmapped, hc, hv, rfl⟩
    · have hans : answer (arm m os) = .throws false := if_pos (.inl ⟨Option.isSome_iff_ne_none.mpr hmapped, hc⟩)
      rw [hans]
      exact ⟨_, rfl, backs_stock ((h.counts.arm os).resize fileSize) h.small (.inl hmapped)⟩
    · have hans : answer (arm m os) = .throws false := if_pos (.inr hc)
      rw [hans]
      refine ⟨_, rfl, backs_stock (h.counts.arm os).unmap h.small (.inr ?_)⟩
      -- the mapping is gone, so every block has its view
      rcases hmap with ⟨hmapped, hkept⟩ | hgranted | hall
      · rcases hm' with hm' | hm'
        · exact absurd hm' hmapped
        · rw [arm, hkept] at hm'
          cases hm'
      · rw [arm, hgranted] at hc
        cases hc
      · rw [hcount] at hall
        exact hall
    · have hans : answer (arm m os) = .throws true := by
        rw [answer, if_neg (not_refused hmapped hc), if_neg (by rw [hv]; exact Bool.false_ne_true)]
      rw [hans]
      exact ⟨_, rfl, backs_stock (h.counts.arm os).extend hsize (.inl (Option.some_ne_none _))⟩

theorem objectStep_reference (h : Backs B m (stock s n [])) {i : Nat} (ha : Allowed B m (os, .getReference i)) :
    ∃ m', objectStep B m (os, .getReference i) = some (m', [if i < n then .reference else .invalidBlockNum]) ∧
      Backs B m' (stock s n []) := by
  rcases (getReference_wp (i := i) (h.counts.arm os) h.small).run with ⟨p, m', hm, hi, -, hst⟩ | ⟨e, m', hm, rfl, he⟩
  · have hb : Backs B m' (stock s n []) := by
      rcases hst with ⟨rfl, -⟩ | ⟨rfl, hmapped⟩
      · exact ⟨h.counts.arm os, h.small, h.readable⟩
      · exact backs_stock ((h.counts.arm os).place hi) h.small (.inl hmapped)
    refine ⟨m', ?_, hb⟩
    simp only [objectStep, Call.exec, hm, if_pos hi]
    rfl
  · rcases he with ⟨rfl, hi⟩ | ⟨rfl, hi, hview, hbad⟩
    · refine ⟨arm m os, ?_, h.counts.arm os, h.small, h.readable⟩
      simp only [objectStep, Call.exec, hm, if_neg (Nat.not_lt.mpr hi)]
      rfl
    · -- the block is there, and the system does not refuse its view
      rcases hbad with hbad | hbad
      · exact absurd hview ((h.readable i hi).resolve_left fun h => h hbad)
      · have ho : os.mapViewOfFile = true := ha
        rw [arm, ho] at hbad
        cases hbad

/-- A call loses no mapping for which the system grants the new one. -/
theorem exec_mapping (h : Blocks B n m) (hs : m.size < 2 ^ 32) (hc : os.createFileMapping = true)
    (hm : m.mapping ≠ none) (c : Call) : (c.exec B (arm m os)).2.mapping ≠ none := by
  cases c with
  | allocateBlock =>
    rcases (allocateBlock_wp (h.arm os) hs).run with ⟨r, m', hr, -, rfl, -⟩ | ⟨e, m', hr, hf⟩
    · simp only [Call.exec, hr]
      exact Option.some_ne_none _
    · simp only [Call.exec, hr]
      rcases hf with ⟨-, -, -, fileSize, rfl⟩ | ⟨-, hrefused, -⟩ | ⟨-, -, -, -, rfl⟩
      · exact hm
      · rw [arm, hc] at hrefused
        cases hrefused
      · exact Option.some_ne_none _
  | getReference i =>
    rcases (getReference_wp (i := i) (h.arm os) hs).run with ⟨p, m', hr, -, -, hst⟩ | ⟨e, m', hr, rfl, -⟩
    · simp only [Call.exec, hr]
      rcases hst with ⟨rfl, -⟩ | ⟨rfl, -⟩
      · exact hm
      · exact hm
    · simp only [Call.exec, hr]
      exact hm

/-- A step of the object is one of the file that comes to what the object came to. -/
theorem Backs.follow (h : Backs B m (stock s n [])) {e : Os × Call} (ha : Allowed B m e) {m' : MmapFile}
    {seen : List Answer} (hst : objectStep B m e = some (m', seen)) :
    ∃ refusals n', (∀ rest, fileStep (stock s n (refusals ++ rest)) e.2 = some (stock s n' rest, seen)) ∧
      Backs B m' (stock s n' []) := by
  obtain ⟨os, c⟩ := e
  cases c with
  | allocateBlock =>
    obtain ⟨u, hu, hb⟩ := objectStep_allocate h ha
    rw [hu] at hst
    cases hst
    exact ⟨[answer (arm m os)], _, fun rest => fileStep_allocate _, hb⟩
  | getReference i =>
    obtain ⟨u, hu, hb⟩ := objectStep_reference h ha
    rw [hu] at hst
    cases hst
    exact ⟨[], n, fun rest => fileStep_reference i, hb⟩

theorem answer_osOf (hm : m.mapping ≠ none) (a : Btree.Alloc) : answer (arm m (osOf a)) = a := by
  have hsome : (arm m (osOf a)).mapping.isSome := Option.isSome_iff_ne_none.mpr hm
  cases a with
  | ok =>
    rw [answer, if_neg (not_refused (.inr rfl) rfl)]
    exact if_pos rfl
  | throws extended =>
    cases extended with
    | false => exact if_pos (.inl ⟨hsome, rfl⟩)
    | true =>
      rw [answer, if_neg (not_refused (.inr rfl) rfl)]
      exact if_neg Bool.false_ne_true

/-- A step of the file is one of the object under what brings it about. -/
theorem Backs.lead (h : Backs B m (stock s n [])) (hm : m.mapping ≠ none) {refusals : List Btree.Alloc} {c : Call}
    {t : Btree.File K R N} {seen : List Answer} (hst : fileStep (stock s n refusals) c = some (t, seen))
    (hroom : (n + 1) * B.bytes < 2 ^ 32) :
    ∃ os n' rest m', t = stock s n' rest ∧ Allowed B m (os, c) ∧ objectStep B m (os, c) = some (m', seen) ∧
      Backs B m' (stock s n' []) ∧ m'.mapping ≠ none := by
  have hsmall : m.size + B.bytes < 2 ^ 32 := by rwa [h.counts.size, ← Nat.succ_mul]
  have hmapped : ∀ {os m' seen}, os.createFileMapping = true → objectStep B m (os, c) = some (m', seen) →
      m'.mapping ≠ none := by
    intro os m' seen hc hst
    cases hst
    exact exec_mapping h.counts h.small hc hm c
  cases c with
  | allocateBlock =>
    obtain ⟨a, rest, hfile⟩ := fileStep_allocates (K := K) (R := R) (N := N) n refusals
    rw [hfile] at hst
    cases hst
    have ha : Allowed B m (osOf a, .allocateBlock) := ⟨hsmall, .inr (.inl (osOf_mapping a))⟩
    obtain ⟨m', hm', hb⟩ := objectStep_allocate h ha
    rw [answer_osOf hm a] at hm' hb
    exact ⟨osOf a, _, rest, m', rfl, ha, hm', hb, hmapped (osOf_mapping a) hm'⟩
  | getReference i =>
    rw [fileStep_reference] at hst
    cases hst
    have ha : Allowed B m (Os.good, .getReference i) := rfl
    obtain ⟨m', hm', hb⟩ := objectStep_reference h ha
    exact ⟨Os.good, n, refusals, m', rfl, ha, hm', hb, hmapped rfl hm'⟩

end Steps

end Dumbnose.Mmap
