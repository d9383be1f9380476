/-
  Dumbnose.Btree.Storage — a tree on its `mmap_file`, over whole runs.

  The constructor, `insert` and `find` get at the file through calls of `allocate_block`
  and `get_reference` alone, whatever was refused and thrown on the way (`calls_run`). So
  below 4 GiB the file of a tree that has been through any operations is one that some
  `mmap_file` backs (`tree_backed`): the blocks that its links name are there to be had.
-/

import Dumbnose.Btree.Limit

namespace Dumbnose.Btree

open Lib.Exec Lib.Runs
open Mmap (fileStep stock)

variable {K R : Type} {N : Nat} {s : File K R N} {t : Tree K R N}

theorem unlimited_counted : Counted (limit none : Bound (File K R N none) (File K R N) Err) :=
  limit_counted (counts_none 2)

theorem moves_create : Moves Calls (create : M K R N none Nat) := by
  refine .bind .get fun s => (mirrors_countBlocks unlimited_counted).moves.bind fun _ => .ite ?_ ?_
  · refine (mirrors_getReference unlimited_counted _ _).moves.bind fun _ => ?_
    exact (mirrors_update unlimited_counted _).moves.bind fun _ => (mirrors_findRoot unlimited_counted).moves
  · refine (calls_allocateBlock _).bind fun index => ?_
    exact (mirrors_construct unlimited_counted _ _ _ _).moves.bind fun _ => .pure _

theorem calls_openTree : Calls s (openTree s).file := by
  unfold openTree
  cases h : create s with
  | ok root f => exact moves_create.ok h
  | error e f => exact moves_create.error h

theorem calls_seen {α : Type} {f : α → Res R} {x : EStateM Err (Tree K R N) α}
    (h : Moves (onTree (limit none)).may x) : Calls t.file (seen f (x t)).2.file := by
  cases hx : x t with
  | ok a u => exact h.ok hx
  | error e u => exact h.error hx

variable [LinearOrder K]

theorem calls_exec (op : Op K R) : Calls t.file (op.exec t).2.file := by
  cases op with
  | insert key record =>
    rw [exec_insert]
    exact calls_seen (mirrors_treeInsert unlimited_counted key record).moves
  | find key =>
    rw [exec_find]
    exact calls_seen (mirrors_treeFind unlimited_counted key).moves

theorem calls_run (ops : List (Op K R)) : Calls t.file (run t ops).file := by
  induction ops generalizing t with
  | nil => exact .refl t.file
  | cons op ops ih => exact (calls_exec op).trans ih

/-- Whatever a tree has been through is the work of some calls, and below 4 GiB some
    object has answered its calls alike and backs its file. -/
theorem tree_backed {B : Mmap.BlockSize} {m : Mmap.MmapFile} {existing : Option Nat} {os : Mmap.Os}
    (ho : Mmap.create B existing.isSome (Mmap.onDisk existing os) = .ok () m)
    (hn : s.blockCount = existing.getD B.bytes / B.bytes) (ops : List (Op K R)) :
    Calls s (run (openTree s) ops).file ∧
    (((run (openTree s) ops).file.blockCount + 1) * B.bytes < 2 ^ 32 →
      ∃ es m' seen, exec (only (Mmap.Allowed B) (Mmap.objectStep B)) m es = some (m', seen) ∧
        exec fileStep s (es.map Prod.snd) =
          some (stock s (run (openTree s) ops).file.blockCount (run (openTree s) ops).file.os, seen) ∧
        Mmap.Backs B m' (run (openTree s) ops).file) := by
  have hcalls : Calls s (run (openTree s) ops).file := calls_openTree.trans (calls_run ops)
  refine ⟨hcalls, fun hroom => ?_⟩
  obtain ⟨calls, seen, hrun⟩ := hcalls.calls
  obtain ⟨es, m', rfl, hobj, hb⟩ := Mmap.run_backed ho hn (hrun s) hroom
  exact ⟨es, m', seen, hobj, hrun s, hb.blocks, hb.small, hb.readable⟩

/-- A new file of which the view of the fourth block is refused. -/
def refusing : File Nat Nat 3 := { newFile (zeroed 0 0) 7 with os := [.ok, .ok, .throws true] }

/-- The fourth insert splits the root, and throws for want of a new one. -/
theorem tree_backed_split : ∃ es m' seen,
    exec (only (Mmap.Allowed Mmap.blockSize) (Mmap.objectStep Mmap.blockSize))
        ⟨65536, 65536, some 65536, fun _ => none, Mmap.Os.good⟩ es = some (m', seen) ∧
      Mmap.Backs Mmap.blockSize m'
        (run (openTree refusing) [.insert 1 10, .insert 2 20, .insert 3 30, .insert 4 40, .find 2]).file := by
  have hcount : (run (openTree refusing)
      [.insert 1 10, .insert 2 20, .insert 3 30, .insert 4 40, .find 2]).file.blockCount = 4 := by
    decide +kernel
  have hroom : ((run (openTree refusing)
      [.insert 1 10, .insert 2 20, .insert 3 30, .insert 4 40, .find 2]).file.blockCount + 1) *
      Mmap.blockSize.bytes < 2 ^ 32 := by
    rw [hcount]
    decide
  obtain ⟨es, m', seen, hobj, -, hb⟩ := (tree_backed Mmap.created rfl _).2 hroom
  exact ⟨es, m', seen, hobj, hb⟩

end Dumbnose.Btree
