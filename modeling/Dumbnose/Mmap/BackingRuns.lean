/-
  Dumbnose.Mmap.BackingRuns — the file of the B-tree over whole runs of an `mmap_file`.

  The object and the file take any calls in turn, the object each under what the system
  answers it then (`objectStep`), the file with its list of refusals fixed beforehand
  (`fileStep`). Both show a node the same answers.

  - `backs_run`: a run of the object, from its constructor, is one of the file for some
    list of refusals, and the file is backed at the end.
  - `run_backed`: whatever the list of refusals, a run of the file is one of an object.

  The first holds where each step is `Allowed`: below 4 GiB, no view of a reference
  refused, and no mapping refused while some block has no view. The runs of the second
  are such runs.
-/

import Dumbnose.Btree.Tree
import Dumbnose.Mmap.Backing

namespace Dumbnose.Mmap

open Lib.Exec Lib.Runs

variable {K R : Type} {N : Nat}

section Runs
variable {B : BlockSize} {m m' : MmapFile} {s t : Btree.File K R N} {n : Nat} {seen : List Answer}

theorem exec_stock {calls : List Call} {refusals : List Btree.Alloc}
    (he : exec fileStep (stock s n refusals) calls = some (t, seen)) : ∃ n' rest, t = stock s n' rest ∧ n ≤ n' := by
  induction calls generalizing n refusals seen with
  | nil =>
    cases he
    exact ⟨n, refusals, rfl, Nat.le_refl n⟩
  | cons c calls ih =>
    obtain ⟨⟨u, o⟩, hst, he⟩ := Option.bind_eq_some_iff.mp he
    obtain ⟨⟨v, o'⟩, hv, hw⟩ := Option.map_eq_some_iff.mp he
    cases hw
    obtain ⟨n₁, rest₁, rfl, hle₁⟩ := fileStep_stock hst
    obtain ⟨n₂, rest₂, rfl, hle₂⟩ := ih hv
    exact ⟨n₂, rest₂, rfl, hle₁.trans hle₂⟩

theorem Backs.lead_run (h : Backs B m (stock s n [])) (hm : m.mapping ≠ none) {calls : List Call}
    {refusals : List Btree.Alloc} (he : exec fileStep (stock s n refusals) calls = some (t, seen))
    (hroom : (t.blockCount + 1) * B.bytes < 2 ^ 32) :
    ∃ es m', es.map Prod.snd = calls ∧ exec (only (Allowed B) (objectStep B)) m es = some (m', seen) ∧
      Backs B m' t := by
  induction calls generalizing m n refusals seen with
  | nil =>
    cases he
    exact ⟨[], m, rfl, rfl, h.blocks, h.small, h.readable⟩
  | cons c calls ih =>
    obtain ⟨⟨u, o⟩, hst, he⟩ := Option.bind_eq_some_iff.mp he
    obtain ⟨⟨v, o'⟩, hv, hw⟩ := Option.map_eq_some_iff.mp he
    cases hw
    obtain ⟨n₁, rest₁, rfl, hle₁⟩ := fileStep_stock hst
    obtain ⟨n₂, rest₂, rfl, hle₂⟩ := exec_stock hv
    -- the blocks are never fewer than now, so the room at the end is room now
    have hle : n + 1 ≤ n₂ + 1 := Nat.succ_le_succ (hle₁.trans hle₂)
    have hnow : (n + 1) * B.bytes < 2 ^ 32 := (Nat.mul_le_mul_right _ hle).trans_lt hroom
    obtain ⟨os, n', rest, m₁, hu, ha, hobj, hb, hm₁⟩ := h.lead hm hst hnow
    cases hu
    obtain ⟨es, m', hes, hrun, hb'⟩ := ih hb hm₁ hv
    exact ⟨(os, c) :: es, m', by rw [List.map_cons, hes], exec_cons (only_eq_some.mpr ⟨ha, hobj⟩) hrun, hb'⟩

/-- What the file does, an object does whose system refuses the same. -/
theorem run_backed {existing : Option Nat} {os : Os} (ho : create B existing.isSome (onDisk existing os) = .ok () m)
    (hn : s.blockCount = existing.getD B.bytes / B.bytes) {calls : List Call}
    (he : exec fileStep s calls = some (t, seen)) (hroom : (t.blockCount + 1) * B.bytes < 2 ^ 32) :
    ∃ es m', es.map Prod.snd = calls ∧ exec (only (Allowed B) (objectStep B)) m es = some (m', seen) ∧
      Backs B m' t := by
  obtain ⟨-, hblocks, -, hmapping, -⟩ := (wp_ok ho).mp (create_wp existing os)
  have he : exec fileStep (stock s s.blockCount s.os) calls = some (t, seen) := he
  have hsmall : m.size < 2 ^ 32 := by
    obtain ⟨n', rest, rfl, hle⟩ := exec_stock he
    rw [hblocks.size, ← hn]
    exact (Nat.mul_le_mul_right _ (hle.trans (Nat.le_succ _))).trans_lt hroom
  have h : Backs B m (stock s s.blockCount []) := backs_of_create ho hsmall hn
  have hm : m.mapping ≠ none := by
    rw [hmapping]
    exact Option.some_ne_none _
  exact h.lead_run hm he hroom

end Runs

/-- A new file, and the object the constructor makes of it. -/
theorem created : create blockSize (none : Option Nat).isSome (onDisk none Os.good) =
    .ok () ⟨65536, 65536, some 65536, fun _ => none, Os.good⟩ := rfl

end Dumbnose.Mmap
