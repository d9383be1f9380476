/-
  Dumbnose.Btree.Room — the inserts for which the file has room, and the map that the tree
  is as long as it has.

  An insert of a new key allocates a block for each full node from its leaf up, and one
  for a new root if the root is among them (`Inserts.count`). So it can be told before the
  insert whether the file has room for it (`Fits`). If it has, the operation does what it
  does without the limit, and if not it throws (`Below.exec`, `Below.exec_unfit`): a run
  whose operations all fit is one without the limit (`Below.run`). `btree_refines_map`
  says of each operation of a run on a file of 4 GiB that it answers as the map does,
  exactly if the operations fit.

  A leaf holds at most `N` records, so no run of distinct keys fits for ever
  (`not_room`).
-/

import Mathlib.Algebra.Order.BigOperators.Group.Finset
import Mathlib.Order.Interval.Finset.Nat
import Dumbnose.Btree.Garbage
import Dumbnose.Btree.Limit
import Dumbnose.Lib.Splits

namespace Dumbnose.Btree

open Lib.Exec Lib.Gaps

variable {K R : Type} {N : Nat} {L : Option Nat} [LinearOrder K]

/-- With the blocks that an insert takes, those of the file can still be counted. -/
def Fits (t : Tree K R N L) : Op K R → Prop
  | .find _ => True
  | .insert key _ => ∀ n b, Finds t.file.pages key n t.root none b →
      Counts L (t.file.blockCount + t.file.pages.needs N t.file.blockCount b)

/-- Every operation of the run fits. -/
def Room (t : Tree K R N L) (ops : List (Op K R)) : Prop := ∀ p op, p ++ [op] <+: ops → Fits (run t p) op

theorem run_concat (t : Tree K R N L) (p : List (Op K R)) (op : Op K R) : run t (p ++ [op]) = (op.exec (run t p)).2 :=
  Lib.Splits.run_concat (fun t op => (op.exec t).2) (fun _ => rfl) (fun _ _ _ => rfl) t p op

theorem results_concat (t : Tree K R N L) (p : List (Op K R)) (op : Op K R) :
    results t (p ++ [op]) = results t p ++ [(op.exec (run t p)).1] := by
  induction p generalizing t with
  | nil => rfl
  | cons o p ih => simp only [List.cons_append, results, run, ih]

omit [LinearOrder K] in
theorem unlimited_inj {t u : Tree K R N L} (h : t.unlimited = u.unlimited) : t = u := by
  obtain ⟨⟨a, b, n, os⟩, r⟩ := t
  obtain ⟨⟨a', b', n', os'⟩, r'⟩ := u
  obtain ⟨hf, rfl : r = r'⟩ := Tree.mk.inj h
  obtain ⟨rfl, rfl, rfl, rfl⟩ := File.mk.inj hf
  rfl

/-- `t` is `u` on a file with a limit, and below it. -/
structure Below (t : Tree K R N L) (u : Tree K R N) : Prop where
  same : t.unlimited = u
  counts : Counts L t.file.blockCount

omit [LinearOrder K] in
theorem Below.blockCount {t : Tree K R N L} {u : Tree K R N} (h : Below t u) :
    u.file.blockCount = t.file.blockCount := by
  rw [← h.same]
  rfl

omit [LinearOrder K] in
theorem Below.root {t : Tree K R N L} {u : Tree K R N} (h : Below t u) : u.root = t.root := by
  rw [← h.same]
  rfl

/-! ## One operation -/

omit [LinearOrder K] in
theorem Pages.needs_le (P : Pages K R) (f b : Nat) : P.needs N f b ≤ f + 1 := by
  induction f generalizing b with
  | zero => exact Nat.zero_le _
  | succ f ih =>
    rw [Pages.needs]
    split
    · split
      · omega
      · exact Nat.succ_le_succ (ih _)
    · exact Nat.zero_le _

section Step
variable {t : Tree K R N L} {u : Tree K R N} (hb : Below t u) (hN : 3 ≤ N) (hL : Counts L 5) {op : Op K R}
include hb hN

theorem Below.fits_iff_good {G : Ghost K} {m : K → Option R} (h : Good u G m) :
    Fits t op ↔ Counts L (op.exec u).2.file.blockCount := by
  obtain ⟨rfl, ht⟩ := hb
  obtain ⟨-, H, -, h3⟩ := h.exec hN op
  rcases h3 with ⟨-, hr, hm⟩ | ⟨key, record, rfl, -, hi⟩
  · refine iff_of_true ?_ (hr.blockCount ▸ ht)
    cases op with
    | find key => trivial
    | insert key record =>
      -- the key is there, so no search misses it
      intro n b hf
      cases hk : m key with
      | some r =>
        obtain ⟨n', l, hf'⟩ := h.shaped.finds_iff.mpr ((h.map key r).mpr hk)
        rw [← h.root] at hf'
        have := (hf.det hf').2.1
        cases this
      | none =>
        simp only [spec, hk] at hm
        have := congrFun hm key
        rw [Function.update_self, hk] at this
        cases this
  · constructor
    · intro hf
      obtain ⟨n, r, l, hfind, -⟩ := h.shaped.finds key h.shaped.rootLive
      cases r with
      | some r => exact absurd (h.shaped.finds_iff.mp ⟨n, l, hfind⟩) (hi.absent r)
      | none =>
        rw [hi.count n l hfind]
        exact hf n l (by rw [← h.root] at hfind; exact hfind)
    · intro hc n b hfind
      have hfind : Finds t.unlimited.file.pages key n G.root none b := by rw [← h.root]; exact hfind
      rw [hi.count n b hfind] at hc
      exact hc

variable (h : Attained u)
include h hL

/-- Whether an operation fits is whether its blocks could be counted without the limit. -/
theorem Below.fits_iff : Fits t op ↔ Counts L (op.exec u).2.file.blockCount := by
  rcases h with ⟨G, m, h⟩ | ⟨c, h⟩
  · exact hb.fits_iff_good hN h
  · have h2 : t.file.blockCount = 2 := hb.blockCount.symm.trans h.blockCount
    refine iff_of_true ?_ (by rw [h.exec op, hb.blockCount]; exact hb.counts)
    cases op with
    | find key => trivial
    | insert key record =>
      intro n b _
      have := Pages.needs_le (N := N) t.file.pages t.file.blockCount b
      exact hL.le (by omega)

theorem Below.exec (hf : Fits t op) : (op.exec u).1 = (op.exec t).1 ∧ Below (op.exec t).2 (op.exec u).2 := by
  have hc := (hb.fits_iff hN hL h).mp hf
  obtain ⟨rfl, ht⟩ := hb
  rcases exec_cases (hL.le (by omega)) ht op with ⟨he, -⟩ | ⟨-, -, hn⟩
  · rw [he] at hc ⊢
    exact ⟨rfl, rfl, hc⟩
  · exact absurd hc hn

/-- An insert that does not fit throws, and keeps the object's root. -/
theorem Below.exec_unfit (hf : ¬ Fits t op) :
    (op.exec t).1 = .threw .fileLength ∧ Stopped (op.exec t).2 ∧ (op.exec t).2.root = t.root := by
  have hc := mt (hb.fits_iff hN hL h).mpr hf
  obtain ⟨rfl, ht⟩ := hb
  rcases exec_cases (hL.le (by omega)) ht op with ⟨he, hret⟩ | ⟨h1, h2, -⟩
  · -- an operation that throws without the limit allocates nothing
    rcases h with ⟨G, m, h⟩ | ⟨c, h⟩
    · obtain ⟨hspec, H, -, h3⟩ := h.exec hN op
      rw [he] at hc hspec h3
      rcases h3 with ⟨-, hr, -⟩ | ⟨key, record, rfl, hm, -⟩
      · exact absurd (hr.blockCount ▸ ht) hc
      · refine absurd (hret fun e => ?_) hc
        rw [hspec, spec, hm]
        simp
    · rw [h.exec op] at hc
      exact absurd ht hc
  · exact ⟨h1, h2, exec_root h1⟩

theorem Below.rightAt_iff {m : K → Option R} (hu : RightAt u m op) : RightAt t m op ↔ Fits t op := by
  constructor
  · intro hr
    by_contra hf
    have he := (hb.exec_unfit hN hL h hf).1
    cases op with
    | find key => exact hf trivial
    | insert key record =>
      cases hm : m key with
      | none =>
        rw [hr.1 hm] at he
        cases he
      | some r =>
        rw [hr.2 (by rw [hm]; exact Option.some_ne_none r)] at he
        cases he
  · intro hf
    obtain ⟨h1, h2⟩ := hb.exec hN hL h hf
    have hsame : (op.exec u).2 = u → (op.exec t).2 = t := fun e => unlimited_inj (h2.same.trans (e.trans hb.same.symm))
    cases op with
    | find key =>
      have hu : (Op.find key).exec u = (.found (m key), u) := hu
      rw [hu] at h1 hsame
      exact Prod.ext h1.symm (hsame rfl)
    | insert key record =>
      refine ⟨fun hm => h1.symm.trans (hu.1 hm), fun hm => ?_⟩
      rw [hu.2 hm] at h1 hsame
      exact Prod.ext h1.symm (hsame rfl)

end Step

/-! ## Whole runs -/

/-- A run that fits is one without the limit. -/
theorem Below.run (hN : 3 ≤ N) (hL : Counts L 5) {t : Tree K R N L} {u : Tree K R N} (hb : Below t u)
    (h : Attained u) {ops : List (Op K R)} (hr : Room t ops) :
    results t ops = results u ops ∧ Below (Btree.run t ops) (Btree.run u ops) := by
  induction ops generalizing t u with
  | nil => exact ⟨rfl, hb⟩
  | cons op ops ih =>
    obtain ⟨hfit, hrest⟩ := Lib.Splits.forall_step_cons.mp hr
    obtain ⟨he, hb⟩ := hb.exec hN hL h hfit
    obtain ⟨h3, h4⟩ := ih hb (h.exec hN op) hrest
    exact ⟨by rw [results, results, he, h3], h4⟩

omit [LinearOrder K] in
theorem fresh_eq (raw : Nat → Node K R N) (addr : Nat) (hL : Counts L 2) :
    fresh raw addr L = ⟨⟨addr, Function.update raw 1 { raw 1 with
      file := addr, thisNode := 1, parentNode := 0, recordCount := 0,
      entries := (raw 1).entries.map fun e => { e with smallerNode := 0 } }, 2, []⟩, 1⟩ := by
  have h1 : Counts L (newFile raw addr L).blockCount := hL.le (Nat.le_succ 1)
  have hc : Returns create (fun b f => b = 1 ∧ f = (⟨addr, Function.update raw 1 { raw 1 with
      file := addr, thisNode := 1, parentNode := 0, recordCount := 0,
      entries := (raw 1).entries.map fun e => { e with smallerNode := 0 } }, 2, []⟩ : File K R N L))
      (newFile raw addr L) := by
    have halloc := allocateBlock_ok (s := newFile raw addr L) h1 (by simp [newFile])
    unfold Returns create countBlocks
    rw [wp_bind, wp_get, wp_bind, wp_bind, wp_get, if_pos h1, wp_pure, if_neg (by simp [newFile]), wp_bind,
      wp_ok halloc, wp_bind, wp_construct (by simp [newFile])]
    exact ⟨rfl, rfl⟩
  obtain ⟨b, f, h, rfl, rfl⟩ := hc.run
  rw [fresh, openTree, h]

omit [LinearOrder K] in
theorem fresh_below (raw : Nat → Node K R N) (addr : Nat) (hL : Counts L 2) :
    Below (fresh raw addr L) (fresh raw addr) := by
  rw [fresh_eq raw addr hL, fresh_eq raw addr (counts_none 2)]
  exact ⟨rfl, hL⟩

theorem run_attained (hN : 3 ≤ N) (raw : Nat → Node K R N) (addr : Nat) (ops : List (Op K R)) :
    Attained (run (fresh raw addr) ops) := by
  induction ops using List.reverseRecOn with
  | nil => exact fresh_attained raw addr
  | append_singleton ops op ih =>
    rw [run_concat]
    exact ih.exec hN op

section Runs
variable (hN : 3 ≤ N) (hL : Counts L 5) (raw : Nat → Node K R N) (addr : Nat)
include hN hL

/-- Of the states of a run, those that a run without the limit comes to. -/
theorem run_below {ops : List (Op K R)} (hr : Room (fresh raw addr L) ops) :
    results (fresh raw addr L) ops = results (fresh raw addr) ops ∧
      Below (run (fresh raw addr L) ops) (run (fresh raw addr) ops) :=
  (fresh_below raw addr (hL.le (by omega))).run hN hL (fresh_attained raw addr) hr

/-- What is seen of each operation of a run, if it is seen exactly of those that fit. -/
theorem room_iff {T : List (Op K R) → Op K R → Prop}
    (hfit : ∀ p op, Below (run (fresh raw addr L) p) (run (fresh raw addr) p) →
      (T p op ↔ Fits (run (fresh raw addr L) p) op)) (ops : List (Op K R)) :
    (∀ p op, p ++ [op] <+: ops → T p op) ↔ Room (fresh raw addr L) ops := by
  refine Lib.Splits.forall_step_iff_of_inv (S := fun p => Below (run (fresh raw addr L) p) (run (fresh raw addr) p))
    (fresh_below raw addr (hL.le (by omega))) (fun p op hb hf => ⟨?_, (hfit p op hb).mpr hf⟩) (fun p op hb hf => ?_) ops
  · rw [run_concat, run_concat]
    exact (hb.exec hN hL (run_attained hN raw addr p) hf).2
  · exact mt (hfit p op hb).mp hf

/-- What is seen after each part of a run, if it is seen below the limit, and not where the
    limit stopped the tree. -/
theorem room_iff_after {T : List (Op K R) → Prop}
    (hbelow : ∀ p, Below (run (fresh raw addr L) p) (run (fresh raw addr) p) → T p)
    (hstop : ∀ p op, Stopped (run (fresh raw addr L) (p ++ [op])) →
      (run (fresh raw addr L) (p ++ [op])).root = (run (fresh raw addr L) p).root → ¬ T (p ++ [op]))
    (ops : List (Op K R)) : (∀ p, p <+: ops → T p) ↔ Room (fresh raw addr L) ops := by
  refine Lib.Splits.forall_prefix_iff_of_inv (S := fun p => Below (run (fresh raw addr L) p) (run (fresh raw addr) p))
    (fresh_below raw addr (hL.le (by omega))) hbelow (fun p op hb hf => ?_) (fun p op hb hf => ?_) ops
  · rw [run_concat, run_concat]
    exact (hb.exec hN hL (run_attained hN raw addr p) hf).2
  · obtain ⟨-, hs, hroot⟩ := hb.exec_unfit hN hL (run_attained hN raw addr p) hf
    rw [← run_concat] at hs hroot
    exact hstop p op hs hroot

end Runs

theorem counts_limit {n : Nat} (hn : n ≤ 65535) : Counts (some blockLimit) n := by
  intro l hl
  obtain rfl := Option.some.inj hl
  exact Nat.lt_of_le_of_lt hn (by decide)

/-! ## No run of new keys fits for ever -/

/-- A tree holds no more keys than its blocks have records. -/
theorem Holds.card_le {t : Tree K R N} {G : Ghost K} {m : K → Option R} (h : Holds t G m) {ks : Finset K}
    (hks : ∀ k ∈ ks, m k ≠ none) : ks.card ≤ (t.file.blockCount - 1) * N := by
  have hsub : ks ⊆ (Finset.Ico 1 t.file.blockCount).biUnion fun b =>
      ((t.file.pages.recs b).map Entry.key).toFinset := by
    intro k hk
    obtain ⟨r, hr⟩ := Option.ne_none_iff_exists'.mp (hks k hk)
    obtain ⟨b, hb, e, he, rfl, -⟩ := (h.map k r).mpr hr
    refine Finset.mem_biUnion.mpr ⟨b, ?_, List.mem_toFinset.mpr (List.mem_map_of_mem he)⟩
    exact Finset.mem_Ico.mpr ⟨Nat.pos_of_ne_zero (h.shaped.pos b hb), h.alloc b hb⟩
  refine (Finset.card_le_card hsub).trans ((Finset.card_biUnion_le_card_mul _ _ N fun b hb => ?_).trans_eq ?_)
  · refine (List.toFinset_card_le _).trans ?_
    rw [List.length_map, pages_recs, Node.recs]
    exact (List.length_take_le' _ _).trans_eq Vector.length_toList
  · rw [Nat.card_Ico]

/-- Keys in ascending order. -/
def ascending (n : Nat) : List (Op Nat Nat) := (List.range n).map fun i => .insert i i

theorem firstInsert_ne_none {ops : List (Op K R)} {k : K} {r : R} (h : .insert k r ∈ ops) :
    firstInsert ops k ≠ none := by
  induction ops with
  | nil => cases h
  | cons op ops ih =>
    rcases List.mem_cons.mp h with rfl | hops
    · rw [firstInsert, if_pos rfl]
      exact Option.some_ne_none r
    · cases op with
      | find key => exact ih hops
      | insert key record =>
        rw [firstInsert]
        split
        · exact Option.some_ne_none _
        · exact ih hops

/-- Three records to a block, and more keys than 65535 blocks hold. -/
theorem not_room :
    ¬ Room (fresh (zeroed 0 0 : Nat → Node Nat Nat 3) 7 (some blockLimit)) (ascending (3 * blockLimit)) := by
  intro hr
  obtain ⟨-, hb⟩ := run_below (Nat.le_refl 3) (counts_limit (by decide)) _ 7 hr
  obtain ⟨G, h⟩ := run_good (Nat.le_refl 3) (rfl : ((zeroed 0 0 : Nat → Node Nat Nat 3) 1).largerNode = 0) 7
    (ascending (3 * blockLimit))
  have hcount := hb.counts blockLimit rfl
  have hkeys : ∀ k ∈ Finset.range (3 * blockLimit), firstInsert (ascending (3 * blockLimit)) k ≠ none := fun k hk =>
    firstInsert_ne_none (List.mem_map.mpr ⟨k, List.mem_range.mpr (Finset.mem_range.mp hk), rfl⟩)
  have hcard := h.card_le hkeys
  rw [Finset.card_range, hb.blockCount] at hcard
  omega

/-! ## The map -/

theorem run_rightAt_iff (hN : 3 ≤ N) (hL : Counts L 5) {raw : Nat → Node K R N} (hz : ZeroFilled raw) {addr : Nat}
    {p : List (Op K R)} (hb : Below (run (fresh raw addr L) p) (run (fresh raw addr) p)) (op : Op K R) :
    RightAt (run (fresh raw addr L) p) (firstInsert p) op ↔ Fits (run (fresh raw addr L) p) op :=
  hb.rightAt_iff hN hL (run_attained hN raw addr p) (run_rightAt hN raw hz addr p op)

/-- Each operation answers as the map does, `find` with the record of the first insert,
    exactly as long as the file has room. -/
theorem btree_refines_map (hN : 3 ≤ N) (raw : Nat → Node K R N) (hz : ZeroFilled raw) (addr : Nat)
    (ops : List (Op K R)) :
    (∀ p op, p ++ [op] <+: ops → RightAt (run (fresh raw addr (some blockLimit)) p) (firstInsert p) op) ↔
      Room (fresh raw addr (some blockLimit)) ops :=
  room_iff hN (counts_limit (by decide)) raw addr
    (fun _ op hb => run_rightAt_iff hN (counts_limit (by decide)) hz hb op) ops

theorem btree_refines_map_three :
    (∀ p op, p ++ [op] <+: [.insert 2 20, .insert 1 10, .insert 2 30, .find 2, .find 5] →
      RightAt (run (fresh (zeroed 0 0 : Nat → Node Nat Nat 3) 7 (some blockLimit)) p) (firstInsert p) op) ↔
    Room (fresh (zeroed 0 0 : Nat → Node Nat Nat 3) 7 (some blockLimit))
      [.insert 2 20, .insert 1 10, .insert 2 30, .find 2, .find 5] :=
  btree_refines_map (by decide) _ (zeroed_zeroFilled 0 0) 7 _

/-- Of keys in ascending order one is not inserted, though no allocation fails. -/
theorem ascending_not_right : ¬ ∀ p op, p ++ [op] <+: ascending (3 * blockLimit) →
    RightAt (run (fresh (zeroed 0 0 : Nat → Node Nat Nat 3) 7 (some blockLimit)) p) (firstInsert p) op := fun h =>
  not_room ((room_iff (Nat.le_refl 3) (counts_limit (by decide)) _ 7 (fun _ op hb =>
    run_rightAt_iff (Nat.le_refl 3) (counts_limit (by decide)) (zeroed_zeroFilled 0 0) hb op) _).mp h)

end Dumbnose.Btree
