/-
  Dumbnose.Btree.Safety — which capacities are safe.

  A full node is split at `middle_`, one past its half. From capacity 3 on that is an
  entry of the node and no insert of a new key fails in any way but one: no index outside
  the array, no assertion of a node, no exception. At capacities 1 and 2 the first split
  reads `entries_[middle_]` past the end. `node_max_sizer` picks those capacities where
  one or two records fill a block.

  The one way is the file's own: it has no more blocks that can be counted. An insert
  that this stops is where an insert without a limit is whose last block is refused
  (`refusal`). So of the old root, which the object still points at, the same is left as
  after an allocation failure (`OldRoot`), and every later insert stops at its first link.
-/

import Dumbnose.Btree.Faults

namespace Dumbnose.Btree

open Lib.Exec Lib.Gaps

variable {K R : Type} {N : Nat} {L : Option Nat}

/-- A program that inserts these keys. -/
def inserts (kvs : List (K × R)) : List (Op K R) := kvs.map fun kv => .insert kv.1 kv.2

/-! ## A refusal in the limit's place -/

/-- A file of `l` blocks, beside one that is refused the last of them. -/
def refusal (l : Nat) : Bound (File K R N (some l)) (File K R N) Err where
  free s := { s.unlimited with os := List.replicate (l - 1 - s.blockCount) .ok ++ [.throws true] }
  within s := s.blockCount < l ∧ s.os = []
  stop := .fileLength
  may _ _ := True
  past t o u := o ≠ none ∧ u.addr = t.addr ∧ u.blockCount = t.blockCount ∧ l ≤ t.blockCount ∧
    ∀ b, b + 1 ≠ t.blockCount → u.blocks b = t.blocks b
  may_refl _ := trivial
  may_trans _ _ := trivial
  past_may _ h _ := absurd rfl h.1

theorem refusal_counted {l : Nat} (hl : 2 < l) :
    Counted (refusal l : Bound (File K R N (some l)) (File K R N) Err) := by
  have hcounts : ∀ {n : Nat}, Counts (some l) n ↔ n < l :=
    ⟨fun h => h l rfl, fun h l' hl' => Option.some.inj hl' ▸ h⟩
  refine ⟨rfl, fun s => ⟨rfl, rfl, rfl⟩, fun s h => hcounts.mpr h.1, fun s b n h => ⟨h, rfl⟩, fun _ _ _ => trivial,
    fun _ => wp_any _, fun file s hs => ?_⟩
  obtain ⟨hlt, hos⟩ := hs
  by_cases hf : file = s.addr
  · subst hf
    rw [wp_ok (allocateBlock_ok (hcounts.mpr hlt) (by rw [hos]; simp))]
    by_cases hnext : s.blockCount + 1 < l
    · -- a block in between
      obtain ⟨k, hk⟩ := Nat.exists_eq_succ_of_ne_zero (by omega : l - 1 - s.blockCount ≠ 0)
      have hk' : l - 1 - (s.blockCount + 1) = k := by omega
      have hok : ∀ extended os, ((refusal l).free s).os ≠ .throws extended :: os := by
        show ∀ extended os, List.replicate (l - 1 - s.blockCount) Alloc.ok ++ _ ≠ _
        rw [hk]
        simp [List.replicate_succ]
      have hy := allocateBlock_ok (counts_none _) hok
      refine .inl ⟨⟨hnext, by rw [hos]; rfl⟩, hy.trans ?_⟩
      show EStateM.Result.ok _ ({ s.unlimited with
        os := (List.replicate (l - 1 - s.blockCount) Alloc.ok ++ [Alloc.throws true]).tail
        blockCount := s.blockCount + 1 } : File K R N) = _
      rw [hk, List.replicate_succ, List.cons_append, List.tail_cons, ← hk']
      rfl
    · -- the last block
      have hos : ((refusal l).free s).os = .throws true :: [] := by
        show List.replicate (l - 1 - s.blockCount) Alloc.ok ++ _ = _
        rw [show l - 1 - s.blockCount = 0 by omega]
        rfl
      have hy := allocateBlock_throws (counts_none _) hos
      refine .inr ⟨by omega, rfl, fun h => hnext (hcounts.mp h), fun n _ => (wp_error hy).mpr ?_⟩
      refine ⟨Option.some_ne_none _, rfl, rfl, Nat.le_of_not_lt hnext, fun b hb => ?_⟩
      exact (Function.update_of_ne (fun e => hb (congrArg Nat.succ e)) n s.blocks).symm
  · rw [wp_error (allocateBlock_stale hf)]
    exact allocateBlock_stale (s := (refusal l).free s) hf

variable [LinearOrder K]

/-! ## What is left of the old root -/

/-- An inner node in order, with keys of the map `m`. -/
structure OldRoot (m : K → Option R) (s : File K R N L) (b : Nat) : Prop where
  ne : b ≠ 0
  held : (s.blocks b).file = s.addr
  bounded : (s.blocks b).recordCount ≤ N
  sorted : (s.blocks b).recs.Pairwise (·.key < ·.key)
  links : ∀ c ∈ (s.blocks b).links, c ≠ 0
  keys : ∀ e ∈ (s.blocks b).recs, m e.key ≠ none

/-- The limit stopped an insert into a tree that held `m`. -/
structure Dead (m : K → Option R) (t : Tree K R N L) : Prop extends OldRoot m t.file t.root where
  uncounted : ¬ Counts L t.file.blockCount

section Root
variable {t : Tree K R N} {G : Ghost K} {m : K → Option R} (h : Holds t G m) (hl : G.level G.root ≠ 0)
include h hl

theorem Holds.root_of_steps {u v : File K R N} {H : Ghost K} (hst : Steps t.file G u H) (hr : Refused u v) :
    OldRoot m v G.root := by
  obtain ⟨extended, rest, -, rfl⟩ := hr
  have hu := hst.sound h.toSound
  have hlive := hst.live h.shaped.rootLive
  refine ⟨hu.shaped.pos _ hlive, (hst.keeps.held _ h.rootHeld).trans hst.keeps.addr.symm, hu.bounded _ hlive,
    (hu.shaped.ordered _ hlive).sorted, ?_, fun e he => ?_⟩
  · have hlevel := hst.level h.toSound h.shaped.rootLive
    exact ((hu.links_all hlive).resolve_left fun h0 => hl (hlevel ▸ h0.1)).2
  · rw [(h.map e.key e.record).mp ((hst.has h.toSound).mp ⟨G.root, hlive, e, he, rfl, rfl⟩)]
    exact Option.some_ne_none _

theorem Holds.root_of_half {s u v : File K R N} {as : List (Entry K R)} {mid : Entry K R} {bs : List (Entry K R)}
    (hd : Does t.file s t.file.pages) (he : t.file.pages.recs G.root = as ++ mid :: bs)
    (hm : Makes 1 s u (t.file.pages.splitNode G.root t.file.blockCount as mid bs)) (hr : Refused u v) :
    OldRoot m v G.root := by
  obtain ⟨extended, rest, -, rfl⟩ := hr
  have hlive := h.shaped.rootLive
  have hne : G.root ≠ t.file.blockCount := (h.alloc _ hlive).ne
  have hkeeps := hd.toKeeps.trans hm.toKeeps
  have hrecs : (u.blocks G.root).recs = as := by
    rw [← pages_recs, hm.pages]
    simp [Pages.splitNode]
  have hlarger : (u.blocks G.root).largerNode = mid.smallerNode := by
    rw [← pages_larger, hm.pages]
    simp [Pages.splitNode, Pages.setLarger, Pages.setRecs, Pages.adopt]
  have hmem : ∀ e ∈ as ++ [mid], e ∈ (t.file.blocks G.root).recs := by
    intro e h
    rw [← pages_recs, he]
    simp only [List.mem_append, List.mem_cons, List.not_mem_nil, or_false] at h ⊢
    tauto
  have hs := (h.shaped.ordered _ hlive).sorted
  rw [he] at hs
  refine ⟨h.shaped.pos _ hlive, (hkeeps.held _ h.rootHeld).trans hkeeps.addr.symm, hkeeps.bounded _ (h.bounded _ hlive),
    ?_, fun c hc => ?_, fun e hmem' => ?_⟩
  · show (u.blocks G.root).recs.Pairwise _
    rw [hrecs]
    exact (List.pairwise_append.mp hs).1
  · have hc : c ∈ (u.blocks G.root).links := hc
    rw [Node.links, hrecs, hlarger] at hc
    refine ((h.links_all hlive).resolve_left fun h0 => hl h0.1).2 c (List.mem_append_left _ ?_)
    rw [show as.map Entry.smallerNode ++ [mid.smallerNode] = (as ++ [mid]).map Entry.smallerNode by simp] at hc
    obtain ⟨e, he, rfl⟩ := List.mem_map.mp hc
    exact List.mem_map_of_mem (hmem e he)
  · have hmem' : e ∈ (u.blocks G.root).recs := hmem'
    rw [hrecs] at hmem'
    have := hmem e (List.mem_append_left _ hmem')
    rw [(h.map e.key e.record).mp ⟨G.root, hlive, e, this, rfl, rfl⟩]
    exact Option.some_ne_none _

/-- What an insert of a new key that throws leaves of the root: it was refused a block. -/
theorem Holds.root_of_refused (hN : 3 ≤ N) {key : K} (hk : m key = none) {record : R} {e : Err} {u : Tree K R N}
    (hx : Tree.insert key record t = .error e u) : e = .allocateBlock ∧ OldRoot m u.file G.root := by
  obtain ⟨-, hcase⟩ := (wp_error hx).mp (h.toWhole.insert_wp hN key record)
  rcases hcase with ⟨-, ⟨r, hr⟩, -⟩ | ⟨he, -, h1, h2⟩
  · exact absurd hr (h.absent hk r)
  · refine ⟨he, ?_⟩
    by_cases hg : ¬ t.file.Grants ∨ Spare N t.file.pages G key 0
    · obtain ⟨v, H, hst, -, hr⟩ := h1 hg
      exact h.root_of_steps hl hst hr
    · rw [not_or, not_not] at hg
      rcases h2 hg.1 hg.2 with ⟨v, H, hst, -, hr⟩ | ⟨s, v, as, mid, bs, hd, he, hm, hr⟩
      · exact h.root_of_steps hl hst hr
      · exact h.root_of_half hl hd he hm hr

end Root

/-! ## Inserts into a stopped tree -/

/-- A stopped tree stays as it is: the next insert stops at the first link. -/
theorem Dead.insert {m : K → Option R} {t : Tree K R N L} (h : Dead m t) (h0 : 0 < t.file.blockCount) {key : K}
    (hk : m key = none) (record : R) : Tree.insert key record t = .error .fileLength t := by
  obtain ⟨f, hf⟩ := Nat.exists_eq_succ_of_ne_zero h0.ne'
  have hlink : ∀ {index : Nat}, index ≠ 0 → wp (convertIndexToPtr t.root index) (fun _ _ => False)
      (fun e s => e = .fileLength ∧ s = t.file) t.file := by
    intro index hi
    unfold convertIndexToPtr
    rw [wp_bind, wp_node h.ne]
    exact (convertWith_stops h.held hi h.uncounted).mpr ⟨rfl, rfl⟩
  have hinsert : wp (Tree.insert key record) (fun _ _ => False) (fun e u => e = .fileLength ∧ u = t) t := by
    unfold Tree.insert Node.insert
    rw [wp_bind, wp_get, wp_bind, wp_onFile, wp_bind, wp_get, hf]
    unfold insertFrom
    rw [wp_bind, wp_node h.ne]
    by_cases hp : (t.file.blocks t.root).parentNode = 0
    · rw [if_neg (not_not.mpr hp), wp_bind]
      unfold locate
      rw [wp_bind, wp_get, wp_bind, hf]
      unfold findRecordAndNode
      rw [wp_bind, wp_node h.ne, wp_bind]
      apply (searchLoop_returns h.ne h.bounded h.sorted key).wp
      intro o s ho
      obtain ⟨rfl, rfl⟩ := ho
      cases hstop : linear key (t.file.blocks t.root).largerNode (t.file.blocks t.root).recs with
      | here e =>
        obtain ⟨he, rfl⟩ := seek_here _ _ hstop
        exact absurd hk (h.keys e he)
      | down c =>
        obtain ⟨g, hg, rfl, -⟩ := seek_down _ _ none none hstop
        have hc : g.child ∈ (t.file.blocks t.root).links := by
          have := List.mem_map_of_mem (f := Gap.child) hg
          rwa [gaps_child] at this
        have hc0 := h.links _ hc
        simp only [Stop.of]
        rw [if_pos hc0, wp_bind]
        exact (hlink hc0).mono (fun _ _ hf => hf.elim) fun _ s hs => ⟨hs.1, by rw [hs.2]⟩
    · rw [if_pos hp, wp_bind]
      unfold findRoot
      rw [wp_bind, wp_get, hf]
      unfold findRootFrom
      rw [wp_bind, wp_node h.ne, if_neg hp, wp_bind]
      exact (hlink hp).mono (fun _ _ hf => hf.elim) fun _ s hs => ⟨hs.1, by rw [hs.2]⟩
  obtain ⟨e, u, hu, rfl, rfl⟩ := hinsert.throws
  exact hu

/-- An insert that the limit stops leaves a stopped tree. -/
theorem Below.dead (hN : 3 ≤ N) {l : Nat} (hl : 5 < l) {t : Tree K R N (some l)} {u : Tree K R N} {G : Ghost K}
    {m : K → Option R} (hb : Below t u) (h : Good u G m) (ht : Tidy u.file G) {key : K} (hk : m key = none) {record : R}
    (hf : ¬ Fits t (.insert key record)) : Dead m ((Op.insert key record).exec t).2 := by
  have hL : Counts (some l) 5 := fun l' hl' => Option.some.inj hl' ▸ hl
  obtain ⟨he, hs, hroot⟩ := hb.exec_unfit hN hL (.inl ⟨G, m, h⟩) hf
  have hrlt := (Attained.root_lt (.inl ⟨G, m, h⟩) : u.root < u.file.blockCount)
  have hlevel : G.level G.root ≠ 0 := by
    -- a tree that is a leaf has one block and needs two
    intro h0
    have h2 : u.file.blockCount ≤ 2 := by
      by_contra hlt
      have h1 := h.toSound.eq_root h0 (ht.dense 1 (by omega) (by omega))
      have h2 := h.toSound.eq_root h0 (ht.dense 2 (by omega) (by omega))
      omega
    refine hf fun n b _ => hL.le ?_
    have := Pages.needs_le (N := N) t.file.pages t.file.blockCount b
    have := hb.blockCount
    omega
  have ha := h.toHolds.armed (List.replicate (l - 1 - u.file.blockCount) .ok ++ [.throws true])
  cases hx : Tree.insert key record t with
  | ok _ v =>
    rw [exec_insert, hx] at he
    cases he
  | error e v =>
    have hexec : (Op.insert key record).exec t = (.threw e, v) := by rw [exec_insert, hx, seen]
    rw [hexec] at he hs hroot ⊢
    have he : e = .fileLength := Res.threw.inj he
    subst he
    obtain ⟨rfl, hlt⟩ := hb
    rcases (mirrors_treeInsert (refusal_counted (by omega : 2 < l)) key record).error
      (s := t) ⟨hlt l rfl, h.granted⟩ hx with hy | ⟨-, hp⟩
    · -- nothing else throws so
      cases (ha.root_of_refused hlevel hN hk hy).1
    · rcases wp.run hp with ⟨_, w, -, hpast⟩ | ⟨e, w, hw, -, haddr, -, hover, hblocks⟩
      · exact absurd rfl hpast.1
      · have hold := (ha.root_of_refused hlevel hN hk hw).2
        have hvroot : v.root = G.root := hroot.trans h.root
        have hsame : w.file.blocks G.root = v.file.blocks G.root := by
          refine hblocks _ ?_
          have hr : G.root < t.file.blockCount := h.root ▸ hrlt
          have := hlt l rfl
          have hover : l ≤ v.file.blockCount := hover
          omega
        refine ⟨?_, hs.uncounted⟩
        rw [hvroot]
        exact ⟨hold.ne, by rw [← hsame, hold.held]; exact haddr, hsame ▸ hold.bounded, hsame ▸ hold.sorted,
          hsame ▸ hold.links, hsame ▸ hold.keys⟩

/-! ## Whole runs -/

omit [LinearOrder K] in
theorem inserts_concat (kvs : List (K × R)) (kv : K × R) :
    inserts (kvs ++ [kv]) = inserts kvs ++ [.insert kv.1 kv.2] := by
  rw [inserts, List.map_append]
  rfl

theorem mem_of_firstInsert {kvs : List (K × R)} {k : K} (h : firstInsert (inserts kvs) k ≠ none) :
    k ∈ kvs.map Prod.fst := by
  induction kvs with
  | nil => exact absurd rfl h
  | cons kv kvs ih =>
    rw [List.map_cons, List.mem_cons]
    by_cases e : k = kv.1
    · exact .inl e
    · rw [inserts, List.map_cons, firstInsert, if_neg e] at h
      exact .inr (ih h)

/-- Each insert of new keys returns, or the limit stops it; and then the tree is stopped. -/
theorem run_inserts (hN : 3 ≤ N) {l : Nat} (hl : 5 < l) {raw : Nat → Node K R N} (hz : (raw 1).largerNode = 0)
    (addr : Nat) (kvs : List (K × R)) (hd : (kvs.map Prod.fst).Nodup) :
    (∀ r ∈ results (fresh raw addr (some l)) (inserts kvs), r = .inserted ∨ r = .threw .fileLength) ∧
    (Below (run (fresh raw addr (some l)) (inserts kvs)) (run (fresh raw addr) (inserts kvs)) ∨
      ∃ m, Dead m (run (fresh raw addr (some l)) (inserts kvs)) ∧ ∀ k, m k ≠ none → k ∈ kvs.map Prod.fst) := by
  have hL : Counts (some l) 5 := fun l' hl' => Option.some.inj hl' ▸ hl
  induction kvs using List.reverseRecOn with
  | nil => exact ⟨fun r hr => (List.not_mem_nil hr).elim, .inl (fresh_below raw addr (hL.le (by omega)))⟩
  | append_singleton kvs kv ih =>
    rw [List.map_append, List.map_singleton, List.nodup_append'] at hd
    have hnew : kv.1 ∉ kvs.map Prod.fst := fun h => hd.2.2 h (List.mem_singleton_self _)
    obtain ⟨hres, hstate⟩ := ih hd.1
    rw [inserts_concat, results_concat, run_concat, run_concat]
    have hlast : ∀ {r : Res R}, r = .inserted ∨ r = .threw .fileLength →
        ∀ r' ∈ results (fresh raw addr (some l)) (inserts kvs) ++ [r], r' = .inserted ∨ r' = .threw .fileLength := by
      intro r hr r' hr'
      rcases List.mem_append.mp hr' with hr' | hr'
      · exact hres r' hr'
      · rw [List.mem_singleton.mp hr']
        exact hr
    rcases hstate with hb | ⟨m, hm, hkeys⟩
    · obtain ⟨G, h, ht⟩ := run_tidy hN hz addr (inserts kvs)
      rw [specRun_empty] at h
      have hk : firstInsert (inserts kvs) kv.1 = none := by_contra fun hk => hnew (mem_of_firstInsert hk)
      by_cases hf : Fits (run (fresh raw addr (some l)) (inserts kvs)) (.insert kv.1 kv.2)
      · obtain ⟨he, hb⟩ := hb.exec hN hL (.inl ⟨G, _, h⟩) hf
        rw [(h.exec hN _).1, spec, hk] at he
        exact ⟨hlast (.inl he.symm), .inl hb⟩
      · refine ⟨hlast (.inr (hb.exec_unfit hN hL (.inl ⟨G, _, h⟩) hf).1),
          .inr ⟨_, hb.dead hN hl h ht hk hf, fun k hk => ?_⟩⟩
        rw [List.map_append]
        exact List.mem_append_left _ (mem_of_firstInsert hk)
    · have h0 : 0 < (run (fresh raw addr (some l)) (inserts kvs)).file.blockCount := by
        by_contra h0
        exact hm.uncounted fun l' hl' => Option.some.inj hl' ▸ (by omega)
      have hx := hm.insert h0 (by_contra fun hk => hnew (hkeys _ hk) : m kv.1 = none) kv.2
      have hexec : (Op.insert kv.1 kv.2).exec (run (fresh raw addr (some l)) (inserts kvs)) =
          (.threw .fileLength, run (fresh raw addr (some l)) (inserts kvs)) := by rw [exec_insert, hx, seen]
      rw [hexec]
      refine ⟨hlast (.inr rfl), .inr ⟨m, hm, fun k hk => ?_⟩⟩
      rw [List.map_append]
      exact List.mem_append_left _ (hkeys k hk)

/-- Inserts of distinct keys at capacity `N`, whatever the types: each of them returns, or
    stops in `block_count` for want of blocks. -/
def InsertsSafe (N : Nat) : Prop :=
  ∀ (K R : Type) [LinearOrder K] (raw : Nat → Node K R N) (addr : Nat) (kvs : List (K × R)), ZeroFilled raw →
    (kvs.map Prod.fst).Nodup →
    ∀ r ∈ results (fresh raw addr (some blockLimit)) (inserts kvs), r = .inserted ∨ r = .threw .fileLength

/-- 40000 bytes a record: one record to a block of 64 KiB, and the second insert reads
    past the node's only entry. -/
theorem one_record_out_of_range :
    nodeMaxSizer (fun n => 20 + 40008 * n) 65536 16 32768 32768 = some 1 ∧ ¬ InsertsSafe 1 := by
  refine ⟨by decide, fun h => ?_⟩
  have := h Nat Nat (zeroed 0 0) 7 [(1, 10), (2, 20)] (zeroed_zeroFilled 0 0) (by decide) (.threw .outOfRange)
    (by decide +kernel)
  rcases this with h | h <;> cases h

theorem insertsSafe_iff (N : Nat) : InsertsSafe N ↔ 3 ≤ N := by
  constructor
  · intro h
    by_contra hN
    have hz : ∀ n, ZeroFilled (zeroed 0 0 : Nat → Node Nat Nat n) := fun n => zeroed_zeroFilled 0 0
    -- the split of the first full leaf
    have hbad : Res.threw .outOfRange ∈ results (fresh (zeroed 0 0 : Nat → Node Nat Nat N) 7 (some blockLimit))
      (inserts [(1, 10), (2, 20), (3, 30)]) := by
      obtain rfl | rfl | rfl : N = 0 ∨ N = 1 ∨ N = 2 := by omega
      · decide +kernel
      · decide +kernel
      · decide +kernel
    rcases h Nat Nat (zeroed 0 0) 7 [(1, 10), (2, 20), (3, 30)] (hz N) (by decide) _ hbad with h | h <;> cases h
  · intro hN K R _ raw addr kvs hz hd
    exact (run_inserts hN (by decide) (hz 1).2.2.2.1 addr kvs hd).1

end Dumbnose.Btree
