/-
  Dumbnose.Btree.Shallow — when every node has records, and how many keys a tree of a
  given depth then holds.

  `split_node` keeps `middle_ = N / 2 + 1` records, sends one up and moves the rest.
  From capacity 5 on something is left to move. At 3 and 4 nothing is: the right half
  starts without records, and it gets one only if the key being inserted belongs
  there, which is to say if that key is above the whole node. So an insert leaves
  every node a record exactly if it splits no node that holds a greater key
  (`Balances`), and a run keeps the tree shallow as long as all its inserts do, and the
  file has room: where the limit stops a cascade, a node without records is left.
-/

import Mathlib.Algebra.BigOperators.Fin
import Mathlib.Algebra.Order.Ring.GeomSum
import Mathlib.Order.Interval.Finset.Nat
import Dumbnose.Btree.Structure
import Dumbnose.Lib.Splits

namespace Dumbnose.Btree

open Lib.Exec Lib.Gaps

variable {K R : Type} {N : Nat} {L : Option Nat}

/-- The records in the file. -/
def keyCount (s : File K R N L) : Nat := ∑ b ∈ Finset.Ico 1 s.blockCount, (s.blocks b).recordCount

variable [LinearOrder K]

/-- Every node but the root of an empty tree has a record, and a tree of depth `d` that
    is not empty holds at least `2 ^ d - 1` keys. -/
structure Shallow (t : Tree K R N L) : Prop where
  records : ∀ b, 1 ≤ b → b < t.file.blockCount → (t.file.blocks b).recordCount = 0 → b = t.root ∧ keyCount t.file = 0
  keys : ∀ d u, Tree.depth t = .ok d u → keyCount t.file ≠ 0 → 2 ^ d - 1 ≤ keyCount t.file

/-- An insert of `key` splits no node with a greater key, or splits none at all, or
    splits leave both halves a record: the nodes it splits are those on the search path
    that are full, as is everything below them on the path. -/
def Balances (t : Tree K R N L) (key : K) : Prop :=
  5 ≤ N ∨ (∃ b, OnPath t.file.pages key t.root b ∧ ∃ e ∈ t.file.pages.recs b, e.key = key) ∨
  ∀ b, b < t.file.blockCount → OnPath t.file.pages key t.root b →
    (∀ c, OnPath t.file.pages key b c → (t.file.pages.recs c).length = N) → ∀ e ∈ t.file.pages.recs b, e.key < key

/-! ## Counting -/

section Count
variable {s : File K R N} {G : Ghost K} (h : Sound s G) (ht : Tidy s G)
include h ht

theorem Tidy.live_iff (b : Nat) : G.live b ↔ b ∈ Finset.Ico 1 s.blockCount := by
  rw [Finset.mem_Ico]
  exact ⟨fun hb => ⟨Nat.pos_of_ne_zero (h.shaped.pos b hb), h.alloc b hb⟩, fun hb => ht.dense b (by omega) hb.2⟩

/-- The nodes `l` levels above the leaves. -/
def nodesAt (s : File K R N) (G : Ghost K) (l : Nat) : Finset Nat := {b ∈ Finset.Ico 1 s.blockCount | G.level b = l}

theorem Tidy.mem_nodesAt {b l : Nat} : b ∈ nodesAt s G l ↔ G.live b ∧ G.level b = l := by
  rw [nodesAt, Finset.mem_filter, ← ht.live_iff h]

/-- Two children a node. -/
theorem Tidy.card_nodesAt (hs : Solid s.pages G) (l : Nat) : 2 * (nodesAt s G (l + 1)).card ≤ (nodesAt s G l).card := by
  have hfirst : ∀ b, G.live b → G.level b = l + 1 → first Entry.smallerNode (s.pages.larger b) (s.pages.recs b) ∈
      (s.pages.recs b).map Entry.smallerNode := by
    intro b hb hl
    cases hr : s.pages.recs b with
    | nil => exact absurd (hs b hb hr).2 (by omega)
    | cons e es => simp [first]
  let f : Nat × Bool → Nat := fun p =>
    if p.2 then s.pages.larger p.1 else first Entry.smallerNode (s.pages.larger p.1) (s.pages.recs p.1)
  have hf : ∀ b i, G.live b → G.level b = l + 1 → f (b, i) ∈ (s.blocks b).links := by
    intro b i hb hl
    rw [Node.links, List.mem_append]
    cases i
    · exact .inl (hfirst b hb hl)
    · exact .inr (List.mem_singleton_self _)
  have hchild : ∀ b i, G.live b → G.level b = l + 1 → G.live (f (b, i)) ∧ s.pages.parent (f (b, i)) = b ∧
      G.level (f (b, i)) + 1 = G.level b := by
    intro b i hb hl
    have h0 := (h.links_all hb).resolve_left fun e => by omega
    exact h.link_mem hb (hf b i hb hl) (h0.2 _ (hf b i hb hl))
  have := Finset.card_le_card_of_injOn (s := nodesAt s G (l + 1) ×ˢ (Finset.univ : Finset Bool))
    (t := nodesAt s G l) f ?_ ?_
  · rw [Finset.card_product, Finset.card_univ, Fintype.card_bool] at this
    omega
  · intro h hb
    obtain ⟨b, i⟩ := h
    obtain ⟨hb, hl⟩ := (ht.mem_nodesAt h).mp (Finset.mem_product.mp hb).1
    obtain ⟨h1, -, h2⟩ := hchild b i hb hl
    exact (ht.mem_nodesAt h).mpr ⟨h1, Nat.succ.inj (h2.trans hl)⟩
  · rintro ⟨b, i⟩ hb ⟨c, j⟩ hc he
    obtain ⟨hb, hbl⟩ := (ht.mem_nodesAt h).mp (Finset.mem_product.mp hb).1
    obtain ⟨hc, hcl⟩ := (ht.mem_nodesAt h).mp (Finset.mem_product.mp hc).1
    have hbc : b = c := by
      have h1 := (hchild b i hb hbl).2.1
      rw [he, (hchild c j hc hcl).2.1] at h1
      exact h1.symm
    subst hbc
    -- the first link and the last are different links
    have hnd := (List.nodup_append'.mp (h.shaped.links_nodup hb (by omega))).2.2
    cases i <;> cases j
    · rfl
    · exact (hnd (hfirst b hb hbl) (by rw [List.mem_singleton]; exact he)).elim
    · exact (hnd (hfirst b hb hbl) (by rw [List.mem_singleton]; exact he.symm)).elim
    · rfl

theorem Tidy.two_pow_le_card (hs : Solid s.pages G) {l : Nat} (hl : l ≤ G.level G.root) :
    2 ^ (G.level G.root - l) ≤ (nodesAt s G l).card := by
  induction hn : G.level G.root - l generalizing l with
  | zero =>
    refine Finset.card_pos.mpr ⟨G.root, (ht.mem_nodesAt h).mpr ⟨h.shaped.rootLive, by omega⟩⟩
  | succ n ih =>
    have h1 := ih (l := l + 1) (by omega) (by omega)
    have h2 := ht.card_nodesAt h hs l
    rw [Nat.pow_succ]
    omega

/-- A tree with records in every node holds that many keys. -/
theorem Tidy.keyCount_ge (hs : Solid s.pages G) (hr : ∀ b, G.live b → (s.blocks b).recordCount ≠ 0) :
    2 ^ (G.level G.root + 1) - 1 ≤ keyCount s := by
  have hcard : (Finset.Ico 1 s.blockCount).card = ∑ l ∈ Finset.range (G.level G.root + 1), (nodesAt s G l).card :=
    Finset.card_eq_sum_card_fiberwise fun b hb => by
      have := h.shaped.below b ((ht.live_iff h b).mpr hb)
      simpa using Nat.lt_succ_of_le this
  calc 2 ^ (G.level G.root + 1) - 1 = ∑ l ∈ Finset.range (G.level G.root + 1), 2 ^ l := by
        rw [Nat.geomSum_eq (Nat.le_refl 2), Nat.div_one]
    _ = ∑ l ∈ Finset.range (G.level G.root + 1), 2 ^ (G.level G.root - l) :=
        (Finset.sum_flip fun l => 2 ^ l).symm
    _ ≤ ∑ l ∈ Finset.range (G.level G.root + 1), (nodesAt s G l).card :=
        Finset.sum_le_sum fun l hl => ht.two_pow_le_card h hs (Nat.le_of_lt_succ (Finset.mem_range.mp hl))
    _ = ∑ b ∈ Finset.Ico 1 s.blockCount, 1 := by rw [← hcard, Finset.card_eq_sum_ones]
    _ ≤ keyCount s := Finset.sum_le_sum fun b hb => Nat.pos_of_ne_zero (hr b ((ht.live_iff h b).mpr hb))

omit ht in
theorem Sound.count_eq_zero {b : Nat} (hb : G.live b) : (s.blocks b).recordCount = 0 ↔ s.pages.recs b = [] := by
  rw [← Node.recs_length (h.bounded b hb), ← pages_recs, List.length_eq_zero_iff]

theorem Tidy.solid_iff {t : Tree K R N} (hroot : t.root = G.root) (hfile : t.file = s)
    (hdepth : Tree.depth t = .ok (G.level G.root + 1) t) : Shallow t ↔ Solid s.pages G := by
  subst hfile
  constructor
  · intro hsh b hb hr
    obtain ⟨h1, h2⟩ := hsh.records b (Nat.pos_of_ne_zero (h.shaped.pos b hb)) (h.alloc b hb)
      ((h.count_eq_zero hb).mpr hr)
    rw [hroot] at h1
    refine ⟨h1, ?_⟩
    subst h1
    by_contra hl
    -- no key in the file, yet the root has a child, which must then have a record
    have hlink : (t.file.blocks G.root).largerNode ∈ (t.file.blocks G.root).links := by simp [Node.links]
    have h0 := (h.links_all h.shaped.rootLive).resolve_left (fun e => hl e.1)
    obtain ⟨hc, -, hcl⟩ := h.link_mem h.shaped.rootLive hlink (h0.2 _ hlink)
    have hz := Finset.sum_eq_zero_iff.mp h2 _ ((ht.live_iff h _).mp hc)
    have := (hsh.records _ (Nat.pos_of_ne_zero (h.shaped.pos _ hc)) (h.alloc _ hc) hz).1
    rw [hroot] at this
    rw [this] at hcl
    omega
  · intro hs
    have hzero : G.level G.root = 0 → keyCount t.file = (t.file.blocks G.root).recordCount := by
      intro hl
      refine Finset.sum_eq_single_of_mem G.root ((ht.live_iff h _).mp h.shaped.rootLive) fun b hb hne => ?_
      exact absurd (h.eq_root hl ((ht.live_iff h b).mpr hb)) hne
    refine ⟨fun b h1 h2 hr => ?_, fun d u hd hk => ?_⟩
    · have hb := ht.dense b (by omega) h2
      obtain ⟨rfl, hl⟩ := hs b hb ((h.count_eq_zero hb).mp hr)
      exact ⟨hroot.symm, by rw [hzero hl, hr]⟩
    · rw [hdepth] at hd
      injection hd with hd
      subst hd
      refine ht.keyCount_ge h hs fun b hb hr => ?_
      obtain ⟨rfl, hl⟩ := hs b hb ((h.count_eq_zero hb).mp hr)
      exact hk (by rw [hzero hl, hr])

end Count

/-! ## One insert -/

section Step
variable {s : File K R N} {G : Ghost K} (h : Sound s G) {k : K} {b c : Nat}

/-- The nodes on a path are in one line. -/
theorem OnPath.linear {P : Pages K R} {a : Nat} (hb : OnPath P k a b) (hc : OnPath P k a c) :
    OnPath P k b c ∨ OnPath P k c b := by
  induction hb with
  | refl => exact .inl hc
  | down h1 h0 hb ih =>
    cases hc with
    | refl => exact .inr (.down h1 h0 hb)
    | down h2 _ hc =>
      rw [h1] at h2
      injection h2 with e
      subst e
      exact ih hc

include h

theorem Sound.fullTo_iff : FullTo N s.pages G k 0 b ↔
    OnPath s.pages k G.root b ∧ ∀ c, OnPath s.pages k b c → (s.pages.recs c).length = N := by
  rw [h.shaped.onPath_iff]
  constructor
  · intro h
    obtain ⟨h1, -, h3, h4⟩ := h
    refine ⟨⟨h1, h3⟩, fun c hc => ?_⟩
    obtain ⟨h5, h6, h7⟩ := h.shaped.below_of_onPath h1 hc
    exact h4 c h5 (Nat.zero_le _) h6 (h7 h3)
  · intro h
    obtain ⟨⟨h1, h3⟩, h4⟩ := h
    refine ⟨h1, Nat.zero_le _, h3, fun c hc _ hl hcw => h4 c ?_⟩
    rcases (h.shaped.onPath h1 h3).linear (h.shaped.onPath hc hcw) with hbc | hcb
    · exact hbc
    · have := (h.shaped.below_of_onPath hc hcb).2.1
      rw [h.shaped.unique hc h1 hcw h3 (by omega)]
      exact .refl _

end Step

variable {t : Tree K R N} {G : Ghost K} {m : K → Option R}

theorem Good.balances_iff (h : Good t G m) {key : K} (hk : m key = none) :
    Balances t key ↔ Climbs N t.file.pages G key 0 := by
  unfold Balances Climbs
  rw [h.root]
  constructor
  · intro h5 c hf
    rcases h5 with h5 | ⟨b, hb, e, he, rfl⟩ | hc
    · exact .inl h5
    · exact absurd ⟨b, (h.shaped.onPath_iff.mp hb).1, e, he, rfl, rfl⟩ (h.absent hk e.record)
    · obtain ⟨h1, h2⟩ := h.toSound.fullTo_iff.mp hf
      exact .inr (hc c (h.alloc c hf.live) h1 h2)
  · intro hc
    by_cases h5 : 5 ≤ N
    · exact .inl h5
    · exact .inr (.inr fun b _ h1 h2 => (hc b (h.toSound.fullTo_iff.mpr ⟨h1, h2⟩)).resolve_left h5)

/-- An insert keeps the tree shallow exactly if it balances. -/
theorem Good.solid_insert (h : Good t G m) {key : K} {record : R} {f : File K R N} {H : Ghost K}
    (hi : Inserts t.file G key record f H) (hk : m key = none) (hs : Solid t.file.pages G) :
    Solid f.pages H ↔ Balances t key := by
  rw [h.balances_iff hk]
  refine ⟨fun hsf => ?_, hi.solid hs⟩
  by_contra hc
  simp only [Climbs, not_forall, not_or, not_lt, Nat.not_le] at hc
  obtain ⟨b, hb, h5, e, he, hke⟩ := hc
  have hne : e.key ≠ key := fun hke => h.absent hk e.record ⟨b, hb.live, e, he, hke, rfl⟩
  exact hi.hollow h5 ⟨b, hb, e, he, lt_of_le_of_ne hke hne.symm⟩ hsf

theorem Good.balances_of_present (h : Good t G m) {key : K} {r : R} (hk : m key = some r) : Balances t key := by
  obtain ⟨b, hb, e, he, rfl, -⟩ := (h.map key r).mpr hk
  exact .inr (.inl ⟨b, by rw [h.root]; exact h.shaped.onPath hb (h.shaped.within_of_mem hb he), e, he, rfl⟩)

/-! ## Whole runs -/

omit [LinearOrder K] in
theorem Stuck.shallow {c : Nat} (h : Stuck t c) : Shallow t := by
  have hz : keyCount t.file = 0 := by rw [keyCount, h.blockCount]; simp [h.count]
  exact ⟨fun b h1 h2 _ => ⟨by rw [h.root]; rw [h.blockCount] at h2; omega, hz⟩, fun _ _ _ hk => absurd hz hk⟩

theorem Stuck.balances (hN : 3 ≤ N) {c : Nat} (h : Stuck t c) (key : K) : Balances t key := by
  refine .inr (.inr fun b hlt hb hfull => ?_)
  have h1 : ∀ d, OnPath t.file.pages key t.root d → d ≠ 0 := by
    intro d hd
    rw [h.root] at hd
    generalize ha : (1 : Nat) = a at hd
    have h0 : a ≠ 0 := ha ▸ Nat.one_ne_zero
    clear ha
    induction hd with
    | refl => exact h0
    | down _ hc0 _ ih => exact ih hc0
  have hb1 : b = 1 := by have := h1 b hb; rw [h.blockCount] at hlt; omega
  subst hb1
  have := hfull 1 (.refl 1)
  rw [pages_recs, Node.recs, h.count, List.take_zero, List.length_nil] at this
  omega

theorem Tidy.shallow_solid (hN : 3 ≤ N) (h : Good t G m) (ht : Tidy t.file G) : Shallow t ↔ Solid t.file.pages G :=
  ht.solid_iff h.toSound h.root rfl (h.toWhole.depth_eq ht (by omega))

theorem fresh_shallow (hN : 3 ≤ N) (raw : Nat → Node K R N) (addr : Nat) : Shallow (fresh raw addr) := by
  by_cases hz : (raw 1).largerNode = 0
  · exact ((fresh_tidy raw addr).shallow_solid hN (fresh_good addr hz)).mpr fun b hb _ => ⟨hb, rfl⟩
  · exact (fresh_stuck addr hz).shallow

/-- An operation keeps the tree shallow exactly if it balances. -/
theorem run_shallow_step (hN : 3 ≤ N) (raw : Nat → Node K R N) (addr : Nat) {p : List (Op K R)} {op : Op K R}
    (hp : Shallow (run (fresh raw addr) p)) :
    Shallow (run (fresh raw addr) (p ++ [op])) ↔
      ∀ key record, op = .insert key record → Balances (run (fresh raw addr) p) key := by
  by_cases hz : (raw 1).largerNode = 0
  · obtain ⟨G, h, ht⟩ := run_tidy hN hz addr p
    have hs := (ht.shallow_solid hN h).mp hp
    obtain ⟨-, H, h2, h3⟩ := h.exec hN op
    rw [run_concat]
    rcases h3 with ⟨rfl, h3, h4⟩ | ⟨key, record, rfl, hm, hi⟩
    · -- a read
      have hread : Shallow (op.exec (run (fresh raw addr) p)).2 := by
        apply ((ht.does h3.does).shallow_solid hN h2).mpr
        rw [h3.does.pages]; exact hs
      refine ⟨fun _ key record e => ?_, fun _ => hread⟩
      subst e
      cases hm : specRun (fun _ => none) p key with
      | some r => exact h.balances_of_present hm
      | none =>
        simp only [spec, hm] at h4
        have := congrFun h4 key
        rw [Function.update_self, hm] at this
        cases this
    · rw [(ht.inserts hi).shallow_solid hN h2, h.solid_insert hi hm hs]
      exact ⟨fun hb key' record' e => (by injection e with e1 e2; exact e1 ▸ hb), fun hb => hb key record rfl⟩
  · have h := fresh_stuck addr hz
    rw [(h.run _).1, (h.run _).1]
    exact iff_of_true h.shallow fun key _ _ => h.balances hN key

/-! ## At the limit -/

section Limit
variable {t : Tree K R N L}

omit [LinearOrder K] in
theorem Shallow.of_unlimited (hL : Counts L 2) (ht : Counts L t.file.blockCount) (h : Shallow t.unlimited) :
    Shallow t :=
  ⟨h.records, fun d _ hd => h.keys d _ ((mirrors_treeDepth (limit_counted hL)).ok ht hd).2⟩

omit [LinearOrder K] in
theorem Shallow.unlimited (hL : Counts L 2) (ht : Counts L t.file.blockCount) (h : Shallow t) {d : Nat}
    (hd : Tree.depth t.unlimited = .ok d t.unlimited) : Shallow t.unlimited := by
  refine ⟨h.records, fun d' u hu => ?_⟩
  rw [hd] at hu
  obtain ⟨rfl, -⟩ := EStateM.Result.ok.inj hu
  exact h.keys d t (depth_of_unlimited hL ht hd)

omit [LinearOrder K] in
/-- Where the limit stopped the tree, the last block is a node without records. -/
theorem Stopped.not_shallow (h : Stopped t) {n : Nat} (hn : Counts L n) (hroot : t.root < n) :
    ¬ Shallow t := by
  intro hs
  have hlt : n < t.file.blockCount := by
    by_contra hle
    exact h.uncounted (hn.le (by omega))
  have := (hs.records (t.file.blockCount - 1) (by omega) (by omega) h.last).1
  omega

end Limit

theorem room_shallow (hN : 3 ≤ N) (hL : Counts L 5) (raw : Nat → Node K R N) (addr : Nat) (ops : List (Op K R)) :
    (∀ p, p <+: ops → Shallow (run (fresh raw addr L) p)) ↔
      Room (fresh raw addr L) ops ∧
        ∀ p key record, p ++ [.insert key record] <+: ops → Balances (run (fresh raw addr L) p) key := by
  have hL2 : Counts L 2 := hL.le (by omega)
  have hBal : ∀ {p : List (Op K R)}, Below (run (fresh raw addr L) p) (run (fresh raw addr) p) → ∀ key,
      (Balances (run (fresh raw addr L) p) key ↔ Balances (run (fresh raw addr) p) key) := by
    intro p hb key
    rw [← hb.same]
    rfl
  rw [Lib.Splits.forall_prefix_iff_of_inv
    (S := fun p => Below (run (fresh raw addr L) p) (run (fresh raw addr) p) ∧ Shallow (run (fresh raw addr) p))
    (B := fun p op => Fits (run (fresh raw addr L) p) op ∧
      ∀ key record, op = .insert key record → Balances (run (fresh raw addr L) p) key)
    ⟨fresh_below raw addr hL2, fresh_shallow hN raw addr⟩ (fun p h => ?_) (fun p op h hf => ?_) (fun p op h hf => ?_)]
  · exact ⟨fun h => ⟨fun p op hp => (h p op hp).1, fun p key record hp => (h p _ hp).2 key record rfl⟩,
      fun h p op hp => ⟨h.1 p op hp, fun key record e => h.2 p key record (e ▸ hp)⟩⟩
  · obtain ⟨hb, hs⟩ := h
    rw [← hb.same] at hs
    exact hs.of_unlimited hL2 hb.counts
  · obtain ⟨hb, hs⟩ := h
    refine ⟨?_, (run_shallow_step hN raw addr hs).mpr fun key record e => (hBal hb key).mp (hf.2 key record e)⟩
    rw [run_concat, run_concat]
    exact (hb.exec hN hL (run_attained hN raw addr p) hf.1).2
  · obtain ⟨hb, hs⟩ := h
    have ha := run_attained hN raw addr p
    intro hsh
    by_cases hfit : Fits (run (fresh raw addr L) p) op
    · -- a split that does not balance
      refine hf ⟨hfit, fun key record e => (hBal hb key).mpr ?_⟩
      have hb' : Below (run (fresh raw addr L) (p ++ [op])) (run (fresh raw addr) (p ++ [op])) := by
        rw [run_concat, run_concat]
        exact (hb.exec hN hL ha hfit).2
      by_cases hz : (raw 1).largerNode = 0
      · obtain ⟨G, h, ht⟩ := run_tidy hN hz addr (p ++ [op])
        have hd := h.toWhole.depth_eq ht (by omega)
        rw [← hb'.same] at hd
        have hsu := hsh.unlimited hL2 hb'.counts hd
        rw [hb'.same] at hsu
        exact (run_shallow_step hN raw addr hs).mp hsu key record e
      · have h := fresh_stuck addr hz
        rw [(h.run p).1]
        exact h.balances hN key
    · obtain ⟨-, hstop, hroot⟩ := hb.exec_unfit hN hL ha hfit
      rw [← run_concat] at hstop hroot
      have hlt := ha.root_lt
      rw [hb.root, hb.blockCount] at hlt
      exact hstop.not_shallow hb.counts (hroot ▸ hlt) hsh

/-- Every state of a run is shallow exactly if the file has room and every insert of the
    run balances. -/
theorem shallow_iff (hN : 3 ≤ N) (raw : Nat → Node K R N) (addr : Nat) (ops : List (Op K R)) :
    (∀ p, p <+: ops → Shallow (run (fresh raw addr (some blockLimit)) p)) ↔
      Room (fresh raw addr (some blockLimit)) ops ∧
        ∀ p key record, p ++ [.insert key record] <+: ops → Balances (run (fresh raw addr (some blockLimit)) p) key :=
  room_shallow hN (counts_limit (by decide)) raw addr ops

/-- At capacity 3, ten keys in descending order make a tree of depth 4. -/
theorem descending_hollow :
    ¬ Shallow (run (fresh (zeroed 0 0 : Nat → Node Nat Nat 3) 7 (some blockLimit))
      ((List.range 10).map fun i => .insert (10 - i) 0)) := by
  intro h
  have hd : Returns Tree.depth (fun d _ => d = 4)
      (run (fresh (zeroed 0 0 : Nat → Node Nat Nat 3) 7 (some blockLimit))
        ((List.range 10).map fun i => .insert (10 - i) 0)) := by
    decide +kernel
  obtain ⟨_, u, hu, rfl⟩ := hd.run
  have hk : keyCount (run (fresh (zeroed 0 0 : Nat → Node Nat Nat 3) 7 (some blockLimit))
    ((List.range 10).map fun i => .insert (10 - i) 0)).file
    = 10 := by decide +kernel
  have := h.keys 4 u hu (by rw [hk]; decide)
  omega

/-- Ascending keys split only nodes below them. -/
theorem shallow_iff_four :
    (∀ p, p <+: [Op.insert 1 0, .insert 2 0, .insert 3 0, .insert 4 0] →
      Shallow (run (fresh (zeroed 0 0 : Nat → Node Nat Nat 3) 7 (some blockLimit)) p)) ↔
    Room (fresh (zeroed 0 0 : Nat → Node Nat Nat 3) 7 (some blockLimit))
        [.insert 1 0, .insert 2 0, .insert 3 0, .insert 4 0] ∧
      ∀ p key record, p ++ [.insert key record] <+: [Op.insert 1 0, .insert 2 0, .insert 3 0, .insert 4 0] →
        Balances (run (fresh (zeroed 0 0 : Nat → Node Nat Nat 3) 7 (some blockLimit)) p) key :=
  shallow_iff (by decide) _ 7 _

end Dumbnose.Btree
