/-
  Dumbnose.Btree.Structure — what the links of the file look like, with no ghost in
  the statement.

  `follow` walks from a node by link numbers: link `i` of a node is the one left of
  record `i`, the last is `larger_node_`. `Structured` says of every walk from the root
  what the node it ends at is, and that every block is the end of exactly one walk. While
  no allocation fails that is so after each operation exactly as long as the file has room
  (`btree_structure`): an insert that the limit stops leaves a block that is linked nowhere.

  Three facts beside the shape go through the run (`Tidy`): every block is in the tree,
  the nodes on the left edge have records, and a node without records has no link in
  its first entry. `depth` reads the first entry of a node whether or not it has one.
-/

import Mathlib.Data.Finset.Max
import Dumbnose.Btree.Room

namespace Dumbnose.Btree

open Lib.Exec Lib.Gaps

variable {K R : Type} {N : Nat}

def Node.links (n : Node K R N) : List Nat := n.recs.map Entry.smallerNode ++ [n.largerNode]

/-- The node that links `p` lead to from `b`. -/
def follow {L : Option Nat} (s : File K R N L) (b : Nat) : List Nat → Option Nat
  | [] => some b
  | i :: p =>
    match (s.blocks b).links[i]? with
    | some c => if c = 0 then none else follow s c p
    | none => none

theorem follow_cons {L : Option Nat} {s : File K R N L} {b i d : Nat} {p : List Nat} :
    follow s b (i :: p) = some d ↔ ∃ c, (s.blocks b).links[i]? = some c ∧ c ≠ 0 ∧ follow s c p = some d := by
  rw [follow]
  cases h : (s.blocks b).links[i]? with
  | none => simp
  | some c => by_cases h0 : c = 0 <;> simp [h0]

theorem follow_append {L : Option Nat} {s : File K R N L} {b d : Nat} {p q : List Nat} :
    follow s b (p ++ q) = some d ↔ ∃ c, follow s b p = some c ∧ follow s c q = some d := by
  induction p generalizing b with
  | nil => simp [follow]
  | cons i p ih =>
    rw [List.cons_append, follow_cons]
    simp only [follow_cons, ih]
    constructor
    · intro h
      obtain ⟨c, h1, h0, e, h2, h3⟩ := h
      exact ⟨e, ⟨c, h1, h0, h2⟩, h3⟩
    · intro h
      obtain ⟨e, ⟨c, h1, h0, h2⟩, h3⟩ := h
      exact ⟨c, h1, h0, e, h2, h3⟩

variable [LinearOrder K]

section Sound
variable {s : File K R N} {G : Ghost K} (h : Sound s G) {b c i : Nat} {p : List Nat}
include h

theorem Sound.link_mem (hb : G.live b) (hc : c ∈ (s.blocks b).links) (h0 : c ≠ 0) :
    G.live c ∧ s.pages.parent c = b ∧ G.level c + 1 = G.level b := h.shaped.link hb hc h0

/-- A link of an inner node leads to a child, with the bounds of its gap. -/
theorem Sound.link_bounds (hb : G.live b) (hc : (s.blocks b).links[i]? = some c) (h0 : c ≠ 0) :
    G.lo c = (if i = 0 then G.lo b else ((s.blocks b).recs[i - 1]?).map Entry.key) ∧
    G.hi c = (((s.blocks b).recs[i]?).map Entry.key).or (G.hi b) := by
  have hl : G.level b ≠ 0 := by
    have := (h.link_mem hb (List.mem_of_getElem? hc) h0).2.2
    omega
  have hg := gaps_getElem? Entry.smallerNode Entry.key (G.lo b) (s.pages.recs b) (s.pages.larger b) (G.hi b) i
  rw [Node.links] at hc
  rw [pages_recs, pages_larger, hc, Option.map_some] at hg
  obtain ⟨-, -, h3, h4, -⟩ := h.shaped.inner b hb hl _ (List.mem_of_getElem? hg)
  exact ⟨h3, h4⟩

theorem Sound.follow_live (hb : G.live b) (hf : follow s b p = some c) :
    G.live c ∧ G.level c + p.length = G.level b ∧ ∀ k, Within (G.lo c) (G.hi c) k → Within (G.lo b) (G.hi b) k := by
  induction p generalizing b with
  | nil => cases hf; exact ⟨hb, rfl, fun _ => id⟩
  | cons i p ih =>
    obtain ⟨d, h1, h0, h2⟩ := follow_cons.mp hf
    obtain ⟨hd, hp, hl⟩ := h.link_mem hb (List.mem_of_getElem? h1) h0
    obtain ⟨h3, h4, h5⟩ := ih hd h2
    refine ⟨h3, by rw [List.length_cons]; omega, fun k hw => ?_⟩
    have := h.shaped.within_parent hd
      (fun e => by rw [e, h.shaped.rootParent] at hp; exact h.shaped.pos b hb hp.symm) (h5 k hw)
    rwa [hp] at this

/-- Everything below link `i` lies between records `i - 1` and `i`. -/
theorem Sound.follow_between (hb : G.live b) (hf : follow s b (i :: p) = some c) {e : Entry K R}
    (he : e ∈ (s.blocks c).recs) :
    (∀ j, i = j + 1 → ∀ e' ∈ (s.blocks b).recs[j]?, e'.key < e.key) ∧ ∀ e' ∈ (s.blocks b).recs[i]?, e.key < e'.key := by
  obtain ⟨d, h1, h0, h2⟩ := follow_cons.mp hf
  have hd := (h.link_mem hb (List.mem_of_getElem? h1) h0).1
  obtain ⟨hlo, hhi⟩ := h.link_bounds hb h1 h0
  obtain ⟨hc, -, hw⟩ := h.follow_live hd h2
  have hk := hw _ (h.shaped.within_of_mem hc he)
  constructor
  · intro j e e' he'
    subst e
    apply hk.1 e'.key
    rw [hlo, if_neg (by omega), Nat.add_sub_cancel, Option.mem_def.mp he']
    rfl
  · intro e' he'
    apply hk.2 e'.key
    rw [hhi, Option.mem_def.mp he']
    rfl

theorem Sound.links_all (hb : G.live b) :
    (G.level b = 0 ∧ ∀ c ∈ (s.blocks b).links, c = 0) ∨ (G.level b ≠ 0 ∧ ∀ c ∈ (s.blocks b).links, c ≠ 0) := by
  have hg : ∀ c ∈ (s.blocks b).links, ∃ g ∈ s.pages.gaps G b, g.child = c := fun c hc => s.pages.gap_of_link G hc
  by_cases hl : G.level b = 0
  · refine .inl ⟨hl, fun c hc => ?_⟩
    obtain ⟨g, hg, rfl⟩ := hg c hc
    exact h.shaped.leaf b hb hl g hg
  · refine .inr ⟨hl, fun c hc => ?_⟩
    obtain ⟨g, hg, rfl⟩ := hg c hc
    exact h.shaped.pos _ (h.shaped.inner b hb hl g hg).1

/-- A tree whose root is a leaf has no other node. -/
theorem Sound.eq_root (hl : G.level G.root = 0) (hb : G.live b) : b = G.root := by
  by_contra hne
  have h1 := h.shaped.linked b hb hne
  have := h.shaped.below _ h1.1
  omega

theorem Sound.exists_follow (hb : G.live b) : ∃ p, follow s G.root p = some b := by
  induction hn : G.level G.root - G.level b generalizing b with
  | zero =>
    have : b = G.root := by
      by_contra hr
      have h1 := h.shaped.linked b hb hr
      have := h.shaped.below _ h1.1
      omega
    exact ⟨[], by rw [this]; rfl⟩
  | succ n ih =>
    have hr : b ≠ G.root := by intro e; subst e; omega
    obtain ⟨h1, h2, h3⟩ := h.shaped.linked b hb hr
    obtain ⟨p, hp⟩ := ih h1 (by omega)
    have hc : b ∈ (s.blocks (s.pages.parent b)).links := by
      have := List.mem_map_of_mem (f := Gap.child) h3
      rwa [Pages.gaps, gaps_child] at this
    obtain ⟨i, hi⟩ := List.mem_iff_getElem?.mp hc
    exact ⟨p ++ [i], follow_append.mpr ⟨_, hp, follow_cons.mpr ⟨b, hi, h.shaped.pos b hb, rfl⟩⟩⟩

theorem Sound.follow_unique {q : List Nat} (hp : follow s G.root p = some b)
    (hq : follow s G.root q = some b) : p = q := by
  have hlen : p.length = q.length := by
    have h1 := (h.follow_live h.shaped.rootLive hp).2.1
    have h2 := (h.follow_live h.shaped.rootLive hq).2.1
    omega
  induction hn : p.length generalizing p q b with
  | zero =>
    obtain rfl := List.length_eq_zero_iff.mp hn
    exact (List.length_eq_zero_iff.mp (hlen ▸ hn)).symm
  | succ n ih =>
    have snoc : ∀ r : List Nat, r.length = n + 1 → ∃ r' i, r = r' ++ [i] := fun r hr =>
      ⟨r.dropLast, r.getLast (by intro e; subst e; cases hr), (List.dropLast_append_getLast _).symm⟩
    obtain ⟨p, i, rfl⟩ := snoc p hn
    obtain ⟨q, j, rfl⟩ := snoc q (hlen ▸ hn)
    obtain ⟨c, hpc, hc⟩ := follow_append.mp hp
    obtain ⟨d, hqd, hd⟩ := follow_append.mp hq
    obtain ⟨_, hci, h0, ⟨⟩⟩ := follow_cons.mp hc
    obtain ⟨_, hdj, -, ⟨⟩⟩ := follow_cons.mp hd
    have hcl := (h.follow_live h.shaped.rootLive hpc).1
    have hdl := (h.follow_live h.shaped.rootLive hqd).1
    have hcp := h.link_mem hcl (List.mem_of_getElem? hci) h0
    have hdp := h.link_mem hdl (List.mem_of_getElem? hdj) h0
    obtain rfl : c = d := hcp.2.1.symm.trans hdp.2.1
    simp only [List.length_append, List.length_singleton] at hlen hn
    obtain rfl := ih hpc hqd (by omega) (by omega)
    have hnd := h.shaped.links_nodup hcl (by omega)
    have : i = j := (List.getElem?_inj (List.getElem?_eq_some_iff.mp hci).1 hnd).mp (hci.trans hdj.symm)
    rw [this]

end Sound

/-! ## The facts beside the shape -/

structure Tidy (s : File K R N) (G : Ghost K) : Prop where
  held : AllHeld s
  dense : ∀ b, b ≠ 0 → b < s.blockCount → G.live b
  left : ∀ b, G.live b → G.lo b = none → s.pages.recs b = [] → b = G.root ∧ G.level b = 0
  stub : ∀ b, G.live b → Stub (s.blocks b)

section Tidy
variable {s t : File K R N} {G H : Ghost K}

omit [LinearOrder K] in
theorem Tidy.does (h : Tidy s G) (hd : Does s t s.pages) : Tidy t G :=
  ⟨hd.allHeld h.held, fun b h0 hb => h.dense b h0 (hd.blockCount ▸ hb),
    fun b hb hl hr => h.left b hb hl (hd.pages ▸ hr),
    fun b hb => hd.stub b (h.stub b hb)⟩

/-- The nodes of the left edge after a split. -/
theorem Splits.left {P : Pages K R} {x y : Nat} {as : List (Entry K R)} {mid : Entry K R} {bs ps qs : List (Entry K R)}
    (h : Splits N P G x y as mid bs ps qs) (has : as ≠ [])
    (hl : ∀ b, G.live b → b ≠ P.parent x → G.lo b = none → P.recs b = [] → b = G.root ∧ G.level b = 0) {b : Nat}
    (hb : G.live b ∨ b = y) (hlo : (G.split x y mid.key).lo b = none) :
    (P.splitUp x y as mid bs ps qs).recs b ≠ [] := by
  intro hr
  have hby : b ≠ y := by intro e; subst e; simp [Ghost.split] at hlo
  have hb := hb.resolve_right hby
  rw [Pages.splitUp_recs] at hr
  by_cases e1 : b = P.parent x
  · rw [if_pos e1] at hr
    simp at hr
  · rw [if_neg e1] at hr
    by_cases e2 : b = x
    · rw [if_pos e2] at hr; exact has hr
    · rw [if_neg e2, if_neg hby] at hr
      have hlo' : G.lo b = none := by simpa [Ghost.split, hby] using hlo
      obtain ⟨rfl, h0⟩ := hl b hb e1 hlo' hr
      have := h.shaped.below _ h.parent_live
      rw [h.parent_level] at this
      omega

theorem Tidy.step (h : Tidy s G) (hst : Step s G t H) : Tidy t H := by
  have stub : ∀ {n : Nat} {P : Pages K R}, Makes n s t P → ∀ b, G.live b ∨ s.blockCount ≤ b ∧ b < s.blockCount + n →
      Stub (t.blocks b) := by
    intro n P hm b hb
    rcases hb with hb | ⟨h1, h2⟩
    · exact hm.stub b (h.stub b hb)
    · exact (hm.fresh b h1 h2).2.2
  have has : ∀ {as : List (Entry K R)}, as.length = middle N → as ≠ [] := by
    intro as ha e; rw [e] at ha; exact absurd ha (by unfold middle; simp)
  cases hst with
  | touch hd => exact h.does hd
  | up hs ha _ hm =>
    refine ⟨hm.allHeld h.held, fun b h0 hb => ?_, fun b hb hlo hr => ?_,
      fun b hb => stub hm b (hb.imp_right fun e => by omega)⟩
    · by_cases e : b = s.blockCount
      · exact .inr e
      · exact .inl (h.dense b h0 (by rw [hm.blockCount] at hb; omega))
    · rw [hm.pages] at hr
      exact absurd hr (hs.left (has ha) (fun c hc _ => h.left c hc) hb hlo)
  | root hs ha _ hm =>
    refine ⟨hm.allHeld h.held, fun b h0 hb => ?_, fun b hb hlo hr => ?_, fun b hb => stub hm b ?_⟩
    · by_cases e : b = s.blockCount
      · exact .inr e
      · by_cases e' : b = s.blockCount + 1
        · exact .inl (.inr e')
        · exact .inl (.inl (h.dense b h0 (by rw [hm.blockCount] at hb; omega)))
    · rw [hm.pages] at hr
      refine absurd hr (hs.left (has ha) (fun c hc hne hclo hcr => ?_) hb hlo)
      have hgp : (s.pages.grow (s.blockCount + 1) G.root).parent G.root = s.blockCount + 1 := by simp [Pages.grow]
      rw [hgp] at hne
      have hc := hc.resolve_right hne
      obtain ⟨rfl, -⟩ := h.left c hc (by simpa [Ghost.grow, hne] using hclo) (by simpa [Pages.grow, hne] using hcr)
      rw [hs.recs] at hcr
      simp at hcr
    · rcases hb with (hb | hb) | hb
      · exact .inl hb
      · exact .inr ⟨by omega, by omega⟩
      · exact .inr ⟨by omega, by omega⟩

theorem Tidy.inserts {key : K} {record : R} (h : Tidy s G) (hi : Inserts s G key record t H) : Tidy t H := by
  obtain ⟨u, l, ps, qs, hst, hl, -, -, -, -, -, -, hd⟩ := hi.moves
  have hu : Tidy u H := by
    clear hd hi hl
    induction hst with
    | refl => exact h
    | tail _ hs ih => exact ih.step hs
  refine ⟨hd.allHeld hu.held, fun b h0 hb => hu.dense b h0 (hd.blockCount ▸ hb), fun b hb hlo hr => ?_,
    fun b hb => hd.stub b (hu.stub b hb)⟩
  rw [hd.pages] at hr
  by_cases e : b = l
  · subst e; simp at hr
  · rw [Pages.setRecs_recs_ne _ _ e] at hr
    exact hu.left b hb hlo hr

omit [LinearOrder K] in
theorem fresh_tidy (raw : Nat → Node K R N) (addr : Nat) : Tidy (fresh raw addr).file .single := by
  have hm := (fresh_spec raw addr).2
  refine ⟨fresh_allHeld raw addr, fun b h0 hb => ?_, fun b hb _ _ => ⟨hb, rfl⟩, ?_⟩
  · rw [hm.blockCount] at hb
    have hb : b < 1 + 1 := hb
    show b = 1
    omega
  · intro b e
    subst e
    exact (hm.fresh 1 (Nat.le_refl _) (by show 1 < 1 + 1; omega)).2.2

theorem run_tidy (hN : 3 ≤ N) {raw : Nat → Node K R N} (hz : (raw 1).largerNode = 0) (addr : Nat)
    (ops : List (Op K R)) :
    ∃ G, Good (run (fresh raw addr) ops) G (specRun (fun _ => none) ops) ∧ Tidy (run (fresh raw addr) ops).file G := by
  exact ((fresh_good addr hz).run (P := fun t G => Tidy t.file G) hN (fun _ ha hr => ha.does hr.does)
    (fun _ ha hi => ha.inserts hi) (fresh_tidy raw addr) ops).2

end Tidy

/-! ## Depth -/

section Depth
variable {s : File K R N} {G : Ghost K} (h : Sound s G) (ht : Tidy s G)
include h ht

theorem Sound.depthFrom_returns (hN : 0 < N) {f b : Nat} (hb : G.live b) (hlo : G.lo b = none) (hf : G.level b < f) :
    Returns (depthFrom f b) (fun d t => t = s ∧ d = G.level b + 1) s := by
  induction f generalizing b with
  | zero => omega
  | succ f ih =>
    have hheld := ht.held b (h.shaped.pos b hb) (h.alloc b hb)
    have hat := h.at hb hheld
    unfold Returns depthFrom
    rw [wp_bind]
    cases hr : s.pages.recs b with
    | nil =>
      -- an empty tree: the first entry is not a record
      have hcount : (s.blocks b).recordCount = 0 := by rw [← hat.length, hr]; rfl
      have hentry : (s.blocks b).entries[0]? = some (s.blocks b).entries[0] := by simp [hN]
      rw [wp_entry hat.ne hentry, if_pos (ht.stub b hb hcount _ hentry)]
      exact ⟨rfl, by rw [(ht.left b hb hlo hr).2]⟩
    | cons e es =>
      have hlinks : (s.blocks b).links[0]? = some e.smallerNode := by
        rw [Node.links, ← pages_recs, hr]; rfl
      rw [wp_entry hat.ne (hat.entry (by rw [hr]; rfl))]
      rcases h.links_all hb with ⟨hl, hz⟩ | ⟨hl, hz⟩
      · rw [if_pos (hz _ (List.mem_of_getElem? hlinks))]
        exact ⟨rfl, by rw [hl]⟩
      · have h0 := hz _ (List.mem_of_getElem? hlinks)
        obtain ⟨hc, -, hcl⟩ := h.link_mem hb (List.mem_of_getElem? hlinks) h0
        have hclo : G.lo e.smallerNode = none := (h.link_bounds hb hlinks h0).1.trans (by rw [if_pos rfl, hlo])
        have href := refreshed_refresh (s := s) h0 (h.alloc _ hc)
        rw [if_neg h0, wp_bind, wp_convert hat.ne hheld h0 (h.alloc _ hc), href.eq ht.held, wp_bind]
        apply (ih hc hclo (by omega)).wp
        intro d t h
        obtain ⟨rfl, rfl⟩ := h
        exact ⟨rfl, by omega⟩

end Depth

theorem Whole.depth_eq {t : Tree K R N} {G : Ghost K} (h : Whole t G) (ht : Tidy t.file G) (hN : 0 < N) :
    Tree.depth t = .ok (G.level G.root + 1) t := by
  have hd : Returns Tree.depth (fun d u => u = t ∧ d = G.level G.root + 1) t := by
    unfold Returns Tree.depth Node.depth
    rw [wp_bind, wp_get, wp_onFile, wp_bind, wp_get, h.root]
    apply (h.toSound.depthFrom_returns ht hN h.shaped.rootLive h.shaped.rootLo (by have := h.level_lt; omega)).wp
    intro d f h
    obtain ⟨rfl, rfl⟩ := h
    exact ⟨by rw [← h.root], rfl⟩
  obtain ⟨d, u, hu, rfl, rfl⟩ := hd.run
  exact hu

/-! ## The structure -/

/-- A node in order, with children that name it as their parent. -/
structure LinkOk {L : Option Nat} (t : Tree K R N L) (b : Nat) : Prop where
  increasing : (t.file.blocks b).recs.Pairwise (·.key < ·.key)
  /-- Keys under link `i` lie between records `i - 1` and `i`. -/
  between : ∀ i p c, follow t.file b (i :: p) = some c → ∀ e ∈ (t.file.blocks c).recs,
    (∀ j, i = j + 1 → ∀ e' ∈ (t.file.blocks b).recs[j]?, e'.key < e.key) ∧
    ∀ e' ∈ (t.file.blocks b).recs[i]?, e.key < e'.key
  parent : ∀ c ∈ (t.file.blocks b).links, c ≠ 0 → (t.file.blocks c).parentNode = b

/-- What is promised of the node that a walk of `d` links from the root ends at. -/
structure NodeOk {L : Option Nat} (t : Tree K R N L) (d b : Nat) : Prop extends LinkOk t b where
  allocated : 1 ≤ b ∧ b < t.file.blockCount
  count : (t.file.blocks b).recordCount ≤ N
  links : (∀ c ∈ (t.file.blocks b).links, c = 0) ∨ ∀ c ∈ (t.file.blocks b).links, c ≠ 0
  leafDepth : (∀ c ∈ (t.file.blocks b).links, c = 0) → Tree.depth t = .ok (d + 1) t
  number : (t.file.blocks b).thisNode = b

theorem Whole.linkOk {t : Tree K R N} {G : Ghost K} (h : Whole t G) {b : Nat} (hb : G.live b) : LinkOk t b :=
  ⟨(h.shaped.ordered b hb).sorted, fun _ _ _ hf _ he => h.follow_between hb hf he,
    fun _ hc h0 => (h.link_mem hb hc h0).2.1⟩

/-- The three clauses: every node in order, the root without a parent, and every block
    linked exactly once. -/
structure Structured {L : Option Nat} (t : Tree K R N L) : Prop where
  nodes : ∀ p b, follow t.file t.root p = some b → NodeOk t p.length b
  rootParent : (t.file.blocks t.root).parentNode = 0
  once : ∀ b, 1 ≤ b → b < t.file.blockCount → ∃! p, follow t.file t.root p = some b

theorem run_structured (hN : 3 ≤ N) {raw : Nat → Node K R N} (hz : (raw 1).largerNode = 0) (addr : Nat)
    (ops : List (Op K R)) : Structured (run (fresh raw addr) ops) := by
  obtain ⟨G, h, ht⟩ := run_tidy hN hz addr ops
  generalize run (fresh raw addr) ops = t at h ht
  have hdepth := h.toWhole.depth_eq ht (by omega)
  refine ⟨fun p b hp => ?_, ?_, fun b h1 hb => ?_⟩
  · rw [h.root] at hp
    obtain ⟨hb, hl, -⟩ := h.follow_live h.shaped.rootLive hp
    refine ⟨h.linkOk hb, ⟨Nat.pos_of_ne_zero (h.shaped.pos b hb), h.alloc b hb⟩, h.bounded b hb,
      (h.links_all hb).imp And.right And.right, fun hleaf => ?_, h.shaped.this b hb⟩
    have hlarger : (t.file.blocks b).largerNode ∈ (t.file.blocks b).links := by simp [Node.links]
    have hl0 : G.level b = 0 := (h.links_all hb).elim And.left fun hn => absurd (hleaf _ hlarger) (hn.2 _ hlarger)
    rw [hdepth, ← hl, hl0, Nat.zero_add]
  · show t.file.pages.parent t.root = 0
    rw [h.root]; exact h.shaped.rootParent
  · rw [h.root]
    obtain ⟨p, hp⟩ := h.exists_follow (ht.dense b (by omega) hb)
    exact ⟨p, hp, fun q hq => h.follow_unique hq hp⟩

/-! ## At the limit -/

section Limit
variable {L : Option Nat} {t : Tree K R N L}

omit [LinearOrder K] in
theorem follow_unlimited (s : File K R N L) (b : Nat) (p : List Nat) : follow s.unlimited b p = follow s b p := by
  induction p generalizing b with
  | nil => rfl
  | cons i p ih =>
    simp only [follow, ih]
    rfl

omit [LinearOrder K] in
theorem depth_of_unlimited (hL : Counts L 2) (ht : Counts L t.file.blockCount) {d : Nat}
    (hd : Tree.depth t.unlimited = .ok d t.unlimited) : Tree.depth t = .ok d t := by
  rcases (mirrors_treeDepth (limit_counted hL)).returns ht hd with ⟨u, hu, hfree, -⟩ | ⟨u, -, -, h, -⟩
  · rw [hu, unlimited_inj (u := t) hfree]
  · exact absurd ht h

theorem LinkOk.of_unlimited {b : Nat} (h : LinkOk t.unlimited b) : LinkOk t b :=
  ⟨h.increasing, fun i p c hf => h.between i p c (by rwa [Tree.unlimited, follow_unlimited]), h.parent⟩

theorem Structured.of_unlimited (hL : Counts L 2) (ht : Counts L t.file.blockCount) (h : Structured t.unlimited) :
    Structured t := by
  have hf : ∀ p b, follow t.unlimited.file t.unlimited.root p = some b ↔ follow t.file t.root p = some b := by
    intro p b
    rw [← follow_unlimited t.file]
    rfl
  refine ⟨fun p b hp => ?_, h.rootParent, fun b h1 hb => ?_⟩
  · have hn := h.nodes p b ((hf p b).mpr hp)
    exact ⟨hn.toLinkOk.of_unlimited, hn.allocated, hn.count, hn.links,
      fun hl => depth_of_unlimited hL ht (hn.leafDepth hl), hn.number⟩
  · simp only [← hf]
    exact h.once b h1 hb

omit [LinearOrder K] in
/-- Past the limit `depth` counts one node, or throws. -/
theorem depth_past (ht : ¬ Counts L t.file.blockCount) {d : Nat} (hd : Tree.depth t = .ok d t) : d = 1 := by
  have hfrom : ∀ f, wp (depthFrom f t.root) (fun d _ => d = 1) (fun _ _ => True) t.file := by
    intro f
    cases f with
    | zero => trivial
    | succ f =>
      unfold depthFrom entry
      rw [wp_bind, wp_bind]
      by_cases hroot : t.root = 0
      · simp [node, hroot]
      rw [wp_node hroot]
      cases (t.file.blocks t.root).entries[0]? with
      | none => trivial
      | some e =>
        rw [wp_pure]
        by_cases h0 : e.smallerNode = 0
        · rw [if_pos h0]
          rfl
        · rw [if_neg h0, wp_bind]
          exact (convertIndexToPtr_past h0 ht).mono (fun _ _ hf => hf.elim) fun _ _ _ => trivial
  have hdepth : wp Tree.depth (fun d _ => d = 1) (fun _ _ => True) t := by
    unfold Tree.depth Node.depth
    rw [wp_bind, wp_get, wp_onFile, wp_bind, wp_get]
    exact hfrom _
  exact (wp_ok hd).mp hdepth

end Limit

/-- A tree in order with more than one node has a leaf below its root, which is as deep as
    the tree says it is. So the limit has not stopped it. -/
theorem Structured.counts {L : Option Nat} (hL : Counts L 2) {t : Tree K R N L} (h : Structured t) :
    Counts L t.file.blockCount := by
  by_contra hn
  have h3 : 3 ≤ t.file.blockCount := by
    by_contra hlt
    exact hn (hL.le (by omega))
  -- a block as far from the root as any is a leaf
  choose! walk hwalk _ using fun b (hb : 1 ≤ b ∧ b < t.file.blockCount) => h.once b hb.1 hb.2
  obtain ⟨b, hb, hmax⟩ := Finset.exists_max_image (Finset.Ico 1 t.file.blockCount) (fun b => (walk b).length)
    ⟨1, Finset.mem_Ico.mpr ⟨Nat.le_refl 1, by omega⟩⟩
  have hwb := hwalk b (Finset.mem_Ico.mp hb)
  have hlen : (walk b).length = 0 := by
    have hnode := h.nodes _ _ hwb
    rcases hnode.links with hleaf | hinner
    · have := depth_past hn (hnode.leafDepth hleaf)
      omega
    · exfalso
      have h0 : 0 < (t.file.blocks b).links.length := by simp [Node.links]
      have hstep : follow t.file t.root (walk b ++ [0]) = some (t.file.blocks b).links[0] :=
        follow_append.mpr ⟨b, hwb, follow_cons.mpr
          ⟨_, List.getElem?_eq_getElem h0, hinner _ (List.getElem_mem h0), rfl⟩⟩
      have hc := (h.nodes _ _ hstep).allocated
      have hle := hmax _ (Finset.mem_Ico.mpr hc)
      have heq := (h.once _ hc.1 hc.2).unique (hwalk _ hc) hstep
      rw [heq, List.length_append, List.length_singleton] at hle
      omega
  -- so every block is the root
  have hall : ∀ c, 1 ≤ c ∧ c < t.file.blockCount → c = t.root := by
    intro c hc
    have hwc := hwalk c hc
    have hle := hmax c (Finset.mem_Ico.mpr hc)
    rw [List.length_eq_zero_iff.mp (by omega : (walk c).length = 0)] at hwc
    exact (Option.some.inj hwc).symm
  have h1 := hall 1 ⟨Nat.le_refl 1, by omega⟩
  have h2 := hall 2 ⟨by omega, by omega⟩
  omega

theorem room_structured {L : Option Nat} (hN : 3 ≤ N) (hL : Counts L 5) {raw : Nat → Node K R N}
    (hz : (raw 1).largerNode = 0) (addr : Nat) (ops : List (Op K R)) :
    (∀ p, p <+: ops → Structured (run (fresh raw addr L) p)) ↔ Room (fresh raw addr L) ops := by
  have hL2 : Counts L 2 := hL.le (by omega)
  refine room_iff_after hN hL raw addr (fun p hb => .of_unlimited hL2 hb.counts ?_)
    (fun p op hs _ hstr => hs.uncounted (hstr.counts hL2)) ops
  rw [hb.same]
  exact run_structured hN hz addr p

/-- The tree is in order after each operation exactly as long as the file has room. -/
theorem btree_structure (hN : 3 ≤ N) (raw : Nat → Node K R N) (hz : ZeroFilled raw) (addr : Nat)
    (ops : List (Op K R)) : (∀ p, p <+: ops → Structured (run (fresh raw addr (some blockLimit)) p)) ↔
      Room (fresh raw addr (some blockLimit)) ops :=
  room_structured hN (counts_limit (by decide)) (hz 1).2.2.2.1 addr ops

/-- Keys in descending order, one of them twice. -/
theorem btree_structure_four :
    (∀ p, p <+: [.insert 4 40, .insert 3 30, .insert 2 20, .insert 2 21, .insert 1 10] →
      Structured (run (fresh (zeroed 0 0 : Nat → Node Nat Nat 3) 7 (some blockLimit)) p)) ↔
    Room (fresh (zeroed 0 0 : Nat → Node Nat Nat 3) 7 (some blockLimit))
      [.insert 4 40, .insert 3 30, .insert 2 20, .insert 2 21, .insert 1 10] :=
  btree_structure (by decide) _ (zeroed_zeroFilled 0 0) 7 _

/-- Of keys in ascending order one leaves the tree in pieces. -/
theorem ascending_not_structured : ¬ ∀ p, p <+: ascending (3 * blockLimit) →
    Structured (run (fresh (zeroed 0 0 : Nat → Node Nat Nat 3) 7 (some blockLimit)) p) := fun h =>
  not_room ((room_structured (Nat.le_refl 3) (counts_limit (by decide)) rfl 7 _).mp h)

end Dumbnose.Btree
