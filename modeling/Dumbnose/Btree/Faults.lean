/-
  Dumbnose.Btree.Faults — an insert that an allocation failure ends.

  Room is made from the root down, and nothing is undone. A call of `allocate_block`
  for a node below the root finds the tree whole, so a failure there costs nothing.
  Splitting the root takes two calls: between them the upper half of the root is
  linked nowhere. And once the root is split, `btree::root_` is the old root until
  `insert` returns, so a failure further down leaves the object on the left half.

  Both happen only if every node on the way to the leaf is full, and then unless the
  very first call fails (`KeepsRoot`). `insert_failed_iff`: exactly then something is
  lost. A call that fails may have made the file longer. So what comes after is compared
  for operations that both files have room for (`LosesNothing`), and a run goes on only
  while the blocks there are can be counted (`Reach`).
-/

import Dumbnose.Btree.Structure

namespace Dumbnose.Btree

open Lib.Exec Lib.Gaps

variable {K R : Type} {N : Nat} {L : Option Nat}

/-- What the system will answer from here on. -/
def arm (t : Tree K R N L) (os : List Alloc) : Tree K R N L := { t with file := { t.file with os := os } }

variable [LinearOrder K]

/-- Nothing that `t` held is lost in `u`: with allocations that succeed the two answer
    every sequence of operations alike that both files have room for, and `u` is in order. -/
structure LosesNothing (t u : Tree K R N L) : Prop where
  answers : ∀ ops : List (Op K R), Room (arm t []) ops → Room (arm u []) ops →
    results (arm u []) ops = results (arm t []) ops
  rootParent : (u.file.blocks u.root).parentNode = 0
  linkOk : ∀ p b, follow u.file u.root p = some b → LinkOk u b

/-- An insert of `key` does not split the root, or its first allocation fails. -/
def KeepsRoot (t : Tree K R N L) (os : List Alloc) (key : K) : Prop :=
  (∃ b, OnPath t.file.pages key t.root b ∧ (t.file.pages.recs b).length < N) ∨
    ∃ extended rest, os = .throws extended :: rest

/-- The trees of the runs in which every operation began on a file that has room, and
    every insert that an allocation failure ended met `KeepsRoot`. -/
inductive Reach (raw : Nat → Node K R N) (addr : Nat) : Tree K R N L → Prop
  | fresh : Reach raw addr (fresh raw addr L)
  | step {t : Tree K R N L} (os : List Alloc) (op : Op K R) : Reach raw addr t → Counts L t.file.blockCount →
      (∀ key record, op = .insert key record → (op.exec (arm t os)).1 = .threw .allocateBlock → KeepsRoot t os key) →
      Reach raw addr (op.exec (arm t os)).2

/-- A key of the map is not found. -/
def Forgets (m : K → Option R) (u : Tree K R N) : Prop :=
  ∃ k f, m k ≠ none ∧ Tree.find k (arm u []) = .ok none { u with file := f } ∧ f.blockCount = u.file.blockCount

/-! ## The tree is whole -/

section Whole
variable {t u : Tree K R N} {G : Ghost K} {m : K → Option R}

theorem Holds.armed (h : Holds t G m) (os : List Alloc) : Holds (arm t os) G m :=
  ⟨⟨⟨⟨h.shaped, h.bounded, h.alloc⟩, h.rootHeld⟩, h.root⟩, h.one, h.map⟩

theorem Holds.granted (h : Holds t G m) : Good (arm t []) G m := ⟨h.armed [], rfl⟩

omit [LinearOrder K] in
theorem grants_arm (os : List Alloc) : ¬ (arm t os).file.Grants ↔ ∃ extended rest, os = .throws extended :: rest := by
  simp only [File.Grants, arm, not_forall, not_not]

theorem Holds.keepsRoot_iff (h : Holds t G m) (os : List Alloc) (key : K) :
    ¬ (arm t os).file.Grants ∨ Spare N t.file.pages G key 0 ↔ KeepsRoot t os key := by
  rw [grants_arm, KeepsRoot, or_comm, h.root]
  apply or_congr_left
  simp only [h.shaped.onPath_iff]
  constructor
  · intro h
    obtain ⟨b, h1, -, h2, h3⟩ := h
    exact ⟨b, ⟨h1, h2⟩, h3⟩
  · intro h
    obtain ⟨b, ⟨h1, h2⟩, h3⟩ := h
    exact ⟨b, h1, Nat.zero_le _, h2, h3⟩

/-- After a failure that spared the tree. -/
theorem Holds.spared (h : Holds t G m) (hroot : u.root = t.root) (hsp : Spared t.file G u.file) : ∃ H, Holds u H m := by
  obtain ⟨v, H, hst, hH, extended, rest, hos, hu⟩ := hsp
  have hv := hst.sound h.toSound
  have hcount : v.blockCount ≤ u.file.blockCount := by
    rw [hu, File.refuse]
    dsimp only
    split <;> omega
  have hpages : u.file.pages = v.pages := by rw [hu]; rfl
  have hblocks : u.file.blocks = v.blocks := by rw [hu]; rfl
  have haddr : u.file.addr = v.addr := by rw [hu]; rfl
  refine ⟨H, ⟨⟨⟨?_, ?_, fun b hb => (hv.alloc b hb).trans_le hcount⟩, ?_⟩, ?_⟩, hst.live h.one, fun k r => ?_⟩
  · rw [hpages]; exact hv.shaped
  · rw [hblocks]; exact hv.bounded
  · rw [hblocks, haddr]; exact hv.rootHeld
  · rw [hroot, hH]; exact h.root
  · rw [hpages, hst.has h.toSound]; exact h.map k r

end Whole

/-! ## The tree is broken -/

section Broken
variable {t u : Tree K R N} {G : Ghost K} {m : K → Option R}

/-- Below the old root a cut looks as a root split that went through: the key between
    the halves is not there. -/
theorem Sound.finds_cut {s : File K R N} (hN : 3 ≤ N) (h : Sound s G) {as : List (Entry K R)} {mid : Entry K R}
    {bs : List (Entry K R)} (he : s.pages.recs G.root = as ++ mid :: bs) :
    ∃ n l, Finds (s.pages.splitNode G.root s.blockCount as mid bs) mid.key n G.root none l ∧ n ≤ G.level G.root + 1 ∧
      ∀ c, OnPath (s.pages.splitNode G.root s.blockCount as mid bs) mid.key G.root c →
        c ≠ 0 ∧ (G.live c ∨ c = s.blockCount) ∧
        ((s.pages.splitNode G.root s.blockCount as mid bs).recs c).Pairwise (·.key < ·.key) := by
  have hsp := h.splits_root hN he
  have hsh := hsp.splitUp_shaped
  have hrz : G.root ≠ s.blockCount + 1 := fun e => h.fresh.2 (e ▸ h.shaped.rootLive)
  have hpz : (s.pages.grow (s.blockCount + 1) G.root).parent G.root = s.blockCount + 1 := by simp [Pages.grow]
  generalize hI : (G.grow (s.blockCount + 1)).split G.root s.blockCount mid.key = I at hsh
  have hlive : I.live G.root := by rw [← hI]; exact .inl (.inl h.shaped.rootLive)
  have hlroot : I.level G.root = G.level G.root := by rw [← hI]; simp [Ghost.split, Ghost.grow, hsp.ne_x, hrz]
  have hout : ¬ Within (I.lo G.root) (I.hi G.root) mid.key :=
    fun hk => lt_irrefl _ (hk.2 mid.key (by rw [← hI]; simp [Ghost.split]))
  -- the two differ only in the node that was never made
  have hsame : ∀ c, c ≠ s.blockCount + 1 →
      (s.pages.splitNode G.root s.blockCount as mid bs).larger c =
        ((s.pages.grow (s.blockCount + 1) G.root).splitUp G.root s.blockCount as mid bs [] []).larger c ∧
      (s.pages.splitNode G.root s.blockCount as mid bs).recs c =
        ((s.pages.grow (s.blockCount + 1) G.root).splitUp G.root s.blockCount as mid bs [] []).recs c := by
    intro c hc
    rw [hsp.splitUp_larger, Pages.splitUp_recs, hpz, if_neg hc, if_neg hc]
    constructor
    · simp [Pages.splitNode, Pages.setLarger, Pages.make, Pages.grow, Function.update_apply, hc, hrz]
    · simp [Pages.splitNode, Pages.setRecs, Pages.make, Pages.grow, Function.update_apply, hc]
  have hpath : ∀ c,
      OnPath ((s.pages.grow (s.blockCount + 1) G.root).splitUp G.root s.blockCount as mid bs [] []) mid.key
      G.root c → I.live c ∧ c ≠ s.blockCount + 1 := by
    intro c hc
    obtain ⟨h1, h2, -⟩ := hsh.below_of_onPath hlive hc
    refine ⟨h1, ?_⟩
    intro e
    subst e
    rw [hlroot, ← hI] at h2
    simp [Ghost.split, Ghost.grow] at h2
  obtain ⟨n, o, l, hf, hn⟩ := hsh.finds mid.key hlive
  obtain rfl := hsh.finds_outside hlive hout hf
  refine ⟨n, l, hf.congr fun c hc => hsame c (hpath c hc).2, by omega, fun c hc => ?_⟩
  have hc := hc.of_congr fun d hd => hsame d (hpath d hd).2
  obtain ⟨h1, h2⟩ := hpath c hc
  refine ⟨hsh.pos c h1, ?_, by rw [(hsame c h2).2]; exact (hsh.ordered c h1).sorted⟩
  rw [← hI] at h1
  exact h1.imp_left fun h3 => h3.resolve_right h2

/-- A search from the node the object still points at, for a key it no longer leads to. -/
theorem Holds.forgetsKey (h : Holds t G m) {k : K} {r : R} (hk : t.file.pages.Has G k r) {n l : Nat}
    (hf : Finds u.file.pages k n u.root none l) (hn : n ≤ u.file.blockCount)
    (hh : (u.file.blocks u.root).file = u.file.addr)
    (hr : ∀ c, OnPath u.file.pages k u.root c → Ready u.file c) : Forgets m u := by
  have hfind : Returns (Tree.find k)
      (fun o v => o = none ∧ v.root = u.root ∧ v.file.blockCount = u.file.blockCount) (arm u []) := by
    unfold Returns Tree.find Node.find
    rw [wp_bind, wp_get, wp_onFile, wp_bind, wp_get, wp_bind]
    have hf' : Finds (arm u []).file.pages k n (arm u []).root none l := hf
    refine (hf'.returns hn hh fun c hc => ⟨(hr c hc).ne, (hr c hc).lt, (hr c hc).bounded, (hr c hc).sorted⟩).wp ?_
    intro _ f h
    obtain ⟨href, rfl, -⟩ := h
    exact ⟨rfl, rfl, href.blockCount⟩
  obtain ⟨_, ⟨f, root⟩, hv, rfl, rfl, hcount⟩ := hfind.run
  exact ⟨k, f, by rw [(h.map k r).mp hk]; exact Option.some_ne_none r, hv, hcount⟩

/-- The root was split, and the object points at a node that is the root no more. -/
theorem Holds.forgets_of_cut (h : Holds t G m) (hroot : u.root = G.root) {v : File K R N} {H : Ghost K}
    (hst : Steps t.file G v H) (hc : Cut v.pages H G.root) (hr : Refused v u.file) : Forgets m u := by
  obtain ⟨k, r, hk, hnw⟩ := hc
  obtain ⟨extended, rest, -, hu⟩ := hr
  have hv := hst.sound h.toSound
  have hlive := hst.live h.shaped.rootLive
  obtain ⟨n, o, l, hf, hn⟩ := hv.shaped.finds k hlive
  obtain rfl := hv.shaped.finds_outside hlive hnw hf
  have hcount : v.blockCount ≤ u.file.blockCount := by
    rw [hu, File.refuse]
    dsimp only
    split <;> omega
  have hpages : u.file.pages = v.pages := by rw [hu]; rfl
  have hblocks : u.file.blocks = v.blocks := by rw [hu]; rfl
  have haddr : u.file.addr = v.addr := by rw [hu]; rfl
  rw [← hroot, ← hpages] at hf
  refine h.forgetsKey ((hst.has h.toSound).mp hk) hf ?_ ?_ fun c hc => ?_
  · have := hv.level_lt
    have := hv.shaped.below _ hlive
    omega
  · rw [hroot, hblocks, haddr]
    exact (hst.keeps.held _ h.rootHeld).trans hst.keeps.addr.symm
  · rw [hroot, hpages] at hc
    have hc := hv.ready (hv.shaped.below_of_onPath hlive hc).1
    exact ⟨hc.ne, hc.lt.trans_le hcount, by rw [hblocks]; exact hc.bounded, by rw [hpages]; exact hc.sorted⟩

/-- The root was cut, and what was cut off is linked nowhere. -/
theorem Holds.forgets_of_half (hN : 3 ≤ N) (h : Holds t G m) (hroot : u.root = G.root) {s v : File K R N}
    {as : List (Entry K R)} {mid : Entry K R} {bs : List (Entry K R)} (hd : Does t.file s t.file.pages)
    (he : t.file.pages.recs G.root = as ++ mid :: bs)
    (hm : Makes 1 s v (t.file.pages.splitNode G.root t.file.blockCount as mid bs)) (hr : Refused v u.file) :
    Forgets m u := by
  obtain ⟨extended, rest, -, hu⟩ := hr
  obtain ⟨n, l, hf, hn, hp⟩ := h.toSound.finds_cut hN he
  have hkeeps := hd.toKeeps.trans hm.toKeeps
  have hvcount : v.blockCount = t.file.blockCount + 1 := by rw [hm.blockCount, hd.blockCount]
  have hcount : t.file.blockCount + 1 ≤ u.file.blockCount := by
    rw [hu, File.refuse, ← hvcount]
    dsimp only
    split <;> omega
  have hpages : u.file.pages = t.file.pages.splitNode G.root t.file.blockCount as mid bs := by
    rw [← hm.pages, hu]; rfl
  have hblocks : u.file.blocks = v.blocks := by rw [hu]; rfl
  have haddr : u.file.addr = v.addr := by rw [hu]; rfl
  have hmid : t.file.pages.Has G mid.key mid.record :=
    ⟨G.root, h.shaped.rootLive, mid, by rw [he]; simp, rfl, rfl⟩
  rw [← hpages, ← hroot] at hf
  refine h.forgetsKey hmid hf ?_ ?_ fun c hc => ?_
  · have := h.toSound.level_lt
    omega
  · rw [hroot, hblocks, haddr]
    exact (hkeeps.held _ h.rootHeld).trans hkeeps.addr.symm
  · rw [hroot, hpages] at hc
    obtain ⟨h0, hlive, hs⟩ := hp c hc
    refine ⟨h0, ?_, ?_, by rw [hpages]; exact hs⟩
    · rcases hlive with hl | rfl
      · have := h.toSound.alloc c hl; omega
      · omega
    · rw [hblocks]
      rcases hlive with hl | rfl
      · exact hkeeps.bounded c (h.bounded c hl)
      · exact (hm.fresh _ (by rw [hd.blockCount]) (by rw [hd.blockCount]; omega)).2.1

theorem Holds.broken (hN : 3 ≤ N) (h : Holds t G m) (hroot : u.root = t.root) (hb : Broken t.file G u.file) :
    Forgets m u := by
  have hroot' : u.root = G.root := hroot.trans h.root
  rcases hb with ⟨v, H, hst, hc, hr⟩ | ⟨s, v, as, mid, bs, hd, he, hm, hr⟩
  · exact h.forgets_of_cut hroot' hst hc hr
  · exact h.forgets_of_half hN hroot' hd he hm hr

end Broken

/-! ## Runs with failures -/

omit [LinearOrder K] in
theorem Stuck.armed {t : Tree K R N} {c : Nat} (h : Stuck t c) (os : List Alloc) : Stuck (arm t os) c :=
  ⟨h.root, h.blockCount, h.held, h.parent, h.count, h.larger, h.ne⟩

theorem Holds.insert_cases (hN : 3 ≤ N) {t : Tree K R N} {G : Ghost K} {m : K → Option R} (h : Holds t G m)
    (os : List Alloc)
    (key : K) (record : R) :
    (∃ u H, Tree.insert key record (arm t os) = .ok () u ∧ Holds u H (Function.update m key (some record))) ∨
    (∃ u, Tree.insert key record (arm t os) = .error .nodeAlreadyExists u ∧ Holds u G m) ∨
    ∃ u, Tree.insert key record (arm t os) = .error .allocateBlock u ∧
      (KeepsRoot t os key → ∃ H, Holds u H m) ∧ (¬ KeepsRoot t os key → Forgets m u) := by
  have ha := h.armed os
  rcases (ha.toWhole.insert_wp hN key record).run with ⟨_, u, hu, H, hi, hr⟩ | ⟨e, u, hu, hroot, he⟩
  · have hk : m key = none := by
      cases hm : m key with
      | none => rfl
      | some r => exact absurd ((h.map key r).mpr hm) (hi.absent r)
    have := ha.inserted hi hk
    rw [← hr] at this
    exact .inl ⟨u, H, hu, this⟩
  · rcases he with ⟨rfl, -, href⟩ | ⟨rfl, -, h1, h2⟩
    · have := ha.refreshed href
      rw [← hroot] at this
      exact .inr (.inl ⟨u, hu, this⟩)
    · have hk := h.keepsRoot_iff os key
      refine .inr (.inr ⟨u, hu, fun hk' => ha.spared hroot (h1 (hk.mpr hk')), fun hk' => ?_⟩)
      have hn := mt hk.mp hk'
      rw [not_or, not_not] at hn
      exact ha.broken hN hroot (h2 hn.1 hn.2)

/-! ## At the limit -/

section Limit
variable {t u : Tree K R N L} (hN : 3 ≤ N) (hL : Counts L 5)

theorem room_find (t : Tree K R N L) (k : K) : Room t [.find k] := by
  intro p op hp
  have := List.mem_singleton.mp (hp.subset (List.mem_append_right p (List.mem_singleton_self op)))
  rw [this]
  trivial

/-- What is found below the limit is found without it. -/
theorem find_of_unlimited (hL : Counts L 2) (hu : Counts L u.file.blockCount) {k : K} {o : Option R} {v : Tree K R N}
    (h : Tree.find k u.unlimited = .ok o v) (hv : v.file.blockCount = u.file.blockCount) :
    ((Op.find k).exec u).1 = .found o := by
  rcases (mirrors_treeFind (limit_counted hL) k).returns hu h with ⟨w, hw, -, -⟩ | ⟨w, -, -, hn, -⟩
  · rw [exec_find, hw, seen]
  · rw [hv] at hn
    exact absurd hu hn

include hL

theorem Forgets.losesNothing (ht : Counts L t.file.blockCount) (hu : Counts L u.file.blockCount) {G : Ghost K}
    {m : K → Option R} (h : Holds t.unlimited G m) (hf : Forgets m u.unlimited) : ¬ LosesNothing t u := by
  intro hl
  have hL2 : Counts L 2 := hL.le (by omega)
  obtain ⟨k, f, hk, he, hcount⟩ := hf
  obtain ⟨g, hg, he'⟩ := (h.armed []).find_eq k
  have ha := hl.answers [.find k] (room_find _ k) (room_find _ k)
  have h1 := find_of_unlimited (u := arm u []) hL2 hu he hcount
  have h2 := find_of_unlimited (u := arm t []) hL2 ht he' hg.blockCount
  simp only [results, h1, h2, List.cons.injEq, Res.found.injEq, and_true] at ha
  exact hk ha.symm

include hN

theorem Holds.losesNothing (ht : Counts L t.file.blockCount) (hu : Counts L u.file.blockCount) {G H : Ghost K}
    {m : K → Option R} (h : Holds t.unlimited G m) (h' : Holds u.unlimited H m) : LosesNothing t u := by
  have hanswers : ∀ {v : Tree K R N L} {I : Ghost K}, Counts L v.file.blockCount → Holds v.unlimited I m →
      ∀ ops, Room (arm v []) ops → results (arm v []) ops = specResults m ops := by
    intro v I hv h ops hroom
    have hb : Below (arm v []) (arm v.unlimited []) := ⟨rfl, hv⟩
    exact (hb.run hN hL (.inl ⟨I, m, h.granted⟩) hroom).1.trans (h.granted.results_eq hN ops)
  refine ⟨fun ops hrt hru => (hanswers hu h' ops hru).trans (hanswers ht h ops hrt).symm, ?_, fun p b hf => ?_⟩
  · have hp := h'.shaped.rootParent
    rwa [← h'.root] at hp
  · refine (h'.linkOk (h'.follow_live h'.shaped.rootLive (p := p) ?_).1).of_unlimited
    rw [← h'.root, Tree.unlimited, follow_unlimited]
    exact hf

/-- Below the limit a reached tree holds a map, or is stuck. -/
theorem Reach.holds_or_stuck {raw : Nat → Node K R N} {addr : Nat} (h : Reach raw addr t)
    (ht : Counts L t.file.blockCount) : (∃ G m, Holds t.unlimited G m) ∨ ∃ c, Stuck t.unlimited c := by
  have hL2 : Counts L 2 := hL.le (by omega)
  induction h with
  | fresh =>
    rw [(fresh_below raw addr hL2).same]
    rcases fresh_attained raw addr with ⟨G, m, h⟩ | ⟨c, h⟩
    · exact .inl ⟨G, m, h.toHolds⟩
    · exact .inr ⟨c, h⟩
  | @step t os op _ hpre hkeep ih =>
    rcases exec_cases hL2 (t := arm t os) hpre op with ⟨he, -⟩ | ⟨-, hs, -⟩
    · have he : op.exec (arm t.unlimited os) = _ := he
      rcases ih hpre with ⟨G, m, h⟩ | ⟨c, h⟩
      · refine .inl ?_
        cases op with
        | find k =>
          obtain ⟨f, hf, hx⟩ := (h.armed os).find_eq k
          have hx : (Op.find k).exec (arm t.unlimited os) = (.found (m k), { arm t.unlimited os with file := f }) := by
            simp only [Op.exec, hx]
          rw [hx] at he
          rw [← (Prod.mk.inj he).2]
          exact ⟨G, m, (h.armed os).refreshed hf⟩
        | insert key record =>
          rcases h.insert_cases hN os key record with ⟨u, H, hx, hu⟩ | ⟨u, hx, hu⟩ | ⟨u, hx, hu, -⟩ <;>
            rw [Op.exec, hx] at he <;> rw [← (Prod.mk.inj he).2]
          · exact ⟨H, _, hu⟩
          · exact ⟨G, m, hu⟩
          · obtain ⟨H, hu⟩ := hu (hkeep key record rfl (Prod.mk.inj he).1.symm)
            exact ⟨H, m, hu⟩
      · rw [(h.armed os).exec op] at he
        rw [← (Prod.mk.inj he).2]
        exact .inr ⟨c, h.armed os⟩
    · exact absurd ht hs.uncounted

theorem losesNothing_iff (raw : Nat → Node K R N) (addr : Nat) (h : Reach raw addr t)
    (ht : Counts L t.file.blockCount) (hu : Counts L u.file.blockCount) (os : List Alloc) (key : K) (record : R)
    (hf : Tree.insert key record (arm t os) = .error .allocateBlock u) : LosesNothing t u ↔ KeepsRoot t os key := by
  have hf' : Tree.insert key record (arm t.unlimited os) = .error .allocateBlock u.unlimited := by
    have hc : Counted (limit L : Bound (File K R N L) (File K R N) Err) := limit_counted (hL.le (by omega))
    rcases (mirrors_treeInsert hc key record).error (s := arm t os) ht hf with he | ⟨he, -⟩
    · exact he
    · cases he
  rcases h.holds_or_stuck hN hL ht with ⟨G, m, h⟩ | ⟨c, h⟩
  · rcases h.insert_cases hN os key record with ⟨v, H, he, -⟩ | ⟨v, he, -⟩ | ⟨v, he, h1, h2⟩
    · rw [hf'] at he; cases he
    · rw [hf'] at he; cases he
    · rw [hf'] at he
      injection he with _ he
      subst he
      refine ⟨fun hl => by_contra fun hk => (h2 hk).losesNothing hL ht hu h hl, fun hk => ?_⟩
      obtain ⟨H, hH⟩ := h1 hk
      exact h.losesNothing hN hL ht hu hH
  · have he := (h.armed os).exec (.insert key record)
    simp only [Op.exec, hf'] at he
    have : Stuck.err c = .allocateBlock := by injection (Prod.mk.inj he).1 with he; exact he.symm
    unfold Stuck.err at this
    split at this <;> cases this

end Limit

/-- An insert that an allocation failure ended, with the blocks there were still in reach,
    loses nothing exactly if it left the root alone, or failed at its first allocation. -/
theorem insert_failed_iff (hN : 3 ≤ N) (raw : Nat → Node K R N) (addr : Nat) {t u : Tree K R N (some blockLimit)}
    (h : Reach raw addr t) (ht : t.file.blockCount < blockLimit) (hu : u.file.blockCount < blockLimit)
    (os : List Alloc) (key : K) (record : R) (hf : Tree.insert key record (arm t os) = .error .allocateBlock u) :
    LosesNothing t u ↔ KeepsRoot t os key := by
  refine losesNothing_iff hN (counts_limit (by decide)) raw addr h ?_ ?_ os key record hf
  · exact counts_limit (Nat.le_of_lt_succ ht)
  · exact counts_limit (Nat.le_of_lt_succ hu)

/-- The tree of the keys 1, 2, 3 at capacity 3: a full root. -/
def fullRoot : Tree Nat Nat 3 (some blockLimit) :=
  [Op.insert 1 10, .insert 2 20, .insert 3 30].foldl (fun t op => (op.exec (arm t [])).2)
    (fresh (zeroed 0 0) 7 (some blockLimit))

theorem fullRoot_reach : Reach (zeroed 0 0) 7 fullRoot := by
  refine .step [] (.insert 3 30) (.step [] (.insert 2 20) (.step [] (.insert 1 10) .fresh ?_ ?_) ?_ ?_) ?_ ?_
  all_goals first | decide +kernel | exact fun _ _ _ h => absurd h (by decide +kernel)

/-- The root is split, and the new root is refused: 3 was on its way up. -/
theorem fullRoot_loses : ∃ u, Tree.insert 4 40 (arm fullRoot [.ok, .throws false]) = .error .allocateBlock u ∧
    u.file.blockCount < blockLimit ∧ ¬ LosesNothing fullRoot u := by
  have h : wp (Tree.insert 4 40) (fun _ _ => False) (fun e u => e = .allocateBlock ∧
      u.file.blockCount < blockLimit ∧ results (arm u []) [.find 3] ≠ results (arm fullRoot []) [.find 3])
      (arm fullRoot [.ok, .throws false]) := by
    decide +kernel
  rcases h.run with ⟨_, _, -, h⟩ | ⟨_, u, hu, rfl, hlt, hne⟩
  · exact h.elim
  · exact ⟨u, hu, hlt, fun hl => hne (hl.answers _ (room_find _ _) (room_find _ _))⟩

/-- Refused at the first allocation. -/
theorem insert_failed_iff_first : ∃ u, Tree.insert 4 40 (arm fullRoot [.throws true]) = .error .allocateBlock u ∧
    (LosesNothing fullRoot u ↔ KeepsRoot fullRoot [.throws true] 4) := by
  have h : wp (Tree.insert 4 40) (fun _ _ => False) (fun e u => e = .allocateBlock ∧ u.file.blockCount < blockLimit)
      (arm fullRoot [.throws true]) := by
    decide +kernel
  rcases h.run with ⟨_, _, -, h⟩ | ⟨_, u, hu, rfl, hlt⟩
  · exact h.elim
  · exact ⟨u, hu, insert_failed_iff (by decide) (zeroed 0 0) 7 fullRoot_reach (by decide +kernel) hlt _ _ _ hu⟩

end Dumbnose.Btree
