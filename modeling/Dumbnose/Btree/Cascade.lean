/-
  Dumbnose.Btree.Cascade — making room: the splits an insert causes, from the root
  down to the leaf.

  `Step` is one move on a whole tree: following links, a split below a parent, a split
  of the root. What every move keeps (`Step.sound`, `Step.has`, `Step.level`,
  `Step.within`) is said once, and `Steps` is any number of moves. A parent that has
  made room is not full, whichever half its child has now: so a split never meets a
  full parent, and `makeRoom` is `Steps` (`makeRoomFrom_wp`).

  It fails only where `allocate_block` does. What is left then depends on whether some
  node on the way to the leaf had room (`Spare`): if one had, or nothing was allocated
  yet, the tree is whole and its root the same (`Spared`). If all were full the root
  was split, and the old root no longer leads to every key (`Broken`).
-/

import Dumbnose.Btree.Lookup

namespace Dumbnose.Btree

open Lib.Exec Lib.Gaps

variable {K R : Type} {N : Nat} [LinearOrder K]

inductive Step : File K R N → Ghost K → File K R N → Ghost K → Prop
  | touch {s t : File K R N} {G : Ghost K} : Does s t s.pages → Step s G t G
  | up {s t : File K R N} {G : Ghost K} {x : Nat} {as : List (Entry K R)} {mid : Entry K R}
      {bs ps qs : List (Entry K R)} :
      Splits N s.pages G x s.blockCount as mid bs ps qs → as.length = middle N → (s.pages.recs x).length = N →
      Makes 1 s t (s.pages.splitUp x s.blockCount as mid bs ps qs) → Step s G t (G.split x s.blockCount mid.key)
  | root {s t : File K R N} {G : Ghost K} {as : List (Entry K R)} {mid : Entry K R} {bs : List (Entry K R)} :
      Splits N (s.pages.grow (s.blockCount + 1) G.root) (G.grow (s.blockCount + 1)) G.root s.blockCount as mid bs
        [] [] →
      as.length = middle N → (s.pages.recs G.root).length = N →
      Makes 2 s t ((s.pages.grow (s.blockCount + 1) G.root).splitUp G.root s.blockCount as mid bs [] []) →
      Step s G t ((G.grow (s.blockCount + 1)).split G.root s.blockCount mid.key)

inductive Steps (s : File K R N) (G : Ghost K) : File K R N → Ghost K → Prop
  | refl : Steps s G s G
  | tail {t u : File K R N} {H I : Ghost K} : Steps s G t H → Step t H u I → Steps s G u I

theorem Steps.trans {s t u : File K R N} {G H I : Ghost K} (h : Steps s G t H)
    (h' : Steps t H u I) : Steps s G u I := by
  induction h' with
  | refl => exact h
  | tail _ hs ih => exact ih.tail hs

theorem Steps.single {s t : File K R N} {G H : Ghost K} (h : Step s G t H) : Steps s G t H := Steps.refl.tail h

/-! ## What a move keeps -/

section Step
variable {s t : File K R N} {G H : Ghost K} {b : Nat} {k : K}

theorem Step.keeps (hs : Step s G t H) : Keeps s t := by
  cases hs with
  | touch hd => exact hd.toKeeps
  | up _ _ _ hm | root _ _ _ hm => exact hm.toKeeps

theorem Step.os (hs : Step s G t H) : ∃ n, t.os = s.os.drop n := by
  cases hs with
  | touch hd => exact ⟨0, hd.os⟩
  | up _ _ _ hm | root _ _ _ hm => exact ⟨_, hm.os⟩

theorem Step.live (hs : Step s G t H) (hb : G.live b) : H.live b := by
  cases hs with
  | touch => exact hb
  | up => exact .inl hb
  | root => exact .inl (.inl hb)

variable (h : Sound s G)
include h

theorem Sound.fresh : ¬ G.live s.blockCount ∧ ¬ G.live (s.blockCount + 1) :=
  ⟨fun hb => absurd (h.alloc _ hb) (by omega), fun hb => absurd (h.alloc _ hb) (by omega)⟩

theorem Step.level (hs : Step s G t H) (hb : G.live b) : H.level b = G.level b := by
  have hlt := h.alloc b hb
  have e1 : b ≠ s.blockCount := by omega
  have e2 : b ≠ s.blockCount + 1 := by omega
  cases hs with
  | touch => rfl
  | up => simp [Ghost.split, e1]
  | root => simp [Ghost.split, Ghost.grow, e1, e2]

theorem Step.has {r : R} (hs : Step s G t H) : t.pages.Has H k r ↔ s.pages.Has G k r := by
  cases hs with
  | touch hd => rw [hd.pages]
  | up hsp _ _ hm => rw [hm.pages]; exact hsp.has
  | root hsp _ _ hm => rw [hm.pages]; exact hsp.has.trans (Pages.grow_has h.fresh.2)

/-- Bounds only narrow. -/
theorem Step.within (hs : Step s G t H) (hb : G.live b) (hk : Within (H.lo b) (H.hi b) k) :
    Within (G.lo b) (G.hi b) k := by
  cases hs with
  | touch => exact hk
  | up hsp => exact hsp.within_of_split hb hk
  | root hsp =>
    have hk := hsp.within_of_split (.inl hb) hk
    have e : b ≠ s.blockCount + 1 := fun e => h.fresh.2 (e ▸ hb)
    simpa [Ghost.grow, e] using hk

theorem Step.sound (hs : Step s G t H) : Sound t H := by
  have new : ∀ {n : Nat} {P : Pages K R}, Makes n s t P → ∀ c, G.live c ∨ s.blockCount ≤ c ∧ c < s.blockCount + n →
      (t.blocks c).recordCount ≤ N ∧ c < t.blockCount := by
    intro n P hm c hc
    rw [hm.blockCount]
    rcases hc with hc | ⟨h1, h2⟩
    · exact ⟨hm.bounded c (h.bounded c hc), by have := h.alloc c hc; omega⟩
    · exact ⟨(hm.fresh c h1 h2).2.1, h2⟩
  cases hs with
  | touch hd => exact h.does hd
  | up hsp _ _ hm =>
    have hlive : ∀ c, G.live c ∨ c = s.blockCount → G.live c ∨ s.blockCount ≤ c ∧ c < s.blockCount + 1 :=
      fun c hc => hc.imp_right fun e => by omega
    exact ⟨⟨hm.pages ▸ hsp.splitUp_shaped, fun c hc => (new hm c (hlive c hc)).1,
      fun c hc => (new hm c (hlive c hc)).2⟩,
      (hm.held _ h.rootHeld).trans hm.addr.symm⟩
  | root hsp _ _ hm =>
    have hlive : ∀ c, (G.live c ∨ c = s.blockCount + 1) ∨ c = s.blockCount →
        G.live c ∨ s.blockCount ≤ c ∧ c < s.blockCount + 2 := by
      intro c hc
      rcases hc with (hc | rfl) | rfl
      · exact .inl hc
      · exact .inr ⟨by omega, by omega⟩
      · exact .inr ⟨by omega, by omega⟩
    exact ⟨⟨hm.pages ▸ hsp.splitUp_shaped, fun c hc => (new hm c (hlive c hc)).1,
      fun c hc => (new hm c (hlive c hc)).2⟩,
      (hm.fresh (s.blockCount + 1) (by omega) (by omega)).1.trans hm.addr.symm⟩

end Step

section Steps
variable {s t : File K R N} {G H : Ghost K} {b : Nat} {k : K}

theorem Steps.keeps (hs : Steps s G t H) : Keeps s t := by
  induction hs with
  | refl => exact .refl _
  | tail _ h ih => exact ih.trans h.keeps

theorem Steps.os (hs : Steps s G t H) : ∃ n, t.os = s.os.drop n := by
  induction hs with
  | refl => exact ⟨0, rfl⟩
  | tail _ h ih =>
    obtain ⟨n, hn⟩ := ih
    obtain ⟨m, hm⟩ := h.os
    exact ⟨n + m, by rw [hm, hn, List.drop_drop]⟩

theorem Steps.live (hs : Steps s G t H) (hb : G.live b) : H.live b := by
  induction hs with
  | refl => exact hb
  | tail _ h ih => exact h.live ih

variable (h : Sound s G)
include h

theorem Steps.sound (hs : Steps s G t H) : Sound t H := by
  induction hs with
  | refl => exact h
  | tail _ h1 ih => exact h1.sound ih

theorem Steps.level (hs : Steps s G t H) (hb : G.live b) : H.level b = G.level b := by
  induction hs with
  | refl => rfl
  | tail h0 h1 ih => rw [h1.level (h0.sound h) (h0.live hb), ih]

theorem Steps.has {r : R} (hs : Steps s G t H) : t.pages.Has H k r ↔ s.pages.Has G k r := by
  induction hs with
  | refl => rfl
  | tail h0 h1 ih => rw [h1.has (h0.sound h), ih]

end Steps

/-! ## One split -/

/-- `t` is what a call of `allocate_block` that threw left of `s`. -/
def Refused (s t : File K R N) : Prop := ∃ extended os, s.os = .throws extended :: os ∧ t = s.refuse extended

omit [LinearOrder K] in
theorem File.grants_or (s : File K R N) : s.Grants ∨ ∃ extended os, s.os = .throws extended :: os := by
  rcases h : s.os with _ | ⟨_ | extended, os⟩
  · exact .inl fun _ _ h' => by rw [h] at h'; cases h'
  · exact .inl fun _ _ h' => by rw [h] at h'; cases h'
  · exact .inr ⟨extended, os, rfl⟩

section Split
variable {s : File K R N} {G : Ghost K} (h : Sound s G) {x : Nat} {as : List (Entry K R)} {mid : Entry K R}
  {bs ps qs : List (Entry K R)}

omit [LinearOrder K] in
theorem exists_mid (hN : 3 ≤ N) {es : List (Entry K R)} (hl : es.length = N) :
    ∃ as mid bs, es = as ++ mid :: bs ∧ as.length = middle N := by
  have hm : middle N < es.length := by unfold middle; omega
  exact ⟨es.take (middle N), es[middle N], es.drop (middle N + 1), by
    rw [← List.drop_eq_getElem_cons hm, List.take_append_drop], by rw [List.length_take]; omega⟩

omit [LinearOrder K] in
theorem halves_length (hN : 3 ≤ N) {es : List (Entry K R)} (hl : es.length = N) (he : es = as ++ mid :: bs)
    (ha : as.length = middle N) : as.length < N ∧ bs.length < N := by
  rw [he] at hl
  simp only [List.length_append, List.length_cons] at hl
  unfold middle at ha
  omega

include h

theorem Sound.links_lt (hx : G.live x) {c : Nat} (hc : c ∈ (s.pages.recs x).map Entry.smallerNode ++ [s.pages.larger x])
    (h0 : c ≠ 0) : c < s.blockCount := h.alloc c (h.shaped.link hx hc h0).1

theorem Sound.splitNode_makes (hx : At s x) (hl : G.live x) (hg : s.Grants) (hr : s.pages.recs x = as ++ mid :: bs)
    (ha : as.length = middle N) :
    Returns (splitNode x) (fun sub t => Makes 1 s t (s.pages.splitNode x s.blockCount as mid bs) ∧
      sub = ⟨s.addr, { mid with smallerNode := x }, s.blockCount⟩) s := by
  have hlt := fun c hc h0 => h.links_lt hl (c := c) hc h0
  rw [hr] at hlt
  have := Dumbnose.Btree.splitNode_makes hx (h.alloc x hl) hg hr ha
    (fun e he h0 => hlt _ (by
      have := List.mem_map_of_mem (f := Entry.smallerNode) he
      simp only [List.map_append, List.mem_append]
      exact .inl (.inr this)) h0)
    (fun h0 => hlt _ (by simp) h0)
  rwa [h.shaped.this x hl] at this

/-- Splitting a node below the root. -/
theorem Splits.split_makes (hs : Splits N s.pages G x s.blockCount as mid bs ps qs) (hh : (s.blocks x).file = s.addr)
    (hg : s.Grants) (ha : as.length = middle N) :
    Returns (split x) (fun _ t => Makes 1 s t (s.pages.splitUp x s.blockCount as mid bs ps qs)) s := by
  have hx := h.at hs.live hh
  have hp0 : s.pages.parent x ≠ 0 := h.shaped.pos _ hs.parent_live
  have hplt := h.alloc _ hs.parent_live
  have hpy := hs.parent_ne_y
  have hxc : x ∉ (s.pages.recs x).map Entry.smallerNode ++ [s.pages.larger x] := by
    intro hc
    have := (h.shaped.link hs.live hc hx.ne).2.2
    omega
  rw [hs.recs] at hxc
  simp only [List.map_append, List.map_cons, List.mem_append, List.mem_cons, not_or] at hxc
  unfold Returns split
  rw [wp_bind, wp_node hx.ne, ← pages_parent, if_neg hp0, wp_bind]
  apply (h.splitNode_makes hx hs.live hg hs.recs ha).wp
  intro sub t ht
  obtain ⟨ht, rfl⟩ := ht
  have hpx : t.pages.parent x = s.pages.parent x := by
    rw [ht.pages, Pages.splitNode_parent, if_neg (by tauto), if_neg, if_neg hs.ne_x]
    simp only [List.mem_append, List.mem_cons]
    tauto
  have hxt := hx.keeps ht.toKeeps
  rw [wp_bind, wp_node hx.ne, ← pages_parent, hpx, wp_bind,
    wp_convert hx.ne hxt.held hp0 (by rw [ht.blockCount]; omega), wp_bind]
  have href := refreshed_refresh (s := t) hp0 (by rw [ht.blockCount]; omega)
  have hd := ht.does href.does
  have hpt : At (t.refresh (s.pages.parent x)) (s.pages.parent x) :=
    ⟨hp0, by simp [File.refresh], hd.bounded _ (h.bounded _ hs.parent_live)⟩
  have hrp : (t.refresh (s.pages.parent x)).pages.recs (s.pages.parent x) = ps ++ qs := by
    rw [hd.pages, ht.pages, ← hs.parentRecs]
    simp [Pages.splitNode, Pages.make, Pages.setRecs, Function.update_of_ne hpy, Function.update_of_ne hs.parent_ne]
  have hlp : (t.refresh (s.pages.parent x)).pages.larger (s.pages.parent x) = s.pages.larger (s.pages.parent x) := by
    rw [hd.pages, ht.pages]
    simp [Pages.splitNode, Pages.make, Pages.setLarger, Function.update_of_ne hpy, Function.update_of_ne hs.parent_ne]
  have hgap := hs.gap
  injection hgap with _ hgx _
  have haddr : t.addr = s.addr := ht.addr
  have hins := insertIntoNode_does_split (s := t.refresh (s.pages.parent x)) (e := { mid with smallerNode := x })
    (y := s.blockCount) hpt (by rw [hrp, ← hs.parentRecs]; exact hs.room) hrp hs.sides.1 hs.sides.2
    (by rw [hlp]; exact hgx.symm)
    (by rw [hrp, hlp, ← hs.parentRecs]; exact h.shaped.links_nodup hs.parent_live (by rw [hs.parent_level]; omega))
    hx.ne (by rw [hd.blockCount]; have := h.alloc x hs.live; show x < _; omega) hs.ne (by rw [hd.blockCount]; omega)
  rw [File.refresh_addr, haddr] at hins
  refine hins.wp fun _ u hu => ?_
  have hu' := hd.does hu
  have hxu := hx.keeps hu'.toKeeps
  have hpages : u.pages = s.pages.splitUp x s.blockCount as mid bs ps qs := by
    rw [hu.pages, hd.pages, ht.pages]; rfl
  have hpu : u.pages.parent x = s.pages.parent x := by rw [hpages]; exact hs.parent_x
  rw [wp_bind, wp_node hx.ne, ← pages_parent, hpu, wp_convert hx.ne hxu.held hp0 (by rw [hu'.blockCount]; omega)]
  have := hu'.does (refreshed_refresh (s := u) hp0 (by rw [hu'.blockCount]; omega)).does
  rwa [hpages] at this

theorem Sound.splits_up (hx : G.live x) (hr : x ≠ G.root) (hroom : (s.pages.recs (s.pages.parent x)).length < N)
    (he : s.pages.recs x = as ++ mid :: bs) :
    ∃ ps qs, Splits N s.pages G x s.blockCount as mid bs ps qs := by
  obtain ⟨ps, qs, h1, h2⟩ := h.shaped.exists_sides hx hr
  exact ⟨ps, qs, h.shaped, hx, hr, h.fresh.1, by have := h.level_lt; omega, he, h1, h2, hroom⟩

theorem Sound.splits_root (hN : 3 ≤ N) (he : s.pages.recs G.root = as ++ mid :: bs) :
    Splits N (s.pages.grow (s.blockCount + 1) G.root) (G.grow (s.blockCount + 1)) G.root s.blockCount as mid bs
      [] [] := by
  have hz := h.fresh.2
  have hrz : G.root ≠ s.blockCount + 1 := fun e => hz (e ▸ h.shaped.rootLive)
  refine ⟨h.shaped.grow hz (by omega), .inl h.shaped.rootLive, hrz, ?_, by have := h.level_lt; omega, ?_, ?_, ?_, ?_⟩
  · intro hb
    rcases hb with hb | hb
    · exact h.fresh.1 hb
    · omega
  · simpa [Pages.grow, hrz] using he
  · simp [Pages.grow]
  · simp [Pages.grow, Ghost.grow, hrz, low, first, top, h.shaped.rootLo, h.shaped.rootHi]
  · simp [Pages.grow]; omega

theorem Sound.splitRoot_eq (he : s.pages.recs G.root = as ++ mid :: bs) :
    s.pages.splitRoot G.root s.blockCount (s.blockCount + 1) as mid bs =
      (s.pages.grow (s.blockCount + 1) G.root).splitUp G.root s.blockCount as mid bs [] [] := by
  have hlt := h.alloc _ h.shaped.rootLive
  have h0 := h.shaped.pos _ h.shaped.rootLive
  refine Pages.splitRoot_eq (by omega) (by omega) (by omega) h0 (by omega) fun c hc => ?_
  rw [← he] at hc
  by_cases hc0 : c = 0
  · subst hc0; exact ⟨h0.symm, by omega, by omega⟩
  · have h1 := h.shaped.link h.shaped.rootLive hc hc0
    have h2 := h.alloc c h1.1
    exact ⟨fun e => by have := h1.2.2; rw [e] at this; omega, by omega, by omega⟩

/-- Splitting the root: both blocks are granted, or the second is refused with the
    root's right half cut off and the record between on its way to a node that is
    never made. -/
theorem Sound.splitRoot_wp (hN : 3 ≤ N) (hg : s.Grants) (he : s.pages.recs G.root = as ++ mid :: bs)
    (ha : as.length = middle N) :
    wp (splitRoot G.root)
      (fun _ t => Makes 2 s t (s.pages.splitRoot G.root s.blockCount (s.blockCount + 1) as mid bs))
      (fun e t => e = .allocateBlock ∧ ∃ u, Makes 1 s u (s.pages.splitNode G.root s.blockCount as mid bs) ∧
        Refused u t) s := by
  have hx := h.at h.shaped.rootLive h.rootHeld
  have hlt := h.alloc _ h.shaped.rootLive
  have hxy : G.root ≠ s.blockCount := hlt.ne
  have hxz : G.root ≠ s.blockCount + 1 := by omega
  unfold splitRoot
  rw [wp_bind]
  apply (h.splitNode_makes hx h.shaped.rootLive hg he ha).wp
  intro sub t ht
  obtain ⟨ht, rfl⟩ := ht
  have hxt := hx.keeps ht.toKeeps
  rw [wp_bind, wp_node hx.ne, wp_bind, hxt.held]
  rcases t.grants_or with hg | ⟨extended, os, hos⟩
  · have hz : s.blockCount + 1 = t.blockCount := ht.blockCount.symm
    have hz0 : t.blockCount ≠ 0 := by omega
    rw [wp_allocateBlock rfl hg, wp_bind]
    refine (construct_makes t 0 hz0).wp fun _ t2 h2 => ?_
    rw [wp_bind]
    have hz2 := h2.at_new hz0
    refine (setLargerNode_does hz2 fun _ => by rw [h2.blockCount]; show s.blockCount < _; omega).wp fun _ t3 h3 => ?_
    have hz3 := hz2.keeps h3.toKeeps
    have hr3 : t3.pages.recs t.blockCount = [] := by rw [h3.pages, h2.pages]; simp [Pages.make]
    have hthis : ∀ c, c = t.blockCount → t2.pages.this c = c := by intro c hc; rw [hc, h2.pages]; simp
    rw [wp_bind]
    refine (insertOnEndUnsafe_does hz3 (by rw [hr3]; show 0 < N; omega) fun _ => by
      rw [h3.blockCount, h2.blockCount]; show G.root < _; omega).wp fun _ t4 h4 => ?_
    rw [wp_bind, wp_setParentNode hx.ne, wp_pure]
    have h5 : Does t4 (t4.modify G.root fun n => { n with parentNode := t.blockCount }) t4.pages := by
      refine ⟨.modify id id id, ?_, rfl, rfl⟩
      have hp : t4.pages.parent G.root = t.blockCount := by
        rw [h4.pages, h3.pages]
        show (if G.root ∈ [G.root] ∧ G.root ≠ 0 then _ else _) = _
        rw [if_pos ⟨List.mem_singleton_self _, hx.ne⟩, Pages.adopt_this, Pages.setLarger_this, hthis _ rfl]
      rw [pages_modify]
      simp only [← pages_this, ← pages_larger, Function.update_eq_self]
      ext d : 2 <;> try rfl
      · exact congrFun (hp ▸ Function.update_eq_self G.root t4.pages.parent) d
      · exact congrFun (Function.update_eq_self G.root t4.pages.recs) d
    have := ((ht.trans h2).does h3).does (h4.trans h5)
    rw [h4.pages, h3.pages, h2.pages, ht.pages] at this
    simp only [Pages.adopt_recs, Pages.setLarger_recs, Pages.adopt_this, Pages.setLarger_this, Pages.make_this] at this
    rw [← hz] at this ⊢
    simp only [Pages.make, Function.update_self, List.nil_append] at this
    exact this
  · rw [wp_allocateBlock_refused rfl hos]
    exact ⟨rfl, t, ht, extended, os, hos, rfl⟩

end Split

/-! ## The cascade -/

/-- A node from level `l` up, on the way to `k`, has room. -/
def Spare (N : Nat) (P : Pages K R) (G : Ghost K) (k : K) (l : Nat) : Prop :=
  ∃ a, G.live a ∧ l ≤ G.level a ∧ Within (G.lo a) (G.hi a) k ∧ (P.recs a).length < N

/-- Node `b` no longer leads to every key. -/
def Cut (P : Pages K R) (G : Ghost K) (b : Nat) : Prop := ∃ k r, P.Has G k r ∧ ¬ Within (G.lo b) (G.hi b) k

/-- Every node has records, but for the root of an empty tree. -/
def Solid (P : Pages K R) (G : Ghost K) : Prop := ∀ b, G.live b → P.recs b = [] → b = G.root ∧ G.level b = 0

/-- From level `l` up to node `b`, every node on the way to `k` is full. -/
structure FullTo (N : Nat) (P : Pages K R) (G : Ghost K) (k : K) (l b : Nat) : Prop where
  live : G.live b
  above : l ≤ G.level b
  within : Within (G.lo b) (G.hi b) k
  full : ∀ c, G.live c → l ≤ G.level c → G.level c ≤ G.level b → Within (G.lo c) (G.hi c) k → (P.recs c).length = N

/-- A full node on the way to `k` leaves its right half a record, or sends `k` there. -/
def Climbs (N : Nat) (P : Pages K R) (G : Ghost K) (k : K) (l : Nat) : Prop :=
  ∀ b, FullTo N P G k l b → 5 ≤ N ∨ ∀ e ∈ P.recs b, e.key < k

/-- A full node on the way to `k` has a key above `k`. -/
def Drops (N : Nat) (P : Pages K R) (G : Ghost K) (k : K) (l : Nat) : Prop :=
  ∃ b, FullTo N P G k l b ∧ ∃ e ∈ P.recs b, k < e.key

/-- The blocks it takes to make room in a node: one for each full node from there up, and
    one for a new root. -/
def Pages.needs (N : Nat) (P : Pages K R) : Nat → Nat → Nat
  | 0, _ => 0
  | f + 1, b => if (P.recs b).length = N then (if P.parent b = 0 then 2 else P.needs N f (P.parent b) + 1) else 0

/-- Room was made in node `x`, and in the half of it that a child or a new key needs. -/
structure Made (s : File K R N) (G : Ghost K) (x : Nat) (t : File K R N) (H : Ghost K) : Prop where
  steps : Steps s G t H
  below : ∀ c, G.live c → G.level c < G.level x →
    t.pages.recs c = s.pages.recs c ∧ H.lo c = G.lo c ∧ H.hi c = G.hi c
  parents : ∀ c, G.live c → G.level c + 1 < G.level x → t.pages.parent c = s.pages.parent c
  children : ∀ c, G.live c → c ≠ G.root → s.pages.parent c = x → (t.pages.recs (t.pages.parent c)).length < N
  keys : ∀ k, Within (G.lo x) (G.hi x) k → (∀ r, ¬ s.pages.Has G k r) →
    ∃ c, H.live c ∧ H.level c = G.level x ∧ Within (H.lo c) (H.hi c) k ∧ (t.pages.recs c).length < N
  /-- Only the node that waits for a record of the level below may be without one. -/
  solid : ∀ k, Within (G.lo x) (G.hi x) k → Solid s.pages G → Climbs N s.pages G k (G.level x) →
    ∀ b, H.live b → t.pages.recs b = [] →
      b = H.root ∧ H.level b = 0 ∨ H.level b = G.level x ∧ Within (H.lo b) (H.hi b) k
  hollow : ∀ k, Within (G.lo x) (G.hi x) k → N < 5 → Drops N s.pages G k (G.level x) →
    ∃ b, H.live b ∧ t.pages.recs b = [] ∧ ¬ Within (H.lo b) (H.hi b) k

/-- An allocation failed with the tree whole, and the root the same. -/
def Spared (s : File K R N) (G : Ghost K) (t : File K R N) : Prop :=
  ∃ u H, Steps s G u H ∧ H.root = G.root ∧ Refused u t

/-- An allocation failed after the root was split, or between its halves. -/
def Broken (s : File K R N) (G : Ghost K) (t : File K R N) : Prop :=
  (∃ u H, Steps s G u H ∧ Cut u.pages H G.root ∧ Refused u t) ∨
  ∃ s' u as mid bs, Does s s' s.pages ∧ s.pages.recs G.root = as ++ mid :: bs ∧
    Makes 1 s' u (s.pages.splitNode G.root s.blockCount as mid bs) ∧ Refused u t

section Cascade
variable {s : File K R N} {G : Ghost K} (h : Sound s G) {x : Nat} {k : K}

theorem Cut.step {t : File K R N} {H : Ghost K} {b : Nat} (hc : Cut s.pages G b) (hb : G.live b)
    (hs : Step s G t H) (h : Sound s G) :
    Cut t.pages H b := by
  obtain ⟨k, r, h1, h2⟩ := hc
  exact ⟨k, r, (hs.has h).mpr h1, fun hw => h2 (hs.within h hb hw)⟩

theorem Broken.of_does {s' t : File K R N} (hd : Does s s' s.pages) (hb : Broken s' G t) : Broken s G t := by
  rcases hb with ⟨u, H, h1, h2, h3⟩ | ⟨s2, u, as, mid, bs, h1, h2, h3, h4⟩
  · exact .inl ⟨u, H, (Steps.single (.touch hd)).trans h1, h2, h3⟩
  · rw [hd.pages] at h1 h2 h3
    rw [hd.blockCount] at h3
    exact .inr ⟨s2, u, as, mid, bs, hd.trans h1, h2, h3, h4⟩

theorem Spared.of_does {s' t : File K R N} (hd : Does s s' s.pages) (hb : Spared s' G t) : Spared s G t := by
  obtain ⟨u, H, h1, h2⟩ := hb
  exact ⟨u, H, (Steps.single (.touch hd)).trans h1, h2⟩

include h

/-- A full node is not the one with room. -/
theorem Sound.spare_parent (hx : G.live x) (hr : x ≠ G.root) (hw : Within (G.lo x) (G.hi x) k)
    (hfull : (s.pages.recs x).length = N) :
    Spare N s.pages G k (G.level x) ↔ Spare N s.pages G k (G.level (s.pages.parent x)) := by
  rw [(h.shaped.linked x hx hr).2.1]
  constructor
  · intro h
    obtain ⟨a, h1, h2, h3, h4⟩ := h
    refine ⟨a, h1, ?_, h3, h4⟩
    by_contra hl
    have := h.shaped.unique h1 hx h3 hw (by omega)
    subst this; omega
  · intro h
    obtain ⟨a, h1, h2, h3, h4⟩ := h
    exact ⟨a, h1, by omega, h3, h4⟩

theorem Sound.not_spare_root (hfull : (s.pages.recs G.root).length = N) : ¬ Spare N s.pages G k (G.level G.root) := by
  intro h
  obtain ⟨a, h1, h2, h3, h4⟩ := h
  have := h.shaped.unique h1 h.shaped.rootLive h3 (by rw [h.shaped.rootLo, h.shaped.rootHi]; exact within_none k)
    (Nat.le_antisymm (h.shaped.below a h1) h2)
  subst this; omega

/-- The first node of a full stretch. -/
theorem Sound.fullTo_self (hx : G.live x) (hw : Within (G.lo x) (G.hi x) k) (hfull : (s.pages.recs x).length = N) :
    FullTo N s.pages G k (G.level x) x := by
  refine ⟨hx, Nat.le_refl _, hw, fun c hc h1 h2 hcw => ?_⟩
  rw [h.shaped.unique hc hx hcw hw (by omega)]
  exact hfull

/-- Above a full node the full stretch goes on from its parent. -/
theorem Sound.fullTo_parent {b : Nat} (hx : G.live x) (hr : x ≠ G.root) (hw : Within (G.lo x) (G.hi x) k)
    (hfull : (s.pages.recs x).length = N) :
    FullTo N s.pages G k (G.level x) b ∧ b ≠ x ↔ FullTo N s.pages G k (G.level (s.pages.parent x)) b := by
  have hp := (h.shaped.linked x hx hr).2.1
  constructor
  · intro h
    obtain ⟨⟨h1, h2, h3, h4⟩, hne⟩ := h
    have hl : G.level x ≠ G.level b := fun e => hne (h.shaped.unique h1 hx h3 hw e.symm)
    exact ⟨h1, by omega, h3, fun c hc hcl => h4 c hc (by omega)⟩
  · intro h
    obtain ⟨h1, h2, h3, h4⟩ := h
    refine ⟨⟨h1, by omega, h3, fun c hc h5 h6 hcw => ?_⟩, by intro e; subst e; omega⟩
    by_cases e : G.level c = G.level x
    · rw [h.shaped.unique hc hx hcw hw e]; exact hfull
    · exact h4 c hc (by omega) h6 hcw

/-- `P` and `I` are the tree whose parent of `x` has room: `x` and what is below it are
    as in `s`, and only that parent may be without records. -/
structure Prepared (s : File K R N) (G : Ghost K) (x : Nat) (P : Pages K R) (I : Ghost K) : Prop where
  live : ∀ c, G.live c → I.live c
  root : ∀ c, G.live c → c ≠ G.root → c ≠ I.root
  same : ∀ c, G.live c → G.level c ≤ G.level x →
    I.level c = G.level c ∧ I.lo c = G.lo c ∧ I.hi c = G.hi c ∧ P.recs c = s.pages.recs c
  parents : ∀ c, G.live c → G.level c < G.level x → P.parent c = s.pages.parent c
  solid : ∀ k, Within (G.lo x) (G.hi x) k → Solid s.pages G → Climbs N s.pages G k (G.level x) →
    ∀ b, I.live b → P.recs b = [] → b = P.parent x
  hollow : ∀ k, Within (G.lo x) (G.hi x) k → N < 5 →
    (∃ b, (FullTo N s.pages G k (G.level x) b ∧ b ≠ x) ∧ ∃ e ∈ s.pages.recs b, k < e.key) →
    ∃ b, I.live b ∧ P.recs b = [] ∧ ¬ Within (I.lo b) (I.hi b) k

section Prepared
variable {P : Pages K R} {I : Ghost K} {y : Nat} {as : List (Entry K R)} {mid : Entry K R} {bs ps qs : List (Entry K R)}
  (hp : Prepared s G x P I) (hx : G.live x) (hsp : Splits N P I x y as mid bs ps qs)
include hp hx hsp

omit h in
theorem Prepared.recs : s.pages.recs x = as ++ mid :: bs := by
  rw [← (hp.same x hx (Nat.le_refl _)).2.2.2, hsp.recs]

omit h hx in
theorem Prepared.ne {c : Nat} (hc : G.live c) : c ≠ y := by
  intro e
  subst e
  exact hsp.fresh (hp.live c hc)

omit h hp hx in
theorem Splits.recs_left : (P.splitUp x y as mid bs ps qs).recs x = as := by
  rw [Pages.splitUp_recs, if_neg hsp.parent_ne.symm, if_pos rfl]

omit h hp hx in
theorem Splits.recs_right : (P.splitUp x y as mid bs ps qs).recs y = bs := by
  rw [Pages.splitUp_recs, if_neg hsp.parent_ne_y.symm, if_neg hsp.ne_x.symm, if_pos rfl]

omit h in
theorem Prepared.below {c : Nat} (hc : G.live c) (hl : G.level c < G.level x) :
    (P.splitUp x y as mid bs ps qs).recs c = s.pages.recs c ∧ (I.split x y mid.key).lo c = G.lo c ∧
      (I.split x y mid.key).hi c = G.hi c := by
  obtain ⟨h1, h2, h3, h4⟩ := hp.same c hc hl.le
  have hlx := (hp.same x hx (Nat.le_refl _)).1
  have hpl := hsp.parent_level
  have hcy := hp.ne hsp hc
  have hcx : c ≠ x := by intro e; subst e; omega
  have hcp : c ≠ P.parent x := by intro e; subst e; omega
  rw [Pages.splitUp_recs, if_neg hcp, if_neg hcx, if_neg hcy]
  exact ⟨h4, by simp [Ghost.split, hcy, h2], by simp [Ghost.split, hcy, hcx, h3]⟩

theorem Prepared.parents_below {c : Nat} (hc : G.live c) (hl : G.level c + 1 < G.level x) :
    (P.splitUp x y as mid bs ps qs).parent c = s.pages.parent c := by
  have hcx : c ≠ x := by intro e; subst e; omega
  rw [hsp.parent_stays (hp.ne hsp hc) hcx, hp.parents c hc (by omega)]
  -- `c` is two levels below `x`
  intro e
  have hr : c ≠ G.root := by
    intro e
    subst e
    have := h.shaped.below x hx
    omega
  have := (hsp.shaped.linked c (hp.live c hc) (hp.root c hc hr)).2.1
  rw [e, (hp.same x hx (Nat.le_refl _)).1, (hp.same c hc (by omega)).1] at this
  omega

variable (ha : as.length = middle N) (hfull : (s.pages.recs x).length = N)
include ha hfull

theorem Prepared.children (hN : 3 ≤ N) {c : Nat} (hc : G.live c) (hr : c ≠ G.root) (hcx : s.pages.parent c = x) :
    ((P.splitUp x y as mid bs ps qs).recs ((P.splitUp x y as mid bs ps qs).parent c)).length < N := by
  obtain ⟨hasN, hbsN⟩ := halves_length hN hfull (hp.recs hx hsp) ha
  have hl := (h.shaped.linked c hc hr).2.1
  rw [hcx] at hl
  have hpc := hsp.parent_child (hp.live c hc) (hp.root c hc hr) (by rw [hp.parents c hc (by omega), hcx])
  rcases hpc with e | e <;> rw [e]
  · rw [hsp.recs_left]; exact hasN
  · rw [hsp.recs_right]; exact hbsN

omit h in
theorem Prepared.keys (hN : 3 ≤ N) {k : K} (hk : Within (G.lo x) (G.hi x) k) (hno : ∀ r, ¬ s.pages.Has G k r) :
    ∃ c, (I.split x y mid.key).live c ∧ (I.split x y mid.key).level c = G.level x ∧
      Within ((I.split x y mid.key).lo c) ((I.split x y mid.key).hi c) k ∧
      ((P.splitUp x y as mid bs ps qs).recs c).length < N := by
  have hrx := hp.recs hx hsp
  obtain ⟨hasN, hbsN⟩ := halves_length hN hfull hrx ha
  have hlx := hp.same x hx (Nat.le_refl _)
  have hmid : k ≠ mid.key := by
    intro e
    subst e
    exact hno mid.record ⟨x, hx, mid, by rw [hrx]; simp, rfl, rfl⟩
  rw [← hlx.2.1, ← hlx.2.2.1] at hk
  rcases hsp.within_halves hk hmid with hw | hw
  · exact ⟨x, .inl hsp.live, by simp [Ghost.split, hsp.ne_x, hlx.1], hw, by rw [hsp.recs_left]; exact hasN⟩
  · exact ⟨y, .inr rfl, by simp [Ghost.split, hlx.1], hw, by rw [hsp.recs_right]; exact hbsN⟩

/-- Of the two halves only the right one can be without records, and then `k` goes there. -/
theorem Prepared.solid_split {k : K} (hk : Within (G.lo x) (G.hi x) k) (hsol : Solid s.pages G)
    (hcl : Climbs N s.pages G k (G.level x)) {b : Nat} (hb : (I.split x y mid.key).live b)
    (hbe : (P.splitUp x y as mid bs ps qs).recs b = []) :
    (I.split x y mid.key).level b = G.level x ∧ Within ((I.split x y mid.key).lo b) ((I.split x y mid.key).hi b) k := by
  have hrx := hp.recs hx hsp
  have hlx := hp.same x hx (Nat.le_refl _)
  have hlen : as.length + 1 + bs.length = N := by
    rw [hrx] at hfull
    simp only [List.length_append, List.length_cons] at hfull
    omega
  by_cases e1 : b = x
  · subst e1
    rw [hsp.recs_left] at hbe
    rw [hbe] at ha
    exact absurd ha (by unfold middle; simp)
  by_cases e2 : b = y
  · -- `mid` was the last record, and `k` is above it
    subst e2
    rw [hsp.recs_right] at hbe
    have hN5 : ¬ 5 ≤ N := by
      rw [hbe] at hlen
      unfold middle at ha
      simp only [List.length_nil] at hlen
      omega
    have hkm := (hcl x (h.fullTo_self hx hk hfull)).resolve_left hN5 mid (by rw [hrx]; simp)
    refine ⟨by simp [Ghost.split, hlx.1], ?_, ?_⟩
    · simpa [Ghost.split] using hkm
    · simpa [Ghost.split, e1, hlx.2.2.1] using hk.2
  · rw [Pages.splitUp_recs] at hbe
    by_cases e3 : b = P.parent x
    · rw [if_pos e3] at hbe; simp at hbe
    · rw [if_neg e3, if_neg e1, if_neg e2] at hbe
      exact absurd (hp.solid k hk hsol hcl b (hb.resolve_right e2) hbe) e3

/-- A node that is full with a key above `k` leaves a node without records off the way to `k`. -/
theorem Prepared.hollow_split {k : K} (hk : Within (G.lo x) (G.hi x) k) (hN5 : N < 5)
    (hdr : Drops N s.pages G k (G.level x)) :
    ∃ b, (I.split x y mid.key).live b ∧ (P.splitUp x y as mid bs ps qs).recs b = [] ∧
      ¬ Within ((I.split x y mid.key).lo b) ((I.split x y mid.key).hi b) k := by
  have hrx := hp.recs hx hsp
  have hlx := hp.same x hx (Nat.le_refl _)
  obtain ⟨b, hb, e, he, hke⟩ := hdr
  by_cases e1 : b = x
  · -- `mid` is the last record of `x`, so `k` stays left of it
    subst e1
    have hbs : bs = [] := by
      rw [hrx] at hfull
      simp only [List.length_append, List.length_cons] at hfull
      unfold middle at ha
      exact List.length_eq_zero_iff.mp (by omega)
    have hkm : k < mid.key := by
      have ho := (h.shaped.ordered b hx).sorted
      rw [hrx, hbs] at he ho
      rcases List.mem_append.mp he with he | he
      · exact hke.trans ((List.pairwise_append.mp ho).2.2 e he mid (by simp))
      · rw [List.mem_singleton] at he
        exact he ▸ hke
    refine ⟨y, .inr rfl, by rw [hsp.recs_right, hbs], fun hw => ?_⟩
    exact absurd (hw.1 mid.key (by simp [Ghost.split])) hkm.not_gt
  · obtain ⟨c, hc, hce, hcw⟩ := hp.hollow k hk hN5 ⟨b, ⟨hb, e1⟩, e, he, hke⟩
    have hcx : c ≠ x := by
      intro e
      subst e
      rw [hlx.2.2.2, hrx] at hce
      simp at hce
    have hcy : c ≠ y := fun e => hsp.fresh (e ▸ hc)
    have hcp : c ≠ P.parent x := by
      intro e
      subst e
      refine hcw (hsp.shaped.within_parent hsp.live hsp.nonroot ?_)
      rw [hlx.2.1, hlx.2.2.1]
      exact hk
    refine ⟨c, .inl hc, by rw [Pages.splitUp_recs, if_neg hcp, if_neg hcx, if_neg hcy, hce], ?_⟩
    simpa [Ghost.split, hcx, hcy] using hcw

/-- What a split adds to the room its parent made. -/
theorem Prepared.made (hN : 3 ≤ N) {t u : File K R N} {H : Ghost K} (hst : Steps s G t H)
    (hstep : Step t H u (I.split x y mid.key)) (hu : u.pages = P.splitUp x y as mid bs ps qs) :
    Made s G x u (I.split x y mid.key) := by
  refine ⟨hst.tail hstep, ?_, ?_, ?_, ?_, ?_, ?_⟩ <;> rw [hu]
  · intro c hc hl
    exact hp.below hx hsp hc hl
  · intro c hc hl
    exact hp.parents_below h hx hsp hc hl
  · intro c hc hr hcx
    exact hp.children h hx hsp ha hfull hN hc hr hcx
  · intro k hk hno
    exact hp.keys hx hsp ha hfull hN hk hno
  · intro k hk hsol hcl b hb hbe
    exact .inr (hp.solid_split h hx hsp ha hfull hk hsol hcl hb hbe)
  · intro k hk hN5 hdr
    exact hp.hollow_split h hx hsp ha hfull hk hN5 hdr

end Prepared

omit h in
/-- A node with room already. -/
theorem Made.refl (hx : G.live x) (hlt : (s.pages.recs x).length < N) : Made s G x s G :=
  ⟨.refl, fun _ _ _ => ⟨rfl, rfl, rfl⟩, fun _ _ _ => rfl, fun _ _ _ hp => by rw [hp]; exact hlt,
    fun _ hk _ => ⟨x, hx, rfl, hk, hlt⟩, fun _ _ hs _ b hb he => .inl (hs b hb he),
    fun _ hk _ ⟨_, hb, _⟩ => absurd (hb.full x hx (Nat.le_refl _) hb.above hk) (by omega)⟩

/-- Above the root comes the new root, with room and no records yet. -/
theorem Sound.prepared_root {as : List (Entry K R)} {mid : Entry K R} {bs : List (Entry K R)}
    (he : s.pages.recs G.root = as ++ mid :: bs) :
    Prepared s G G.root (s.pages.grow (s.blockCount + 1) G.root) (G.grow (s.blockCount + 1)) := by
  have hz : ∀ c, G.live c → c ≠ s.blockCount + 1 := fun c hc e => h.fresh.2 (e ▸ hc)
  constructor
  · intro c hc
    exact .inl hc
  · intro c hc _
    exact hz c hc
  · intro c hc _
    simp [Ghost.grow, Pages.grow, hz c hc]
  · intro c hc hl
    exact Pages.grow_parent (hz c hc) (by intro e; subst e; omega)
  · intro k _ hsol _ b hb hbe
    rcases hb with hb | hb
    · have hbe : s.pages.recs b = [] := by simpa [Pages.grow, hz b hb] using hbe
      obtain ⟨rfl, -⟩ := hsol b hb hbe
      rw [he] at hbe
      simp at hbe
    · simpa [Pages.grow] using hb
  · intro k _ _ hb
    obtain ⟨b, ⟨hb, hne⟩, -⟩ := hb
    have hl := Nat.le_antisymm (h.shaped.below b hb.live) hb.above
    refine absurd (h.shaped.unique hb.live h.shaped.rootLive hb.within ?_ hl) hne
    rw [h.shaped.rootLo, h.shaped.rootHi]
    exact within_none k

/-- Splitting the root with every node on the way full. The new root has the one record
    that it got. -/
theorem Sound.split_root_wp (hN : 3 ≤ N) (hfull : (s.pages.recs G.root).length = N) :
    wp (Btree.split G.root)
      (fun _ t => ∃ H, Made s G G.root t H ∧ (s.Grants ∧ Cut t.pages H G.root) ∧
        (t.pages.recs G.root).length < N ∧ (t.pages.recs (t.pages.parent G.root)).length = 1 ∧
        t.blockCount = s.blockCount + 2)
      (fun e t => e = .allocateBlock ∧ (¬ s.Grants → Spared s G t) ∧ (s.Grants → Broken s G t)) s := by
  have hr := h.at h.shaped.rootLive h.rootHeld
  obtain ⟨as, mid, bs, he, ha⟩ := exists_mid hN hfull
  unfold Btree.split
  rw [wp_bind, wp_node hr.ne, ← pages_parent, if_pos h.shaped.rootParent]
  rcases s.grants_or with hg | ⟨extended, os, hos⟩
  · refine (h.splitRoot_wp hN hg he ha).mono (fun _ t ht => ?_) fun e t ht => ?_
    · rw [h.splitRoot_eq he] at ht
      have hsp := h.splits_root hN he
      have hstep : Step s G t _ := .root hsp ha hfull ht
      refine ⟨_, (h.prepared_root he).made h h.shaped.rootLive hsp ha hfull hN .refl hstep ht.pages,
        ⟨hg, mid.key, mid.record, ?_, ?_⟩, ?_, ?_, ht.blockCount⟩
      · exact (hstep.has h).mpr ⟨G.root, h.shaped.rootLive, mid, by rw [he]; simp, rfl, rfl⟩
      · intro hlt
        obtain ⟨-, hlt⟩ := hlt
        exact lt_irrefl _ (hlt mid.key (by simp [Ghost.split]))
      · rw [ht.pages, hsp.recs_left]
        exact (halves_length hN hfull he ha).1
      · rw [ht.pages, hsp.parent_x, Pages.splitUp_recs, if_pos rfl]
        rfl
    · obtain ⟨rfl, u, hu, href⟩ := ht
      exact ⟨rfl, fun hn => absurd hg hn, fun _ => .inr ⟨s, u, as, mid, bs, .refl s, he, hu, href⟩⟩
  · unfold splitRoot
    rw [wp_bind]
    refine splitNode_refused hr hos ⟨rfl, fun _ => ⟨s, G, .refl, rfl, extended, os, hos, rfl⟩, fun hg => ?_⟩
    exact absurd hos (hg extended os)

section Below
variable {s' t : File K R N} {H : Ghost K} (hd : Does s s' s.pages) (hx : G.live x) (hr : x ≠ G.root)
  (hm : Made s' G (s.pages.parent x) t H)
include hd hm

omit h in
theorem Made.steps_of_does : Steps s G t H := (Steps.single (.touch hd)).trans hm.steps

/-- A node below the root stays below. -/
theorem Made.ne_root {c : Nat} (hc : G.live c) (hcr : c ≠ G.root) : c ≠ H.root := by
  intro e
  subst e
  have hst := hm.steps_of_does hd
  obtain ⟨hp, hpl, -⟩ := h.shaped.linked _ hc hcr
  have := (hst.sound h).shaped.below _ (hst.live hp)
  rw [hst.level h hp, hst.level h hc, hpl] at this
  omega

include hx hr

/-- The node as it was, where its parent made room. -/
theorem Made.same {c : Nat} (hc : G.live c) (hl : G.level c ≤ G.level x) :
    H.level c = G.level c ∧ H.lo c = G.lo c ∧ H.hi c = G.hi c ∧ t.pages.recs c = s.pages.recs c := by
  have hpl := (h.shaped.linked x hx hr).2.1
  have hb := hm.below c hc (by omega)
  rw [hd.pages] at hb
  exact ⟨(hm.steps_of_does hd).level h hc, hb.2.1, hb.2.2, hb.1⟩

/-- A parent that made room leaves its full child prepared. -/
theorem Made.prepared (hfull : (s.pages.recs x).length = N) : Prepared s G x t.pages H := by
  have hpl := (h.shaped.linked x hx hr).2.1
  have hst := hm.steps_of_does hd
  have hxr := hm.ne_root h hd hx hr
  obtain ⟨h3, h4, -⟩ := (hst.sound h).shaped.linked x (hst.live hx) hxr
  constructor
  · intro c hc
    exact hst.live hc
  · intro c hc hcr
    exact hm.ne_root h hd hc hcr
  · intro c hc hl
    exact hm.same h hd hx hr hc hl
  · intro c hc hl
    have hb := hm.parents c hc (by omega)
    rwa [hd.pages] at hb
  · intro k hk hsol hcl b hb hbe
    have hup : Climbs N s'.pages G k (G.level (s.pages.parent x)) := by
      intro c hc
      rw [hd.pages] at hc ⊢
      exact hcl c ((h.fullTo_parent hx hr hk hfull).mpr hc).1
    rcases hm.solid k (h.shaped.within_parent hx hr hk) (by rw [hd.pages]; exact hsol) hup b hb hbe with
      ⟨rfl, h0⟩ | ⟨h1, h2⟩
    · have := (hst.sound h).shaped.below _ h3
      omega
    · obtain ⟨h5, h6, h7, -⟩ := hm.same h hd hx hr hx (Nat.le_refl _)
      refine (hst.sound h).shaped.unique hb h3 h2 ((hst.sound h).shaped.within_parent (hst.live hx) hxr ?_) ?_
      · rw [h6, h7]; exact hk
      · rw [h1, h4, h5, hpl]
  · intro k hk hN5 hb
    obtain ⟨b, hb, he⟩ := hb
    refine hm.hollow k (h.shaped.within_parent hx hr hk) hN5 ⟨b, ?_, ?_⟩
    · rw [hd.pages]; exact (h.fullTo_parent hx hr hk hfull).mp hb
    · rw [hd.pages]; exact he

/-- Splitting a full node whose parent has made room: nothing fails but the allocation. -/
theorem Made.split_wp (hN : 3 ≤ N) (hh : (s.blocks x).file = s.addr) (hfull : (s.pages.recs x).length = N) :
    wp (Btree.split x)
      (fun _ u => ∃ I, Made s G x u I ∧ I.root = H.root ∧ Step t H u I ∧ (u.pages.recs x).length < N ∧
        u.blockCount = t.blockCount + 1)
      (fun e u => e = .allocateBlock ∧ Refused t u) t := by
  have hst := hm.steps_of_does hd
  have hst' := hst.sound h
  have hat := (h.at hx hh).keeps hst.keeps
  have hxr := hm.ne_root h hd hx hr
  obtain ⟨as, mid, bs, he, ha⟩ := exists_mid hN hfull
  have hrt := (hm.same h hd hx hr hx (Nat.le_refl _)).2.2.2
  obtain ⟨ps, qs, hs⟩ := hst'.splits_up (hst.live hx) hxr (hm.children x hx hr (by rw [hd.pages]))
    (by rw [hrt]; exact he)
  rcases t.grants_or with hg | ⟨extended, os, hos⟩
  · refine (hs.split_makes hst' hat.held hg ha).wp fun _ u hu => ?_
    have hstep : Step t H u _ := .up hs ha (by rw [hrt]; exact hfull) hu
    refine ⟨_, (hm.prepared h hd hx hr hfull).made h hx hs ha hfull hN hst hstep hu.pages, rfl, hstep, ?_,
      hu.blockCount⟩
    rw [hu.pages, hs.recs_left]
    exact (halves_length hN hfull he ha).1
  · unfold Btree.split
    rw [wp_bind, wp_node hat.ne, ← pages_parent,
      if_neg (hst'.shaped.pos _ (hst'.shaped.linked x (hst.live hx) hxr).1), wp_bind]
    exact splitNode_refused hat hos ⟨rfl, extended, os, hos, rfl⟩

end Below

theorem Sound.makeRoomFrom_wp (hN : 3 ≤ N) {f : Nat} (hx : G.live x) (hh : (s.blocks x).file = s.addr)
    (hw : Within (G.lo x) (G.hi x) k) (hf : G.level G.root < f + G.level x) :
    wp (makeRoomFrom f x)
      (fun b t => ∃ H, Made s G x t H ∧ (b = false → t = s ∧ H = G ∧ (s.pages.recs x).length < N) ∧
        (Spare N s.pages G k (G.level x) → H.root = G.root) ∧
        (¬ Spare N s.pages G k (G.level x) → s.Grants ∧ Cut t.pages H G.root) ∧
        t.blockCount = s.blockCount + s.pages.needs N f x)
      (fun e t => e = .allocateBlock ∧ (¬ s.Grants ∨ Spare N s.pages G k (G.level x) → Spared s G t) ∧
        (s.Grants → ¬ Spare N s.pages G k (G.level x) → Broken s G t)) s := by
  induction f generalizing s x with
  | zero => have := h.shaped.below x hx; omega
  | succ f ih =>
    have hax := h.at hx hh
    unfold makeRoomFrom
    rw [wp_bind, wp_full hax.ne]
    by_cases hfull : (s.pages.recs x).length = N
    · rw [if_pos (by rw [← hax.length, beq_iff_eq]; exact hfull), wp_bind, wp_node hax.ne, ← pages_parent, wp_bind]
      by_cases hr : x = G.root
      · subst hr
        have hns := h.not_spare_root (k := k) hfull
        rw [if_neg (by rw [h.shaped.rootParent]; simp), wp_pure, wp_bind]
        refine (h.split_root_wp hN hfull).mono (fun _ t ht => ?_) fun e t ht => ?_
        · obtain ⟨H, h1, h2, -, -, hcount⟩ := ht
          refine ⟨H, h1, fun hb => (by cases hb), fun hs => absurd hs hns, fun _ => h2, ?_⟩
          rw [hcount, Pages.needs, if_pos hfull, if_pos h.shaped.rootParent]
        · obtain ⟨h1, h2, h3⟩ := ht
          exact ⟨h1, fun hs => h2 (hs.resolve_right hns), fun hg _ => h3 hg⟩
      · -- the parent makes room first, then `x` is split below it
        obtain ⟨hp, hpl, -⟩ := h.shaped.linked x hx hr
        have hp0 := h.shaped.pos _ hp
        have href := refreshed_refresh hp0 (h.alloc _ hp)
        have hd := href.does
        have hsp := h.spare_parent hx hr hw hfull
        have hgr : (s.refresh (s.pages.parent x)).Grants ↔ s.Grants := Iff.rfl
        have hIH := ih (h.refreshed href) (x := s.pages.parent x) hp (by simp [File.refresh])
          (h.shaped.within_parent hx hr hw)
          (by omega)
        simp only [hd.pages, ← hsp, hgr] at hIH
        rw [if_pos hp0, wp_bind, wp_convert hax.ne hh hp0 (h.alloc _ hp), wp_bind]
        simp only [wp_pure]
        refine hIH.mono (fun b t ht => ?_) fun e t ht => ?_
        · obtain ⟨H, hm, -, hroot, hcut, hcount⟩ := ht
          have hst := hm.steps_of_does hd
          rw [wp_bind]
          refine (hm.split_wp h hd hx hr hN hh hfull).mono (fun _ u hu => ?_) fun e u hu => ?_
          · obtain ⟨I, hI, hIroot, hstep, -, hone⟩ := hu
            refine ⟨I, hI, fun hb => (by cases hb), fun hs => hIroot.trans (hroot hs),
              fun hns => ⟨(hcut hns).1, ?_⟩, ?_⟩
            · exact (hcut hns).2.step (hst.live h.shaped.rootLive) hstep (hst.sound h)
            · rw [hone, hcount, Pages.needs, if_pos hfull, if_neg hp0]
              rfl
          · obtain ⟨rfl, href'⟩ := hu
            refine ⟨rfl, fun hs => ⟨t, H, hst, hroot ?_, href'⟩, fun _ hns => .inl ⟨t, H, hst, (hcut hns).2, href'⟩⟩
            by_contra hns
            exact hs.elim (fun hg => hg (hcut hns).1) hns
        · obtain ⟨rfl, h1, h2⟩ := ht
          exact ⟨rfl, fun hs => (h1 hs).of_does hd, fun hg hns => (h2 hg hns).of_does hd⟩
    · have hlt : (s.pages.recs x).length < N := Nat.lt_of_le_of_ne (h.shaped.fits x hx) hfull
      rw [if_neg (by rw [← hax.length, beq_iff_eq]; exact hfull), wp_pure]
      exact ⟨G, Made.refl hx hlt, fun _ => ⟨rfl, rfl, hlt⟩, fun _ => rfl,
        fun hns => absurd ⟨x, hx, Nat.le_refl _, hw, hlt⟩ hns, by rw [Pages.needs, if_neg hfull, Nat.add_zero]⟩

end Cascade

end Dumbnose.Btree
