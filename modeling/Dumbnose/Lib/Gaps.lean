/-
  Dumbnose.Lib.Gaps — a node of a multiway search tree: separators in increasing
  order and one child in every gap between them.

  An entry carries the child on its left (`link`) and a separator (`key`); one more
  child, `last`, is to the right of every entry. A bound is `none` where there is
  none. `gaps lo es last hi` lists the children with the bounds each one answers
  for, left to right; `inits`/`low` are that list without its last gap, and
  `first`/`rest` the same list cut after its first gap, which is where a split puts
  a new separator.

  `weave` is the in-order sequence of a node over those of its children; it is
  increasing exactly if the separators and the children are and each child is on the
  right side of its two neighbours (`weave_sorted`).

  `seek` is the linear search. Under `Ordered` it stops at the entry that carries the
  key, and otherwise goes down the one gap the key belongs to (`seek_of_gap`), so
  the bounds alone say where a search goes.
-/

import Mathlib.Order.Lattice
import Mathlib.Data.List.Pairwise
import Mathlib.Data.List.Nodup

namespace Dumbnose.Lib.Gaps

structure Gap (γ κ : Type) where
  lo : Option κ
  child : γ
  hi : Option κ

variable {ε γ κ : Type} (link : ε → γ) (key : ε → κ)

/-- The gaps left of each entry. -/
def inits : Option κ → List ε → List (Gap γ κ)
  | _, [] => []
  | lo, e :: es => ⟨lo, link e, some (key e)⟩ :: inits (some (key e)) es

/-- The lower bound of what comes after `es`. -/
def low : Option κ → List ε → Option κ
  | lo, [] => lo
  | _, e :: es => low (some (key e)) es

def gaps (lo : Option κ) (es : List ε) (last : γ) (hi : Option κ) : List (Gap γ κ) :=
  inits link key lo es ++ [⟨low key lo es, last, hi⟩]

/-- The child and the upper bound of the first gap. -/
def first (last : γ) : List ε → γ
  | [] => last
  | e :: _ => link e

def top (hi : Option κ) : List ε → Option κ
  | [] => hi
  | e :: _ => some (key e)

def rest (last : γ) (hi : Option κ) : List ε → List (Gap γ κ)
  | [] => []
  | e :: es => gaps link key (some (key e)) es last hi

/-! ## Cutting the list of gaps -/

theorem gaps_nil (lo : Option κ) (last : γ) (hi : Option κ) : gaps link key lo [] last hi = [⟨lo, last, hi⟩] := rfl

theorem gaps_cons (lo : Option κ) (e : ε) (es : List ε) (last : γ) (hi : Option κ) :
    gaps link key lo (e :: es) last hi = ⟨lo, link e, some (key e)⟩ :: gaps link key (some (key e)) es last hi := rfl

theorem gaps_eq_first (lo : Option κ) (es : List ε) (last : γ) (hi : Option κ) :
    gaps link key lo es last hi = ⟨lo, first link last es, top key hi es⟩ :: rest link key last hi es := by
  cases es <;> rfl

theorem gaps_append (lo : Option κ) (ps qs : List ε) (last : γ) (hi : Option κ) :
    gaps link key lo (ps ++ qs) last hi = inits link key lo ps ++ gaps link key (low key lo ps) qs last hi := by
  induction ps generalizing lo with
  | nil => rfl
  | cons p ps ih => rw [List.cons_append, gaps_cons, ih]; rfl

/-- A separator between two halves: the left half's gaps, then the right half's. -/
theorem gaps_mid (lo : Option κ) (as : List ε) (m : ε) (bs : List ε) (last : γ) (hi : Option κ) :
    gaps link key lo (as ++ m :: bs) last hi =
      gaps link key lo as (link m) (some (key m)) ++ gaps link key (some (key m)) bs last hi := by
  rw [gaps_append, gaps_cons]; simp [gaps]

theorem gaps_child (lo : Option κ) (es : List ε) (last : γ) (hi : Option κ) :
    (gaps link key lo es last hi).map Gap.child = es.map link ++ [last] := by
  induction es generalizing lo with
  | nil => rfl
  | cons e es ih => rw [gaps_cons, List.map_cons, ih]; rfl

theorem gaps_hi (lo : Option κ) (es : List ε) (last : γ) (hi : Option κ) :
    (gaps link key lo es last hi).map Gap.hi = es.map (fun e => some (key e)) ++ [hi] := by
  induction es generalizing lo with
  | nil => rfl
  | cons e es ih => rw [gaps_cons, List.map_cons, ih]; rfl

/-- Every gap sits between a left part and a right part of the entries. -/
theorem gaps_at {lo : Option κ} {es : List ε} {last : γ} {hi : Option κ} {g : Gap γ κ}
    (hg : g ∈ gaps link key lo es last hi) :
    ∃ ps qs, es = ps ++ qs ∧ g = ⟨low key lo ps, first link last qs, top key hi qs⟩ := by
  induction es generalizing lo with
  | nil =>
    rw [gaps_nil, List.mem_singleton] at hg
    exact ⟨[], [], rfl, hg⟩
  | cons e es ih =>
    rw [gaps_cons] at hg
    rcases List.mem_cons.mp hg with rfl | hg
    · exact ⟨[], e :: es, rfl, rfl⟩
    · obtain ⟨ps, qs, rfl, rfl⟩ := ih hg
      exact ⟨e :: ps, qs, rfl, rfl⟩

/-- The gaps by position: slot `i` lies between entry `i - 1` and entry `i`. -/
theorem gaps_getElem? (lo : Option κ) (es : List ε) (last : γ) (hi : Option κ) (i : Nat) :
    (gaps link key lo es last hi)[i]? =
      ((es.map link ++ [last])[i]?).map fun c =>
        ⟨if i = 0 then lo else (es[i - 1]?).map key, c, ((es[i]?).map key).or hi⟩ := by
  induction es generalizing lo i with
  | nil => cases i <;> simp [gaps_nil]
  | cons e es ih =>
    rw [gaps_cons]
    cases i with
    | zero => simp
    | succ i =>
      rw [List.getElem?_cons_succ, ih]
      cases i <;> simp

variable [LinearOrder κ]

/-- `k` is between the bounds. -/
def Within (lo hi : Option κ) (k : κ) : Prop := (∀ l ∈ lo, l < k) ∧ ∀ u ∈ hi, k < u

structure Ordered (lo : Option κ) (es : List ε) (hi : Option κ) : Prop where
  sorted : es.Pairwise (key · < key ·)
  within : ∀ e ∈ es, Within lo hi (key e)

/-! ## Order -/

@[simp] theorem within_none (k : κ) : Within none none k := ⟨fun _ h => (by cases h), fun _ h => (by cases h)⟩

theorem ordered_nil (lo hi : Option κ) : Ordered key lo [] hi := ⟨.nil, fun _ h => (by cases h)⟩

theorem ordered_mid {lo : Option κ} {as : List ε} {m : ε} {bs : List ε} {hi : Option κ} :
    Ordered key lo (as ++ m :: bs) hi ↔
      Ordered key lo as (some (key m)) ∧ Within lo hi (key m) ∧ Ordered key (some (key m)) bs hi := by
  constructor
  · intro hs
    obtain ⟨hs, hw⟩ := hs
    obtain ⟨ha, hmb, hab⟩ := List.pairwise_append.mp hs
    obtain ⟨hm, hb⟩ := List.pairwise_cons.mp hmb
    refine ⟨⟨ha, fun e he => ⟨(hw e (by simp [he])).1, ?_⟩⟩, hw m (by simp),
      ⟨hb, fun e he => ⟨?_, (hw e (by simp [he])).2⟩⟩⟩
    · intro u hu; cases hu; exact hab e he m (by simp)
    · intro l hl; cases hl; exact hm e he
  · intro ha
    obtain ⟨ha, hm, hb⟩ := ha
    refine ⟨List.pairwise_append.mpr ⟨ha.sorted, List.pairwise_cons.mpr ⟨fun e he => ?_, hb.sorted⟩,
      fun a h1 b h2 => ?_⟩,
      fun e he => ?_⟩
    · exact (hb.within e he).1 _ rfl
    · have ham := (ha.within a h1).2 _ rfl
      rcases List.mem_cons.mp h2 with rfl | h2
      · exact ham
      · exact ham.trans ((hb.within b h2).1 _ rfl)
    · rcases List.mem_append.mp he with he | he
      · exact ⟨(ha.within e he).1, fun u hu => ((ha.within e he).2 _ rfl).trans (hm.2 u hu)⟩
      · rcases List.mem_cons.mp he with rfl | he
        · exact hm
        · exact ⟨fun l hl => (hm.1 l hl).trans ((hb.within e he).1 _ rfl), (hb.within e he).2⟩

theorem ordered_cons {lo : Option κ} {m : ε} {bs : List ε} {hi : Option κ} :
    Ordered key lo (m :: bs) hi ↔ Within lo hi (key m) ∧ Ordered key (some (key m)) bs hi := by
  have hmid : Ordered key lo ([] ++ m :: bs) hi ↔ _ := ordered_mid key
  rw [List.nil_append] at hmid
  rw [hmid]
  exact ⟨fun h => h.2, fun h => ⟨ordered_nil key lo _, h⟩⟩

/-- Only the separators count. -/
theorem Ordered.congr {lo hi : Option κ} {es es' : List ε} (h : Ordered key lo es hi) (he : es'.map key = es.map key) :
    Ordered key lo es' hi := by
  constructor
  · have := List.pairwise_map.mpr h.sorted
    rw [← he] at this
    exact List.pairwise_map.mp this
  · intro e hm
    have hm := List.mem_map_of_mem (f := key) hm
    rw [he] at hm
    obtain ⟨e', hm, hk⟩ := List.mem_map.mp hm
    exact hk ▸ h.within e' hm

theorem Ordered.insert {lo : Option κ} {ps qs : List ε} {m : ε} {hi : Option κ} (h : Ordered key lo (ps ++ qs) hi)
    (hm : Within lo hi (key m)) (hp : ∀ e ∈ ps, key e < key m) (hq : ∀ e ∈ qs, key m < key e) :
    Ordered key lo (ps ++ m :: qs) hi := by
  obtain ⟨h1, h2, -⟩ := List.pairwise_append.mp h.sorted
  refine (ordered_mid key).mpr ⟨⟨h1, fun e he => ⟨(h.within e (by simp [he])).1, ?_⟩⟩, hm,
    ⟨h2, fun e he => ⟨?_, (h.within e (by simp [he])).2⟩⟩⟩
  · intro u hu; cases hu; exact hp e he
  · intro l hl; cases hl; exact hq e he

/-- A gap's bounds are inside the node's. -/
theorem within_of_gap {lo : Option κ} {es : List ε} {last : γ} {hi : Option κ} {g : Gap γ κ} {k : κ}
    (ho : Ordered key lo es hi) (hg : g ∈ gaps link key lo es last hi) (hk : Within g.lo g.hi k) : Within lo hi k := by
  induction es generalizing lo with
  | nil =>
    rw [gaps_nil, List.mem_singleton] at hg
    subst hg; exact hk
  | cons e es ih =>
    obtain ⟨hw, ho⟩ := (ordered_cons key).mp ho
    rw [gaps_cons] at hg
    rcases List.mem_cons.mp hg with rfl | hg
    · exact ⟨hk.1, fun u hu => (hk.2 _ rfl).trans (hw.2 u hu)⟩
    · have := ih ho hg
      exact ⟨fun l hl => (hw.1 l hl).trans (this.1 _ rfl), this.2⟩

/-- No two gaps end at the same bound. -/
theorem gaps_hi_nodup {lo : Option κ} {es : List ε} (last : γ) {hi : Option κ} (ho : Ordered key lo es hi) :
    ((gaps link key lo es last hi).map Gap.hi).Nodup := by
  rw [gaps_hi]
  refine List.nodup_append'.mpr ⟨?_, List.nodup_singleton _, ?_⟩
  · refine List.Pairwise.map _ ?_ ho.sorted
    intro a b hab h
    exact absurd (Option.some.inj h) hab.ne
  · intro x hx hx'
    obtain ⟨e, he, rfl⟩ := List.mem_map.mp hx
    rw [List.mem_singleton] at hx'
    exact lt_irrefl _ ((ho.within e he).2 _ hx'.symm)

/-- What lies left and right of a gap is left and right of every key in it. -/
theorem gap_sides {lo : Option κ} {ps qs : List ε} {hi : Option κ} {k : κ} (ho : Ordered key lo (ps ++ qs) hi)
    (hk : Within (low key lo ps) (top key hi qs) k) : (∀ e ∈ ps, key e < k) ∧ ∀ e ∈ qs, k < key e := by
  constructor
  · induction ps generalizing lo with
    | nil => intro e he; cases he
    | cons p ps ih =>
      obtain ⟨-, ho⟩ := (ordered_cons key).mp ho
      have hps := ih ho hk
      intro e he
      rcases List.mem_cons.mp he with rfl | he
      · cases ps with
        | nil => exact hk.1 _ rfl
        | cons p' ps => exact ((ho.within p' (by simp)).1 _ rfl).trans (hps p' (by simp))
      · exact hps e he
  · cases qs with
    | nil => intro e he; cases he
    | cons q qs =>
      have hkq : k < key q := hk.2 _ rfl
      have hq := (List.pairwise_cons.mp (List.pairwise_append.mp ho.sorted).2.1).1
      intro e he
      rcases List.mem_cons.mp he with rfl | he
      · exact hkq
      · exact hkq.trans (hq e he)

/-! ## The in-order sequence -/

def weave (sub : γ → List κ) (last : γ) : List ε → List κ
  | [] => sub last
  | e :: es => sub (link e) ++ key e :: weave sub last es

section Weave
variable {link key} {sub : γ → List κ} {last : γ} {es : List ε} {k : κ}

theorem sub_of_weave (hs : (weave link key sub last es).Pairwise (· < ·)) :
    ∀ c ∈ es.map link ++ [last], (sub c).Pairwise (· < ·) := by
  induction es with
  | nil =>
    intro c hc
    rw [List.map_nil, List.nil_append, List.mem_singleton] at hc
    exact hc ▸ hs
  | cons e es ih =>
    obtain ⟨h1, h2, -⟩ := List.pairwise_append.mp hs
    intro c hc
    rw [List.map_cons, List.cons_append] at hc
    rcases List.mem_cons.mp hc with rfl | hc
    · exact h1
    · exact ih (List.pairwise_cons.mp h2).2 c hc

omit [LinearOrder κ] in
theorem mem_weave_last (hk : k ∈ sub last) : k ∈ weave link key sub last es := by
  induction es with
  | nil => exact hk
  | cons e es ih => exact List.mem_append_right _ (List.mem_cons_of_mem _ ih)

omit [LinearOrder κ] in
theorem mem_weave_key {e : ε} (he : e ∈ es) : key e ∈ weave link key sub last es := by
  induction es with
  | nil => cases he
  | cons e' es ih =>
    apply List.mem_append_right _
    rcases List.mem_cons.mp he with rfl | he
    · exact List.mem_cons_self
    · exact List.mem_cons_of_mem _ (ih he)

omit [LinearOrder κ] in
theorem mem_weave_first (hk : k ∈ sub (first link last es)) : k ∈ weave link key sub last es := by
  cases es with
  | nil => exact hk
  | cons e es => exact List.mem_append_left _ hk

/-- What is not right of every separator is at most one of them. -/
theorem weave_le (hs : (weave link key sub last es).Pairwise (· < ·)) (hk : k ∈ weave link key sub last es) :
    k ∈ sub last ∨ ∃ e ∈ es, k ≤ key e := by
  induction es with
  | nil => exact .inl hk
  | cons e es ih =>
    obtain ⟨-, h2, h3⟩ := List.pairwise_append.mp hs
    rcases List.mem_append.mp hk with hk | hk
    · exact .inr ⟨e, by simp, (h3 k hk _ List.mem_cons_self).le⟩
    · rcases List.mem_cons.mp hk with rfl | hk
      · exact .inr ⟨e, by simp, le_rfl⟩
      · exact (ih (List.pairwise_cons.mp h2).2 hk).imp_right fun ⟨e', he', h⟩ => ⟨e', List.mem_cons_of_mem _ he', h⟩

/-- What is not left of every separator is at least one of them. -/
theorem weave_ge (hs : (weave link key sub last es).Pairwise (· < ·)) (hk : k ∈ weave link key sub last es) :
    k ∈ sub (first link last es) ∨ ∃ e ∈ es, key e ≤ k := by
  cases es with
  | nil => exact .inl hk
  | cons e es =>
    obtain ⟨-, h2, -⟩ := List.pairwise_append.mp hs
    rcases List.mem_append.mp hk with hk | hk
    · exact .inl hk
    · refine .inr ⟨e, by simp, ?_⟩
      rcases List.mem_cons.mp hk with rfl | hk
      · exact le_rfl
      · exact ((List.pairwise_cons.mp h2).1 k hk).le

theorem weave_sorted : (weave link key sub last es).Pairwise (· < ·) ↔
    es.Pairwise (key · < key ·) ∧ (∀ c ∈ es.map link ++ [last], (sub c).Pairwise (· < ·)) ∧
    ∀ i e, es[i]? = some e → (∀ c ∈ (es.map link ++ [last])[i]?, ∀ k ∈ sub c, k < key e) ∧
      ∀ c ∈ (es.map link ++ [last])[i + 1]?, ∀ k ∈ sub c, key e < k := by
  induction es with
  | nil => simp [weave]
  | cons e es ih =>
    have hfirst : (es.map link ++ [last])[0]? = some (first link last es) := by cases es <;> rfl
    constructor
    · intro hs
      have hsub := sub_of_weave hs
      obtain ⟨-, h2, h3⟩ := List.pairwise_append.mp hs
      obtain ⟨h4, h5⟩ := List.pairwise_cons.mp h2
      obtain ⟨h6, -, h7⟩ := ih.mp h5
      refine ⟨List.pairwise_cons.mpr ⟨fun e' he' => h4 _ (mem_weave_key he'), h6⟩, hsub, fun i e' he' => ?_⟩
      cases i with
      | zero =>
        obtain rfl : e = e' := Option.some.inj he'
        refine ⟨fun c hc k hk => ?_, fun c hc k hk => ?_⟩
        · obtain rfl : link e = c := Option.some.inj hc
          exact h3 k hk _ List.mem_cons_self
        · rw [List.map_cons, List.cons_append, List.getElem?_cons_succ, hfirst] at hc
          obtain rfl : first link last es = c := Option.some.inj hc
          exact h4 k (mem_weave_first hk)
      | succ i => exact h7 i e' he'
    · intro h
      obtain ⟨h1, h2, h3⟩ := h
      obtain ⟨h4, h5⟩ := List.pairwise_cons.mp h1
      have hs := ih.mpr ⟨h5, fun c hc => h2 c (List.mem_cons_of_mem _ hc), fun i e' he' => h3 (i + 1) e' he'⟩
      obtain ⟨h6, h7⟩ := h3 0 e rfl
      have hgt : ∀ k ∈ weave link key sub last es, key e < k := by
        intro k hk
        rcases weave_ge hs hk with hk | ⟨e', he', hk⟩
        · exact h7 _ (by rw [List.map_cons, List.cons_append, List.getElem?_cons_succ, hfirst]; rfl) k hk
        · exact (h4 e' he').trans_le hk
      refine List.pairwise_append.mpr ⟨h2 _ List.mem_cons_self, List.pairwise_cons.mpr ⟨hgt, hs⟩, fun a ha b hb => ?_⟩
      have hae := h6 _ rfl a ha
      rcases List.mem_cons.mp hb with rfl | hb
      · exact hae
      · exact hae.trans (hgt b hb)

end Weave

/-! ## The linear search -/

/-- Where a search in one node goes: it stops at an entry, or goes down to a child. -/
inductive Ruling (ε γ : Type) where
  | here (e : ε)
  | down (c : γ)
  deriving DecidableEq

def seek (k : κ) (last : γ) : List ε → Ruling ε γ
  | [] => .down last
  | e :: es => if k < key e then .down (link e) else if k = key e then .here e else seek k last es

theorem seek_skip {k : κ} {last : γ} {ps : List ε} (qs : List ε) (hp : ∀ e ∈ ps, key e < k) :
    seek link key k last (ps ++ qs) = seek link key k last qs := by
  induction ps with
  | nil => rfl
  | cons p ps ih =>
    have hpk := hp p (by simp)
    rw [List.cons_append, seek, if_neg hpk.not_gt, if_neg hpk.ne', ih fun e he => hp e (by simp [he])]

theorem seek_here {k : κ} {last : γ} {es : List ε} {e : ε} (h : seek link key k last es = .here e) :
    e ∈ es ∧ key e = k := by
  induction es with
  | nil => cases h
  | cons e' es ih =>
    rw [seek] at h
    split at h
    · cases h
    · split at h
      · rename_i hk
        injection h with h; subst h
        exact ⟨by simp, hk.symm⟩
      · exact ⟨List.mem_cons_of_mem _ (ih h).1, (ih h).2⟩

/-- A search that goes down takes one of the gaps. -/
theorem seek_down (lo hi : Option κ) {k : κ} {last : γ} {es : List ε} {c : γ}
    (h : seek link key k last es = .down c) :
    ∃ g ∈ gaps link key lo es last hi, g.child = c ∧ (Within lo hi k → Within g.lo g.hi k) := by
  induction es generalizing lo with
  | nil =>
    injection h with h; subst h
    exact ⟨_, by rw [gaps_nil]; exact List.mem_singleton_self _, rfl, id⟩
  | cons e es ih =>
    rw [seek] at h
    split at h
    · rename_i hk
      injection h with h; subst h
      exact ⟨_, by rw [gaps_cons]; exact List.mem_cons_self, rfl, fun hw => ⟨hw.1, by intro u hu; cases hu; exact hk⟩⟩
    · split at h
      · cases h
      · rename_i h1 h2
        obtain ⟨g, hg, hc, hw⟩ := ih (some (key e)) h
        refine ⟨g, by rw [gaps_cons]; exact List.mem_cons_of_mem _ hg, hc, fun hk => hw ⟨?_, hk.2⟩⟩
        intro l h0
        cases h0
        exact lt_of_le_of_ne (not_lt.mp h1) (Ne.symm h2)

/-- A key in a gap's bounds is found nowhere else. -/
theorem seek_of_gap {lo : Option κ} {k : κ} {last : γ} {es : List ε} {hi : Option κ} {g : Gap γ κ}
    (ho : Ordered key lo es hi) (hg : g ∈ gaps link key lo es last hi) (hk : Within g.lo g.hi k) :
    seek link key k last es = .down g.child := by
  obtain ⟨ps, qs, rfl, rfl⟩ := gaps_at link key hg
  rw [seek_skip link key qs (gap_sides key ho hk).1]
  cases qs with
  | nil => rfl
  | cons q qs => rw [seek, if_pos (hk.2 _ rfl)]; rfl

theorem seek_of_mem {k : κ} (last : γ) {es : List ε} {e : ε} (hs : es.Pairwise (key · < key ·))
    (he : e ∈ es) (hk : key e = k) : seek link key k last es = .here e := by
  obtain ⟨ps, qs, rfl⟩ := List.append_of_mem he
  subst hk
  rw [seek_skip link key _ fun p hp => (List.pairwise_append.mp hs).2.2 p hp e (by simp), seek,
    if_neg (lt_irrefl _), if_pos rfl]

end Dumbnose.Lib.Gaps
