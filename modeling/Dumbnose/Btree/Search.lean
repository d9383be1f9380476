/-
  Dumbnose.Btree.Search — the search inside one node.

  The loop of `find_record_and_node` starts in the middle and moves by a step that
  halves down to one and stays there. `Node.searchFrom` is that loop alone, with the
  indices of `entries_` it reads; `linearSearch` is the linear search it replaced, which
  the code has in a comment. On increasing keys the loop ends, reads only records of the
  node, and selects what the linear search would (`search_agrees`): it walks to the rank
  of the key (`Lib.Halving`), the number of keys below it.

  `searchLoop` does what `searchFrom` does, and reads the rest of the node
  (`searchLoop_eq`).
-/

import Dumbnose.Lib.Gaps
import Dumbnose.Lib.Halving
import Dumbnose.Btree.Memory

namespace Dumbnose.Btree

open Lib.Exec Lib.Gaps Lib.Halving

variable {K R : Type} {N : Nat}

/-- The records of a node. -/
def Node.recs (n : Node K R N) : List (Entry K R) := n.entries.toList.take n.recordCount

theorem Node.recs_length {n : Node K R N} (h : n.recordCount ≤ N) : n.recs.length = n.recordCount := by
  simp [Node.recs, h]

theorem Node.entries_getElem? {n : Node K R N} {i : Nat} (h : i < n.recordCount) : n.entries[i]? = n.recs[i]? := by
  simp [Node.recs, h]

theorem Node.entries_at {n : Node K R N} (hN : n.recordCount ≤ N) {i : Nat} (hi : i < n.recs.length) :
    n.entries[i]? = some n.recs[i] := by
  rw [Node.entries_getElem? (by rw [← Node.recs_length hN]; exact hi)]
  exact List.getElem?_eq_getElem hi

variable [LinearOrder K]

/-- The linear search over the records of a node, the one the code has in a comment. -/
def linear (k : K) (larger : Nat) (es : List (Entry K R)) : Ruling (Entry K R) Nat :=
  seek Entry.smallerNode Entry.key k larger es

def Stop.of : Ruling (Entry K R) Nat → Stop R
  | .here e => .record e.record
  | .down c => .child c

/-! ## The loop and the linear search -/

/-- What the search inside a node comes to: an entry, the link left of an entry, the link
    right of all, or nothing after the loop. -/
inductive Selected (K R : Type) where
  | entry (i : Nat) (e : Entry K R)
  | smaller (i : Nat) (e : Entry K R)
  | larger
  | nothing

/-- The loop of `find_record_and_node`: the indices of `entries_` it reads, and what it
    selects. -/
def Node.searchFrom (n : Node K R N) (key : K) : Nat → Int → Int → List Int × Option (Selected K R)
  | 0, _, _ => ([], none)
  | f + 1, current, step =>
    if 0 ≤ current ∧ current < n.recordCount then
      match n.entries[current.toNat]? with
      | none => ([current], none)
      | some e =>
        if key = e.key then ([current], some (.entry current.toNat e))
        else
          let step := if step / 2 = 0 then 1 else step / 2
          if key < e.key then
            if current = 0 then ([current], some (.smaller current.toNat e))
            else
              match n.entries[(current - 1).toNat]? with
              | none => ([current, current - 1], none)
              | some e' =>
                if key > e'.key then ([current, current - 1], some (.smaller current.toNat e))
                else
                  let rest := n.searchFrom key f (current - step) step
                  (current :: (current - 1) :: rest.1, rest.2)
          else
            let rest := n.searchFrom key f (current + step) step
            (current :: rest.1, rest.2)
    else if current ≥ n.recordCount then ([], some .larger)
    else ([], some .nothing)

/-- The linear search, from record `i` on. -/
def linearSearch (key : K) : Nat → List (Entry K R) → Selected K R
  | _, [] => .larger
  | i, e :: es => if key < e.key then .smaller i e else if key = e.key then .entry i e else linearSearch key (i + 1) es

section Linear
variable {k : K} {es : List (Entry K R)} {i : Nat}

theorem linearSearch_skip {ps : List (Entry K R)} (hp : ∀ e ∈ ps, e.key < k) (i : Nat) (qs : List (Entry K R)) :
    linearSearch k i (ps ++ qs) = linearSearch k (i + ps.length) qs := by
  induction ps generalizing i with
  | nil => rfl
  | cons p ps ih =>
    have hpk := hp p (by simp)
    rw [List.cons_append, linearSearch, if_neg hpk.not_gt, if_neg hpk.ne', ih (fun e he => hp e (by simp [he])),
      List.length_cons]
    congr 1
    omega

theorem linearSearch_from (hi : i ≤ es.length) (hp : ∀ j (h : j < es.length), j < i → es[j].key < k) :
    linearSearch k 0 es = linearSearch k i (es.drop i) := by
  have htake : ∀ e ∈ es.take i, e.key < k := by
    intro e he
    obtain ⟨j, hj, rfl⟩ := List.mem_iff_getElem.mp he
    rw [List.length_take] at hj
    rw [List.getElem_take]
    exact hp j (by omega) (by omega)
  have hskip := linearSearch_skip htake 0 (es.drop i)
  rwa [List.take_append_drop, List.length_take, Nat.min_eq_left hi, Nat.zero_add] at hskip

theorem linearSearch_at (hi : i < es.length) (hp : ∀ j (h : j < es.length), j < i → es[j].key < k) :
    linearSearch k 0 es =
      if k < es[i].key then .smaller i es[i] else if k = es[i].key then .entry i es[i]
      else linearSearch k (i + 1) (es.drop (i + 1)) := by
  rw [linearSearch_from hi.le hp, List.drop_eq_getElem_cons hi, linearSearch]

theorem linearSearch_past (hp : ∀ e ∈ es, e.key < k) : linearSearch k 0 es = .larger := by
  rw [linearSearch_from (Nat.le_refl _) fun j hj _ => hp _ (List.getElem_mem hj), List.drop_length]
  rfl

theorem linearSearch_ne_nothing (k : K) (i : Nat) (es : List (Entry K R)) : linearSearch k i es ≠ .nothing := by
  induction es generalizing i with
  | nil => exact fun h => by cases h
  | cons e es ih =>
    rw [linearSearch]
    split
    · exact fun h => by cases h
    · split
      · exact fun h => by cases h
      · exact ih (i + 1)

end Linear

/-- The keys below `k` come first: their number is the rank of `k`. -/
theorem exists_rank {es : List (Entry K R)} (hs : es.Pairwise (·.key < ·.key)) (k : K) :
    ∃ r ≤ es.length, ∀ i (h : i < es.length), (i < r → es[i].key < k) ∧ (r ≤ i → k ≤ es[i].key) := by
  induction es with
  | nil => exact ⟨0, Nat.le_refl _, fun i h => absurd h (by simp)⟩
  | cons e es ih =>
    obtain ⟨he, hs⟩ := List.pairwise_cons.mp hs
    by_cases hk : e.key < k
    · obtain ⟨r, hr, h⟩ := ih hs
      refine ⟨r + 1, by simpa using hr, fun i hi => ?_⟩
      cases i with
      | zero => exact ⟨fun _ => hk, fun h => absurd h (by omega)⟩
      | succ i =>
        have := h i (by simpa using hi)
        exact ⟨fun h => this.1 (by omega), fun h => this.2 (by omega)⟩
    · refine ⟨0, Nat.zero_le _, fun i hi => ⟨fun h => absurd h (by omega), fun _ => ?_⟩⟩
      cases i with
      | zero => exact not_lt.mp hk
      | succ i => exact (not_lt.mp hk).trans (he _ (List.getElem_mem _)).le

/-! ## They agree -/

/-- From here on the loop selects what the linear search does, and reads records only. -/
def Agrees (n : Node K R N) (k : K) (f : Nat) (current step : Int) : Prop :=
  ∃ reads, n.searchFrom k f current step = (reads, some (linearSearch k 0 n.recs)) ∧
    ∀ i ∈ reads, 0 ≤ i ∧ i < n.recordCount

section Agrees
variable {n : Node K R N} {k : K} {f : Nat} {c step : Int}

theorem step_next (h : 0 ≤ step) : (if step / 2 = 0 then 1 else step / 2) = next step := by
  unfold next
  split <;> split <;> omega

variable (hN : n.recordCount ≤ N) {r : Nat} (hr : r ≤ n.recs.length)
  (hrank : ∀ i (h : i < n.recs.length), (i < r → n.recs[i].key < k) ∧ (r ≤ i → k ≤ n.recs[i].key))
include hN hr hrank

/-- At the rank of the key the loop stops. -/
theorem Agrees.here (f : Nat) (step : Int) : Agrees n k (f + 1) r step := by
  have hlen := Node.recs_length hN
  by_cases e : r < n.recs.length
  · have hsel := linearSearch_at (k := k) e fun j hj hjr => (hrank j hj).1 hjr
    have hle := (hrank r e).2 (Nat.le_refl r)
    unfold Agrees Node.searchFrom
    rw [if_pos ⟨by omega, by omega⟩, Int.toNat_natCast, Node.entries_at hN e]
    simp only
    by_cases hk : k = n.recs[r].key
    · rw [if_pos hk]
      refine ⟨_, by rw [hsel, if_neg hk.not_lt, if_pos hk], fun i hi => ?_⟩
      rw [List.mem_singleton.mp hi]
      omega
    have hlt := lt_of_le_of_ne hle hk
    rw [if_neg hk, if_pos hlt, hsel, if_pos hlt]
    by_cases hz : r = 0
    · rw [if_pos (by omega)]
      refine ⟨_, rfl, fun i hi => ?_⟩
      rw [List.mem_singleton.mp hi]
      omega
    · -- the record before is below the key
      have hprev : ((r : Int) - 1).toNat = r - 1 := by omega
      rw [if_neg (by omega), hprev, Node.entries_at hN (i := r - 1) (by omega)]
      simp only
      rw [if_pos ((hrank (r - 1) (by omega)).1 (by omega))]
      refine ⟨_, rfl, fun i hi => ?_⟩
      simp only [List.mem_cons, List.not_mem_nil, or_false] at hi
      omega
  · -- all keys are below
    refine ⟨[], ?_, fun i hi => by cases hi⟩
    unfold Node.searchFrom
    rw [if_neg (by omega), if_pos (by omega), linearSearch_past]
    intro e' he
    obtain ⟨j, hj, rfl⟩ := List.mem_iff_getElem.mp he
    exact (hrank j hj).1 (by omega)

/-- Left of the rank it goes up. -/
theorem Agrees.up (hst : 0 ≤ step) (h0 : 0 ≤ c) (hc : c < r) (h : Agrees n k f (c + next step) (next step)) :
    Agrees n k (f + 1) c step := by
  have hlen := Node.recs_length hN
  obtain ⟨reads, h, hreads⟩ := h
  obtain ⟨i, rfl⟩ := Int.eq_ofNat_of_zero_le h0
  have hi : i < n.recs.length := by omega
  have hlt := (hrank i hi).1 (by omega)
  refine ⟨(i : Int) :: reads, ?_, ?_⟩
  · unfold Node.searchFrom
    rw [if_pos ⟨h0, by omega⟩, Int.toNat_natCast, Node.entries_at hN hi]
    simp only
    rw [if_neg hlt.ne', if_neg hlt.not_gt, step_next hst, h]
  · intro j hj
    rcases List.mem_cons.mp hj with rfl | hj
    · omega
    · exact hreads j hj

omit hr in
/-- Right of it, where the record before is not below the key either, it goes down. -/
theorem Agrees.down (hs : n.recs.Pairwise (·.key < ·.key)) (hst : 0 ≤ step) (hc : r < c) (hn : c < n.recordCount)
    (h : Agrees n k f (c - next step) (next step)) : Agrees n k (f + 1) c step := by
  have hlen := Node.recs_length hN
  obtain ⟨reads, h, hreads⟩ := h
  obtain ⟨i, rfl⟩ := Int.eq_ofNat_of_zero_le (a := c) (by omega)
  have hi : i < n.recs.length := by omega
  have hprev := (hrank (i - 1) (by omega)).2 (by omega)
  have hlt : k < n.recs[i].key :=
    hprev.trans_lt (List.pairwise_iff_getElem.mp hs (i - 1) i (by omega) hi (by omega))
  refine ⟨(i : Int) :: ((i : Int) - 1) :: reads, ?_, ?_⟩
  · have hi1 : ((i : Int) - 1).toNat = i - 1 := by omega
    unfold Node.searchFrom
    rw [if_pos ⟨by omega, by omega⟩, Int.toNat_natCast, Node.entries_at hN hi]
    simp only
    rw [if_neg hlt.ne, if_pos hlt, if_neg (by omega), hi1, Node.entries_at hN (i := i - 1) (by omega)]
    simp only
    rw [if_neg hprev.not_gt, step_next hst, h]
  · intro j hj
    rcases List.mem_cons.mp hj with rfl | hj
    · omega
    · rcases List.mem_cons.mp hj with rfl | hj
      · omega
      · exact hreads j hj

end Agrees

theorem agrees_start {n : Node K R N} (hN : n.recordCount ≤ N) (hs : n.recs.Pairwise (·.key < ·.key)) (k : K) :
    Agrees n k (2 * n.recordCount + 2) (n.recordCount / 2 : Nat) (n.recordCount / 2 : Nat) := by
  have hlen := Node.recs_length hN
  obtain ⟨r, hr, hrank⟩ := exists_rank hs k
  have hnear : Near 0 n.recordCount r (n.recordCount / 2 : Nat) (n.recordCount / 2 : Nat) := by
    constructor <;> omega
  refine walk (P := Agrees n k) (by omega) (by omega) (Agrees.here hN hr hrank) ?_ ?_ hnear ?_
  · intro f c step hst h0 hc h
    exact h.up hN hr hrank hst h0 hc
  · intro f c step hst hc hn h
    exact h.down hN hrank hs hst hc hn
  · have := left_le (by omega) (by omega) hnear
    omega

/-- The loop ends, reads the first `recordCount` entries only, and selects what the linear
    search in the comment does: the entry with the key, or the link left of the first
    record above the key, or the link right of all. So it never gets to `return 0`. -/
theorem search_agrees {n : Node K R N} (hN : n.recordCount ≤ N) (hs : n.recs.Pairwise (·.key < ·.key)) (k : K) :
    ∃ fuel reads selected,
      n.searchFrom k fuel (n.recordCount / 2 : Nat) (n.recordCount / 2 : Nat) = (reads, some selected) ∧
      (∀ i ∈ reads, 0 ≤ i ∧ i < n.recordCount) ∧ selected = linearSearch k 0 n.recs ∧
      (∀ i e, n.recs[i]? = some e → k = e.key → selected = .entry i e) ∧
      (∀ i e, n.recs[i]? = some e → k < e.key → (∀ e' ∈ n.recs.take i, e'.key < k) → selected = .smaller i e) ∧
      ((∀ e ∈ n.recs, e.key < k) → selected = .larger) ∧ selected ≠ .nothing := by
  obtain ⟨reads, h, hreads⟩ := agrees_start hN hs k
  refine ⟨_, reads, _, h, hreads, rfl, ?_, ?_, linearSearch_past, linearSearch_ne_nothing k 0 n.recs⟩
  · intro i e he hk
    obtain ⟨hi, rfl⟩ := List.getElem?_eq_some_iff.mp he
    rw [linearSearch_at hi fun j hj hji => ?_, if_neg hk.not_lt, if_pos hk]
    exact hk ▸ List.pairwise_iff_getElem.mp hs j i hj hi hji
  · intro i e he hk hp
    obtain ⟨hi, rfl⟩ := List.getElem?_eq_some_iff.mp he
    rw [linearSearch_at hi fun j hj hji => ?_, if_pos hk]
    exact hp _ (List.mem_take_iff_getElem.mpr ⟨j, by omega, rfl⟩)

/-- Three records in a node for four: the fourth entry is not read. -/
theorem search_agrees_three : ∃ fuel reads selected,
    (⟨7, 1, 0, 9, 3, #v[⟨5, 10, 0⟩, ⟨6, 20, 1⟩, ⟨8, 30, 2⟩, ⟨0, 0, 0⟩]⟩ : Node Nat Nat 4).searchFrom 25 fuel 1 1 =
      (reads, some selected) ∧ (∀ i ∈ reads, 0 ≤ i ∧ i < 3) ∧ selected = .smaller 2 ⟨8, 30, 2⟩ := by
  obtain ⟨fuel, reads, selected, h1, h2, -, -, h3, -⟩ :=
    search_agrees (n := (⟨7, 1, 0, 9, 3, #v[⟨5, 10, 0⟩, ⟨6, 20, 1⟩, ⟨8, 30, 2⟩, ⟨0, 0, 0⟩]⟩ : Node Nat Nat 4))
      (by decide) (by decide) 25
  exact ⟨fuel, reads, selected, h1, h2, h3 2 _ rfl (by decide) (by decide)⟩

/-! ## In the file -/

/-- Where `searchLoop` stops. -/
def Selected.stop (largerNode : Nat) : Selected K R → Stop R
  | .entry _ e => .record e.record
  | .smaller _ e => .child e.smallerNode
  | .larger => .child largerNode
  | .nothing => .nothing

theorem linearSearch_stop (k : K) (larger i : Nat) (es : List (Entry K R)) :
    (linearSearch k i es).stop larger = Stop.of (linear k larger es) := by
  induction es generalizing i with
  | nil => rfl
  | cons e es ih =>
    rw [linearSearch, linear, seek]
    split
    · rfl
    · split
      · rfl
      · exact ih (i + 1)

section Loop
variable {L : Option Nat} {s : File K R N L} {this : Nat} {k : K} (h0 : this ≠ 0)
include h0

theorem searchLoop_eq {f : Nat} {c step : Int} {selected : Selected K R}
    (h : ((s.blocks this).searchFrom k f c step).2 = some selected) :
    Returns (searchLoop this k f c step) (fun o t => t = s ∧ o = selected.stop (s.blocks this).largerNode) s := by
  induction f generalizing c step with
  | zero => cases h
  | succ f ih =>
    unfold Node.searchFrom at h
    unfold Returns searchLoop
    rw [wp_bind, wp_node h0]
    by_cases hin : 0 ≤ c ∧ c < (s.blocks this).recordCount
    · rw [if_pos hin] at h ⊢
      cases he : (s.blocks this).entries[c.toNat]? with
      | none =>
        simp only [he] at h
        cases h
      | some e =>
        simp only [he] at h
        rw [wp_bind, wp_entry h0 he]
        by_cases hk : k = e.key
        · rw [if_pos hk] at h ⊢
          obtain rfl := Option.some.inj h
          exact ⟨rfl, rfl⟩
        · rw [if_neg hk] at h ⊢
          by_cases hlt : k < e.key
          · simp only [if_pos hlt] at h ⊢
            by_cases hz : c = 0
            · rw [if_pos hz] at h ⊢
              obtain rfl := Option.some.inj h
              exact ⟨rfl, rfl⟩
            · rw [if_neg hz] at h ⊢
              cases he' : (s.blocks this).entries[(c - 1).toNat]? with
              | none =>
                simp only [he'] at h
                cases h
              | some e' =>
                simp only [he'] at h
                rw [wp_bind, wp_entry h0 he']
                by_cases hprev : k > e'.key
                · rw [if_pos hprev] at h ⊢
                  obtain rfl := Option.some.inj h
                  exact ⟨rfl, rfl⟩
                · rw [if_neg hprev] at h ⊢
                  exact ih h
          · simp only [if_neg hlt] at h ⊢
            exact ih h
    · rw [if_neg hin] at h ⊢
      by_cases hge : c ≥ (s.blocks this).recordCount
      · rw [if_pos hge] at h ⊢
        obtain rfl := Option.some.inj h
        exact ⟨rfl, rfl⟩
      · rw [if_neg hge] at h ⊢
        obtain rfl := Option.some.inj h
        exact ⟨rfl, rfl⟩

theorem searchLoop_returns (hN : (s.blocks this).recordCount ≤ N)
    (hs : (s.blocks this).recs.Pairwise (·.key < ·.key)) (k : K) :
    Returns (searchLoop this k (2 * (s.blocks this).recordCount + 2) ((s.blocks this).recordCount / 2 : Nat)
        ((s.blocks this).recordCount / 2 : Nat))
      (fun o t => t = s ∧ o = Stop.of (linear k (s.blocks this).largerNode (s.blocks this).recs)) s := by
  obtain ⟨reads, h, -⟩ := agrees_start hN hs k
  rw [← linearSearch_stop k _ 0]
  exact searchLoop_eq h0 (congrArg Prod.snd h)

end Loop

end Dumbnose.Btree
