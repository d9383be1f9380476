/-
  Dumbnose.Btree.Methods — what each method that writes makes of the pages.

  Every statement is about the method alone: what it needs of the node it is called
  on (`At`), of the numbers it follows and of the room it writes to. That a tree
  meets these needs is `Dumbnose.Btree.Shape`.
-/

import Dumbnose.Btree.Pages

namespace Dumbnose.Btree

open Lib.Exec Lib.Gaps

variable {K R : Type} {N : Nat} {s : File K R N} {b : Nat}

/-- A pointer to a node that can run: it is not null, its `file_` is the live one, and
    its count is within its array. -/
structure At (s : File K R N) (b : Nat) : Prop where
  ne : b ≠ 0
  held : (s.blocks b).file = s.addr
  bounded : (s.blocks b).recordCount ≤ N

theorem At.keeps {t : File K R N} (h : At s b) (hk : Keeps s t) : At t b :=
  ⟨h.ne, by rw [hk.addr]; exact hk.held b h.held, hk.bounded b h.bounded⟩

/-- The block just allocated can run. -/
theorem Makes.at_new {t : File K R N} {P : Pages K R} (h : Makes 1 s t P)
    (h0 : s.blockCount ≠ 0) : At t s.blockCount := by
  obtain ⟨h1, h2, -⟩ := h.fresh s.blockCount (Nat.le_refl _) (Nat.lt_succ_self _)
  exact ⟨h0, h1.trans h.addr.symm, h2⟩

theorem At.length (h : At s b) : (s.pages.recs b).length = (s.blocks b).recordCount := Node.recs_length h.bounded

theorem At.entry (h : At s b) {i : Nat} {e : Entry K R} (he : (s.pages.recs b)[i]? = some e) :
    (s.blocks b).entries[i]? = some e := by
  have hi : i < (s.blocks b).recordCount := by
    rw [← h.length]; exact (List.getElem?_eq_some_iff.mp he).1
  rw [Node.entries_getElem? hi]; exact he

theorem At.not_full (h : At s b) (hlt : (s.pages.recs b).length < N) : ¬ ((s.blocks b).recordCount == N) = true := by
  rw [← h.length, beq_iff_eq]; omega

/-! ## Records appended -/

@[simp] theorem File.adopt_recs (s : File K R N) (c p b : Nat) : ((s.adopt c p).blocks b).recs = (s.blocks b).recs := by
  rw [File.adopt_blocks]; split <;> rfl
@[simp] theorem File.adopt_recordCount (s : File K R N) (c p b : Nat) :
    ((s.adopt c p).blocks b).recordCount = (s.blocks b).recordCount := by
  rw [File.adopt_blocks]; split <;> rfl
@[simp] theorem File.adopt_entries (s : File K R N) (c p b : Nat) :
    ((s.adopt c p).blocks b).entries = (s.blocks b).entries := by
  rw [File.adopt_blocks]; split <;> rfl

theorem Node.recs_push {n : Node K R N} (h : n.recordCount < N) (e : Entry K R) :
    Node.recs { n with entries := n.entries.setIfInBounds n.recordCount e, recordCount := n.recordCount + 1 } =
      n.recs ++ [e] := by
  simp only [Node.recs, Vector.toList_setIfInBounds]
  rw [List.take_add_one, List.take_set_of_le (Nat.le_refl _), List.getElem?_set_self (by simpa using h)]
  rfl

theorem insertOnEndUnsafe_does {e : Entry K R} (h : At s b) (hlt : (s.pages.recs b).length < N)
    (hc : e.smallerNode ≠ 0 → e.smallerNode < s.blockCount) :
    Returns (insertOnEndUnsafe b e) (fun _ t =>
      Does s t ((s.pages.setRecs b (s.pages.recs b ++ [e])).adopt [e.smallerNode] (s.pages.this b))) s := by
  rw [h.length] at hlt
  unfold Returns insertOnEndUnsafe
  rw [wp_bind, wp_node h.ne, wp_bind, wp_assert h.bounded, if_neg (by have := h.bounded; omega), wp_bind,
    wp_setEntry h.ne hlt, wp_bind, wp_adopt h.ne (by simpa using h.held) (by simpa using hc), wp_update h.ne,
    File.modify_adopt _ _ _ _ _ (fun _ _ _ => rfl), File.modify_modify]
  simp only [File.modify_self]
  refine ⟨(Keeps.adopt s e.smallerNode (s.blocks b).thisNode).trans (.modify id (fun _ => ?_) fun _ h => ?_),
    ?_, by simp, by simp⟩
  · simpa using Nat.succ_le_of_lt hlt
  · exact absurd h (Nat.succ_ne_zero _)
  · rw [pages_modify_recs _ _ _ rfl rfl rfl, pages_adopt, Pages.adopt_setRecs]
    have hn : ((s.adopt e.smallerNode (s.blocks b).thisNode).blocks b).recordCount = (s.blocks b).recordCount := by simp
    have := Node.recs_push (n := (s.adopt e.smallerNode (s.blocks b).thisNode).blocks b) (by simpa using hlt) e
    rw [hn] at this
    simp only [hn, this, File.adopt_recs]
    rfl

/-! ## Records inserted -/

/-- The link left of the first record of `qs` now names `y`. -/
def relink (y : Nat) : List (Entry K R) → List (Entry K R)
  | [] => []
  | q :: qs => { q with smallerNode := y } :: qs

theorem gaps_relink (lo : Option K) (y : Nat) (qs : List (Entry K R)) (last : Nat) (hi : Option K) :
    gaps Entry.smallerNode Entry.key lo (relink y qs) (if qs = [] then y else last) hi =
      ⟨lo, y, top Entry.key hi qs⟩ :: rest Entry.smallerNode Entry.key last hi qs := by
  cases qs <;> rfl

theorem relink_keys (y : Nat) (qs : List (Entry K R)) : (relink y qs).map Entry.key = qs.map Entry.key := by
  cases qs <;> rfl

/-- Only a link changes: the records are the same. -/
theorem mem_relink {y : Nat} {qs : List (Entry K R)} {k : K} {r : R} :
    (∃ e ∈ relink y qs, e.key = k ∧ e.record = r) ↔ ∃ e ∈ qs, e.key = k ∧ e.record = r := by
  cases qs with
  | nil => exact Iff.rfl
  | cons q qs => simp [relink]

@[simp] theorem relink_length (y : Nat) (qs : List (Entry K R)) : (relink y qs).length = qs.length := by
  cases qs <;> rfl

/-- A search over the records of a node that answers at the first of `qs`. -/
theorem scan_records {α : Type} {f : Nat → Entry K R → M K R N none (Option α)} {ps qs : List (Entry K R)} {a : α}
    (h : At s b) (hr : s.pages.recs b = ps ++ qs) (hp : ∀ i, ∀ e ∈ ps, f i e s = .ok none s)
    (hq : ∀ e ∈ qs.head?, f ps.length e s = .ok (some a) s) :
    Returns (scan (fun i => do f i (← entry b i)) (s.blocks b).recordCount 0)
      (fun o t => t = s ∧ o = if qs = [] then none else some a) s := by
  have hlen : (s.blocks b).recordCount = ps.length + qs.length := by rw [← h.length, hr, List.length_append]
  refine (scan_returns (fun j t => t = s ∧ j ≤ ps.length) (fun x t => t = s ∧ qs ≠ [] ∧ x = a) _ _ _
    ⟨rfl, Nat.zero_le _⟩
    ?_).mono fun o t ht => ?_
  · intro j t _ hj hjp
    obtain ⟨rfl, hjp⟩ := hjp
    unfold Returns
    rw [wp_bind]
    by_cases e : j < ps.length
    · have he : (t.pages.recs b)[j]? = some ps[j] := by
        rw [hr, List.getElem?_append_left e]; exact List.getElem?_eq_getElem e
      rw [wp_entry h.ne (h.entry he), wp_ok (hp j _ (List.getElem_mem e))]
      exact ⟨rfl, e⟩
    · obtain ⟨q, qs, rfl⟩ : ∃ q qs', qs = q :: qs' := by
        cases qs with
        | nil => simp at hlen; omega
        | cons q qs => exact ⟨q, qs, rfl⟩
      have he : (t.pages.recs b)[j]? = some q := by
        rw [hr, List.getElem?_append_right (by omega), show j - ps.length = 0 by omega]; rfl
      obtain rfl : j = ps.length := by omega
      rw [wp_entry h.ne (h.entry he), wp_ok (hq q (by simp))]
      exact ⟨rfl, by simp, rfl⟩
  · cases o with
    | none =>
      obtain ⟨rfl, hle⟩ := ht
      have : qs.length = 0 := by omega
      exact ⟨rfl, by simp [List.length_eq_zero_iff.mp this]⟩
    | some x =>
      obtain ⟨rfl, hne, rfl⟩ := ht
      exact ⟨rfl, by rw [if_neg hne]⟩

theorem setSlot_larger (h : b ≠ 0) (y : Nat) :
    Returns (setSlot b .larger y) (fun _ t => t = s.modify b fun n => { n with largerNode := y }) s := by
  simp [Returns, setSlot, wp_update h]

theorem Node.recs_set (n : Node K R N) (i : Nat) (e : Entry K R) :
    Node.recs { n with entries := n.entries.setIfInBounds i e } = n.recs.set i e := by
  simp only [Node.recs, Vector.toList_setIfInBounds, List.take_set]

/-- The parent's link to a node that was split is moved to the new node. -/
theorem relink_does {ps qs : List (Entry K R)} {x y : Nat} (h : At s b) (hr : s.pages.recs b = ps ++ qs)
    (hx : first Entry.smallerNode (s.pages.larger b) qs = x)
    (hnd : ((s.pages.recs b).map Entry.smallerNode ++ [s.pages.larger b]).Nodup) :
    Returns (do setSlot b (← findNodePtr b x) y) (fun _ t =>
      Does s t ((s.pages.setRecs b (ps ++ relink y qs)).setLarger b (if qs = [] then y else s.pages.larger b))) s := by
  rw [hr, List.map_append, List.append_assoc] at hnd
  obtain ⟨-, hnq, hdis⟩ := List.nodup_append'.mp hnd
  have hps : ∀ e ∈ ps, e.smallerNode ≠ x := by
    intro e he hex
    apply hdis (List.mem_map_of_mem he)
    rw [hex, ← hx]
    cases qs <;> simp [first]
  have hscan := scan_records (f := fun i e => pure (if e.smallerNode = x then some i else none))
    (a := ps.length) h hr (fun i e he => by simp only [hps e he, if_false]; rfl) (fun e he => by
      cases qs with
      | nil => cases he
      | cons q qs =>
        obtain rfl := Option.some.inj he
        simp only [first] at hx
        simp only [hx, if_true]; rfl)
  unfold Returns findNodePtr
  simp only [wp_bind, wp_node h.ne, wp_ite, wp_pure]
  cases qs with
  | nil =>
    rw [List.append_nil] at hr
    refine ⟨fun _ => (setSlot_larger h.ne y).wp ?_, fun hne => absurd hx hne⟩
    intro _ t e
    subst e
    refine ⟨.modify id id id, ?_, rfl, rfl⟩
    rw [pages_modify]
    simp only [relink, List.append_nil, ← hr, Pages.setRecs_self, if_true]
    simp only [Pages.setLarger, ← pages_this, ← pages_parent, Function.update_eq_self]
    ext c : 2 <;> try rfl
    exact congrFun (Function.update_eq_self b s.pages.recs) c
  | cons q qs =>
    simp only [first] at hx
    have hlx : (s.blocks b).largerNode ≠ x := by
      intro e
      rw [List.map_cons, List.cons_append, List.nodup_cons] at hnq
      exact hnq.1 (by rw [hx, ← e]; simp [pages_larger])
    refine ⟨fun e => absurd e hlx, fun _ => hscan.wp ?_⟩
    intro o t h
    obtain ⟨rfl, rfl⟩ := h
    have he : (t.pages.recs b)[ps.length]? = some q := by rw [hr]; simp
    have hN : ps.length < N := by
      have := h.length; rw [hr] at this
      have := h.bounded
      simp at *; omega
    simp only [List.cons_ne_nil, if_false, wp_pure, setSlot, wp_bind, wp_entry h.ne (h.entry he), wp_setEntry h.ne hN]
    refine ⟨.modify id id ?_, ?_, rfl, rfl⟩
    · intro hst h0
      have := h.length; rw [hr] at this
      simp only [List.length_append, List.length_cons] at this
      simp only at h0; omega
    · rw [pages_modify_recs _ _ _ rfl rfl rfl, Node.recs_set, ← pages_recs, hr]
      have : (ps ++ q :: qs).set ps.length { q with smallerNode := y } = ps ++ relink y (q :: qs) := by
        simp [relink]
      rw [this]
      exact (Pages.setLarger_self _ b).symm

theorem freeUpFrom_returns (h : b ≠ 0) (pos : Nat) : ∀ i s, i < N →
    Returns (freeUpFrom b pos i) (fun _ t => ∃ es : Vector (Entry K R) N,
      t = s.modify b (fun n => { n with entries := es }) ∧
        ∀ j : Nat, es[j]? = if pos < j ∧ j ≤ i then (s.blocks b).entries[j - 1]? else (s.blocks b).entries[j]?) s := by
  intro i
  induction i with
  | zero =>
    intro s _
    refine ⟨(s.blocks b).entries, ?_, fun j => by rw [if_neg (by omega)]⟩
    simp [File.modify]
  | succ i ih =>
    intro s hi
    unfold Returns freeUpFrom
    by_cases hp : pos < i + 1
    · have he : (s.blocks b).entries[i]? = some (s.blocks b).entries[i] := Vector.getElem?_eq_getElem _
      rw [if_pos hp, wp_bind, wp_entry h he, wp_bind, wp_setEntry h hi]
      apply (ih _ (by omega)).wp
      intro _ t hes
      obtain ⟨es, rfl, hes⟩ := hes
      refine ⟨es, by rw [File.modify_modify], fun j => ?_⟩
      rw [hes j, File.modify_self]
      by_cases hj : j = i + 1
      · subst hj
        rw [if_neg (by omega), if_pos (by omega)]
        simp [hi, he]
      · by_cases hj' : pos < j ∧ j ≤ i
        · rw [if_pos hj', if_pos (by omega), Vector.getElem?_setIfInBounds_ne (by omega)]
        · rw [if_neg hj', if_neg (by omega), Vector.getElem?_setIfInBounds_ne (by omega)]
    · rw [if_neg hp]
      refine ⟨(s.blocks b).entries, ?_, fun j => by rw [if_neg (by omega)]⟩
      simp [File.modify]

/-- The records after a shift to the right from `ps.length` on and a write there. -/
theorem Node.recs_insert {n : Node K R N} {ps qs : List (Entry K R)} {es : Vector (Entry K R) N} (e : Entry K R)
    (hn : n.recordCount < N) (hr : n.recs = ps ++ qs)
    (hes : ∀ j : Nat, es[j]? = if ps.length < j ∧ j ≤ n.recordCount then n.entries[j - 1]? else n.entries[j]?) :
    Node.recs { n with entries := es.setIfInBounds ps.length e, recordCount := n.recordCount + 1 } = ps ++ e :: qs := by
  have hlen : ps.length + qs.length = n.recordCount := by
    rw [← List.length_append, ← hr, Node.recs_length hn.le]
  have hold : ∀ j, j < n.recordCount → n.entries[j]? = (ps ++ qs)[j]? := fun j hj => by
    rw [Node.entries_getElem? hj, hr]
  refine List.ext_getElem? fun j => ?_
  by_cases hj : j < n.recordCount + 1
  · rw [← Node.entries_getElem? (n := { n with entries := _, recordCount := _ }) hj]
    show (es.setIfInBounds ps.length e)[j]? = _
    rcases Nat.lt_trichotomy j ps.length with hjp | rfl | hjp
    · rw [Vector.getElem?_setIfInBounds_ne (by omega), hes, if_neg (by omega), hold j (by omega),
        List.getElem?_append_left hjp, List.getElem?_append_left hjp]
    · simp [show ps.length < N by omega]
    · rw [Vector.getElem?_setIfInBounds_ne (by omega), hes, if_pos (by omega), hold (j - 1) (by omega),
        List.getElem?_append_right (by omega), List.getElem?_append_right (by omega),
        show j - ps.length = (j - 1 - ps.length) + 1 by omega, List.getElem?_cons_succ]
  · rw [List.getElem?_eq_none (by simp [Node.recs]; omega), List.getElem?_eq_none (by simp; omega)]

section Keys
variable [LinearOrder K]

theorem findPosition_returns {ps qs : List (Entry K R)} {k : K} (h : At s b) (hr : s.pages.recs b = ps ++ qs)
    (hp : ∀ e ∈ ps, e.key < k) (hq : ∀ e ∈ qs, k < e.key) :
    Returns (findPosition b k) (fun i t => t = s ∧ i = ps.length) s := by
  have hscan := scan_records (f := fun i e => if k < e.key then pure (some i) else do
      assert (k ≠ e.key)
      pure none) (a := ps.length) h hr
    (fun i e he => by
      have hlt := hp e he
      simp only [hlt.not_gt, if_false, assert, hlt.ne', ne_eq, not_false_eq_true, if_true]
      rfl)
    (fun e he => by
      cases qs with
      | nil => cases he
      | cons q qs =>
        obtain rfl := Option.some.inj he
        rw [if_pos (hq q (by simp))]; rfl)
  unfold Returns findPosition
  rw [wp_bind, wp_node h.ne, wp_bind]
  apply hscan.wp
  intro o t h
  obtain ⟨rfl, rfl⟩ := h
  refine ⟨rfl, ?_⟩
  cases qs with
  | nil =>
    rw [List.append_nil] at hr
    rw [if_pos rfl, Option.getD_none, ← h.length, hr]
  | cons q qs => rfl

theorem place_does {ps qs : List (Entry K R)} {e : Entry K R} (h : At s b) (hlt : (s.pages.recs b).length < N)
    (hr : s.pages.recs b = ps ++ qs) (hp : ∀ e' ∈ ps, e'.key < e.key) (hq : ∀ e' ∈ qs, e.key < e'.key)
    (hc : e.smallerNode ≠ 0 → e.smallerNode < s.blockCount) :
    Returns (place b e) (fun _ t =>
      Does s t ((s.pages.setRecs b (ps ++ e :: qs)).adopt [e.smallerNode] (s.pages.this b))) s := by
  have hn := h.length
  rw [hn] at hlt
  have hpN : ps.length < N := by rw [hr, List.length_append] at hn; omega
  unfold Returns place
  rw [wp_bind]
  apply (findPosition_returns h hr hp hq).wp
  intro i t h
  obtain ⟨rfl, rfl⟩ := h
  unfold freeUp
  rw [wp_bind, wp_bind, wp_node h.ne]
  apply (freeUpFrom_returns h.ne ps.length _ t hlt).wp
  intro _ u hes
  obtain ⟨es, rfl, hes⟩ := hes
  rw [wp_bind, wp_setEntry h.ne hpN, wp_bind, File.modify_modify,
    wp_adopt h.ne (by simpa using h.held) (by simpa using hc), wp_update h.ne,
      File.modify_adopt _ _ _ _ _ (fun _ _ _ => rfl), File.modify_modify]
  simp only [File.modify_self]
  refine ⟨(Keeps.adopt t e.smallerNode (t.blocks b).thisNode).trans (.modify id (fun _ => ?_) fun _ h0 => ?_),
    ?_, by simp, by simp⟩
  · simpa using Nat.succ_le_of_lt hlt
  · exact absurd h0 (Nat.succ_ne_zero _)
  · rw [pages_modify_recs _ _ _ rfl rfl rfl, pages_adopt, Pages.adopt_setRecs]
    rw [Node.recs_insert (n := (t.adopt e.smallerNode (t.blocks b).thisNode).blocks b) e (by simpa using hlt)
      (by rw [File.adopt_recs]; exact hr) (by simpa using hes)]
    rfl

/-- A record without a child goes to its position. -/
theorem insertIntoNode_does_leaf {ps qs : List (Entry K R)} {e : Entry K R} {file : Nat} (h : At s b)
    (hlt : (s.pages.recs b).length < N) (hr : s.pages.recs b = ps ++ qs) (hp : ∀ e' ∈ ps, e'.key < e.key)
    (hq : ∀ e' ∈ qs, e.key < e'.key) (he : e.smallerNode = 0) :
    Returns (insertIntoNode b ⟨file, e, 0⟩) (fun _ t => Does s t (s.pages.setRecs b (ps ++ e :: qs))) s := by
  have hnf := h.not_full hlt
  unfold Returns insertIntoNode
  rw [wp_bind, wp_full h.ne, wp_bind, wp_assert hnf, wp_bind, wp_full h.ne, if_neg hnf, wp_bind,
    Subtree.convertIndexToPtr, wp_convertWith_zero, if_neg (by simp), wp_bind, wp_pure]
  refine (place_does h hlt hr hp hq fun h0 => absurd he h0).wp fun _ t ht => ?_
  have : ∀ P : Pages K R, P.adopt [e.smallerNode] (s.pages.this b) = P := by
    intro P; ext c <;> simp [Pages.adopt, he]
  rwa [this] at ht

/-- A record that a split sent up goes to its position, and the link that led to the
    node split leads to the new node. -/
theorem insertIntoNode_does_split {ps qs : List (Entry K R)} {e : Entry K R} {y : Nat} (h : At s b)
    (hlt : (s.pages.recs b).length < N) (hr : s.pages.recs b = ps ++ qs) (hp : ∀ e' ∈ ps, e'.key < e.key)
    (hq : ∀ e' ∈ qs, e.key < e'.key) (hx : first Entry.smallerNode (s.pages.larger b) qs = e.smallerNode)
    (hnd : ((s.pages.recs b).map Entry.smallerNode ++ [s.pages.larger b]).Nodup) (hx0 : e.smallerNode ≠ 0)
    (hxc : e.smallerNode < s.blockCount) (hy0 : y ≠ 0) (hyc : y < s.blockCount) :
    Returns (insertIntoNode b ⟨s.addr, e, y⟩) (fun _ t => Does s t
      (((s.pages.setRecs b (ps ++ e :: relink y qs)).setLarger b (if qs = [] then y else s.pages.larger b)).adopt
        [e.smallerNode] (s.pages.this b))) s := by
  have hnf := h.not_full hlt
  have hd := (refreshed_refresh hy0 hyc).does
  unfold Returns insertIntoNode
  rw [wp_bind, wp_full h.ne, wp_bind, wp_assert hnf, wp_bind, wp_full h.ne, if_neg hnf, wp_bind,
    Subtree.convertIndexToPtr, wp_convertWith rfl hy0 hyc, if_pos hy0, wp_bind, wp_bind, wp_assert hx0, wp_bind]
  have hrel := relink_does (x := e.smallerNode) (y := y) (h.keeps hd.toKeeps) (by rw [hd.pages]; exact hr)
    (by rw [hd.pages]; exact hx) (by rw [hd.pages]; exact hnd)
  rw [Returns, wp_bind] at hrel
  refine wp.mono hrel (fun _ t ht => wp.mono ht (fun _ u hu => ?_) fun _ _ h => h.elim) fun _ _ h => h.elim
  rw [hd.pages] at hu
  have hsu := hd.trans hu
  have hru : u.pages.recs b = ps ++ relink y qs := by rw [hu.pages]; simp
  have hq' : ∀ e' ∈ relink y qs, e.key < e'.key := by
    intro e' he'
    cases qs with
    | nil => cases he'
    | cons q qs =>
      rcases List.mem_cons.mp he' with rfl | he'
      · exact hq q (by simp)
      · exact hq e' (by simp [he'])
  refine (place_does (h.keeps hsu.toKeeps) (by rw [hru]; rw [hr] at hlt; simpa using hlt) hru hp hq'
    fun _ => by rw [hsu.blockCount]; exact hxc).wp fun _ v hv => ?_
  have := hsu.trans hv
  rw [hu.pages] at this
  have hcomm : ∀ es c, ((s.pages.setRecs b (ps ++ relink y qs)).setLarger b c).setRecs b es =
      (s.pages.setRecs b es).setLarger b c := by
    intro es c; simp [Pages.setRecs, Pages.setLarger]
  rwa [hcomm] at this

end Keys

/-! ## Splitting a node -/

theorem setLargerNode_does {c : Nat} (h : At s b) (hc : c ≠ 0 → c < s.blockCount) :
    Returns (setLargerNode b c) (fun _ t => Does s t ((s.pages.setLarger b c).adopt [c] (s.pages.this b))) s := by
  rw [Returns, wp_setLargerNode h.ne h.held hc]
  have hd : Does s (s.modify b fun n => { n with largerNode := c }) (s.pages.setLarger b c) := by
    refine ⟨.modify id id id, ?_, rfl, rfl⟩
    rw [pages_modify]
    simp only [← pages_this, ← pages_parent, Function.update_eq_self]
    ext d : 2 <;> try rfl
    exact congrFun (Function.update_eq_self b s.pages.recs) d
  have := hd.trans (.adopt _ c (s.blocks b).thisNode)
  rwa [hd.pages] at this

/-- A node constructed in the block just allocated. -/
theorem construct_makes (s : File K R N) (parent : Nat) (h0 : s.blockCount ≠ 0) :
    Returns (construct s.blockCount s.addr s.blockCount parent)
      (fun _ t => Makes 1 s t (s.pages.make s.blockCount parent))
      s.allocate := by
  have hstub : ∀ n : Node K R N, Stub { n with
      file := s.addr, thisNode := s.blockCount, parentNode := parent, recordCount := 0,
      entries := n.entries.map fun e => { e with smallerNode := 0 } } := by
    intro n _ e he
    simp only [Vector.getElem?_map, Option.map_eq_some_iff] at he
    obtain ⟨e', -, rfl⟩ := he
    rfl
  rw [Returns, construct, wp_update h0]
  have hk : Keeps s s.allocate := ⟨rfl, fun _ h => h, fun _ h => h, fun _ h => h⟩
  refine ⟨hk.trans (.modify (fun _ => rfl) (fun _ => Nat.zero_le _) fun _ => hstub _), ?_, rfl, ?_, fun b h1 h2 => ?_⟩
  · rw [pages_modify]
    ext d : 2 <;> try rfl
    exact congrFun (Function.update_eq_self s.blockCount s.pages.larger) d
  · show s.os.tail = _
    rw [List.drop_one]
  · obtain rfl : b = s.blockCount := by omega
    rw [File.modify_self]
    exact ⟨rfl, Nat.zero_le _, hstub _⟩

theorem Pages.make_adopt (P : Pages K R) (y p : Nat) : (P.make y p).adopt [y] p = P.make y p := by
  ext d : 2 <;> try rfl
  simp only [Pages.adopt, Pages.make, List.mem_singleton, Function.update_apply]
  split
  · rename_i h; rw [if_pos h.1]
  · rfl

/-- The loop of `split_node`: the records after the middle move to the new node. -/
theorem moveRecords_does {x y : Nat} {as : List (Entry K R)} {mid : Entry K R} {bs : List (Entry K R)} (hx : At s x)
    (hy : At s y) (hxy : x ≠ y) (hr : s.pages.recs x = as ++ mid :: bs) (hry : s.pages.recs y = [])
    (has : as.length = middle N) (hc : ∀ e ∈ bs, e.smallerNode ≠ 0 → e.smallerNode < s.blockCount) :
    Returns (upto (fun i => do insertOnEndUnsafe y (← entry x i)) ((s.blocks x).recordCount - (middle N + 1))
      (middle N + 1))
      (fun _ t => Does s t ((s.pages.setRecs y bs).adopt (bs.map Entry.smallerNode) (s.pages.this y))) s := by
  have hlen : (s.blocks x).recordCount = as.length + 1 + bs.length := by
    rw [← hx.length, hr]; simp; omega
  have hN := hx.bounded
  refine (upto_returns (fun j t => Does s t ((s.pages.setRecs y (bs.take (j - (middle N + 1)))).adopt
    ((bs.take (j - (middle N + 1))).map Entry.smallerNode) (s.pages.this y))) _ _ _ ?_ ?_).mono fun _ t ht => ?_
  · rw [Nat.sub_self, List.take_zero, List.map_nil, Pages.adopt_nil, ← hry, Pages.setRecs_self]
    exact .refl s
  · intro j t h1 h2 ht
    obtain ⟨i, rfl⟩ : ∃ i, j = middle N + 1 + i := ⟨j - (middle N + 1), by omega⟩
    have hi : i < bs.length := by omega
    rw [Nat.add_sub_cancel_left] at ht
    rw [show middle N + 1 + i + 1 - (middle N + 1) = i + 1 by omega]
    have hrx : (t.pages.recs x)[middle N + 1 + i]? = some bs[i] := by
      rw [ht.pages]
      simp only [Pages.adopt_recs, Pages.setRecs, Function.update_of_ne hxy, hr]
      rw [List.getElem?_append_right (by omega), has, show middle N + 1 + i - middle N = i + 1 by omega,
        List.getElem?_cons_succ, List.getElem?_eq_getElem hi]
    have hry' : t.pages.recs y = bs.take i := by rw [ht.pages]; simp
    have hty : t.pages.this y = s.pages.this y := by rw [ht.pages]; simp
    unfold Returns
    rw [wp_bind, wp_entry hx.ne ((hx.keeps ht.toKeeps).entry hrx)]
    refine (insertOnEndUnsafe_does (hy.keeps ht.toKeeps) (by rw [hry', List.length_take]; omega)
      (by rw [ht.blockCount]; exact hc _ (List.getElem_mem hi))).wp fun _ u hu => ?_
    have := ht.trans hu
    rwa [hry', hty, ht.pages, Pages.adopt_setRecs, Pages.setRecs_setRecs, Pages.adopt_adopt, ← List.map_singleton,
      ← List.map_append, ← List.take_succ_eq_append_getElem hi] at this
  · rwa [show middle N + 1 + ((s.blocks x).recordCount - (middle N + 1)) - (middle N + 1) = bs.length by omega,
      List.take_length] at ht

theorem splitNode_refused {x : Nat} {extended : Bool} {os : List Alloc} {E : Err → File K R N → Prop}
    {Q : Subtree K R → File K R N → Prop} (h : At s x) (hos : s.os = .throws extended :: os)
    (hE : E .allocateBlock (s.refuse extended)) : wp (splitNode x) Q E s := by
  rw [splitNode, wp_bind, wp_node h.ne, wp_bind, wp_allocateBlock_refused h.held hos]
  exact hE

/-- The records after the first `as.length` are given up. -/
theorem truncate_does {as bs : List (Entry K R)} (h : At s b) (hr : s.pages.recs b = as ++ bs) (has : as.length ≠ 0) :
    Does s (s.modify b fun n => { n with recordCount := as.length }) (s.pages.setRecs b as) := by
  have hlen := h.length
  have hN := h.bounded
  rw [hr, List.length_append] at hlen
  refine ⟨.modify id (fun _ => ?_) fun _ h0 => absurd h0 has, ?_, rfl, rfl⟩
  · show as.length ≤ N
    omega
  · have htake : Node.recs { s.blocks b with recordCount := as.length } = as := by
      have hle : min as.length (s.blocks b).recordCount = as.length := by omega
      rw [pages_recs, Node.recs] at hr
      rw [Node.recs, ← hle, ← List.take_take, hr, List.take_left]
    rw [pages_modify_recs _ _ _ rfl rfl rfl, htake]

theorem splitNode_makes {x : Nat} {as : List (Entry K R)} {mid : Entry K R} {bs : List (Entry K R)} (h : At s x)
    (hx : x < s.blockCount) (hg : s.Grants) (hr : s.pages.recs x = as ++ mid :: bs) (has : as.length = middle N)
    (hc : ∀ e ∈ mid :: bs, e.smallerNode ≠ 0 → e.smallerNode < s.blockCount)
    (hl : s.pages.larger x ≠ 0 → s.pages.larger x < s.blockCount) :
    Returns (splitNode x) (fun sub t => Makes 1 s t (s.pages.splitNode x s.blockCount as mid bs) ∧
      sub = ⟨s.addr, { mid with smallerNode := s.pages.this x }, s.blockCount⟩) s := by
  have hxy : x ≠ s.blockCount := hx.ne
  have hy0 : s.blockCount ≠ 0 := by have := h.ne; omega
  unfold Returns splitNode
  rw [wp_bind, wp_node h.ne, wp_bind, wp_allocateBlock h.held hg, wp_bind, h.held]
  refine (construct_makes s (s.blocks x).parentNode hy0).wp fun _ s2 h2 => ?_
  have hy2 : At s2 s.blockCount := h2.at_new hy0
  have hthis : (s2.blocks s.blockCount).thisNode = s.blockCount := by
    rw [← pages_this, h2.pages]; simp [Pages.make]
  -- `subtree.larger_node(..)`: the new node's parent is set once more
  rw [wp_bind, wp_node hy0, wp_bind, hthis, if_pos hy0, wp_bind,
    wp_convertWith h2.addr.symm hy0 (by rw [h2.blockCount]; omega), wp_bind, wp_node h.ne, wp_setParentNode hy0,
      File.refresh_setParent _ hy0, File.refresh_parentNode]
  have hpx : (s2.blocks x).parentNode = (s.blocks x).parentNode := by
    rw [← pages_parent, h2.pages]; simp [Pages.make, Function.update_of_ne hxy, pages_parent]
  have h3 := h2.does (.adopt s2 s.blockCount (s.blocks x).parentNode)
  rw [h2.pages, Pages.make_adopt] at h3
  rw [hpx, wp_bind]
  generalize s2.adopt s.blockCount (s.blocks x).parentNode = s3 at h3
  have hx3 := h.keeps h3.toKeeps
  have hy3 : At s3 s.blockCount := h3.at_new hy0
  have hr3 : s3.pages.recs x = as ++ mid :: bs := by
    rw [h3.pages]; simp only [Pages.make, Function.update_of_ne hxy]; exact hr
  have hn3 : (s3.blocks x).recordCount = (s.blocks x).recordCount := by
    rw [← h.length, ← hx3.length, hr3, hr]
  rw [← hn3]
  have hry3 : s3.pages.recs s.blockCount = [] := by rw [h3.pages]; simp [Pages.make]
  refine (moveRecords_does hx3 hy3 hxy hr3 hry3 has fun e he h0 => ?_).wp fun _ s4 h4 => ?_
  · have := hc e (by simp [he]) h0
    rw [h3.blockCount]; omega
  have h34 := h3.does h4
  have hx4 := hx3.keeps h4.toKeeps
  have hlx4 : (s4.blocks x).largerNode = s.pages.larger x := by
    rw [← pages_larger, h4.pages, Pages.adopt_larger, Pages.setRecs_larger, h3.pages]; rfl
  rw [wp_bind, wp_node h.ne, hlx4, wp_bind]
  refine (setLargerNode_does (hy3.keeps h4.toKeeps) fun h0 => ?_).wp fun _ s5 h5 => ?_
  · rw [h34.blockCount]; have := hl h0; omega
  have h35 := h34.does h5
  have hx5 := hx4.keeps h5.toKeeps
  have hr5 : s5.pages.recs x = as ++ mid :: bs := by
    rw [h5.pages, Pages.adopt_recs, Pages.setLarger_recs, h4.pages, Pages.adopt_recs,
      Pages.setRecs_recs_ne _ _ hxy, hr3]
  have hmid : ∀ t : File K R N, t.pages.recs x = as ++ mid :: bs → (t.pages.recs x)[middle N]? = some mid := by
    intro t ht; rw [ht, ← has]; simp
  rw [wp_bind, wp_entry h.ne (hx5.entry (hmid s5 hr5)), wp_bind]
  refine (setLargerNode_does hx5 fun h0 => ?_).wp fun _ s6 h6 => ?_
  · rw [h35.blockCount]; have := hc mid (by simp) h0; omega
  have h36 := h35.does h6
  have hx6 := hx5.keeps h6.toKeeps
  have hr6 : s6.pages.recs x = as ++ mid :: bs := by rw [h6.pages, Pages.adopt_recs, Pages.setLarger_recs, hr5]
  have hthis6 : s6.pages.this x = s.pages.this x := by
    rw [h6.pages, Pages.adopt_this, Pages.setLarger_this, h5.pages, Pages.adopt_this, Pages.setLarger_this, h4.pages,
      Pages.adopt_this, Pages.setRecs_this, h3.pages, Pages.make_this_ne _ _ hxy]
  have h67 := truncate_does hx6 hr6 (by rw [has]; unfold middle; omega)
  rw [has] at h67
  rw [wp_bind, wp_entry h.ne (hx6.entry (hmid s6 hr6)), wp_bind, wp_node h.ne, wp_bind, wp_update h.ne, wp_pure]
  refine ⟨?_, ?_⟩
  · have := h36.does h67
    rw [h6.pages, h5.pages, h4.pages, h3.pages] at this
    simp only [Pages.adopt_this, Pages.setRecs_this, Pages.setLarger_this, Pages.make_this,
      Pages.make_this_ne _ _ hxy] at this
    exact this
  · rw [hx6.held, h36.addr, ← hthis6]; rfl

end Dumbnose.Btree
