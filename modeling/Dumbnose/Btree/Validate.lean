/-
  Dumbnose.Btree.Validate — what `validate` tells of a tree it passes.

  `validate` compares a node with its children and goes on to them, but it does
  nothing at a node without records: not to its child, and not below. It returns
  exactly if every other node that it comes by is `Checked`, and throws one of its own
  exceptions if not (`validate_returns_iff`), on every finite tree.

  Of the tree on either side of a record it looks at the top node only. The greatest
  key of the left one may be further down its right edge, the least key of the right
  one down its left edge. And it compares the parents of children with `this_node_`,
  not with the number the node was reached by. What it never looked at is in `RestOk`;
  `validate_complete_iff`: a tree that passes is in order, with the right parents,
  exactly if nothing is wrong there.
-/

import Dumbnose.Btree.InOrder

namespace Dumbnose.Btree

open Lib.Exec Lib.Gaps

variable {K R : Type} {N : Nat}

/-- What `validate` throws. -/
def Err.Violation (e : Err) : Prop := e = .entryOrdering ∨ e = .lessThan ∨ e = .greaterThan ∨ e = .parentChild

/-- The nodes that `validate` is called on, from `r`. -/
inductive Visited (s : File K R N) : Nat → Nat → Prop
  | here (b : Nat) : Visited s b b
  | down {b c d : Nat} : (s.blocks b).recs ≠ [] → c ∈ (s.blocks b).links → c ≠ 0 → Visited s c d → Visited s b d

/-- `validate` reads the node: it is called on it, and it has records. -/
def Compared (s : File K R N) (r b : Nat) : Prop := Visited s r b ∧ (s.blocks b).recs ≠ []

variable [LinearOrder K]

/-- A node that agrees with its children, as far as `validate` compares them. -/
structure Checked (s : File K R N) (b : Nat) : Prop where
  increasing : ∀ (i : Nat) (e e' : Entry K R), (s.blocks b).recs[i]? = some e → (s.blocks b).recs[i + 1]? = some e' →
    e.key < e'.key
  above : ∀ (i : Nat) (e : Entry K R) (c : Nat), (s.blocks b).recs[i]? = some e →
    (s.blocks b).links[i]? = some c → c ≠ 0 →
    ∀ e' ∈ (s.blocks c).recs, e'.key < e.key
  below : ∀ (i : Nat) (e : Entry K R) (c : Nat), (s.blocks b).recs[i]? = some e →
    (s.blocks b).links[i + 1]? = some c → c ≠ 0 →
    ∀ e' ∈ (s.blocks c).recs, e.key < e'.key
  parent : ∀ c ∈ (s.blocks b).links, c ≠ 0 → (s.blocks c).parentNode = (s.blocks b).thisNode

/-! ## Programs that judge -/

/-- Called on `b`, in any state that following links makes of `s`: `x` returns if `C`,
    throws if not, and does no more than follow links. -/
def Judges (s : File K R N) (b : Nat) (x : M K R N none Unit) (C : Prop) : Prop :=
  ∀ t, Refreshed s t → (t.blocks b).file = t.addr →
    wp x (fun _ u => Refreshed t u ∧ C) (fun e _ => e.Violation ∧ ¬ C) t

section Judges
variable {s : File K R N} {b c d : Nat} {x y : M K R N none Unit} {C D : Prop}

omit [LinearOrder K] in
theorem Judges.iff (h : Judges s b x C) (hC : C ↔ D) : Judges s b x D := by rwa [← propext hC]

omit [LinearOrder K] in
theorem Judges.skip : Judges s b (pure ()) True := fun t _ _ => ⟨.refl t, trivial⟩

omit [LinearOrder K] in
theorem Judges.check [Decidable C] {e : Err} (he : e.Violation) : Judges s b (if C then pure () else throw e) C := by
  intro t _ _
  rw [wp_ite]
  exact ⟨fun h => ⟨.refl t, h⟩, fun h => ⟨he, h⟩⟩

omit [LinearOrder K] in
theorem Judges.seq (hx : Judges s b x C) (hy : Judges s b y D) : Judges s b (do x; y) (C ∧ D) := by
  intro t ht hh
  rw [wp_bind]
  refine (hx t ht hh).mono (fun _ u ⟨hu, hC⟩ => ?_) fun e _ ⟨he, hC⟩ => ⟨he, fun h => hC h.1⟩
  exact (hy u (ht.trans hu) (hu.held hh)).mono (fun _ v ⟨hv, hD⟩ => ⟨hu.trans hv, hC, hD⟩)
    fun e _ ⟨he, hD⟩ => ⟨he, fun h => hD h.2⟩

omit [LinearOrder K] in
theorem Judges.upto {body : Nat → M K R N none Unit} {C : Nat → Prop} {n i : Nat}
    (h : ∀ j, i ≤ j → j < i + n → Judges s b (body j) (C j)) :
    Judges s b (upto body n i) (∀ j, i ≤ j → j < i + n → C j) := by
  induction n generalizing i with
  | zero => exact Judges.skip.iff ⟨fun _ j h1 h2 => by omega, fun _ => trivial⟩
  | succ n ih =>
    refine ((h i (Nat.le_refl i) (by omega)).seq (ih fun j h1 h2 => h j (by omega) (by omega))).iff ?_
    constructor
    · intro h0 j h2 h3
      obtain ⟨h0, h1⟩ := h0
      rcases Nat.eq_or_lt_of_le h2 with rfl | h2
      · exact h0
      · exact h1 j h2 (by omega)
    · exact fun h => ⟨h i (Nat.le_refl i) (by omega), fun j h1 h2 => h j (by omega) (by omega)⟩

omit [LinearOrder K] in
/-- Of a node that is read, all but its `file_` is as it was. -/
theorem Judges.node {f : Node K R N → M K R N none Unit} (h0 : d ≠ 0)
    (h : ∀ file, Judges s b (f { s.blocks d with file := file }) C) : Judges s b (do f (← node d)) C := by
  intro t ht hh
  rw [wp_bind, wp_node h0]
  obtain ⟨file, hf⟩ : ∃ file, t.blocks d = { s.blocks d with file := file } := by
    rcases ht.blocks d with e | ⟨-, -, e⟩
    · exact ⟨(s.blocks d).file, e⟩
    · exact ⟨s.addr, e⟩
  rw [hf]
  exact h file t ht hh

omit [LinearOrder K] in
theorem Judges.entry {f : Entry K R → M K R N none Unit} {i : Nat} {e : Entry K R} (h0 : d ≠ 0)
    (he : (s.blocks d).recs[i]? = some e) (h : Judges s b (f e) C) : Judges s b (do f (← entry d i)) C := by
  intro t ht hh
  have hi : i < (s.blocks d).recordCount := by
    have := (List.getElem?_eq_some_iff.mp he).1
    rw [Node.recs, List.length_take] at this
    omega
  have he' : (t.blocks d).entries[i]? = some e := by rw [(ht.body d).2.2.2.2, Node.entries_getElem? hi, he]
  rw [wp_bind, wp_entry h0 he']
  exact h t ht hh

omit [LinearOrder K] in
theorem Judges.child {f : Nat → M K R N none Unit} (h0 : b ≠ 0) (hc0 : c ≠ 0) (hc : c < s.blockCount)
    (h : Judges s c (f c) C) : Judges s b (do f (← convertIndexToPtr b c)) C := by
  intro t ht hh
  have hr := refreshed_refresh (s := t) hc0 (ht.blockCount ▸ hc)
  rw [wp_bind, wp_convert h0 hh hc0 (ht.blockCount ▸ hc)]
  exact (h _ (ht.trans hr) (by simp [File.refresh])).mono (fun _ u ⟨hu, hC⟩ => ⟨hr.trans hu, hC⟩) fun _ _ => id

omit [LinearOrder K] in
theorem Judges.eachRecord {body : Nat → M K R N none Unit} {C : Nat → Prop} {start : Nat} (h0 : d ≠ 0)
    (hN : (s.blocks d).recordCount ≤ N)
    (h : ∀ i, start ≤ i → i < (s.blocks d).recs.length → Judges s b (body i) (C i)) :
    Judges s b (eachRecord d start body) (∀ i, start ≤ i → i < (s.blocks d).recs.length → C i) := by
  rw [Node.recs_length hN] at h ⊢
  refine Judges.node h0 fun file => (Judges.upto fun i h1 h2 => h i h1 (by simp only at h2; omega)).iff ?_
  constructor
  · exact fun h i h1 h2 => h i h1 (by simp only; omega)
  · exact fun h i h1 h2 => h i h1 (by simp only at h2; omega)

omit [LinearOrder K] in
theorem Judges.smallerChild {body : Nat → M K R N none Unit} {C : Entry K R → Prop} {i : Nat} {e : Entry K R}
    (h0 : b ≠ 0) (he : (s.blocks b).recs[i]? = some e)
    (hc : e.smallerNode ≠ 0 → e.smallerNode < s.blockCount ∧ Judges s e.smallerNode (body e.smallerNode) (C e)) :
    Judges s b (smallerChild b i body) (∀ e, (s.blocks b).recs[i]? = some e → e.smallerNode ≠ 0 → C e) := by
  refine Judges.iff (C := e.smallerNode ≠ 0 → C e) (Judges.entry h0 he ?_) (by simp [he])
  by_cases hz : e.smallerNode = 0
  · rw [if_neg (not_not.mpr hz)]
    exact Judges.skip.iff ⟨fun _ h => absurd hz h, fun _ => trivial⟩
  · rw [if_pos hz]
    exact (Judges.child h0 hz (hc hz).1 (hc hz).2).iff ⟨fun h _ => h, fun h => h hz⟩

omit [LinearOrder K] in
theorem Judges.largerChild {body : Nat → M K R N none Unit} (h0 : b ≠ 0)
    (hc : (s.blocks b).largerNode ≠ 0 → (s.blocks b).largerNode < s.blockCount ∧
      Judges s (s.blocks b).largerNode (body (s.blocks b).largerNode) C) :
    Judges s b (largerChild b body) ((s.blocks b).largerNode ≠ 0 → C) := by
  refine Judges.node h0 fun file => ?_
  by_cases hz : (s.blocks b).largerNode = 0
  · rw [if_neg (not_not.mpr hz)]
    exact Judges.skip.iff ⟨fun _ h => absurd hz h, fun _ => trivial⟩
  · rw [if_pos hz]
    exact (Judges.child h0 hz (hc hz).1 (hc hz).2).iff ⟨fun h _ => h, fun h => h hz⟩

end Judges

/-! ## The checker -/

section Checker
variable {s : File K R N} {b c : Nat}

omit [LinearOrder K] in
theorem recs_getElem? {i : Nat} (hi : i < (s.blocks b).recs.length) : ∃ e, (s.blocks b).recs[i]? = some e :=
  ⟨_, List.getElem?_eq_getElem hi⟩

omit [LinearOrder K] in
theorem links_getElem? {i : Nat} {e : Entry K R} (he : (s.blocks b).recs[i]? = some e) :
    (s.blocks b).links[i]? = some e.smallerNode := by
  have hi := (List.getElem?_eq_some_iff.mp he).1
  rw [Node.links, List.getElem?_append_left (by simpa using hi), List.getElem?_map, he]
  rfl

omit [LinearOrder K] in
theorem links_larger : (s.blocks b).links[(s.blocks b).recs.length]? = some (s.blocks b).largerNode := by
  rw [Node.links, List.getElem?_append_right (by simp)]
  simp

omit [LinearOrder K] in
/-- The loop over the records and the test of `larger_node_` come by every child. -/
theorem each_link_iff {P : Nat → Prop} :
    ((∀ i, 0 ≤ i → i < (s.blocks b).recs.length → ∀ e, (s.blocks b).recs[i]? = some e → e.smallerNode ≠ 0 →
      P e.smallerNode) ∧
      ((s.blocks b).largerNode ≠ 0 → P (s.blocks b).largerNode)) ↔ ∀ c ∈ (s.blocks b).links, c ≠ 0 → P c := by
  constructor
  · intro h c hc h0
    obtain ⟨h1, h2⟩ := h
    rcases List.mem_append.mp hc with hc | hc
    · obtain ⟨e, he, rfl⟩ := List.mem_map.mp hc
      obtain ⟨i, hi⟩ := List.mem_iff_getElem?.mp he
      exact h1 i (Nat.zero_le i) (List.getElem?_eq_some_iff.mp hi).1 e hi h0
    · rw [List.mem_singleton.mp hc] at h0 ⊢
      exact h2 h0
  · exact fun h => ⟨fun i _ _ e he => h _ (List.mem_of_getElem? (links_getElem? he)),
      h _ (List.mem_of_getElem? links_larger)⟩

omit [LinearOrder K] in
theorem records_judges {P : Entry K R → Prop} [DecidablePred P] {err : Err} (he : err.Violation) (h0 : c ≠ 0)
    (hN : (s.blocks c).recordCount ≤ N) :
    Judges s c (eachRecord c 0 fun i => do if P (← entry c i) then pure () else throw err)
      (∀ e ∈ (s.blocks c).recs, P e) := by
  refine (Judges.eachRecord (C := fun i => ∀ e, (s.blocks c).recs[i]? = some e → P e) h0 hN fun i _ hi => ?_).iff ?_
  · obtain ⟨e, hie⟩ := recs_getElem? hi
    exact Judges.entry h0 hie ((Judges.check he).iff (by simp [hie]))
  · constructor
    · intro h e he
      obtain ⟨i, hi⟩ := List.mem_iff_getElem?.mp he
      exact h i (Nat.zero_le i) (List.getElem?_eq_some_iff.mp hi).1 e hi
    · exact fun h i _ _ e he => h e (List.mem_of_getElem? he)

theorem validateLessThan_judges (h0 : c ≠ 0) (hN : (s.blocks c).recordCount ≤ N) (k : K) :
    Judges s c (validateLessThan c k) (∀ e ∈ (s.blocks c).recs, e.key < k) :=
  records_judges (P := fun e => e.key < k) (.inr (.inl rfl)) h0 hN

theorem validateGreaterThan_judges (h0 : c ≠ 0) (hN : (s.blocks c).recordCount ≤ N) (k : K) :
    Judges s c (validateGreaterThan c k) (∀ e ∈ (s.blocks c).recs, k < e.key) :=
  records_judges (P := fun e => k < e.key) (.inr (.inr (.inl rfl))) h0 hN

omit [LinearOrder K] in
theorem validateParentNode_judges (h0 : c ≠ 0) (p : Nat) :
    Judges s c (validateParentNode c p) ((s.blocks c).parentNode = p) := by
  refine Judges.node h0 fun file => ?_
  rw [← ite_not]
  simp only [ne_eq, not_not]
  exact Judges.check (.inr (.inr (.inr rfl)))

/-- The conditions that the six loops of `validate` judge. -/
theorem checked_iff :
    ((∀ i, 1 ≤ i → i < (s.blocks b).recs.length → ∀ e e', (s.blocks b).recs[i - 1]? = some e →
        (s.blocks b).recs[i]? = some e' → e.key < e'.key) ∧
      (∀ i, 0 ≤ i → i < (s.blocks b).recs.length → ∀ e, (s.blocks b).recs[i]? = some e → e.smallerNode ≠ 0 →
        ∀ e' ∈ (s.blocks e.smallerNode).recs, e'.key < e.key) ∧
      (∀ i, 1 ≤ i → i < (s.blocks b).recs.length → ∀ e, (s.blocks b).recs[i]? = some e → e.smallerNode ≠ 0 →
        ∀ e', (s.blocks b).recs[i - 1]? = some e' → ∀ e'' ∈ (s.blocks e.smallerNode).recs, e'.key < e''.key) ∧
      ((s.blocks b).largerNode ≠ 0 → ∀ e, (s.blocks b).recs[(s.blocks b).recs.length - 1]? = some e →
        ∀ e' ∈ (s.blocks (s.blocks b).largerNode).recs, e.key < e'.key) ∧
      (∀ c ∈ (s.blocks b).links, c ≠ 0 → (s.blocks c).parentNode = (s.blocks b).thisNode)) ↔ Checked s b := by
  constructor
  · intro h
    obtain ⟨h1, h2, h3, h4, h5⟩ := h
    refine ⟨fun i e e' he he' => ?_, fun i e c he hc h0 => ?_, fun i e c he hc h0 => ?_, h5⟩
    · exact h1 (i + 1) (by omega) (List.getElem?_eq_some_iff.mp he').1 e e' (by simpa using he) he'
    · rw [links_getElem? he] at hc
      obtain rfl := Option.some.inj hc
      exact h2 i (Nat.zero_le i) (List.getElem?_eq_some_iff.mp he).1 e he h0
    · have hi := (List.getElem?_eq_some_iff.mp he).1
      by_cases hlast : i + 1 = (s.blocks b).recs.length
      · rw [hlast, links_larger] at hc
        obtain rfl := Option.some.inj hc
        exact h4 h0 e (by rw [← hlast, Nat.add_sub_cancel]; exact he)
      · obtain ⟨e', he'⟩ := recs_getElem? (s := s) (b := b) (i := i + 1) (by omega)
        rw [links_getElem? he'] at hc
        obtain rfl := Option.some.inj hc
        exact h3 (i + 1) (by omega) (by omega) e' he' h0 e (by simpa using he)
  · intro h
    obtain ⟨h1, h2, h3, h4⟩ := h
    refine ⟨fun i hi _ e e' he he' => ?_, fun i _ _ e he h0 => h2 i e _ he (links_getElem? he) h0,
      fun i hi _ e' he' h0 e he => ?_, fun h0 e he => ?_, h4⟩
    · obtain ⟨i, rfl⟩ := Nat.exists_eq_add_of_le' hi
      exact h1 i e e' (by simpa using he) he'
    · obtain ⟨i, rfl⟩ := Nat.exists_eq_add_of_le' hi
      exact h3 i e _ (by simpa using he) (links_getElem? he') h0
    · have hi := (List.getElem?_eq_some_iff.mp he).1
      exact h3 _ e _ he (by rw [Nat.sub_add_cancel (by omega)]; exact links_larger) h0

omit [LinearOrder K] in
/-- At a node with records, and below it. -/
theorem visited_iff (hr : (s.blocks b).recs ≠ []) {P : Nat → Prop} :
    P b ∧ (∀ c ∈ (s.blocks b).links, c ≠ 0 → ∀ d, Visited s c d → P d) ↔ ∀ d, Visited s b d → P d := by
  constructor
  · intro h d hd
    obtain ⟨h1, h2⟩ := h
    cases hd with
    | here => exact h1
    | down _ hc h0 hd => exact h2 _ hc h0 d hd
  · exact fun h => ⟨h b (.here b), fun c hc h0 d hd => h d (.down hr hc h0 hd)⟩

omit [LinearOrder K] in
theorem Judges.smallerChildren {body : Nat → M K R N none Unit} {P : Nat → Prop} (h0 : b ≠ 0)
    (hN : (s.blocks b).recordCount ≤ N)
    (h : ∀ c ∈ (s.blocks b).links, c ≠ 0 → c < s.blockCount ∧ Judges s c (body c) (P c)) :
    Judges s b (Btree.eachRecord b 0 fun i => Btree.smallerChild b i body)
      (∀ i, 0 ≤ i → i < (s.blocks b).recs.length → ∀ e, (s.blocks b).recs[i]? = some e → e.smallerNode ≠ 0 →
        P e.smallerNode) := by
  refine Judges.eachRecord h0 hN fun i _ hi => ?_
  obtain ⟨e, he⟩ := recs_getElem? hi
  exact Judges.smallerChild (C := fun e => P e.smallerNode) h0 he (h _ (List.mem_of_getElem? (links_getElem? he)))

/-! ### The loops of `validate` -/

section Loops
variable (h0 : b ≠ 0) (hN : (s.blocks b).recordCount ≤ N)
  (hchild : ∀ c ∈ (s.blocks b).links, c ≠ 0 → c < s.blockCount ∧ (s.blocks c).recordCount ≤ N)
include h0 hN

theorem ordering_judges : Judges s b (eachRecord b 1 fun i => do
      if (← entry b (i - 1)).key < (← entry b i).key then pure () else throw .entryOrdering)
    (∀ i, 1 ≤ i → i < (s.blocks b).recs.length → ∀ e e' : Entry K R, (s.blocks b).recs[i - 1]? = some e →
      (s.blocks b).recs[i]? = some e' → e.key < e'.key) := by
  refine Judges.eachRecord h0 hN fun i _ hi => ?_
  obtain ⟨e, he⟩ := recs_getElem? (s := s) (b := b) (i := i - 1) (by omega)
  obtain ⟨e', he'⟩ := recs_getElem? hi
  exact Judges.entry h0 he (Judges.entry h0 he' ((Judges.check (.inl rfl)).iff (by simp [he, he'])))

include hchild

theorem smaller_judges : Judges s b (eachRecord b 0 fun i => do
      smallerChild b i fun c => do validateLessThan c (← entry b i).key)
    (∀ i, 0 ≤ i → i < (s.blocks b).recs.length → ∀ e : Entry K R, (s.blocks b).recs[i]? = some e → e.smallerNode ≠ 0 →
      ∀ e' ∈ (s.blocks e.smallerNode).recs, e'.key < e.key) := by
  refine Judges.eachRecord h0 hN fun i _ hi => ?_
  obtain ⟨e, he⟩ := recs_getElem? hi
  refine Judges.smallerChild h0 he fun hc0 => ?_
  obtain ⟨hc, hcN⟩ := hchild _ (List.mem_of_getElem? (links_getElem? he)) hc0
  exact ⟨hc, Judges.entry h0 he (validateLessThan_judges hc0 hcN e.key)⟩

theorem larger_judges : Judges s b (eachRecord b 1 fun i => do
      smallerChild b i fun c => do validateGreaterThan c (← entry b (i - 1)).key)
    (∀ i, 1 ≤ i → i < (s.blocks b).recs.length → ∀ e : Entry K R, (s.blocks b).recs[i]? = some e → e.smallerNode ≠ 0 →
      ∀ e', (s.blocks b).recs[i - 1]? = some e' → ∀ e'' ∈ (s.blocks e.smallerNode).recs, e'.key < e''.key) := by
  refine Judges.eachRecord h0 hN fun i _ hi => ?_
  obtain ⟨e, he⟩ := recs_getElem? (s := s) (b := b) (i := i - 1) (by omega)
  obtain ⟨e', he'⟩ := recs_getElem? hi
  refine Judges.smallerChild h0 he' fun hc0 => ?_
  obtain ⟨hc, hcN⟩ := hchild _ (List.mem_of_getElem? (links_getElem? he')) hc0
  exact ⟨hc, Judges.entry h0 he ((validateGreaterThan_judges hc0 hcN e.key).iff (by simp [he]))⟩

theorem largerNode_judges (hz : (s.blocks b).recordCount ≠ 0) : Judges s b (largerChild b fun c => do
      validateGreaterThan c (← entry b ((s.blocks b).recordCount - 1)).key)
    ((s.blocks b).largerNode ≠ 0 → ∀ e : Entry K R, (s.blocks b).recs[(s.blocks b).recs.length - 1]? = some e →
      ∀ e' ∈ (s.blocks (s.blocks b).largerNode).recs, e.key < e'.key) := by
  have hlen := Node.recs_length hN
  refine Judges.largerChild h0 fun hc0 => ?_
  obtain ⟨hc, hcN⟩ := hchild _ (List.mem_of_getElem? links_larger) hc0
  obtain ⟨e, he⟩ := recs_getElem? (s := s) (b := b) (i := (s.blocks b).recs.length - 1) (by omega)
  refine ⟨hc, ?_⟩
  rw [← hlen]
  exact Judges.entry h0 he ((validateGreaterThan_judges hc0 hcN e.key).iff (by simp [he]))

end Loops

theorem validateFrom_judges {f : Nat} (ha : Allocated s b) (hd : Deep s f b) :
    Judges s b (validateFrom f b) (∀ d, Visited s b d → (s.blocks d).recs ≠ [] → Checked s d) := by
  induction f generalizing b with
  | zero => exact absurd hd not_deep_zero
  | succ f ih =>
    obtain ⟨h0, hb, hN⟩ := ha [] b rfl
    have hlarge : (s.blocks b).largerNode ∈ (s.blocks b).links := List.mem_of_getElem? links_larger
    have hchild : ∀ c ∈ (s.blocks b).links, c ≠ 0 → c < s.blockCount ∧ (s.blocks c).recordCount ≤ N :=
      fun c hc hc0 => ((ha.link hc hc0) [] _ rfl).2
    have hparent : ∀ c ∈ (s.blocks b).links, c ≠ 0 → c < s.blockCount ∧
        Judges s c (do validateParentNode c (← node b).thisNode) ((s.blocks c).parentNode = (s.blocks b).thisNode) :=
      fun c hc hc0 => ⟨(hchild c hc hc0).1, Judges.node h0 fun _ => validateParentNode_judges hc0 _⟩
    have hsub : ∀ c ∈ (s.blocks b).links, c ≠ 0 →
        c < s.blockCount ∧ Judges s c (validateFrom f c) (∀ d, Visited s c d → (s.blocks d).recs ≠ [] → Checked s d) :=
      fun c hc hc0 => ⟨(hchild c hc hc0).1, ih (ha.link hc hc0) (hd.link hc hc0)⟩
    have hlen := Node.recs_length hN
    refine Judges.node h0 fun file => ?_
    by_cases hz : (s.blocks b).recordCount = 0
    · have hr : (s.blocks b).recs = [] := List.length_eq_zero_iff.mp (hlen.trans hz)
      rw [if_pos hz]
      refine Judges.skip.iff ⟨fun _ d hv hd => ?_, fun _ => trivial⟩
      cases hv with
      | here => exact absurd hr hd
      | down hb => exact absurd hr hb
    · have hr : (s.blocks b).recs ≠ [] := fun e => hz (by rw [← hlen, e]; rfl)
      rw [if_neg hz, ← visited_iff hr]
      refine ((ordering_judges h0 hN).seq ((smaller_judges h0 hN hchild).seq ((larger_judges h0 hN hchild).seq
        ((largerNode_judges h0 hN hchild hz).seq ((Judges.smallerChildren h0 hN hparent).seq
          ((Judges.largerChild h0 (hparent _ hlarge)).seq
            ((Judges.smallerChildren h0 hN hsub).seq (Judges.largerChild h0 (hsub _ hlarge))))))))).iff ?_
      have hp := each_link_iff (s := s) (b := b) (P := fun c => (s.blocks c).parentNode = (s.blocks b).thisNode)
      have hv := each_link_iff (s := s) (b := b) (P := fun c => ∀ d, Visited s c d → (s.blocks d).recs ≠ [] →
        Checked s d)
      constructor
      · intro h
        obtain ⟨c1, c2, c3, c4, c5, c6, c7, c8⟩ := h
        exact ⟨fun _ => checked_iff.mp ⟨c1, c2, c3, c4, hp.mp ⟨c5, c6⟩⟩, hv.mp ⟨c7, c8⟩⟩
      · intro h
        obtain ⟨h, h'⟩ := h
        obtain ⟨c1, c2, c3, c4, c5⟩ := checked_iff.mpr (h hr)
        exact ⟨c1, c2, c3, c4, (hp.mpr c5).1, (hp.mpr c5).2, (hv.mpr h').1, (hv.mpr h').2⟩

end Checker

/-- `validate` returns exactly if every node that it compares is in order as far as it
    looks. If not, it throws, and says what is wrong. -/
theorem validate_returns_iff {t : Tree K R N} (h : FiniteTree t) :
    wp Tree.validate
      (fun _ u => (Refreshed t.file u.file ∧ u.root = t.root) ∧ ∀ b, Compared t.file t.root b → Checked t.file b)
      (fun e _ => e.Violation ∧ ¬ ∀ b, Compared t.file t.root b → Checked t.file b) t := by
  unfold Tree.validate Node.validate
  rw [wp_bind, wp_get, wp_onFile, wp_bind, wp_get]
  refine (validateFrom_judges h.allocated h.deep t.file (.refl _) h.held).mono ?_ ?_
  · exact fun _ _ hj => ⟨⟨hj.1, rfl⟩, fun b hb => hj.2 b hb.1 hb.2⟩
  · exact fun _ _ hj => ⟨hj.1, fun hc => hj.2 fun b hv hb => hc b ⟨hv, hb⟩⟩

omit [LinearOrder K] in
theorem Visited.follow {s : File K R N} {b c : Nat} (h : Visited s b c) : ∃ p, follow s b p = some c := by
  induction h with
  | here b => exact ⟨[], rfl⟩
  | down _ hc h0 _ ih =>
    obtain ⟨p, hp⟩ := ih
    obtain ⟨i, hi⟩ := List.mem_iff_getElem?.mp hc
    exact ⟨i :: p, follow_cons.mpr ⟨_, hi, h0, hp⟩⟩

/-- A whole tree passes. A debug build validates the tree after each split of
    `make_room`, where it is whole. -/
theorem Whole.validate_returns {t : Tree K R N} {G : Ghost K} (h : Whole t G) :
    Returns Tree.validate (fun _ u => Refreshed t.file u.file ∧ u.root = t.root) t := by
  have hchecked : ∀ b, Compared t.file t.root b → Checked t.file b := by
    intro b hb
    obtain ⟨p, hp⟩ := hb.1.follow
    have hl : G.live b := (h.follow_live h.shaped.rootLive (by rw [← h.root]; exact hp)).1
    refine ⟨fun i e e' he he' => ?_, fun i e c he hc h0 e' he' => ?_, fun i e c he hc h0 e' he' => ?_,
      fun c hc h0 => ?_⟩
    · obtain ⟨hi, rfl⟩ := List.getElem?_eq_some_iff.mp he
      obtain ⟨hi', rfl⟩ := List.getElem?_eq_some_iff.mp he'
      exact List.pairwise_iff_getElem.mp (h.shaped.ordered b hl).sorted i (i + 1) hi hi' (Nat.lt_succ_self i)
    · exact (h.follow_between hl (p := []) (follow_cons.mpr ⟨c, hc, h0, rfl⟩) he').2 e he
    · exact (h.follow_between hl (p := []) (follow_cons.mpr ⟨c, hc, h0, rfl⟩) he').1 i rfl e he
    · exact (h.link_mem hl hc h0).2.1.trans (h.shaped.this b hl).symm
  exact (validate_returns_iff h.finiteTree).mono (fun _ _ hu => hu.1) fun _ _ he => he.2 hchecked

/-- A tree that the code built passes, and is not touched. -/
theorem run_validate (hN : 3 ≤ N) (raw : Nat → Node K R N) (hz : ZeroFilled raw) (addr : Nat) (ops : List (Op K R)) :
    Tree.validate (run (fresh raw addr) ops) = .ok () (run (fresh raw addr) ops) := by
  obtain ⟨G, h, ht⟩ := run_tidy hN (hz 1).2.2.2.1 addr ops
  generalize run (fresh raw addr) ops = t at h ht
  obtain ⟨_, u, hu, href, hroot⟩ := h.toWhole.validate_returns.run
  have hut : u = t := by
    obtain ⟨f, r⟩ := u
    obtain rfl : r = t.root := hroot
    obtain rfl : f = t.file := href.eq ht.held
    rfl
  rw [hu, hut]

/-! ## What it leaves out -/

/-- Of what `validate` does not look at, nothing is wrong. -/
structure RestOk (t : Tree K R N) : Prop where
  /-- `this_node_` is the number of the node, where `validate` reads it. -/
  number : ∀ b, Compared t.file t.root b → (∃ c ∈ (t.file.blocks b).links, c ≠ 0) → (t.file.blocks b).thisNode = b
  /-- The edges on either side of a record, below their first node. -/
  above : ∀ b, Compared t.file t.root b → ∀ (i : Nat) (e : Entry K R) (c d : Nat), (t.file.blocks b).recs[i]? = some e →
    (t.file.blocks b).links[i]? = some c → RightEdge t.file c d → d ≠ c → ∀ e' ∈ (t.file.blocks d).recs, e'.key < e.key
  below : ∀ b, Compared t.file t.root b → ∀ (i : Nat) (e : Entry K R) (c d : Nat), (t.file.blocks b).recs[i]? = some e →
    (t.file.blocks b).links[i + 1]? = some c → LeftEdge t.file c d → d ≠ c → ∀ e' ∈ (t.file.blocks d).recs,
      e.key < e'.key
  /-- A node without records, and all below it. -/
  skipped : ∀ p b, follow t.file t.root p = some b → ¬ Compared t.file t.root b →
    InOrder t.file b ∧ ∀ c ∈ (t.file.blocks b).links, c ≠ 0 → (t.file.blocks c).parentNode = b

theorem Checked.sorted {s : File K R N} {b : Nat} (h : Checked s b) : (s.blocks b).recs.Pairwise (·.key < ·.key) := by
  have : (s.blocks b).recs.IsChain (·.key < ·.key) := by
    rw [List.isChain_iff_getElem]
    intro i hi
    exact h.increasing i _ _ (List.getElem?_eq_getElem _) (List.getElem?_eq_getElem hi)
  exact List.isChain_iff_pairwise.mp this

theorem validate_complete_iff {t u : Tree K R N} (h : FiniteTree t) (hv : Tree.validate t = .ok () u) :
    ((inorder t.file t.file.blockCount t.root).Pairwise (· < ·) ∧
      ∀ p b, follow t.file t.root p = some b → ∀ c ∈ (t.file.blocks b).links, c ≠ 0 →
        (t.file.blocks c).parentNode = b) ↔
    RestOk t := by
  have hc := ((wp_ok hv).mp (validate_returns_iff h)).2
  rw [inorder_sorted_iff (h.allocated [] _ rfl).1 h.deep]
  constructor
  · intro h
    obtain ⟨h1, h2⟩ := h
    have hat : ∀ b, Compared t.file t.root b → ∃ p, follow t.file t.root p = some b := fun b hb => hb.1.follow
    refine ⟨?_, ?_, ?_, fun p b hp _ => ⟨h1 p b hp, h2 p b hp⟩⟩
    · intro b hb hl
      obtain ⟨c, hl, h0⟩ := hl
      obtain ⟨p, hp⟩ := hat b hb
      rw [← (hc b hb).parent c hl h0, h2 p b hp c hl h0]
    · intro b hb i e c d he hl hd _
      obtain ⟨p, hp⟩ := hat b hb
      exact (h1 p b hp).above i e c d he hl hd
    · intro b hb i e c d he hl hd _
      obtain ⟨p, hp⟩ := hat b hb
      exact (h1 p b hp).below i e c d he hl hd
  · intro hr
    have hnode : ∀ p b, follow t.file t.root p = some b →
        InOrder t.file b ∧ ∀ c ∈ (t.file.blocks b).links, c ≠ 0 → (t.file.blocks c).parentNode = b := by
      intro p b hp
      by_cases hb : Compared t.file t.root b
      · refine ⟨⟨(hc b hb).sorted, fun i e c d he hl hd => ?_, fun i e c d he hl hd => ?_⟩, fun c hl h0 => ?_⟩
        · by_cases e1 : d = c
          · subst e1
            exact (hc b hb).above i e d he hl hd.ne
          · exact hr.above b hb i e c d he hl hd e1
        · by_cases e1 : d = c
          · subst e1
            exact (hc b hb).below i e d he hl hd.ne
          · exact hr.below b hb i e c d he hl hd e1
        · rw [(hc b hb).parent c hl h0, hr.number b hb ⟨c, hl, h0⟩]
      · exact hr.skipped p b hp hb
    exact ⟨fun p b hp => (hnode p b hp).1, fun p b hp => (hnode p b hp).2⟩

/-- On a tree of two levels. -/
theorem validate_complete_four :
    let t := run (fresh (zeroed 0 0 : Nat → Node Nat Nat 3) 7) [.insert 1 10, .insert 2 20, .insert 3 30, .insert 4 40]
    ((inorder t.file t.file.blockCount t.root).Pairwise (· < ·) ∧
      ∀ p b, follow t.file t.root p = some b → ∀ c ∈ (t.file.blocks b).links, c ≠ 0 →
        (t.file.blocks c).parentNode = b) ↔
    RestOk t := by
  intro t
  have hz := zeroed_zeroFilled (N := 3) (0 : Nat) (0 : Nat)
  obtain ⟨G, h, -⟩ := run_tidy (Nat.le_refl 3) (hz 1).2.2.2.1 7
    [Op.insert 1 10, .insert 2 20, .insert 3 30, .insert 4 40]
  exact validate_complete_iff h.toWhole.finiteTree (run_validate (Nat.le_refl 3) _ hz 7 _)

/-- Key 10 over key 5 over key 20: each is on the right side of its parent, and 20 is
    left of 10. -/
def astray : Tree Nat Nat 3 where
  root := 1
  file :=
    { addr := 7
      blockCount := 4
      os := []
      blocks := fun b =>
        match b with
        | 1 => ⟨7, 1, 0, 0, 1, #v[⟨2, 10, 0⟩, ⟨0, 0, 0⟩, ⟨0, 0, 0⟩]⟩
        | 2 => ⟨7, 2, 1, 3, 1, #v[⟨0, 5, 0⟩, ⟨0, 0, 0⟩, ⟨0, 0, 0⟩]⟩
        | 3 => ⟨7, 3, 2, 0, 1, #v[⟨0, 20, 0⟩, ⟨0, 0, 0⟩, ⟨0, 0, 0⟩]⟩
        | _ => zeroed 0 0 b }

theorem astray_passes : FiniteTree astray ∧ (∃ u, Tree.validate astray = .ok () u) ∧
    ¬ (inorder astray.file astray.file.blockCount astray.root).Pairwise (· < ·) := by
  refine ⟨.of_rank (· ∈ [1, 2, 3]) (4 - ·) (by decide) rfl (by decide), ?_, by decide +kernel⟩
  have h : Returns Tree.validate (fun _ _ => True) astray := by decide +kernel
  obtain ⟨_, u, hu, -⟩ := h.run
  exact ⟨u, hu⟩

end Dumbnose.Btree
