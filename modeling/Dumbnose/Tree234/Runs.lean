/-
  Dumbnose.Tree234.Runs — a tree through any sequence of calls.

  Beside the tree stands what it is for: a list, kept in the order of the comparison if
  there is one. `List234.step` says what each call returns and what becomes of the list, in
  lists only; it is blocked where the header forbids the call (an index beyond the count
  for `addpos234`, a search in an unsorted tree, a NULL for another relation than LT and
  GT), and where a new element would make 2 ^ 31 of them, which no `int` counts. Whatever
  calls the list allows, the tree returns the same (`run_refines`): the code never reads
  outside a node or through a NULL, and never fails an assertion.

  In between, the tree is a 2-3-4 tree with its height bounded both ways and every count
  an `int` (`run_shape`), and no node is lost or freed twice, up to `freetree234`
  (`run_freed`).
-/

import Dumbnose.Lib.Runs
import Dumbnose.Tree234.Delete

namespace Dumbnose.Tree234

open Node Lib.Compare Lib.Runs

variable {α : Type}

/-! ## Calls -/

inductive Call (α : Type) where
  | add (e : α)
  | addpos (e : α) (index : Int)
  | del (e : α)
  | delpos (index : Int)
  | index (i : Int)
  | count
  | findrelpos (e : Option α) (relation : Relation)

/-- What a call returns. -/
inductive Seen (α : Type) where
  | elem (e : Option α)
  | number (n : Int)
  | place (r : Option (α × Int))

/-- `add234`. -/
def Tree.add (t : Tree α) (e : α) : Option (Option α × Tree α) :=
  if t.cmp.isNone then some (none, t) else t.addInternal e (-1)

/-- `addpos234`. -/
def Tree.addpos (t : Tree α) (e : α) (index : Int) : Option (Option α × Tree α) :=
  if index < 0 ∨ t.cmp.isSome then some (none, t) else t.addInternal e index

def Tree.step : Step (Tree α) (Call α) (Seen α) := fun t call =>
  match call with
  | .add e => (t.add e).map fun r => (r.2, [.elem r.1])
  | .addpos e index => (t.addpos e index).map fun r => (r.2, [.elem r.1])
  | .del e => (t.del e).map fun r => (r.2, [.elem r.1])
  | .delpos index => (t.delpos index).map fun r => (r.2, [.elem r.1])
  | .index i => some (t, [.elem (t.index i)])
  | .count => some (t, [.number t.count])
  | .findrelpos e relation => (t.findrelpos e none relation).map fun r => (t, [.place r])

/-- `freetree234`: the nodes, and all that was freed before. -/
def Tree.freetree (t : Tree α) : List Nat := t.heap.freed ++ t.root.freenode

/-! ## The list -/

namespace List234

/-- The nearest of those that stand in the relation. -/
def nearest (relation : Relation) (f : α → Int) (l : List α) : Option (α × Int) :=
  let fits := l.zipIdx.filter fun x => relation.Fits (f x.1)
  let x := if relation = .lt ∨ relation = .le then fits.getLast? else fits.head?
  x.map fun x => (x.1, (x.2 : Int))

def compared (cmp : Option (α → α → Int)) (e : Option α) (relation : Relation) : Option (α → Int) :=
  (Tree.new cmp).compared e none relation

def step (cmp : Option (α → α → Int)) : Step (List α) (Call α) (Seen α) := fun l call =>
  match call, cmp with
  | .add _, none => some (l, [.elem none])
  | .add e, some c =>
    match l.find? fun x => c e x = 0 with
    | some x => some (l, [.elem (some x)])
    | none =>
      if l.length + 1 < 2 ^ 31 then
        some ((l.filter fun x => 0 < c e x) ++ e :: (l.filter fun x => c e x < 0), [.elem (some e)])
      else none
  | .addpos _ _, some _ => some (l, [.elem none])
  | .addpos e index, none =>
    if index < 0 then some (l, [.elem none])
    else if index ≤ l.length ∧ l.length + 1 < 2 ^ 31 then some (l.insertIdx index.toNat e, [.elem (some e)])
    else none
  | .del _, none => none
  | .del e, some c => some (l.filter fun x => c e x ≠ 0, [.elem (l.find? fun x => c e x = 0)])
  | .delpos index, _ =>
    if 0 ≤ index then some (l.eraseIdx index.toNat, [.elem l[index.toNat]?]) else some (l, [.elem none])
  | .index i, _ => some (l, [.elem (if 0 ≤ i then l[i.toNat]? else none)])
  | .count, _ => some (l, [.number l.length])
  | .findrelpos e relation, cmp => (compared cmp e relation).map fun f => (l, [.place (nearest relation f l)])

section Length
variable {cmp : Option (α → α → Int)} {l l' : List α} {call : Call α} {calls : List (Call α)} {seen : List (Seen α)}

theorem length_sides (f : α → Int) (l : List α) :
    (l.filter fun x => 0 < f x).length + (l.filter fun x => f x < 0).length ≤ l.length := by
  have hsub : (l.filter fun x => f x < 0).length ≤ (l.filter fun x => !decide (0 < f x)).length :=
    (List.monotone_filter_right l fun x hx => by simpa using (of_decide_eq_true hx).le).length_le
  have hsum := List.length_eq_length_filter_add (l := l) fun x => 0 < f x
  omega

theorem step_length (hst : step cmp l call = some (l', seen)) (hl : l.length < 2 ^ 31) : l'.length < 2 ^ 31 := by
  cases call with
  | add e =>
    cases cmp with
    | none =>
      cases hst
      exact hl
    | some c =>
      dsimp only [step] at hst
      split at hst
      · cases hst
        exact hl
      · obtain ⟨hlt, hst⟩ := Option.ite_none_right_eq_some.mp hst
        cases hst
        have := length_sides (c e) l
        rw [List.length_append, List.length_cons]
        omega
  | addpos e index =>
    cases cmp with
    | some c =>
      cases hst
      exact hl
    | none =>
      dsimp only [step] at hst
      split at hst
      · cases hst
        exact hl
      · obtain ⟨⟨-, hlt⟩, hst⟩ := Option.ite_none_right_eq_some.mp hst
        cases hst
        exact List.length_insertIdx_le_succ.trans_lt hlt
  | del e =>
    cases cmp with
    | none => cases hst
    | some c =>
      cases hst
      exact (List.length_filter_le _ _).trans_lt hl
  | delpos index =>
    have hl' : l' = l ∨ l' = l.eraseIdx index.toNat := by
      cases cmp <;> dsimp only [step] at hst <;> split at hst <;> cases hst <;> simp
    rcases hl' with rfl | rfl
    · exact hl
    · exact (List.length_eraseIdx_le _ _).trans_lt hl
  | index i =>
    cases hst
    exact hl
  | count =>
    cases hst
    exact hl
  | findrelpos e relation =>
    obtain ⟨f, -, hst⟩ := Option.map_eq_some_iff.mp hst
    cases hst
    exact hl

/-- The list never has more elements than an `int` counts. -/
theorem length_lt (he : exec (step cmp) [] calls = some (l, seen)) : l.length < 2 ^ 31 := by
  refine (reach_of_exec calls he).inv (I := fun l _ => l.length < 2 ^ 31) (by simp) ?_
  intro l seen call l' o hl hst
  exact step_length hst hl

end Length

end List234

section Nearest
variable {f : α → Int} {l : List α} {relation : Relation}

/-- The nearest is what a search should find. -/
theorem meets_nearest : Meets relation f l (List234.nearest relation f l) := by
  have hmem : ∀ x : α × Nat, x ∈ (l.zipIdx.filter fun x => relation.Fits (f x.1)) ↔
      l[x.2]? = some x.1 ∧ relation.Fits (f x.1) := by
    intro x
    rw [List.mem_filter, List.mem_zipIdx_iff_getElem?, decide_eq_true_iff]
  have hsort : (l.zipIdx.filter fun x => relation.Fits (f x.1)).Pairwise fun x y => x.2 < y.2 := by
    refine List.Pairwise.filter _ ?_
    rw [← List.pairwise_map (f := Prod.snd) (R := fun i j => i < j), List.zipIdx_map_snd]
    exact List.pairwise_lt_range'
  unfold List234.nearest
  dsimp only
  generalize (l.zipIdx.filter fun x => relation.Fits (f x.1)) = fits at hmem hsort
  have hnone : fits = [] → ∀ x ∈ l, ¬ relation.Fits (f x) := by
    rintro rfl x hx hfit
    obtain ⟨i, hi⟩ := List.getElem?_of_mem hx
    cases (hmem (x, i)).mpr ⟨hi, hfit⟩
  by_cases hr : relation = .lt ∨ relation = .le
  · rw [if_pos hr]
    rcases List.eq_nil_or_concat' fits with he | ⟨init, x, rfl⟩
    · rw [he]
      exact hnone he
    · rw [List.getLast?_append, List.getLast?_singleton, Option.some_or]
      obtain ⟨hx, hfit⟩ := (hmem x).mp (by simp)
      refine ⟨x.2, rfl, hx, hfit, fun j y hy hfy => ?_⟩
      have hj : j ≤ x.2 := by
        rcases List.mem_append.mp ((hmem (y, j)).mpr ⟨hy, hfy⟩) with h | h
        · exact ((List.pairwise_append.mp hsort).2.2 _ h x (by simp)).le
        · exact (congrArg Prod.snd (List.mem_singleton.mp h)).le
      rcases hr with rfl | rfl <;> exact hj
  · rw [if_neg hr]
    cases fits with
    | nil => exact hnone rfl
    | cons x rest =>
      obtain ⟨hx, hfit⟩ := (hmem x).mp List.mem_cons_self
      refine ⟨x.2, rfl, hx, hfit, fun j y hy hfy => ?_⟩
      have hj : x.2 ≤ j := by
        rcases List.mem_cons.mp ((hmem (y, j)).mpr ⟨hy, hfy⟩) with h | h
        · rw [← h]
        · exact ((List.pairwise_cons.mp hsort).1 _ h).le
      cases relation with
      | eq => trivial
      | lt => exact absurd (.inl rfl) hr
      | le => exact absurd (.inr rfl) hr
      | gt => exact hj
      | ge => exact hj

end Nearest

/-! ## One call -/

/-- The tree and the list beside it. -/
structure Beside (cmp : Option (α → α → Int)) (t : Tree α) (l : List α) : Prop where
  holds : Holds t l
  cmp_eq : t.cmp = cmp
  sorted : ∀ c, cmp = some c → Sorted c l

section Call
variable {cmp : Option (α → α → Int)} {t : Tree α} {l l' : List α} {seen : List (Seen α)}

theorem beside_new (cmp : Option (α → α → Int)) : Beside cmp (Tree.new cmp) [] :=
  ⟨holds_new cmp, rfl, fun _ _ => .nil⟩

theorem Beside.addpos (hb : Beside cmp t l) {e : α} {index : Int}
    (hst : List234.step cmp l (.addpos e index) = some (l', seen)) :
    ∃ t', Tree.step t (.addpos e index) = some (t', seen) ∧ Beside cmp t' l' := by
  cases cmp with
  | some c =>
    cases hst
    refine ⟨t, ?_, hb⟩
    simp only [Tree.step, Tree.addpos, hb.cmp_eq]
    rw [if_pos (.inr rfl)]
    rfl
  | none =>
    by_cases h0 : index < 0
    · simp only [List234.step, if_pos h0, Option.some.injEq, Prod.mk.injEq] at hst
      obtain ⟨rfl, rfl⟩ := hst
      refine ⟨t, ?_, hb⟩
      simp only [Tree.step, Tree.addpos]
      rw [if_pos (.inl h0)]
      rfl
    · by_cases h1 : index ≤ l.length ∧ l.length + 1 < 2 ^ 31
      · simp only [List234.step, if_neg h0, if_pos h1, Option.some.injEq, Prod.mk.injEq] at hst
        obtain ⟨rfl, rfl⟩ := hst
        obtain ⟨t', ha, ht', hcmp⟩ := hb.holds.addInternal_index e (by omega) h1.1
        refine ⟨t', ?_, ht', hcmp.trans hb.cmp_eq, fun c h => by cases h⟩
        simp only [Tree.step, Tree.addpos, hb.cmp_eq]
        rw [if_neg (by simpa using h0), ha]
        rfl
      · simp only [List234.step, if_neg h0, if_neg h1, reduceCtorEq] at hst

/-- In a sorted list the one that compares equal is found, and without it the others are left. -/
theorem find_filter {c : α → α → Int} (hc : Lawful c) (hs : Sorted c l) {e x : α} {i : Nat} (hx : l[i]? = some x)
    (hz : c e x = 0) : l.find? (fun x => c e x = 0) = some x ∧ l.filter (fun x => c e x ≠ 0) = l.eraseIdx i := by
  have huniq : ∀ {j y}, l[j]? = some y → c e y = 0 → i = j := fun hy h => zero_unique (hs.single hc e) hx hy hz h
  constructor
  · obtain ⟨y, hy⟩ : ∃ y, l.find? (fun x => c e x = 0) = some y :=
      Option.isSome_iff_exists.mp (List.find?_isSome.mpr ⟨x, List.mem_of_getElem? hx, by simpa using hz⟩)
    obtain ⟨j, hj⟩ := List.getElem?_of_mem (List.mem_of_find?_eq_some hy)
    obtain rfl := huniq hj (by simpa using List.find?_some hy)
    rw [hy, ← hx, ← hj]
  · refine Sorted.ext hc (hs.sublist List.filter_sublist) (hs.sublist (List.eraseIdx_sublist _ _)) fun y => ?_
    rw [List.mem_filter, List.mem_eraseIdx_iff_getElem?]
    constructor
    · rintro ⟨hy, hne⟩
      obtain ⟨j, hj⟩ := List.getElem?_of_mem hy
      refine ⟨j, ?_, hj⟩
      rintro rfl
      rw [hx] at hj
      cases hj
      simp [hz] at hne
    · rintro ⟨j, hji, hj⟩
      refine ⟨List.mem_of_getElem? hj, ?_⟩
      simpa using fun h => hji (huniq hj h).symm

variable (hlaw : ∀ c, cmp = some c → Lawful c)
include hlaw

theorem Beside.add (hb : Beside cmp t l) {e : α} (hst : List234.step cmp l (.add e) = some (l', seen)) :
    ∃ t', Tree.step t (.add e) = some (t', seen) ∧ Beside cmp t' l' := by
  have ht := hb.holds
  cases cmp with
  | none =>
    cases hst
    refine ⟨t, ?_, hb⟩
    simp only [Tree.step, Tree.add, hb.cmp_eq]
    rfl
  | some c =>
    have hs := hb.sorted c rfl
    have hc := hlaw c rfl
    have hadd : Tree.step t (.add e) = (t.addInternal e (-1)).map fun r => (r.2, [.elem r.1]) := by
      simp only [Tree.step, Tree.add, hb.cmp_eq]
      rfl
    rw [hadd]
    rcases ht.addInternal_cmp hb.cmp_eq (hs.falls hc e) with ⟨x, ha, hx, hz⟩ | ⟨t', a, b, ha, hl, hpos, hneg, ht', hcmp⟩
    · obtain ⟨i, hi⟩ := List.getElem?_of_mem hx
      simp only [List234.step, (find_filter hc hs hi hz).1, Option.some.injEq, Prod.mk.injEq] at hst
      obtain ⟨rfl, rfl⟩ := hst
      rw [ha]
      exact ⟨t, rfl, hb⟩
    · subst hl
      have hf : (a ++ b).find? (fun x => c e x = 0) = none := by
        rw [List.find?_eq_none]
        intro x hx
        rcases List.mem_append.mp hx with hx | hx
        · simpa using (hpos x hx).ne'
        · simpa using (hneg x hx).ne
      have hfa : (a ++ b).filter (fun x => 0 < c e x) = a := by
        rw [List.filter_append, List.filter_eq_self.mpr (by simpa using hpos),
          List.filter_eq_nil_iff.mpr fun x hx => by simpa using (hneg x hx).le, List.append_nil]
      have hfb : (a ++ b).filter (fun x => c e x < 0) = b := by
        rw [List.filter_append, List.filter_eq_nil_iff.mpr fun x hx => by simpa using (hpos x hx).le,
          List.filter_eq_self.mpr (by simpa using hneg), List.nil_append]
      obtain ⟨-, rfl, rfl⟩ : (a ++ b).length + 1 < 2 ^ 31 ∧ a ++ e :: b = l' ∧ [.elem (some e)] = seen := by
        simpa only [List234.step, hf, hfa, hfb, Option.ite_none_right_eq_some, Option.some.injEq,
          Prod.mk.injEq] using hst
      rw [ha]
      refine ⟨t', rfl, ht', hcmp.trans hb.cmp_eq, fun c' h => ?_⟩
      cases h
      exact hs.insert hc hpos hneg

theorem Beside.del (hb : Beside cmp t l) {e : α} (hst : List234.step cmp l (.del e) = some (l', seen)) :
    ∃ t', Tree.step t (.del e) = some (t', seen) ∧ Beside cmp t' l' := by
  cases cmp with
  | none => cases hst
  | some c =>
    have hs := hb.sorted c rfl
    have hc := hlaw c rfl
    simp only [List234.step, Option.some.injEq, Prod.mk.injEq] at hst
    obtain ⟨rfl, rfl⟩ := hst
    rcases hb.holds.del hb.cmp_eq (hs.falls hc e) with ⟨hd, hne⟩ | ⟨i, x, t', hd, hx, hz, ht', hcmp⟩
    · have hf : l.find? (fun x => c e x = 0) = none := by
        rw [List.find?_eq_none]
        intro x hx
        simpa using hne x hx
      have hfl : l.filter (fun x => c e x ≠ 0) = l := List.filter_eq_self.mpr (by simpa using hne)
      rw [hf, hfl]
      refine ⟨t, ?_, hb⟩
      simp only [Tree.step, hd]
      rfl
    · obtain ⟨hf, hfl⟩ := find_filter hc hs hx hz
      rw [hf, hfl]
      refine ⟨t', by simp only [Tree.step, hd]; rfl, ht', hcmp.trans hb.cmp_eq, fun c' h => ?_⟩
      cases h
      exact hs.sublist (List.eraseIdx_sublist _ _)

theorem Beside.findrelpos (hb : Beside cmp t l) {e : Option α} {relation : Relation}
    (hst : List234.step cmp l (.findrelpos e relation) = some (l', seen)) :
    ∃ t', Tree.step t (.findrelpos e relation) = some (t', seen) ∧ Beside cmp t' l' := by
  obtain ⟨f, hf, hl⟩ := Option.map_eq_some_iff.mp hst
  cases hl
  have hcf : t.compared e none relation = some f := by
    rw [← hf]
    unfold List234.compared Tree.compared
    rw [hb.cmp_eq]
    rfl
  obtain ⟨h1, h2⟩ : Falls f l ∧ l.Pairwise fun x y => f x = 0 → f y ≠ 0 := by
    unfold Tree.compared at hcf
    rw [hb.cmp_eq] at hcf
    cases e with
    | some e =>
      obtain ⟨c, hc, rfl⟩ := Option.map_eq_some_iff.mp hcf
      exact ⟨(hb.sorted c hc).falls (hlaw c hc) e, (hb.sorted c hc).single (hlaw c hc) e⟩
    | none =>
      obtain ⟨k, hk, rfl⟩ : ∃ k : Int, k ≠ 0 ∧ f = fun _ => k := by
        dsimp only at hcf
        split at hcf
        · exact ⟨1, by decide, (Option.some.inj hcf).symm⟩
        · split at hcf
          · exact ⟨-1, by decide, (Option.some.inj hcf).symm⟩
          · cases hcf
      exact ⟨List.pairwise_of_forall fun _ _ => ⟨id, id⟩, List.pairwise_of_forall fun _ _ _ => hk⟩
  obtain ⟨r, hr, hm⟩ := hb.holds.findrelpos hcf h1 (.inr h2)
  refine ⟨t, ?_, hb⟩
  simp only [Tree.step, hr]
  rw [hm.unique meets_nearest fun _ => h2]
  rfl

/-- Whatever call the list allows, the tree returns the same. -/
theorem Beside.step (hb : Beside cmp t l) {call : Call α} (hst : List234.step cmp l call = some (l', seen)) :
    ∃ t', Tree.step t call = some (t', seen) ∧ Beside cmp t' l' := by
  cases call with
  | add e => exact hb.add hlaw hst
  | addpos e index => exact hb.addpos hst
  | del e => exact hb.del hlaw hst
  | delpos index =>
    obtain ⟨t', hd, ht', hcmp⟩ := hb.holds.delpos index
    have hst' : List234.step cmp l (.delpos index) = some (if 0 ≤ index then l.eraseIdx index.toNat else l,
        [.elem (if 0 ≤ index then l[index.toNat]? else none)]) := by
      cases cmp <;> simp only [List234.step] <;> split <;> rfl
    rw [hst'] at hst
    cases hst
    refine ⟨t', by simp only [Tree.step, hd]; rfl, ht', hcmp.trans hb.cmp_eq, fun c h => ?_⟩
    split
    · exact (hb.sorted c h).sublist (List.eraseIdx_sublist _ _)
    · exact hb.sorted c h
  | index i =>
    cases hst
    exact ⟨t, by rw [Tree.step, hb.holds.index], hb⟩
  | count =>
    cases hst
    exact ⟨t, by rw [Tree.step, hb.holds.count], hb⟩
  | findrelpos e relation => exact hb.findrelpos hlaw hst

end Call

/-! ## All runs -/

section Run
variable {cmp : Option (α → α → Int)} {calls : List (Call α)} {t : Tree α} {l : List α} {seen seen' : List (Seen α)}

theorem beside_run (hlaw : ∀ c, cmp = some c → Lawful c)
    (he : exec (List234.step cmp) [] calls = some (l, seen)) :
    ∃ t, exec Tree.step (Tree.new cmp) calls = some (t, seen) ∧ Beside cmp t l := by
  refine exec_refines (Beside cmp) ?_ calls (beside_new cmp) he
  intro t l call l' seen hb hst
  exact hb.step hlaw hst

theorem beside_of_run (hlaw : ∀ c, cmp = some c → Lawful c)
    (he : exec (List234.step cmp) [] calls = some (l, seen))
    (ht : exec Tree.step (Tree.new cmp) calls = some (t, seen')) : Beside cmp t l := by
  obtain ⟨t', ht', hb⟩ := beside_run hlaw he
  rw [ht] at ht'
  cases ht'
  exact hb

/-- Whatever is called, as far as the header allows it, the tree answers as the list does,
    and has the elements of the list in its order. -/
theorem run_refines (hlaw : ∀ c, cmp = some c → Lawful c)
    (he : exec (List234.step cmp) [] calls = some (l, seen)) :
    ∃ t, exec Tree.step (Tree.new cmp) calls = some (t, seen) ∧ t.root.toList = l := by
  obtain ⟨t, ht, hb⟩ := beside_run hlaw he
  exact ⟨t, ht, hb.holds.list⟩

theorem run_refines_ints : ∃ t, exec Tree.step (Tree.new (some fun a b : Int => a - b))
    [.add 3, .add 1, .add 2, .add 3, .findrelpos (some 2) .gt, .del 1, .delpos 5, .count] =
      some (t, [.elem (some 3), .elem (some 1), .elem (some 2), .elem (some 3), .place (some (3, 2)), .elem (some 1),
        .elem none, .number 2]) ∧ t.root.toList = [2, 3] :=
  run_refines (by rintro _ ⟨⟩; exact lawful_sub) rfl

/-- At any time the tree is a 2-3-4 tree, its height is logarithmic in the count, and what
    it counts fits into its `int`s. -/
theorem run_shape (hlaw : ∀ c, cmp = some c → Lawful c) (he : exec (List234.step cmp) [] calls = some (l, seen))
    (ht : exec Tree.step (Tree.new cmp) calls = some (t, seen')) :
    ∃ h, Good 0 h t.root ∧ 2 ^ h ≤ l.length + 1 ∧ l.length + 1 ≤ 4 ^ h ∧ t.root.Ints ∧ t.count < 2 ^ 31 := by
  have hb := beside_of_run hlaw he ht
  have hlen := List234.length_lt he
  obtain ⟨h, hg⟩ := hb.holds.good
  obtain ⟨hlow, hhigh⟩ := hg.size_bounds
  have hints := hg.ints (by rwa [hb.holds.list])
  have hcount := hb.holds.count
  rw [hb.holds.list] at hlow hhigh
  exact ⟨h, hg, hlow, hhigh, hints, by omega⟩

theorem run_shape_ints : ∃ (t : Tree Int) (seen : List (Seen Int)) (h : Nat),
    exec Tree.step (Tree.new none) [.addpos 7 0, .addpos 5 0, .addpos 6 1, .addpos 9 3, .delpos 0] = some (t, seen) ∧
      Good 0 h t.root ∧ 2 ^ h ≤ 4 ∧ 4 ≤ 4 ^ h ∧ t.root.Ints ∧ t.count < 2 ^ 31 := by
  have hlaw : ∀ c : Int → Int → Int, none = some c → Lawful c := fun c h => by cases h
  have he : exec (List234.step (none : Option (Int → Int → Int))) []
      [.addpos 7 0, .addpos 5 0, .addpos 6 1, .addpos 9 3, .delpos 0] = some ([6, 7, 9], _) := rfl
  obtain ⟨t, ht, -⟩ := beside_run hlaw he
  obtain ⟨h, hg⟩ := run_shape hlaw he ht
  exact ⟨t, _, h, ht, hg⟩

/-- Nothing is freed twice, and in the end nothing is left. -/
theorem run_freed (hlaw : ∀ c, cmp = some c → Lawful c) (he : exec (List234.step cmp) [] calls = some (l, seen))
    (ht : exec Tree.step (Tree.new cmp) calls = some (t, seen')) :
    (∀ a, t.heap.freed.count a + t.root.cells a ≤ 1) ∧
      ∀ a, t.freetree.count a = if 0 < a ∧ a < t.heap.next then 1 else 0 := by
  have hb := beside_of_run hlaw he ht
  constructor
  · intro a
    have := hb.holds.nodes a
    split at this <;> omega
  · intro a
    rw [← hb.holds.nodes a, Tree.freetree, List.count_append, count_freenode, Nat.add_comm]

theorem run_freed_ints : ∃ (t : Tree Int) (seen : List (Seen Int)),
    exec Tree.step (Tree.new (some fun a b : Int => a - b)) [.add 4, .add 2, .add 6, .add 8, .del 4] = some (t, seen) ∧
      (∀ a, t.heap.freed.count a + t.root.cells a ≤ 1) ∧
      ∀ a, t.freetree.count a = if 0 < a ∧ a < t.heap.next then 1 else 0 := by
  have hlaw : ∀ c : Int → Int → Int, some (fun a b : Int => a - b) = some c → Lawful c := by
    rintro _ ⟨⟩
    exact lawful_sub
  have he : exec (List234.step (some fun a b : Int => a - b)) [] [.add 4, .add 2, .add 6, .add 8, .del 4] =
      some ([2, 6, 8], _) := rfl
  obtain ⟨t, ht, -⟩ := beside_run hlaw he
  exact ⟨t, _, ht, run_freed hlaw he ht⟩

end Run

end Dumbnose.Tree234
