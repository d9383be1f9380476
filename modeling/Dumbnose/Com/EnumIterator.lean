/-
  Dumbnose.Com.EnumIterator — `com_enum_iterator`, whose copies share a COM enumerator
  (`com_enum_iterator.hpp`).

  An enumerator has the elements of its container, all of the interface that the iterator
  is of, and how many it has yielded; `Next` at the end yields nothing, and the variant
  stays empty. An iterator has its current value, null at the end, and points at the
  enumerator. One pass visits the elements in order (`traverse_ofContainer`).

  A copy has a value of its own and the same enumerator: what one copy fetches no other
  sees. Beside it stands the iterator alone, with an enumerator that nobody else moves
  (`Alone`). A third reading of the calls only counts increments (`Journal`), those of an
  iterator and those of anyone with its enumerator. As long as no iterator is incremented
  after one that shares its enumerator was, each has the value it would have alone; and
  where the objects are different, no longer than that (`alike_iff`).
-/

import Dumbnose.Lib.Splits
import Mathlib.Data.List.Nodup
import Mathlib.Logic.Function.Basic

namespace Dumbnose.Com.EnumIterator

variable {V : Type}

/-- An `IEnumVARIANT`. -/
structure Enumerator (V : Type) where
  elements : List V
  fetched : Nat
  fetched_le : fetched ≤ elements.length

/-- `Next(1, &temp, &fetched)`: what `temp` is then. -/
def Enumerator.next (e : Enumerator V) : Option V × Enumerator V :=
  match h : e.elements[e.fetched]? with
  | none => (none, e)
  | some v => (some v, ⟨e.elements, e.fetched + 1, (List.getElem?_eq_some_iff.mp h).1⟩)

/-- Before anything is fetched. -/
def Enumerator.of (elements : List V) : Enumerator V := ⟨elements, 0, Nat.zero_le _⟩

/-- What `container->get__newEnum` gives. -/
inductive Container (V : Type) where
  | fails (hr : Int)
  /-- Something that is no `IEnumVARIANT`. -/
  | other
  | enumerates (elements : List V)

inductive Err where
  | couldNotGet (hr : Int)
  | couldNotCast
  deriving DecidableEq, Repr

def Err.what : Err → String
  | .couldNotGet _ => "Could not get enumerator"
  | .couldNotCast => "Could not cast enumerator"

/-- `increment`, of an iterator with this enumerator: `value_`, and what is left. -/
def increment (value : Option V) (enumerator : Enumerator V) : Option V × Enumerator V :=
  let value := if value.isSome then none else value
  match enumerator.next with
  | (some punkVal, enumerator) => (some punkVal, enumerator)
  | (none, enumerator) => (value, enumerator)

/-- `com_enum_iterator(container)`. -/
def ofContainer (container : Container V) : Except Err (Option V × Enumerator V) :=
  match container with
  | .fails hr => .error (.couldNotGet hr)
  | .other => .error .couldNotCast
  | .enumerates elements => .ok (increment none (.of elements))

def equal [DecidableEq V] (value other : Option V) : Bool := value = other

/-! ## One pass -/

/-- `for(; it != com_enum_iterator(); ++it)`, at most `n` rounds of it: what it visits. -/
def traverse [DecidableEq V] : Nat → Option V → Enumerator V → Option (List V)
  | 0, _, _ => none
  | n + 1, value, enumerator =>
    if equal value none then some []
    else
      let (next, enumerator) := increment value enumerator
      (traverse n next enumerator).map (value.toList ++ ·)

theorem increment_eq (value : Option V) (e : Enumerator V) : increment value e = e.next := by
  have hnull : (if value.isSome then none else value) = none := by cases value <;> rfl
  unfold increment
  rw [hnull]
  rcases e.next with ⟨temp, e'⟩
  cases temp <;> rfl

theorem next_of_lt (e : Enumerator V) (h : e.fetched < e.elements.length) :
    e.next = (some e.elements[e.fetched], ⟨e.elements, e.fetched + 1, h⟩) := by
  unfold Enumerator.next
  split
  · next hn => simp [List.getElem?_eq_getElem h] at hn
  · next v hv =>
    rw [List.getElem?_eq_getElem h] at hv
    rw [Option.some.inj hv]

theorem next_of_eq (e : Enumerator V) (h : e.fetched = e.elements.length) : e.next = (none, e) := by
  unfold Enumerator.next
  split
  · rfl
  · next v hv => simp [h] at hv

/-- What is left is visited. -/
theorem traverse_next [DecidableEq V] (e : Enumerator V) (n : Nat) (hn : e.elements.length - e.fetched < n) :
    traverse n e.next.1 e.next.2 = some (e.elements.drop e.fetched) := by
  induction n generalizing e with
  | zero => omega
  | succ n ih =>
    unfold traverse
    rcases Nat.lt_or_eq_of_le e.fetched_le with h | h
    · rw [next_of_lt e h, increment_eq, List.drop_eq_getElem_cons h]
      have := ih ⟨e.elements, e.fetched + 1, h⟩ (show e.elements.length - (e.fetched + 1) < n by omega)
      simp [equal, this]
    · rw [next_of_eq e h, h]
      simp [equal]

/-- From `com_enum_iterator(container)` to `com_enum_iterator()`. -/
theorem traverse_ofContainer [DecidableEq V] (elements : List V) {n : Nat} (hn : elements.length < n) :
    ∃ value enumerator, ofContainer (.enumerates elements) = .ok (value, enumerator) ∧
      traverse n value enumerator = some elements := by
  refine ⟨(increment none (.of elements)).1, (increment none (.of elements)).2, rfl, ?_⟩
  rw [increment_eq]
  exact traverse_next (.of elements) n hn

/-! ## Copies -/

structure Iterator (V : Type) where
  /-- Which enumerator; none of a default-constructed iterator. -/
  enumerator : Option Nat
  value : Option V

inductive Call (V : Type) where
  | construct
  | ofContainer (container : Container V)
  | copy (other : Nat)
  | assign (target other : Nat)
  | increment (target : Nat)

/-- Iterators and enumerators, by number. -/
structure Process (V : Type) where
  iterators : Nat → Iterator V
  built : Nat
  enumerators : Nat → Enumerator V
  opened : Nat

namespace Process

def build (s : Process V) (it : Iterator V) : Process V :=
  { s with iterators := Function.update s.iterators s.built it, built := s.built + 1 }

def exec (s : Process V) : Call V → Process V
  | .construct => s.build ⟨none, none⟩
  | .ofContainer container =>
    match ofContainer container with
    | .error _ => s
    | .ok (value, enumerator) =>
      { s.build ⟨some s.opened, value⟩ with
        enumerators := Function.update s.enumerators s.opened enumerator
        opened := s.opened + 1 }
  | .copy other => s.build (s.iterators other)
  | .assign target other => { s with iterators := Function.update s.iterators target (s.iterators other) }
  | .increment target =>
    match (s.iterators target).enumerator with
    -- `operator->` of a null pointer throws
    | none => s
    | some k =>
      let (value, enumerator) := EnumIterator.increment (s.iterators target).value (s.enumerators k)
      { s with
        iterators := Function.update s.iterators target ⟨some k, value⟩
        enumerators := Function.update s.enumerators k enumerator }

def run (s : Process V) : List (Call V) → Process V
  | [] => s
  | c :: cs => run (s.exec c) cs

def start : Process V := ⟨fun _ => ⟨none, none⟩, 0, fun _ => .of [], 0⟩

end Process

/-! ## Each iterator alone -/

/-- An iterator and an enumerator that is its own. -/
structure Lone (V : Type) where
  enumerator : Option (Enumerator V)
  value : Option V

structure Alone (V : Type) where
  iterators : Nat → Lone V
  built : Nat

namespace Alone

def build (t : Alone V) (it : Lone V) : Alone V :=
  { t with iterators := Function.update t.iterators t.built it, built := t.built + 1 }

def exec (t : Alone V) : Call V → Alone V
  | .construct => t.build ⟨none, none⟩
  | .ofContainer container =>
    match ofContainer container with
    | .error _ => t
    | .ok (value, enumerator) => t.build ⟨some enumerator, value⟩
  | .copy other => t.build (t.iterators other)
  | .assign target other => { t with iterators := Function.update t.iterators target (t.iterators other) }
  | .increment target =>
    match (t.iterators target).enumerator with
    | none => t
    | some e =>
      let (value, enumerator) := EnumIterator.increment (t.iterators target).value e
      { t with iterators := Function.update t.iterators target ⟨some enumerator, value⟩ }

def run (t : Alone V) : List (Call V) → Alone V
  | [] => t
  | c :: cs => run (t.exec c) cs

def start : Alone V := ⟨fun _ => ⟨none, none⟩, 0⟩

end Alone

/-! ## What the calls say -/

/-- The increments in an iterator's past, with those of what it was copied from and the
    constructor's own. -/
structure Past where
  enumerator : Option Nat
  increments : Nat

/-- The increments of all iterators of an enumerator. -/
structure Drawn (V : Type) where
  elements : List V
  increments : Nat

structure Journal (V : Type) where
  iterators : Nat → Past
  built : Nat
  enumerators : Nat → Drawn V
  opened : Nat

namespace Journal

def build (j : Journal V) (past : Past) : Journal V :=
  { j with iterators := Function.update j.iterators j.built past, built := j.built + 1 }

def exec (j : Journal V) : Call V → Journal V
  | .construct => j.build ⟨none, 0⟩
  | .ofContainer (.enumerates elements) =>
    { j.build ⟨some j.opened, 1⟩ with
      enumerators := Function.update j.enumerators j.opened ⟨elements, 1⟩
      opened := j.opened + 1 }
  | .ofContainer _ => j
  | .copy other => j.build (j.iterators other)
  | .assign target other => { j with iterators := Function.update j.iterators target (j.iterators other) }
  | .increment target =>
    match (j.iterators target).enumerator with
    | none => j
    | some k =>
      { j with
        iterators := Function.update j.iterators target ⟨some k, (j.iterators target).increments + 1⟩
        enumerators := Function.update j.enumerators k
          ⟨(j.enumerators k).elements, (j.enumerators k).increments + 1⟩ }

def run (j : Journal V) : List (Call V) → Journal V
  | [] => j
  | c :: cs => run (j.exec c) cs

def start : Journal V := ⟨fun _ => ⟨none, 0⟩, 0, fun _ => ⟨[], 0⟩, 0⟩

/-- Where an iterator is incremented, none that shares its enumerator was since they
    were at one place; or it is at the last object anyway. -/
def Unmoved (j : Journal V) (c : Call V) : Prop :=
  ∀ i k, c = .increment i → (j.iterators i).enumerator = some k →
    (j.enumerators k).increments = (j.iterators i).increments ∨
      (j.enumerators k).elements.length ≤ (j.iterators i).increments

/-- The container has the same object at the place of the iterator and at that of the
    enumerator. -/
def Coincides (j : Journal V) (c : Call V) : Prop :=
  ∀ i k, c = .increment i → (j.iterators i).enumerator = some k →
    (j.enumerators k).elements[(j.enumerators k).increments]? =
      (j.enumerators k).elements[(j.iterators i).increments]?

end Journal

/-! ## An iterator and its like -/

/-- After `n` calls of `Next`. -/
def Enumerator.After (e : Enumerator V) (elements : List V) (n : Nat) : Prop :=
  e.elements = elements ∧ e.fetched = min n elements.length

theorem Enumerator.After.next {e : Enumerator V} {elements : List V} {n : Nat} (h : e.After elements n) :
    e.next.1 = elements[n]? ∧ e.next.2.After elements (n + 1) := by
  obtain ⟨rfl, hf⟩ := h
  rcases Nat.lt_or_ge n e.elements.length with hn | hn
  · rw [Nat.min_eq_left (Nat.le_of_lt hn)] at hf
    subst hf
    rw [next_of_lt e hn]
    exact ⟨(List.getElem?_eq_getElem hn).symm, rfl, (Nat.min_eq_left hn).symm⟩
  · rw [Nat.min_eq_right hn] at hf
    rw [next_of_eq e hf, List.getElem?_eq_none hn]
    exact ⟨rfl, rfl, by rw [hf, Nat.min_eq_right (Nat.le_succ_of_le hn)]⟩

theorem Enumerator.after_of (elements : List V) : (Enumerator.of elements).After elements 0 :=
  ⟨rfl, (Nat.zero_min _).symm⟩

section Steps
variable {s : Process V} {t : Alone V} {j : Journal V}

/-- One sees the same as the other. -/
def Alike (s : Process V) (t : Alone V) : Prop := ∀ i, (s.iterators i).value = (t.iterators i).value

/-- An iterator beside the one alone, and the increments in its past. -/
structure Twin (opened : Nat) (drawn : Nat → Drawn V) (it : Iterator V) (l : Lone V) (past : Past) : Prop where
  sharing : it.enumerator = past.enumerator
  lone : Option.Rel (fun k e => k < opened ∧ e.After (drawn k).elements past.increments ∧
    past.increments ≤ (drawn k).increments) past.enumerator l.enumerator

structure Tracks (s : Process V) (t : Alone V) (j : Journal V) : Prop where
  built : s.built = j.built ∧ t.built = j.built
  opened : s.opened = j.opened
  shared : ∀ k, k < j.opened → (s.enumerators k).After (j.enumerators k).elements (j.enumerators k).increments
  twins : ∀ i, Twin j.opened j.enumerators (s.iterators i) (t.iterators i) (j.iterators i)

/-- Increments of others change nothing of that, nor do enumerators made later. -/
theorem Twin.mono {opened opened' : Nat} {drawn drawn' : Nat → Drawn V} {it : Iterator V} {l : Lone V} {past : Past}
    (h : Twin opened drawn it l past) (ho : opened ≤ opened') (he : ∀ k, k < opened →
      (drawn' k).elements = (drawn k).elements ∧ (drawn k).increments ≤ (drawn' k).increments) :
    Twin opened' drawn' it l past := by
  refine ⟨h.sharing, ?_⟩
  have hr := h.lone
  cases hp : past.enumerator with
  | none =>
    rw [hp] at hr
    cases hl : l.enumerator with
    | none => exact .none
    | some e => rw [hl] at hr; cases hr
  | some k =>
    rw [hp] at hr
    cases hl : l.enumerator with
    | none => rw [hl] at hr; cases hr
    | some e =>
      rw [hl] at hr
      obtain ⟨hk, ha, hle⟩ := Option.rel_some_some.mp hr
      obtain ⟨h1, h2⟩ := he k hk
      exact .some ⟨Nat.lt_of_lt_of_le hk ho, h1 ▸ ha, Nat.le_trans hle h2⟩

/-- One iterator of each is another one, the rest stay. -/
theorem twins_update {opened : Nat} {drawn : Nat → Drawn V} {its : Nat → Iterator V} {ls : Nat → Lone V}
    {pasts : Nat → Past} (h : ∀ i, Twin opened drawn (its i) (ls i) (pasts i)) (i : Nat) {it : Iterator V} {l : Lone V}
    {past : Past} (hn : Twin opened drawn it l past) (m : Nat) :
    Twin opened drawn (Function.update its i it m) (Function.update ls i l m) (Function.update pasts i past m) := by
  by_cases e : m = i
  · subst e
    rwa [Function.update_self, Function.update_self, Function.update_self]
  · rw [Function.update_of_ne e, Function.update_of_ne e, Function.update_of_ne e]
    exact h m

theorem alike_update {its : Nat → Iterator V} {ls : Nat → Lone V} (h : ∀ i, (its i).value = (ls i).value) (i : Nat)
    {it : Iterator V} {l : Lone V} (hn : it.value = l.value) (m : Nat) :
    (Function.update its i it m).value = (Function.update ls i l m).value := by
  by_cases e : m = i
  · subst e
    rwa [Function.update_self, Function.update_self]
  · rw [Function.update_of_ne e, Function.update_of_ne e]
    exact h m

theorem Tracks.build (h : Tracks s t j) {it : Iterator V} {l : Lone V} {past : Past}
    (hn : Twin j.opened j.enumerators it l past) : Tracks (s.build it) (t.build l) (j.build past) := by
  refine ⟨⟨congrArg (· + 1) h.built.1, congrArg (· + 1) h.built.2⟩, h.opened, h.shared, ?_⟩
  have := twins_update h.twins j.built hn
  simpa only [Process.build, Alone.build, Journal.build, h.built.1, h.built.2] using this

theorem Alike.build (ha : Alike s t) (h : Tracks s t j) {it : Iterator V} {l : Lone V} (hn : it.value = l.value) :
    Alike (s.build it) (t.build l) := by
  have := alike_update ha j.built hn
  simp only [Alike, Process.build, Alone.build, h.built.1, h.built.2]
  exact this

/-- The first object is fetched by the constructor. -/
theorem Tracks.ofContainer (h : Tracks s t j) (elements : List V) :
    Tracks (s.exec (.ofContainer (.enumerates elements))) (t.exec (.ofContainer (.enumerates elements)))
      (j.exec (.ofContainer (.enumerates elements))) := by
  have hnext := (Enumerator.after_of elements).next.2
  rw [← increment_eq none] at hnext
  have hb := h.built
  have ho := h.opened
  refine ⟨⟨congrArg (· + 1) hb.1, congrArg (· + 1) hb.2⟩, congrArg (· + 1) ho, fun k hk => ?_, ?_⟩
  · show (Function.update s.enumerators s.opened _ k).After (Function.update j.enumerators j.opened _ k).elements
      (Function.update j.enumerators j.opened _ k).increments
    rw [ho]
    by_cases e : k = j.opened
    · subst e
      rw [Function.update_self, Function.update_self]
      exact hnext
    · rw [Function.update_of_ne e, Function.update_of_ne e]
      exact h.shared k (Nat.lt_of_le_of_ne (Nat.le_of_lt_succ hk) e)
  · have hold : ∀ i, Twin (j.opened + 1) (Function.update j.enumerators j.opened ⟨elements, 1⟩) (s.iterators i)
        (t.iterators i) (j.iterators i) := fun i => by
      refine (h.twins i).mono (Nat.le_succ _) fun k hk => ?_
      rw [Function.update_of_ne (Nat.ne_of_lt hk)]
      exact ⟨rfl, Nat.le_refl _⟩
    have hnew : Twin (j.opened + 1) (Function.update j.enumerators j.opened ⟨elements, 1⟩)
        ⟨some j.opened, (increment none (.of elements)).1⟩
        ⟨some (increment none (.of elements)).2, (increment none (.of elements)).1⟩ ⟨some j.opened, 1⟩ := by
      refine ⟨rfl, .some ⟨Nat.lt_succ_self _, ?_⟩⟩
      rw [Function.update_self]
      exact ⟨hnext, Nat.le_refl _⟩
    have := twins_update hold j.built hnew
    simpa only [Process.exec, Alone.exec, Journal.exec, Process.build, Alone.build, Journal.build, hb.1, hb.2, ho,
      EnumIterator.ofContainer] using this

/-- The iterator that is incremented has an enumerator here and alone, or in neither. -/
theorem Tracks.twin (h : Tracks s t j) (i : Nat) :
    (s.iterators i).enumerator = none ∧ (t.iterators i).enumerator = none ∧ (j.iterators i).enumerator = none ∨
    ∃ k e, (s.iterators i).enumerator = some k ∧ (t.iterators i).enumerator = some e ∧
      (j.iterators i).enumerator = some k ∧ k < j.opened ∧
      e.After (j.enumerators k).elements (j.iterators i).increments ∧
      (j.iterators i).increments ≤ (j.enumerators k).increments := by
  have hs := (h.twins i).sharing
  have hr := (h.twins i).lone
  cases hj : (j.iterators i).enumerator with
  | none =>
    rw [hj] at hs hr
    cases ht : (t.iterators i).enumerator with
    | none => exact .inl ⟨hs, rfl, rfl⟩
    | some e => rw [ht] at hr; cases hr
  | some k =>
    rw [hj] at hs hr
    cases ht : (t.iterators i).enumerator with
    | none => rw [ht] at hr; cases hr
    | some e =>
      rw [ht] at hr
      cases hr with
      | some hr => exact .inr ⟨k, e, hs, rfl, rfl, hr⟩

theorem Tracks.increment (h : Tracks s t j) (i : Nat) :
    Tracks (s.exec (.increment i)) (t.exec (.increment i)) (j.exec (.increment i)) := by
  rcases h.twin i with ⟨hs, ht, hj⟩ | ⟨k, e, hs, ht, hj, hk, hafter, hle⟩
  · simpa only [Process.exec, Alone.exec, Journal.exec, hs, ht, hj] using h
  have hshared := (h.shared k hk).next.2
  have hmono : ∀ m, (Function.update j.enumerators k
      ⟨(j.enumerators k).elements, (j.enumerators k).increments + 1⟩ m).elements = (j.enumerators m).elements ∧
      (j.enumerators m).increments ≤ (Function.update j.enumerators k
        ⟨(j.enumerators k).elements, (j.enumerators k).increments + 1⟩ m).increments := by
    intro m
    by_cases em : m = k
    · subst em
      rw [Function.update_self]
      exact ⟨rfl, Nat.le_succ _⟩
    · rw [Function.update_of_ne em]
      exact ⟨rfl, Nat.le_refl _⟩
  simp only [Process.exec, Alone.exec, Journal.exec, hs, ht, hj, increment_eq]
  refine ⟨h.built, h.opened, fun m hm => ?_, ?_⟩
  · by_cases em : m = k
    · subst em
      simpa only [Function.update_self] using hshared
    · simpa only [Function.update_of_ne em] using h.shared m hm
  · refine twins_update (fun m => (h.twins m).mono (Nat.le_refl _) fun m _ => hmono m) i ⟨rfl, .some ⟨hk, ?_⟩⟩
    rw [Function.update_self]
    exact ⟨hafter.next.2, Nat.succ_le_succ hle⟩

theorem Tracks.exec (h : Tracks s t j) (c : Call V) : Tracks (s.exec c) (t.exec c) (j.exec c) := by
  cases c with
  | construct => exact h.build ⟨rfl, .none⟩
  | ofContainer container =>
    cases container with
    | fails hr => exact h
    | other => exact h
    | enumerates elements => exact h.ofContainer elements
  | copy other => exact h.build (h.twins other)
  | assign target other => exact ⟨h.built, h.opened, h.shared, twins_update h.twins target (h.twins other)⟩
  | increment i => exact h.increment i

/-- An increment yields the object at the place of the enumerator; the other calls keep
    the values. -/
theorem Tracks.exec_alike (h : Tracks s t j) (ha : Alike s t) (c : Call V) :
    Alike (s.exec c) (t.exec c) ↔ j.Coincides c := by
  cases c with
  | construct => exact iff_of_true (ha.build h rfl) fun i k e => by cases e
  | ofContainer container =>
    refine iff_of_true ?_ fun i k e => by cases e
    cases container with
    | fails hr => exact ha
    | other => exact ha
    | enumerates elements =>
      have hv : ∀ v e, (⟨some s.opened, v⟩ : Iterator V).value = (⟨some e, v⟩ : Lone V).value := fun _ _ => rfl
      exact ha.build h (hv _ _)
  | copy other => exact iff_of_true (ha.build h (ha other)) fun i k e => by cases e
  | assign target other => exact iff_of_true (alike_update ha target (ha other)) fun i k e => by cases e
  | increment i =>
    rcases h.twin i with ⟨hs, ht, hj⟩ | ⟨k, e, hs, ht, hj, hk, hafter, -⟩
    · refine iff_of_true ?_ fun i' k' e hj' => ?_
      · simpa only [Process.exec, Alone.exec, hs, ht] using ha
      · cases e
        rw [hj] at hj'
        cases hj'
    · have hiff : Alike (s.exec (.increment i)) (t.exec (.increment i)) ↔
          (s.enumerators k).next.1 = e.next.1 := by
        simp only [Process.exec, Alone.exec, hs, ht, increment_eq]
        refine ⟨fun ha' => ?_, fun heq => alike_update ha i heq⟩
        have := ha' i
        simpa only [Function.update_self] using this
      rw [hiff, (h.shared k hk).next.1, hafter.next.1]
      refine ⟨fun heq i' k' e' hj' => ?_, fun hc => hc i k rfl hj⟩
      cases e'
      obtain rfl := Option.some.inj (hj.symm.trans hj')
      exact heq

theorem Tracks.coincides_of_unmoved (h : Tracks s t j) {c : Call V} (hu : j.Unmoved c) : j.Coincides c := by
  intro i k e hj
  rcases hu i k e hj with heq | hend
  · rw [heq]
  · rcases h.twin i with ⟨-, -, hj'⟩ | ⟨k', -, -, -, hj', -, -, hle⟩
    · rw [hj] at hj'
      cases hj'
    · obtain rfl := Option.some.inj (hj.symm.trans hj')
      rw [List.getElem?_eq_none hend, List.getElem?_eq_none (Nat.le_trans hend hle)]

end Steps

/-- Different objects are at different places. -/
theorem Journal.unmoved_of_coincides {j : Journal V} (hn : ∀ k, (j.enumerators k).elements.Nodup) {c : Call V}
    (hc : j.Coincides c) : j.Unmoved c := by
  intro i k e hj
  rcases Nat.lt_or_ge (j.iterators i).increments (j.enumerators k).elements.length with hlt | hge
  · exact .inl ((List.getElem?_inj hlt (hn k)).mp (hc i k e hj).symm).symm
  · exact .inr hge

/-! ## Runs -/

theorem start_tracks : Tracks (.start : Process V) .start .start :=
  ⟨⟨rfl, rfl⟩, rfl, fun _ hk => absurd hk (Nat.not_lt_zero _), fun _ => ⟨rfl, .none⟩⟩

theorem run_snoc (s : Process V) (p : List (Call V)) (c : Call V) : s.run (p ++ [c]) = (s.run p).exec c :=
  Lib.Splits.run_concat Process.exec (fun _ => rfl) (fun _ _ _ => rfl) s p c

theorem alone_snoc (t : Alone V) (p : List (Call V)) (c : Call V) : t.run (p ++ [c]) = (t.run p).exec c :=
  Lib.Splits.run_concat Alone.exec (fun _ => rfl) (fun _ _ _ => rfl) t p c

theorem journal_snoc (j : Journal V) (p : List (Call V)) (c : Call V) : j.run (p ++ [c]) = (j.run p).exec c :=
  Lib.Splits.run_concat Journal.exec (fun _ => rfl) (fun _ _ _ => rfl) j p c

/-- The containers of a run yield different objects. -/
def Distinct (calls : List (Call V)) : Prop :=
  ∀ elements, Call.ofContainer (.enumerates elements) ∈ calls → elements.Nodup

theorem Journal.nodup_run {j : Journal V} {p : List (Call V)} (hp : Distinct p)
    (hn : ∀ k, (j.enumerators k).elements.Nodup) (k : Nat) : ((j.run p).enumerators k).elements.Nodup := by
  induction p generalizing j with
  | nil => exact hn k
  | cons c p ih =>
    refine ih (fun elements h => hp elements (List.mem_cons_of_mem _ h)) fun m => ?_
    cases c with
    | construct => exact hn m
    | copy other => exact hn m
    | assign target other => exact hn m
    | ofContainer container =>
      cases container with
      | fails hr => exact hn m
      | other => exact hn m
      | enumerates elements =>
        show (Function.update j.enumerators j.opened _ m).elements.Nodup
        by_cases e : m = j.opened
        · subst e
          rw [Function.update_self]
          exact hp elements List.mem_cons_self
        · rw [Function.update_of_ne e]
          exact hn m
    | increment i =>
      cases hj : (j.iterators i).enumerator with
      | none => simpa only [Journal.exec, hj] using hn m
      | some k =>
        simp only [Journal.exec, hj]
        by_cases e : m = k
        · subst e
          rw [Function.update_self]
          exact hn m
        · rw [Function.update_of_ne e]
          exact hn m

theorem alike_iff_coincides (calls : List (Call V)) :
    (∀ p, p <+: calls → Alike (Process.start.run p) (Alone.start.run p)) ↔
      ∀ p c, p ++ [c] <+: calls → (Journal.start.run p).Coincides c := by
  refine Lib.Splits.forall_run_iff (fun p => (Process.start.run p, Alone.start.run p, Journal.start.run p))
    (fun st c => (st.1.exec c, st.2.1.exec c, st.2.2.exec c))
    (fun p c => Prod.ext (run_snoc _ p c) (Prod.ext (alone_snoc _ p c) (journal_snoc _ p c)))
    (I := fun st => Tracks st.1 st.2.1 st.2.2 ∧ Alike st.1 st.2.1) ⟨start_tracks, fun _ => rfl⟩
    (T := fun st => Alike st.1 st.2.1) (B := fun st => st.2.2.Coincides) ?_ ?_ ?_ calls
  · intro st h
    exact h.2
  · intro st c h hc
    exact ⟨h.1.exec c, (h.1.exec_alike h.2 c).mpr hc⟩
  · intro st c h hc ha
    exact hc ((h.1.exec_alike h.2 c).mp ha)

theorem run_tracks (p : List (Call V)) :
    Tracks (Process.start.run p) (Alone.start.run p) (Journal.start.run p) := by
  induction p using List.reverseRecOn with
  | nil => exact start_tracks
  | append_singleton p c ih =>
    rw [run_snoc, alone_snoc, journal_snoc]
    exact ih.exec c

/-- One pass is always right. The copies see what they would see alone as long as no
    iterator is incremented after one that shares its enumerator was, or the container
    happens to have the same object at both places; and where the objects of each container
    are different, exactly in the runs in which no iterator is. -/
theorem alike_iff [DecidableEq V] (calls : List (Call V)) :
    (∀ elements : List V, ∀ n, elements.length < n → ∃ value enumerator,
      ofContainer (.enumerates elements) = .ok (value, enumerator) ∧ traverse n value enumerator = some elements) ∧
    ((∀ p, p <+: calls → Alike (Process.start.run p) (Alone.start.run p)) ↔
      ∀ p c, p ++ [c] <+: calls → (Journal.start.run p).Unmoved c ∨ (Journal.start.run p).Coincides c) ∧
    (Distinct calls → ((∀ p, p <+: calls → Alike (Process.start.run p) (Alone.start.run p)) ↔
      ∀ p c, p ++ [c] <+: calls → (Journal.start.run p).Unmoved c)) := by
  refine ⟨fun elements n hn => traverse_ofContainer elements hn, ?_, fun hd => ?_⟩
  · rw [alike_iff_coincides]
    refine ⟨fun h p c hp => .inr (h p c hp), fun h p c hp => ?_⟩
    rcases h p c hp with hu | hc
    · exact (run_tracks p).coincides_of_unmoved hu
    · exact hc
  · rw [alike_iff_coincides]
    refine ⟨fun h p c hp => Journal.unmoved_of_coincides ?_ (h p c hp), fun h p c hp => ?_⟩
    · have hpre : p <+: calls := Lib.Splits.prefix_of_snoc hp
      exact Journal.nodup_run (fun elements h => hd elements (hpre.subset h)) fun _ => List.nodup_nil
    · exact (run_tracks p).coincides_of_unmoved (h p c hp)

/-- A copy that is assigned anew before its turn goes on from there. -/
theorem alike_iff_reassigned :
    ∀ p, p <+: [Call.ofContainer (.enumerates [1, 2, 3]), .copy 0, .increment 0, .assign 1 0, .increment 1] →
      Alike (Process.start.run p) (Alone.start.run p) := by
  refine ((alike_iff [Call.ofContainer (.enumerates [1, 2, 3]), .copy 0, .increment 0, .assign 1 0,
    .increment 1]).2.2 fun elements he => ?_).mpr ?_
  · obtain rfl : elements = [1, 2, 3] := by simpa using he
    decide
  · simp only [Lib.Splits.forall_step_cons]
    refine ⟨?_, ?_, ?_, ?_, ?_, Lib.Splits.forall_step_nil⟩
    · exact fun i k e => by cases e
    · exact fun i k e => by cases e
    · intro i k e hk
      cases e
      cases hk
      exact .inl rfl
    · exact fun i k e => by cases e
    · intro i k e hk
      cases e
      cases hk
      exact .inl rfl

/-- Of three elements the copy never sees the second. -/
theorem copy_skips :
    ((Process.start.run
      [.ofContainer (.enumerates [1, 2, 3]), .copy 0, .increment 0, .increment 1]).iterators 1).value = some 3 ∧
    ¬ ∀ p, p <+: [Call.ofContainer (.enumerates [1, 2, 3]), .copy 0, .increment 0, .increment 1] →
      Alike (Process.start.run p) (Alone.start.run p) := by
  refine ⟨rfl, fun h => ?_⟩
  have := h _ (List.prefix_refl _) 1
  cases this

end Dumbnose.Com.EnumIterator
