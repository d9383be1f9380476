/-
  Dumbnose.Options.Queries — what asking for options does to the answers.

  All queries share the one map of the singleton, and looking an option up inserts it
  with an empty value if it is not there. That shows to whoever asks later whether the
  option exists, under any spelling, and to whoever reads the map; looking it up once more
  gives the empty value either way.

  A conversion makes something of the value alone, be it a value or an exception: what it
  makes is a parameter. `unchanged_iff`: the answers are those straight after parsing as
  long as no query sees a name that only a lookup has put there.
-/

import Dumbnose.Lib.Splits
import Dumbnose.Options.CmdlineOptions

namespace Dumbnose.Options

open Strings

/-- Which conversion of a `cmdline_option`: `as<T>` and `operator T`, or `operator alt_string_t`. -/
inductive Conversion (T : Type) where
  | as (result : T)
  | altString

inductive Query (T : Type) where
  | optionExists (name : WString)
  | option (name : WString)
  | options
  | operatorBool (name : WString)
  | convert (conversion : Conversion T) (name : WString)

inductive Answer (X : Type) where
  | bool (b : Bool)
  | text (s : WString)
  | map (m : OptionMap)
  | made (x : X)

variable {T X : Type} (fold : UInt16 → UInt16) (make : Conversion T → WString → X)

def Query.exec (o : CmdlineOptions) : Query T → Answer X × CmdlineOptions
  | .optionExists name => (.bool (o.optionExists fold name), o)
  | .option name => (.text (o.option fold name).1, (o.option fold name).2)
  | .options => (.map o.options, o)
  | .operatorBool name => (.bool (o.optionExists fold name), o)
  | .convert conversion name => (.made (make conversion (o.option fold name).1), (o.option fold name).2)

def run (o : CmdlineOptions) : List (Query T) → CmdlineOptions
  | [] => o
  | q :: qs => run (q.exec fold make o).2 qs

def results (o : CmdlineOptions) : List (Query T) → List (Answer X)
  | [] => []
  | q :: qs => (q.exec fold make o).1 :: results (q.exec fold make o).2 qs

/-- Every query answers as it would have straight after parsing, and exactly the names
    given exist. -/
structure Unchanged (argv : List WString) (qs : List (Query T)) : Prop where
  answers : results fold make (construct fold argv) qs = qs.map fun q => (q.exec fold make (construct fold argv)).1
  given : ∀ p name, p ++ [.optionExists name] <+: qs ∨ p ++ [.operatorBool name] <+: qs →
    ((run fold make (construct fold argv) p).optionExists fold name = true ↔ Given fold argv name)

/-- The name that a query looks up. -/
def Query.lookup : Query T → Option WString
  | .option name => some name
  | .convert _ name => some name
  | _ => none

/-- The answer tells whether the map has this name. -/
def Query.Sees (q : Query T) (name : WString) : Prop :=
  q = .options ∨ ∃ other, Same fold other name ∧ (q = .optionExists other ∨ q = .operatorBool other)

/-- No query sees a name that was not given and was looked up before. -/
def Undisturbed (argv : List WString) (qs : List (Query T)) : Prop :=
  ∀ p q, p ++ [q] <+: qs → ∀ l ∈ p, ∀ name ∈ l.lookup, ¬ Given fold argv name → ¬ q.Sees fold name

/-! ## What the queries before have done -/

/-- The options after the queries `p`: those of `o`, and the names looked up. -/
structure After (o : CmdlineOptions) (p : List (Query T)) (s : CmdlineOptions) : Prop where
  old : ∀ k ∈ o.options, s.options[k]? = o.options[k]?
  new : ∀ k, k ∉ o.options → ∀ entry, s.options[k]? = some entry → entry.2 = []
  mem : ∀ k, k ∈ s.options ↔ k ∈ o.options ∨ ∃ l ∈ p, ∃ name ∈ l.lookup, folded fold name = k

variable {fold} {make} {o s : CmdlineOptions} {p : List (Query T)}

theorem After.nil : After fold o ([] : List (Query T)) o := by
  refine ⟨fun _ _ => rfl, fun k hk entry he => ?_, fun k => by simp⟩
  rw [Std.ExtTreeMap.getElem?_eq_none hk] at he
  cases he

/-- A name is there after it is looked up, with the value it had. -/
theorem getElem?_subscript (m : OptionMap) (name k : WString) :
    (subscript fold m name).2[k]? =
      if folded fold name = k ∧ k ∉ m then some (name, []) else m[k]? := by
  unfold subscript
  cases hm : m[folded fold name]? with
  | some entry =>
    have hin : folded fold name ∈ m := by rw [Std.ExtTreeMap.mem_iff_isSome_getElem?, hm]; rfl
    rw [if_neg fun h => h.2 (h.1 ▸ hin)]
  | none =>
    have hout : folded fold name ∉ m := by rw [Std.ExtTreeMap.mem_iff_isSome_getElem?, hm]; simp
    by_cases e : folded fold name = k
    · subst e
      simp [hout]
    · rw [if_neg fun h => e h.1]
      simp [Std.ExtTreeMap.getElem?_insert, e]

theorem After.exec (h : After fold o p s) (q : Query T) : After fold o (p ++ [q]) (q.exec fold make s).2 := by
  -- only a lookup writes
  have hskip : q.lookup = none → After fold o (p ++ [q]) s := by
    intro hq
    refine ⟨h.old, h.new, fun k => ?_⟩
    rw [h.mem]
    simp [hq]
  have hlook : ∀ name, q.lookup = some name → After fold o (p ++ [q]) (s.option fold name).2 := by
    intro name hq
    have hget : ∀ k, (s.option fold name).2.options[k]? =
        if folded fold name = k ∧ k ∉ s.options then some (name, []) else s.options[k]? :=
      getElem?_subscript s.options name
    refine ⟨fun k hk => ?_, fun k hk entry he => ?_, fun k => ?_⟩
    · exact (hget k).trans ((if_neg fun hn => hn.2 ((h.mem k).mpr (.inl hk))).trans (h.old k hk))
    · rw [hget] at he
      by_cases e : folded fold name = k ∧ k ∉ s.options
      · rw [if_pos e] at he
        rw [← Option.some.inj he]
      · rw [if_neg e] at he
        exact h.new k hk entry he
    · have hsnoc : (∃ l ∈ p ++ [q], ∃ n ∈ l.lookup, folded fold n = k) ↔
          (∃ l ∈ p, ∃ n ∈ l.lookup, folded fold n = k) ∨ folded fold name = k := by
        simp only [List.mem_append, List.mem_singleton, or_and_right, exists_or, exists_eq_left, hq,
          Option.mem_some_iff]
        rw [exists_eq_left']
      rw [hsnoc, ← or_assoc, ← h.mem, Std.ExtTreeMap.mem_iff_isSome_getElem?, hget]
      by_cases e : folded fold name = k ∧ k ∉ s.options
      · rw [if_pos e]
        simp [e.1]
      · rw [if_neg e, ← Std.ExtTreeMap.mem_iff_isSome_getElem?]
        tauto
  cases q with
  | optionExists name => exact hskip rfl
  | operatorBool name => exact hskip rfl
  | options => exact hskip rfl
  | option name => exact hlook name rfl
  | convert conversion name => exact hlook name rfl

/-! ## The answers -/

theorem After.value (h : After fold o p s) (name : WString) : (s.option fold name).1 = (o.option fold name).1 := by
  show (subscript fold s.options name).1 = (subscript fold o.options name).1
  unfold subscript
  by_cases hk : folded fold name ∈ o.options
  · rw [h.old _ hk]
    cases o.options[folded fold name]? <;> rfl
  · rw [Std.ExtTreeMap.getElem?_eq_none hk]
    cases hs : s.options[folded fold name]? with
    | none => rfl
    | some entry => exact h.new _ hk entry hs

/-- A query answers as straight after parsing unless it sees a name that a lookup put there. -/
theorem After.answer_iff (h : After fold o p s) (q : Query T) :
    (q.exec fold make s).1 = (q.exec fold make o).1 ↔
      ∀ l ∈ p, ∀ name ∈ l.lookup, folded fold name ∉ o.options → ¬ q.Sees fold name := by
  have hexists : ∀ other, s.optionExists fold other = o.optionExists fold other ↔
      ∀ l ∈ p, ∀ name ∈ l.lookup, folded fold name ∉ o.options → ¬ Same fold other name := by
    intro other
    unfold CmdlineOptions.optionExists
    rw [decide_eq_decide, h.mem]
    constructor
    · intro hiff l hl name hn hout e
      exact hout (e ▸ hiff.mp (.inr ⟨l, hl, name, hn, e.symm⟩))
    · intro hall
      refine ⟨fun hs => ?_, .inl⟩
      rcases hs with ho | ⟨l, hl, name, hn, e⟩
      · exact ho
      · by_contra hout
        exact hall l hl name hn (e ▸ hout) e.symm
  cases q with
  | optionExists other =>
    simp only [Query.exec, Answer.bool.injEq, hexists, Query.Sees]
    simp
  | operatorBool other =>
    simp only [Query.exec, Answer.bool.injEq, hexists, Query.Sees]
    simp
  | option other => simp [Query.exec, h.value, Query.Sees]
  | convert conversion other => simp [Query.exec, h.value, Query.Sees]
  | options =>
    simp only [Query.exec, Answer.map.injEq, Query.Sees, true_or, not_true, imp_false, not_not]
    constructor
    · intro e l hl name hn
      rw [← e, h.mem]
      exact .inr ⟨l, hl, name, hn, rfl⟩
    · intro hall
      refine Std.ExtTreeMap.ext_getElem? fun k => ?_
      by_cases hk : k ∈ o.options
      · exact h.old k hk
      · rw [Std.ExtTreeMap.getElem?_eq_none hk, Std.ExtTreeMap.getElem?_eq_none]
        intro hs
        rcases (h.mem k).mp hs with ho | ⟨l, hl, name, hn, rfl⟩
        · exact hk ho
        · exact hk (hall l hl name hn)

theorem run_after (o : CmdlineOptions) (qs : List (Query T)) : After fold o qs (run fold make o qs) := by
  have hrun : ∀ (qs p : List (Query T)) (s : CmdlineOptions), After fold o p s →
      After fold o (p ++ qs) (run fold make s qs) := by
    intro qs
    induction qs with
    | nil =>
      intro p s h
      rwa [List.append_nil]
    | cons q qs ih =>
      intro p s h
      have := ih (p ++ [q]) (q.exec fold make s).2 (h.exec q)
      rwa [List.append_assoc] at this
  exact hrun qs [] o .nil

theorem results_eq_iff (o s : CmdlineOptions) (qs : List (Query T)) :
    (results fold make s qs = qs.map fun q => (q.exec fold make o).1) ↔
      ∀ p q, p ++ [q] <+: qs → (q.exec fold make (run fold make s p)).1 = (q.exec fold make o).1 := by
  induction qs generalizing s with
  | nil => exact iff_of_true rfl (Lib.Splits.forall_step_nil (P := fun p q => _))
  | cons q qs ih =>
    rw [Lib.Splits.forall_step_cons, results, List.map_cons, List.cons.injEq, ih]
    rfl

/-- The answers are those straight after parsing exactly if no query sees a name that was
    not given and was looked up before. -/
theorem unchanged_iff (fold : UInt16 → UInt16) (make : Conversion T → WString → X) (argv : List WString)
    (qs : List (Query T)) : Unchanged fold make argv qs ↔ Undisturbed fold argv qs := by
  have hanswer : ∀ p (q : Query T), (q.exec fold make (run fold make (construct fold argv) p)).1 =
      (q.exec fold make (construct fold argv)).1 ↔
      ∀ l ∈ p, ∀ name ∈ l.lookup, ¬ Given fold argv name → ¬ q.Sees fold name := by
    intro p q
    rw [(run_after _ p).answer_iff]
    simp only [mem_construct]
  have hall :
      (results fold make (construct fold argv) qs = qs.map fun q => (q.exec fold make (construct fold argv)).1) ↔
        Undisturbed fold argv qs := by
    rw [results_eq_iff]
    simp only [hanswer]
    rfl
  refine ⟨fun h => hall.mp h.answers, fun h => ⟨hall.mpr h, fun p name hp => ?_⟩⟩
  have hsame : (run fold make (construct fold argv) p).optionExists fold name =
      (construct fold argv).optionExists fold name := by
    rcases hp with hp | hp
    · exact Answer.bool.inj ((hanswer p (.optionExists name)).mpr (h p _ hp))
    · exact Answer.bool.inj ((hanswer p (.operatorBool name)).mpr (h p _ hp))
  rw [hsame, optionExists_construct]

/-- No options were given. Reading the value of v makes v exist. -/
theorem read_then_exists :
    ¬ Unchanged id (fun (_ : Conversion Unit) s => s) [[112]] [.option [118], .optionExists [118]] := by
  intro h
  obtain ⟨item, hitem, -⟩ := (h.given [.option [118]] [118] (.inl (List.prefix_refl _))).mp (by decide +kernel)
  simp at hitem

end Dumbnose.Options
