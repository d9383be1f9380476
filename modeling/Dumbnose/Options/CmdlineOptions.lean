/-
  Dumbnose.Options.CmdlineOptions — the options and arguments of a command line
  (`cmdline_options.hpp`), in the UNICODE build.

  The map compares names with `_wcsicmp`: as C strings, each character folded to one case.
  How the system folds is a parameter. An entry keeps the spelling its name came with
  first, so an `OptionMap` has under a folded name that spelling and the value.

  `options_[name]` inserts a name that is not there. That is how the parser stores an
  option, and how `option` looks one up.

  What the parser leaves says all of the command line that it can say
  (`parses_grammar`): the items that are no options, in their order, and under each name
  the value of the last option of that name.
-/

import Mathlib.Data.List.Basic
import Mathlib.Data.List.Induction
import Std.Data.ExtTreeMap
import Dumbnose.Strings.Wide

namespace Dumbnose.Options

open Strings

abbrev OptionMap := Std.ExtTreeMap WString (WString × WString)

def slash : UInt16 := 47

def hyphen : UInt16 := 45

def colon : UInt16 := 58

/-- An empty string begins with its terminator. -/
def isOption (param : WString) : Bool := param.head? = some slash ∨ param.head? = some hyphen

/-- The name and the value of an option, without the character it begins with. -/
def nameAndValue (option : WString) : WString × WString :=
  match option.findIdx? (· == colon) with
  | some colonLoc => (option.take colonLoc, option.drop (colonLoc + 1))
  | none => (option, [])

structure CmdlineOptions where
  options : OptionMap
  args : List WString

variable (fold : UInt16 → UInt16)

/-- What `_wcsicmp` compares. -/
def folded (name : WString) : WString := (cStr name).map fold

/-- `case_insensitive`: whether `_wcsicmp` is negative. -/
def caseInsensitive (lhs rhs : WString) : Bool := compare (folded fold lhs) (folded fold rhs) = .lt

/-- `options_[name] = value`. -/
def assign (m : OptionMap) (name value : WString) : OptionMap :=
  m.insert (folded fold name) (((m[folded fold name]?).map Prod.fst).getD name, value)

/-- `options_[name]`: the value, and the map after. -/
def subscript (m : OptionMap) (name : WString) : WString × OptionMap :=
  match m[folded fold name]? with
  | some entry => (entry.2, m)
  | none => ([], m.insert (folded fold name) (name, []))

/-- One turn of the loop in `initialize`. -/
def parse (o : CmdlineOptions) (item : WString) : CmdlineOptions :=
  if isOption item then
    { o with options := assign fold o.options (nameAndValue (item.drop 1)).1 (nameAndValue (item.drop 1)).2 }
  else { o with args := o.args ++ [item] }

/-- What the constructor makes of `argv`, the first of which is the program. -/
def construct (argv : List WString) : CmdlineOptions := (argv.drop 1).foldl (parse fold) ⟨∅, []⟩

/-! ## The queries -/

/-- `exists`. -/
def CmdlineOptions.optionExists (o : CmdlineOptions) (name : WString) : Bool := folded fold name ∈ o.options

def CmdlineOptions.option (o : CmdlineOptions) (name : WString) : WString × CmdlineOptions :=
  ((subscript fold o.options name).1, { o with options := (subscript fold o.options name).2 })

/-! ## What was given -/

/-- Two names of one option. -/
def Same (name other : WString) : Prop := folded fold name = folded fold other

instance (name other : WString) : Decidable (Same fold name other) := inferInstanceAs (Decidable (_ = _))

/-- The command line has an option of this name. -/
def Given (argv : List WString) (name : WString) : Prop :=
  ∃ item ∈ argv.drop 1, isOption item = true ∧ Same fold (nameAndValue (item.drop 1)).1 name

/-- The name of an option, given with the character it begins with. -/
def optionName (item : WString) : WString := (item.drop 1).takeWhile (· ≠ colon)

def optionValue (item : WString) : WString := ((item.drop 1).dropWhile (· ≠ colon)).drop 1

def Names (n item : WString) : Prop := isOption item = true ∧ Same fold (optionName item) n

instance (n item : WString) : Decidable (Names fold n item) := inferInstanceAs (Decidable (_ ∧ _))

variable {fold}

theorem same_iff {a b : WString} :
    Same fold a b ↔ caseInsensitive fold a b = false ∧ caseInsensitive fold b a = false := by
  have hsame : compare (folded fold a) (folded fold b) = .eq ↔ Same fold a b := Std.LawfulEqCmp.compare_eq_iff_eq
  have hswap : compare (folded fold b) (folded fold a) = (compare (folded fold a) (folded fold b)).swap :=
    Std.OrientedCmp.eq_swap
  unfold caseInsensitive
  rw [decide_eq_false_iff_not, decide_eq_false_iff_not, ← hsame, hswap]
  cases compare (folded fold a) (folded fold b) <;> simp

/-! ## The parser -/

theorem nameAndValue_eq (s : WString) :
    nameAndValue s = (s.takeWhile (· ≠ colon), (s.dropWhile (· ≠ colon)).drop 1) := by
  induction s with
  | nil => rfl
  | cons c s ih =>
    by_cases e : c = colon
    · simp [nameAndValue, List.findIdx?_cons, e]
    · unfold nameAndValue at ih ⊢
      rw [List.findIdx?_cons, if_neg (by simpa using e), List.takeWhile_cons_of_pos (by simpa using e),
        List.dropWhile_cons_of_pos (by simpa using e)]
      cases h : s.findIdx? (· == colon) with
      | none =>
        rw [h] at ih
        obtain ⟨h1, h2⟩ := Prod.mk.inj ih
        rw [← h1, ← h2]
        rfl
      | some i =>
        rw [h] at ih
        obtain ⟨h1, h2⟩ := Prod.mk.inj ih
        rw [← h1, ← h2]
        rfl

theorem nameAndValue_drop (item : WString) : nameAndValue (item.drop 1) = (optionName item, optionValue item) :=
  nameAndValue_eq _

theorem given_iff_names {argv : List WString} {n : WString} :
    Given fold argv n ↔ ∃ item ∈ argv.drop 1, Names fold n item := by
  simp only [Given, Names, nameAndValue_drop]

theorem parse_args (o : CmdlineOptions) (item : WString) :
    (parse fold o item).args = o.args ++ if isOption item then [] else [item] := by
  unfold parse
  by_cases e : isOption item <;> simp [e]

/-- The value under a name after one more argument. -/
theorem parse_value (o : CmdlineOptions) (item n : WString) :
    ((parse fold o item).options[folded fold n]?).map Prod.snd =
      if Names fold n item then some (optionValue item) else (o.options[folded fold n]?).map Prod.snd := by
  unfold parse
  by_cases e : isOption item
  · rw [if_pos e, nameAndValue_drop]
    show ((assign fold o.options (optionName item) (optionValue item))[folded fold n]?).map Prod.snd = _
    rw [assign, Std.ExtTreeMap.getElem?_insert]
    by_cases hs : Same fold (optionName item) n
    · rw [if_pos (Std.LawfulEqCmp.compare_eq_iff_eq.mpr hs), if_pos ⟨e, hs⟩]
      rfl
    · rw [if_neg (fun h => hs (Std.LawfulEqCmp.compare_eq_iff_eq.mp h)), if_neg (fun h => hs h.2)]
  · rw [if_neg e, if_neg (fun h => e h.1)]

/-- Those arguments that are no options stay in order, and the value under a name is that
    of the last option of this name. -/
theorem parse_all (fold : UInt16 → UInt16) (items : List WString) :
    (items.foldl (parse fold) ⟨∅, []⟩).args = items.filter (fun item => !isOption item) ∧
    ∀ n, ((items.foldl (parse fold) ⟨∅, []⟩).options[folded fold n]?).map Prod.snd =
      ((items.filter (fun item => decide (Names fold n item))).getLast?).map optionValue := by
  induction items using List.reverseRecOn with
  | nil => exact ⟨rfl, fun n => by simp⟩
  | append_singleton items item ih =>
    obtain ⟨h1, h2⟩ := ih
    rw [List.foldl_append, List.foldl_cons, List.foldl_nil]
    refine ⟨?_, fun n => ?_⟩
    · rw [parse_args, h1, List.filter_append]
      by_cases e : isOption item <;> simp [e]
    · rw [parse_value, h2, List.filter_append]
      by_cases e : Names fold n item <;> simp [e]

/-- Straight after parsing, the names in the map are those given. -/
theorem mem_construct {argv : List WString} {name : WString} :
    folded fold name ∈ (construct fold argv).options ↔ Given fold argv name := by
  have h := (parse_all fold (argv.drop 1)).2 name
  rw [Std.ExtTreeMap.mem_iff_isSome_getElem?, ← Option.isSome_map (f := Prod.snd), construct, h, Option.isSome_map,
    List.getLast?_isSome, given_iff_names]
  constructor
  · intro hne
    obtain ⟨item, hi⟩ := List.exists_mem_of_ne_nil _ hne
    obtain ⟨hm, hn⟩ := List.mem_filter.mp hi
    exact ⟨item, hm, of_decide_eq_true hn⟩
  · intro hg
    obtain ⟨item, hm, hn⟩ := hg
    exact List.ne_nil_of_mem (List.mem_filter.mpr ⟨hm, decide_eq_true hn⟩)

theorem optionExists_construct {argv : List WString} {name : WString} :
    (construct fold argv).optionExists fold name = true ↔ Given fold argv name := by
  rw [CmdlineOptions.optionExists, decide_eq_true_iff]
  exact mem_construct

/-- The text after the first colon, if there is one. -/
theorem optionValue_cases (item : WString) :
    colon ∉ item.drop 1 ∧ optionValue item = [] ∨ item.drop 1 = optionName item ++ colon :: optionValue item := by
  have hsplit : optionName item ++ (item.drop 1).dropWhile (· ≠ colon) = item.drop 1 := List.takeWhile_append_dropWhile
  unfold optionValue
  cases h : (item.drop 1).dropWhile (· ≠ colon) with
  | nil =>
    refine .inl ⟨fun hc => ?_, rfl⟩
    have := List.dropWhile_eq_nil_iff.mp h colon hc
    simp at this
  | cons c rest =>
    have hc := List.head?_dropWhile_not (fun c => decide (c ≠ colon)) (item.drop 1)
    rw [h] at hc
    obtain rfl : c = colon := by simpa using hc
    rw [h] at hsplit
    exact .inr hsplit.symm

/-- The grammar of a command line: an argument that begins with a slash or a hyphen is an
    option, its name ends before the first colon, and its value comes after it. The last
    option of a name counts. -/
theorem parses_grammar (argv : List WString) :
    (construct fold argv).args = (argv.drop 1).filter (fun item => item.head? ≠ some slash ∧ item.head? ≠ some hyphen) ∧
    (∀ n, (construct fold argv).optionExists fold n = true ↔ ∃ item ∈ argv.drop 1,
      (item.head? = some slash ∨ item.head? = some hyphen) ∧ Same fold ((item.drop 1).takeWhile (· ≠ colon)) n) ∧
    (∀ n, ((construct fold argv).options[folded fold n]?).map Prod.snd =
      ((argv.drop 1).filter (fun item => decide (Names fold n item))).getLast?.map optionValue) ∧
    ∀ item, colon ∉ item.drop 1 ∧ optionValue item = [] ∨
      item.drop 1 = (item.drop 1).takeWhile (· ≠ colon) ++ colon :: optionValue item := by
  obtain ⟨h1, h2⟩ := parse_all fold (argv.drop 1)
  refine ⟨?_, fun n => ?_, h2, optionValue_cases⟩
  · rw [construct, h1]
    exact List.filter_congr fun item _ => by simp [isOption]
  · rw [optionExists_construct, given_iff_names]
    simp only [Names, isOption, decide_eq_true_eq, optionName]

end Dumbnose.Options
