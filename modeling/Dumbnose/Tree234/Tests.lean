/-
  Dumbnose.Tree234.Tests — the test program of the tree (`addtest`, `addpostest`,
  `deltest`, `delpostest`, `findtest`).

  The program keeps an array beside the tree. Each call does to the tree what it does to
  the array, compares what it is given back, and verifies the tree. `findtest` searches the
  array by halving and the tree by `findrelpos234`, and compares. It uses `strcmp`, which
  is the comparison of the tree.

  `mid`, `c` and `index` of `findtest` are not set at first: their first values are
  arguments. In an empty array `c` is looked at all the same.

  `none` is where the code reads or writes outside the array, compares a NULL or fails an
  assertion. `silent_run`: whatever the calls are, as far as they make sense for a list,
  the program prints nothing. The list ends where an `int` of the program would: the size
  of the array (257 more than it has), and in `findtest` the sum of two places.
-/

import Dumbnose.Tree234.Runs
import Dumbnose.Tree234.Verify

namespace Dumbnose.Tree234

open Node Lib.Compare Lib.Runs

variable {α : Type}

structure Tests (α : Type) where
  tree : Tree α
  cmp : Option (α → α → Int)
  array : Nat → Option α
  arraylen : Nat
  arraysize : Nat

namespace Tests

/-- A new tree, and an array with anything in it. -/
def new (cmp : Option (α → α → Int)) (array : Nat → Option α) (arraysize : Nat) : Tests α :=
  ⟨Tree.new cmp, cmp, array, 0, arraysize⟩

/-- `array[i]`. -/
def cell (s : Tests α) (i : Int) : Option (Option α) :=
  if 0 ≤ i ∧ i < s.arraysize then some (s.array i.toNat) else none

/-- `for (j = arraylen; j > i; j--) array[j] = array[j-1]`. -/
def shiftUp (i : Nat) : Nat → (Nat → Option α) → Nat → Option α
  | 0, array => array
  | j + 1, array => if i < j + 1 then shiftUp i j (Function.update array (j + 1) (array j)) else array

/-- `while (i < arraylen-1) array[i] = array[i+1]`, for so many turns. -/
def shiftDown : Nat → Nat → (Nat → Option α) → Nat → Option α
  | 0, _, array => array
  | todo + 1, i, array => shiftDown todo (i + 1) (Function.update array i (array (i + 1)))

/-- `while (i < arraylen && cmp(elem, array[i]) > 0) i++`, for so many turns. -/
def place (c : α → α → Int) (elem : α) (s : Tests α) : Nat → Nat → Option Nat
  | 0, i => some i
  | todo + 1, i =>
    match s.cell i with
    | some (some x) => if 0 < c elem x then place c elem s todo (i + 1) else some i
    | _ => none

section Calls
variable [DecidableEq α]

def internalAddtest (s : Tests α) (elem : α) (index : Nat) (realret : Option α) : Option (Tests α × List (Report α)) :=
  let arraysize := if s.arraysize < s.arraylen + 1 then s.arraylen + 1 + 256 else s.arraysize
  if index < arraysize then
    let array := Function.update (shiftUp index s.arraylen s.array) index (some elem)
    let s := { s with array := array, arraylen := s.arraylen + 1, arraysize := arraysize }
    some (s, (if realret ≠ some elem then [.added realret (some elem)] else []) ++
      verify s.tree s.cmp s.array s.arraylen)
  else none

def addtest (s : Tests α) (elem : α) : Option (Tests α × List (Report α)) := do
  let (realret, tree) ← s.tree.add elem
  let s := { s with tree := tree }
  let c ← s.cmp
  let i ← place c elem s s.arraylen 0
  if i < s.arraylen then
    let x ← s.cell i
    let x ← x
    if c elem x = 0 then some (s, if realret ≠ some x then [.added realret (some x)] else [])
    else s.internalAddtest elem i realret
  else s.internalAddtest elem i realret

def addpostest (s : Tests α) (elem : α) (i : Nat) : Option (Tests α × List (Report α)) := do
  let (realret, tree) ← s.tree.addpos elem i
  { s with tree := tree }.internalAddtest elem i realret

/-- `del234`, or `delpos234` where there is no comparison. -/
def del (s : Tests α) (elem : α) (i : Nat) : Option (Option α × Tree α) :=
  if s.tree.cmp.isSome then s.tree.del elem else s.tree.delpos i

def delpostest (s : Tests α) (i : Nat) : Option (Tests α × List (Report α)) := do
  let elem ← s.cell i
  let elem ← elem
  -- no negative `arraylen`
  if s.arraylen = 0 then none
  else
    let array := shiftDown (s.arraylen - 1 - i) i s.array
    let (ret, tree) ← s.del elem i
    let s := { s with tree := tree, array := array, arraylen := s.arraylen - 1 }
    some (s, (if ret ≠ some elem then [.deleted ret (some elem)] else []) ++ verify s.tree s.cmp s.array s.arraylen)

def deltest (s : Tests α) (elem : α) : Option (Tests α × List (Report α)) := do
  let c ← s.cmp
  let i ← place c elem s s.arraylen 0
  if i < s.arraylen then
    let x ← s.cell i
    let x ← x
    if c elem x ≠ 0 then some (s, []) else s.delpostest i
  else some (s, [])

/-! ## `findtest` -/

/-- Its variables, but for `lo` and `hi`. -/
structure Vars where
  mid : Int
  c : Int
  index : Int
  deriving DecidableEq, Repr

/-- The search by halving: `lo`, `hi`, `mid` and `c` at its end. -/
def halve (c : α → α → Int) (p : α) (s : Tests α) (lo hi mid sign : Int) : Option (Int × Int × Int × Int) :=
  if lo ≤ hi then
    let mid := (lo + hi) / 2
    match s.cell mid with
    | some (some x) =>
      if c p x < 0 then halve c p s lo (mid - 1) mid (c p x)
      else if 0 < c p x then halve c p s (mid + 1) hi mid (c p x)
      else some (lo, hi, mid, c p x)
    | _ => none
  else some (lo, hi, mid, sign)
termination_by (hi + 1 - lo).toNat

/-- What the array has to say: `ret`, and `mid`. -/
def expected (s : Tests α) (relation : Relation) (lo hi mid sign : Int) : Option (Option α × Int) :=
  if sign = 0 then
    match relation with
    | .lt => if 0 < mid then (s.cell (mid - 1)).map fun ret => (ret, mid - 1) else some (none, mid)
    | .gt =>
      if mid < s.arraylen - 1 then (s.cell (mid + 1)).map fun ret => (ret, mid + 1) else some (none, mid)
    | _ => (s.cell mid).map fun ret => (ret, mid)
  else if lo ≠ hi + 1 then none
  else if relation = .lt ∨ relation = .le then
    if 0 ≤ hi then (s.cell hi).map fun ret => (ret, hi) else some (none, hi)
  else if relation = .gt ∨ relation = .ge then
    if lo < s.arraylen then (s.cell lo).map fun ret => (ret, lo) else some (none, lo)
  else some (none, mid)

/-- One string and one relation. -/
def findOne (s : Tests α) (c : α → α → Int) (p : α) (relation : Relation) (v : Vars) :
    Option (Vars × List (Report α)) := do
  let (lo, hi, mid, sign) ← halve c p s 0 (s.arraylen - 1) v.mid v.c
  let (ret, mid) ← s.expected relation lo hi mid sign
  let real ← s.tree.findrelpos (some p) none relation
  let realret := real.map Prod.fst
  let wrong := if realret ≠ ret then [.found p relation realret ret] else []
  match real with
  | none => some (⟨mid, sign, v.index⟩, wrong)
  | some (x, index) =>
    some (⟨mid, sign, index⟩, wrong ++ (if index ≠ mid then [.foundAt p relation index mid] else []) ++
      (if relation = .eq ∧ s.tree.index index ≠ some x then [.foundOther p relation x index (s.tree.index index)]
        else []))

def findAll (s : Tests α) (c : α → α → Int) : List (α × Relation) → Vars → Option (Vars × List (Report α))
  | [], v => some (v, [])
  | (p, relation) :: rest, v => do
    let (v, reports) ← s.findOne c p relation v
    let (v, more) ← s.findAll c rest v
    some (v, reports ++ more)

def rels : List Relation := [.eq, .ge, .le, .lt, .gt]

def findFirst (s : Tests α) (v : Vars) : Option (Vars × List (Report α)) := do
  let real ← s.tree.findrelpos none none .gt
  let v := { v with index := (real.map Prod.snd).getD v.index }
  if s.arraylen ≠ 0 then
    let x ← s.cell 0
    some (v, if real.map Prod.fst ≠ x ∨ v.index ≠ 0 then [.first (real.map Prod.fst) v.index x] else [])
  else some (v, match real with
    | some (x, _) => [.firstNull x v.index]
    | none => [])

def findLast (s : Tests α) (v : Vars) : Option (Vars × List (Report α)) := do
  let real ← s.tree.findrelpos none none .lt
  let v := { v with index := (real.map Prod.snd).getD v.index }
  if s.arraylen ≠ 0 then
    let x ← s.cell (s.arraylen - 1)
    some (v, if real.map Prod.fst ≠ x ∨ v.index ≠ s.arraylen - 1 then [.last (real.map Prod.fst) v.index x] else [])
  else some (v, match real with
    | some (x, _) => [.lastNull x v.index]
    | none => [])

def findtest (s : Tests α) (strings : List α) (v : Vars) : Option (Tests α × List (Report α)) := do
  let c ← s.cmp
  let (v, all) ← s.findAll c (strings.flatMap fun p => rels.map fun relation => (p, relation)) v
  let (v, first) ← s.findFirst v
  let (_, last) ← s.findLast v
  some (s, all ++ first ++ last)

end Calls

/-! ## Runs -/

inductive Call (α : Type) where
  | addtest (elem : α)
  | addpostest (elem : α) (i : Nat)
  | deltest (elem : α)
  | delpostest (i : Nat)
  | verify
  | findtest (strings : List α) (v : Vars)

def step [DecidableEq α] : Step (Tests α) (Call α) (Report α) := fun s call =>
  match call with
  | .addtest elem => s.addtest elem
  | .addpostest elem i => s.addpostest elem i
  | .deltest elem => s.deltest elem
  | .delpostest i => s.delpostest i
  | .verify => some (s, Tree234.verify s.tree s.cmp s.array s.arraylen)
  | .findtest strings v => s.findtest strings v

/-- What the calls mean for a list. Nothing should be printed. -/
def ideal (cmp : Option (α → α → Int)) : Step (List α) (Call α) (Report α) := fun l call =>
  match call, cmp with
  | .addtest elem, some _ =>
    if l.length + 257 < 2 ^ 31 then (List234.step cmp l (.add elem)).map fun r => (r.1, []) else none
  | .deltest elem, some _ => (List234.step cmp l (.del elem)).map fun r => (r.1, [])
  | .addpostest elem i, none =>
    if l.length + 257 < 2 ^ 31 then (List234.step cmp l (.addpos elem i)).map fun r => (r.1, []) else none
  | .delpostest i, _ => if i < l.length then (List234.step cmp l (.delpos i)).map fun r => (r.1, []) else none
  | .verify, _ => some (l, [])
  | .findtest _ v, some _ => if (l ≠ [] ∨ v.c ≠ 0) ∧ 2 * l.length ≤ 2 ^ 31 then some (l, []) else none
  | _, _ => none

/-! ## The array -/

theorem shiftUp_apply (i j : Nat) (array : Nat → Option α) (k : Nat) :
    shiftUp i j array k = if i < k ∧ k ≤ j then array (k - 1) else array k := by
  induction j generalizing array with
  | zero => rw [shiftUp, if_neg (by omega)]
  | succ j ih =>
    rw [shiftUp]
    by_cases hj : i < j + 1
    · rw [if_pos hj, ih]
      grind [Function.update_apply]
    · rw [if_neg hj, if_neg (by omega)]

theorem shiftDown_apply (todo i : Nat) (array : Nat → Option α) (k : Nat) :
    shiftDown todo i array k = if i ≤ k ∧ k < i + todo then array (k + 1) else array k := by
  induction todo generalizing i array with
  | zero => rw [shiftDown, if_neg (by omega)]
  | succ todo ih =>
    rw [shiftDown, ih]
    grind [Function.update_apply]

section Shows
variable {array : Nat → Option α} {arraylen : Nat} {l : List α}

theorem shows_insert (hs : Shows array arraylen l) {i : Nat} (hi : i ≤ l.length) (e : α) :
    Shows (Function.update (shiftUp i arraylen array) i (some e)) (arraylen + 1) (l.insertIdx i e) := by
  obtain ⟨hlen, hall⟩ := hs
  refine ⟨by rw [List.length_insertIdx_of_le_length hi, hlen], fun k hk => ?_⟩
  rw [Function.update_apply, shiftUp_apply, List.getElem?_insertIdx]
  rcases Nat.lt_trichotomy k i with h | rfl | h
  · rw [if_neg (by omega), if_neg (by omega), if_pos h, hall k (by omega)]
  · rw [if_pos rfl, if_neg (Nat.lt_irrefl k), if_pos rfl, if_pos hi]
  · rw [if_neg (by omega), if_pos (by omega), if_neg (by omega), if_neg (by omega), hall (k - 1) (by omega)]

theorem shows_erase (hs : Shows array arraylen l) {i : Nat} (hi : i < l.length) :
    Shows (shiftDown (arraylen - 1 - i) i array) (arraylen - 1) (l.eraseIdx i) := by
  obtain ⟨hlen, hall⟩ := hs
  refine ⟨by rw [List.length_eraseIdx_of_lt hi, hlen], fun k hk => ?_⟩
  rw [shiftDown_apply, List.getElem?_eraseIdx]
  by_cases h : k < i
  · rw [if_neg (by omega), if_pos h, hall k (by omega)]
  · rw [if_pos (by omega), if_neg h, hall (k + 1) (by omega)]

end Shows

/-- The tests and a list. -/
structure Stands (cmp : Option (α → α → Int)) (s : Tests α) (l : List α) : Prop where
  beside : Beside cmp s.tree l
  cmp_eq : s.cmp = cmp
  shows : Shows s.array s.arraylen l
  size : s.arraylen ≤ s.arraysize

section Stands
variable {cmp : Option (α → α → Int)} {s : Tests α} {l l' : List α}

theorem stands_new (cmp : Option (α → α → Int)) (array : Nat → Option α) (arraysize : Nat) :
    Stands cmp (new cmp array arraysize) [] :=
  ⟨beside_new cmp, rfl, ⟨rfl, fun _ hi => absurd hi (Nat.not_lt_zero _)⟩, Nat.zero_le _⟩

theorem Stands.cell (hs : Stands cmp s l) {i : Int} (h0 : 0 ≤ i) (h1 : i < l.length) :
    s.cell i = some (s.tree.index i) := by
  obtain ⟨hlen, hall⟩ := hs.shows
  have hsize := hs.size
  rw [Tests.cell, if_pos (by omega), hs.beside.holds.index, if_pos h0, hall _ (by omega)]

theorem Stands.cell_of (hs : Stands cmp s l) {i : Nat} {x : α} (hx : l[i]? = some x) : s.cell i = some (some x) := by
  obtain ⟨hi, -⟩ := List.getElem?_eq_some_iff.mp hx
  rw [hs.cell (by omega) (by omega), hs.beside.holds.index, if_pos (by omega), Int.toNat_natCast, hx]

theorem place_eq {c : α → α → Int} {e : α} {lo hi : Nat} (hlen : l.length = s.arraylen)
    (hcell : ∀ {i : Nat} {x : α}, l[i]? = some x → s.cell i = some (some x)) (hturn : Turns (c e) l lo hi) :
    place c e s s.arraylen 0 = some lo := by
  have hlo := hturn.le.trans hturn.length
  have hgo : ∀ todo i, i + todo = s.arraylen → i ≤ lo → place c e s todo i = some lo := by
    intro todo
    induction todo with
    | zero =>
      intro i h1 h2
      rw [place, show i = lo by omega]
    | succ todo ih =>
      intro i h1 h2
      have hx : l[i]? = some l[i] := List.getElem?_eq_getElem (by omega)
      have hpos := hturn.pos hx
      rw [place, hcell hx]
      dsimp only
      by_cases hp : 0 < c e l[i]
      · rw [if_pos hp]
        exact ih (i + 1) (by omega) (by omega)
      · rw [if_neg hp, show i = lo by omega]
  exact hgo s.arraylen 0 (Nat.zero_add _) (Nat.zero_le _)

variable [DecidableEq α] (hlaw : ∀ c, cmp = some c → Lawful c)
include hlaw

theorem Stands.verify (hs : Stands cmp s l) : verify s.tree s.cmp s.array s.arraylen = [] := by
  obtain ⟨⟨ht, -, hsorted⟩, hcmp, hshows, -⟩ := hs
  have hnodes := ht.nodes 0
  rw [if_neg (by omega)] at hnodes
  rw [hcmp]
  refine (verify_eq_nil_iff hlaw (by omega)).mpr ⟨ht.good, ?_, ?_⟩
  · rw [ht.list]
    exact hsorted
  · rw [ht.list]
    exact hshows

/-- The array takes what the tree has taken. -/
theorem Stands.internalAddtest (hs : Stands cmp s l) {tree : Tree α} {e : α} {i : Nat} (hi : i ≤ l.length)
    (hb : Beside cmp tree (l.insertIdx i e)) :
    ∃ s', { s with tree := tree }.internalAddtest e i (some e) = some (s', []) ∧ Stands cmp s' (l.insertIdx i e) := by
  have hlen := hs.shows.1
  have hsize : s.arraylen + 1 ≤ if s.arraysize < s.arraylen + 1 then s.arraylen + 1 + 256 else s.arraysize := by
    split <;> omega
  have hs' : Stands cmp (Tests.mk tree s.cmp (Function.update (shiftUp i s.arraylen s.array) i (some e))
      (s.arraylen + 1) (if s.arraysize < s.arraylen + 1 then s.arraylen + 1 + 256 else s.arraysize))
      (l.insertIdx i e) :=
    ⟨hb, hs.cmp_eq, shows_insert hs.shows hi e, hsize⟩
  refine ⟨_, ?_, hs'⟩
  have hv := hs'.verify hlaw
  dsimp only at hv
  rw [Tests.internalAddtest]
  dsimp only
  rw [if_pos (by omega), if_neg (not_not_intro rfl), hv]
  rfl

theorem Stands.addtest (hs : Stands cmp s l) {e : α} {seen : List (Report α)}
    (hst : ideal cmp l (.addtest e) = some (l', seen)) :
    ∃ s', s.addtest e = some (s', seen) ∧ Stands cmp s' l' := by
  cases cmp with
  | none => cases hst
  | some c =>
    have hc := hlaw c rfl
    have hsorted := hs.beside.sorted c rfl
    have hfalls := hsorted.falls hc e
    obtain ⟨-, hst⟩ := Option.ite_none_right_eq_some.mp hst
    obtain ⟨⟨l₁, seen₁⟩, hr, hrl⟩ := Option.map_eq_some_iff.mp hst
    cases hrl
    obtain ⟨tree, hstep, hb⟩ := hs.beside.add hlaw hr
    obtain ⟨⟨realret, tree'⟩, hadd, hpair⟩ := Option.map_eq_some_iff.mp hstep
    obtain ⟨rfl, rfl⟩ : tree' = tree ∧ [.elem realret] = seen₁ := Prod.mk.inj hpair
    have hcmp := hs.cmp_eq
    cases hfind : l.find? (fun x => c e x = 0) with
    | some x =>
      obtain ⟨a, b, hl⟩ := List.append_of_mem (List.mem_of_find?_eq_some hfind)
      have hz : c e x = 0 := by simpa using List.find?_some hfind
      simp only [List234.step, hfind, Option.some.injEq, Prod.mk.injEq, List.cons.injEq, Seen.elem.injEq,
        and_true] at hr
      obtain ⟨rfl, rfl⟩ := hr
      have hs₁ : Stands (some c) { s with tree := tree' } l := ⟨hb, hs.cmp_eq, hs.shows, hs.size⟩
      have hturn : Turns (c e) l a.length (a.length + 1) := by
        subst hl
        exact hfalls.turns hz (hsorted.single hc e)
      have hx : l[a.length]? = some x := by
        rw [hl]
        simp
      refine ⟨_, ?_, hs₁⟩
      have hlt : a.length < s.arraylen := by
        have := (List.getElem?_eq_some_iff.mp hx).1
        have := hs.shows.1
        omega
      have hplace := place_eq (s := { s with tree := tree' }) hs.shows.1 hs₁.cell_of hturn
      have hcell := hs₁.cell_of hx
      simp only [hcmp] at hplace hcell
      simp [Tests.addtest, hadd, hcmp, hplace, hlt, hcell, hz]
    | none =>
      have hne : ∀ x ∈ l, c e x ≠ 0 := by simpa using hfind
      have hl := hfalls.split hne
      simp only [List234.step, hfind, Option.ite_none_right_eq_some, Option.some.injEq, Prod.mk.injEq, List.cons.injEq,
        Seen.elem.injEq, and_true] at hr
      obtain ⟨-, rfl, rfl⟩ := hr
      generalize ha : (l.filter fun x => 0 < c e x) = a at *
      generalize hb' : (l.filter fun x => c e x < 0) = b at *
      have hins : l.insertIdx a.length e = a ++ e :: b := by rw [hl, insertIdx_append]
      have hturn : Turns (c e) l a.length a.length := by
        rw [hl]
        refine turns_append ?_ ?_
        · rw [← ha]
          simp
        · rw [← hb']
          simp
      obtain ⟨s', hs', hstands⟩ := hs.internalAddtest hlaw hturn.length (hins.symm ▸ hb)
      rw [hins] at hstands
      refine ⟨s', ?_, hstands⟩
      have hcell : ∀ {i : Nat} {x : α}, l[i]? = some x →
          Tests.cell { s with tree := tree' } i = some (some x) :=
        fun hx => hs.cell_of hx
      have hplace := place_eq (s := { s with tree := tree' }) hs.shows.1 hcell hturn
      simp only [hcmp] at hplace hcell hs'
      by_cases hlt : a.length < s.arraylen
      · obtain ⟨y, hy⟩ : ∃ y, l[a.length]? = some y :=
          ⟨_, List.getElem?_eq_getElem (by have := hs.shows.1; omega)⟩
        simp [Tests.addtest, hadd, hcmp, hplace, hlt, hcell hy, hne y (List.mem_of_getElem? hy), hs']
      · simp [Tests.addtest, hadd, hcmp, hplace, hlt, hs']

omit hlaw in
theorem Stands.addpostest (hlaw : ∀ c, cmp = some c → Lawful c) (hs : Stands cmp s l) {e : α} {i : Nat}
    {seen : List (Report α)} (hst : ideal cmp l (.addpostest e i) = some (l', seen)) :
    ∃ s', s.addpostest e i = some (s', seen) ∧ Stands cmp s' l' := by
  cases cmp with
  | some c => cases hst
  | none =>
    obtain ⟨-, hst⟩ := Option.ite_none_right_eq_some.mp hst
    obtain ⟨⟨l₁, seen₁⟩, hr, hrl⟩ := Option.map_eq_some_iff.mp hst
    cases hrl
    obtain ⟨tree, hstep, hb⟩ := hs.beside.addpos hr
    obtain ⟨⟨realret, tree'⟩, hadd, hpair⟩ := Option.map_eq_some_iff.mp hstep
    obtain ⟨rfl, rfl⟩ : tree' = tree ∧ [.elem realret] = seen₁ := Prod.mk.inj hpair
    rw [List234.step, if_neg (by omega)] at hr
    obtain ⟨⟨hi, -⟩, hr⟩ := Option.ite_none_right_eq_some.mp hr
    obtain ⟨rfl, rfl⟩ : l.insertIdx i e = l₁ ∧ some e = realret := by simpa using hr
    obtain ⟨s', hs', hstands⟩ := hs.internalAddtest hlaw (by omega) hb
    exact ⟨s', by simp [Tests.addpostest, hadd, hs'], hstands⟩

/-- The array loses what the tree has lost. -/
theorem Stands.delpostest (hs : Stands cmp s l) {i : Nat} (hi : i < l.length) :
    ∃ s', s.delpostest i = some (s', []) ∧ Stands cmp s' (l.eraseIdx i) := by
  have hx : l[i]? = some l[i] := List.getElem?_eq_getElem hi
  have hlen := hs.shows.1
  have hcell := hs.cell_of hx
  obtain ⟨tree, hdel, hb⟩ : ∃ tree, s.del l[i] i = some (some l[i], tree) ∧ Beside cmp tree (l.eraseIdx i) := by
    cases cmp with
    | none =>
      have hlist : List234.step none l (.delpos i) = some (l.eraseIdx i, [.elem (some l[i])]) := by
        simp [List234.step, hi]
      obtain ⟨tree, hstep, hb⟩ := hs.beside.step hlaw hlist
      obtain ⟨⟨ret, tree'⟩, hdel, hpair⟩ := Option.map_eq_some_iff.mp hstep
      obtain ⟨rfl, h⟩ : tree' = tree ∧ [Seen.elem ret] = [.elem (some l[i])] := Prod.mk.inj hpair
      cases h
      exact ⟨tree', by simp [Tests.del, hs.beside.cmp_eq, hdel], hb⟩
    | some c =>
      have hc := hlaw c rfl
      obtain ⟨h1, h2⟩ := find_filter hc (hs.beside.sorted c rfl) hx (hc.refl l[i])
      have hlist : List234.step (some c) l (.del l[i]) = some (l.eraseIdx i, [.elem (some l[i])]) := by
        simp only [List234.step, h1, h2]
      obtain ⟨tree, hstep, hb⟩ := hs.beside.del hlaw hlist
      obtain ⟨⟨ret, tree'⟩, hdel, hpair⟩ := Option.map_eq_some_iff.mp hstep
      obtain ⟨rfl, h⟩ : tree' = tree ∧ [Seen.elem ret] = [.elem (some l[i])] := Prod.mk.inj hpair
      cases h
      exact ⟨tree', by simp [Tests.del, hs.beside.cmp_eq, hdel], hb⟩
  have hs' : Stands cmp (Tests.mk tree s.cmp (shiftDown (s.arraylen - 1 - i) i s.array) (s.arraylen - 1) s.arraysize)
      (l.eraseIdx i) :=
    ⟨hb, hs.cmp_eq, shows_erase hs.shows hi, (Nat.sub_le _ _).trans hs.size⟩
  have hv := hs'.verify hlaw
  dsimp only at hv
  refine ⟨_, ?_, hs'⟩
  simp [Tests.delpostest, hcell, show s.arraylen ≠ 0 by omega, hdel, hv]

theorem Stands.deltest (hs : Stands cmp s l) {e : α} {seen : List (Report α)}
    (hst : ideal cmp l (.deltest e) = some (l', seen)) :
    ∃ s', s.deltest e = some (s', seen) ∧ Stands cmp s' l' := by
  cases cmp with
  | none => cases hst
  | some c =>
    have hc := hlaw c rfl
    have hsorted := hs.beside.sorted c rfl
    have hfalls := hsorted.falls hc e
    have hlen := hs.shows.1
    have hcmp := hs.cmp_eq
    cases hst
    cases hfind : l.find? (fun x => c e x = 0) with
    | some x =>
      obtain ⟨a, b, hl⟩ := List.append_of_mem (List.mem_of_find?_eq_some hfind)
      have hz : c e x = 0 := by simpa using List.find?_some hfind
      have hturn : Turns (c e) l a.length (a.length + 1) := by
        subst hl
        exact hfalls.turns hz (hsorted.single hc e)
      have hx : l[a.length]? = some x := by
        rw [hl]
        simp
      have hlt : a.length < l.length := (List.getElem?_eq_some_iff.mp hx).1
      obtain ⟨s', hdel, hs'⟩ := hs.delpostest hlaw hlt
      rw [(find_filter hc hsorted hx hz).2]
      refine ⟨s', ?_, hs'⟩
      have hplace := place_eq hlen hs.cell_of hturn
      rw [hlen] at hlt
      simp [Tests.deltest, hcmp, hplace, hlt, hs.cell_of hx, hz, hdel]
    | none =>
      have hne : ∀ x ∈ l, c e x ≠ 0 := by simpa using hfind
      rw [List.filter_eq_self.mpr (by simpa using hne)]
      refine ⟨s, ?_, hs⟩
      have hturn : Turns (c e) l (l.filter fun x => 0 < c e x).length (l.filter fun x => 0 < c e x).length := by
        have := turns_append (f := c e) (l := l.filter fun x => 0 < c e x) (r := l.filter fun x => c e x < 0) (by simp)
          (by simp)
        rwa [← hfalls.split hne] at this
      have hplace := place_eq hlen hs.cell_of hturn
      generalize (l.filter fun x => 0 < c e x).length = k at hturn hplace
      by_cases hk : k < s.arraylen
      · have hy := List.getElem?_eq_getElem (hlen.symm ▸ hk)
        simp [Tests.deltest, hcmp, hplace, hk, hs.cell_of hy, hne _ (List.mem_of_getElem? hy)]
      · simp [Tests.deltest, hcmp, hplace, hk]

end Stands

/-! ## `findtest` -/

section Find
variable {c : α → α → Int} {s : Tests α} {l : List α} {p : α}

/-- The search by halving ends at an equal element, or where the sign turns. -/
theorem halve_spec (hs : Stands (some c) s l) (hf : Falls (c p) l) {lo hi sign : Int} (mid : Int) (h0 : 0 ≤ lo)
    (hi' : hi < l.length) (hle : lo ≤ hi + 1) (hbelow : ∀ (j : Nat) y, l[j]? = some y → (j : Int) < lo → 0 < c p y)
    (habove : ∀ (j : Nat) y, l[j]? = some y → hi < (j : Int) → c p y < 0) (hsign : lo ≤ hi ∨ sign ≠ 0) :
    ∃ lo' hi' mid' sign', halve c p s lo hi mid sign = some (lo', hi', mid', sign') ∧
      ((sign' = 0 ∧ ∃ (i : Nat) (x : α), mid' = i ∧ l[i]? = some x ∧ c p x = 0) ∨
        (sign' ≠ 0 ∧ ∃ i : Nat, lo' = i ∧ hi' = i - 1 ∧ Turns (c p) l i i)) := by
  rw [halve]
  by_cases hlt : lo ≤ hi
  · obtain ⟨i, hmid⟩ : ∃ i : Nat, (lo + hi) / 2 = i := ⟨((lo + hi) / 2).toNat, by omega⟩
    have hilt : i < l.length := by omega
    have hx : l[i]? = some l[i] := List.getElem?_eq_getElem hilt
    have hleft : ∀ (j : Nat) y, l[j]? = some y → j < i → c p l[i] > 0 → 0 < c p y := by
      intro j y hy hji hpos
      obtain ⟨hj, rfl⟩ := List.getElem?_eq_some_iff.mp hy
      have := (List.pairwise_iff_getElem.mp hf j i hj hilt hji).1
      omega
    have hright : ∀ (j : Nat) y, l[j]? = some y → i < j → c p l[i] < 0 → c p y < 0 := by
      intro j y hy hij hneg
      obtain ⟨hj, rfl⟩ := List.getElem?_eq_some_iff.mp hy
      exact (List.pairwise_iff_getElem.mp hf i j hilt hj hij).2 hneg
    have hself : ∀ (j : Nat) y, l[j]? = some y → j = i → y = l[i] := by
      rintro j y hy rfl
      rw [hx] at hy
      exact (Option.some.inj hy).symm
    rw [if_pos hlt]
    dsimp only
    rw [hmid, hs.cell_of hx]
    dsimp only
    by_cases hneg : c p l[i] < 0
    · rw [if_pos hneg]
      refine halve_spec hs hf _ h0 (by omega) (by omega) hbelow (fun j y hy hj => ?_) (.inr hneg.ne)
      rcases Nat.lt_or_ge i j with hij | hij
      · exact hright j y hy hij hneg
      · rw [hself j y hy (by omega)]
        exact hneg
    · rw [if_neg hneg]
      by_cases hpos : 0 < c p l[i]
      · rw [if_pos hpos]
        refine halve_spec hs hf _ (by omega) hi' (by omega) (fun j y hy hj => ?_) habove (.inr hpos.ne')
        rcases Nat.lt_or_ge j i with hji | hji
        · exact hleft j y hy hji hpos
        · rw [hself j y hy (by omega)]
          exact hpos
      · rw [if_neg hpos]
        exact ⟨_, _, _, _, rfl, .inl ⟨by omega, i, l[i], rfl, hx, by omega⟩⟩
  · rw [if_neg hlt]
    refine ⟨_, _, _, _, rfl, .inr ⟨hsign.resolve_left hlt, lo.toNat, by omega, by omega, ?_⟩⟩
    refine ⟨le_rfl, by omega, fun {j y} hy => ?_, fun {j y} hy => ?_⟩
    · have h1 := hbelow j y hy
      have h2 := habove j y hy
      omega
    · have h1 := hbelow j y hy
      have h2 := habove j y hy
      omega
termination_by (hi + 1 - lo).toNat

theorem Stands.index_none (hs : Stands (some c) s l) {i : Int} (hi : i < 0 ∨ (l.length : Int) ≤ i) :
    s.tree.index i = none := by
  rw [hs.beside.holds.index]
  split
  · exact List.getElem?_eq_none (by omega)
  · rfl

/-- Beside an equal element. -/
theorem expected_found (hs : Stands (some c) s l) {i : Nat} {x : α} (hx : l[i]? = some x) (relation : Relation)
    (lo hi : Int) : ∃ mid, s.expected relation lo hi i 0 = some (s.tree.index (relation.place i (i + 1)), mid) ∧
      (s.tree.index (relation.place i (i + 1)) ≠ none → mid = relation.place i (i + 1)) := by
  have hlen := hs.shows.1
  have hi := (List.getElem?_eq_some_iff.mp hx).1
  have hcell : s.cell i = some (s.tree.index i) := hs.cell (by omega) (by omega)
  have hle : ((i + 1 : Nat) : Int) - 1 = i := by omega
  unfold expected
  rw [if_pos rfl]
  cases relation with
  | eq => exact ⟨i, by rw [hcell]; rfl, fun _ => rfl⟩
  | ge => exact ⟨i, by rw [hcell]; rfl, fun _ => rfl⟩
  | le =>
    refine ⟨i, ?_, fun _ => hle.symm⟩
    rw [Relation.place, hle, hcell]
    rfl
  | lt =>
    dsimp only [Relation.place]
    by_cases h : 0 < (i : Int)
    · rw [if_pos h, hs.cell (by omega) (by omega)]
      exact ⟨_, rfl, fun _ => rfl⟩
    · rw [if_neg h, hs.index_none (.inl (by omega))]
      exact ⟨_, rfl, fun h => absurd rfl h⟩
  | gt =>
    dsimp only [Relation.place]
    by_cases h : (i : Int) < s.arraylen - 1
    · rw [if_pos h, hs.cell (by omega) (by omega)]
      exact ⟨_, rfl, fun _ => rfl⟩
    · rw [if_neg h, hs.index_none (.inr (by omega))]
      exact ⟨_, rfl, fun h => absurd rfl h⟩

/-- Where the sign turns. -/
theorem expected_absent (hs : Stands (some c) s l) {i : Nat} (hi : i ≤ l.length) {relation : Relation}
    (hr : relation ≠ .eq) (mid : Int) {sign : Int} (hsign : sign ≠ 0) :
    s.expected relation i (i - 1) mid sign = some (s.tree.index (relation.place i i), relation.place i i) := by
  have hlen := hs.shows.1
  have hleft : (if (0 : Int) ≤ i - 1 then (s.cell (i - 1)).map fun ret => (ret, (i : Int) - 1)
      else some (none, (i : Int) - 1)) = some (s.tree.index (i - 1), (i : Int) - 1) := by
    by_cases h : (0 : Int) ≤ i - 1
    · rw [if_pos h, hs.cell h (by omega)]
      rfl
    · rw [if_neg h, hs.index_none (.inl (by omega))]
  have hright : (if (i : Int) < s.arraylen then (s.cell i).map fun ret => (ret, (i : Int))
      else some (none, (i : Int))) = some (s.tree.index i, (i : Int)) := by
    by_cases h : (i : Int) < s.arraylen
    · rw [if_pos h, hs.cell (by omega) (by omega)]
      rfl
    · rw [if_neg h, hs.index_none (.inr (by omega))]
  unfold expected
  rw [if_neg hsign, if_neg (by omega)]
  cases relation with
  | eq => exact absurd rfl hr
  | lt =>
    rw [if_pos (.inl rfl)]
    exact hleft
  | le =>
    rw [if_pos (.inr rfl)]
    exact hleft
  | gt =>
    rw [if_neg (by simp), if_pos (.inl rfl)]
    exact hright
  | ge =>
    rw [if_neg (by simp), if_pos (.inr rfl)]
    exact hright

theorem findOne_of [DecidableEq α] {relation : Relation} {v : Vars} {lo hi mid sign mid' idx : Int}
    (hh : halve c p s 0 (s.arraylen - 1) v.mid v.c = some (lo, hi, mid, sign))
    (he : s.expected relation lo hi mid sign = some (s.tree.index idx, mid'))
    (hr : s.tree.findrelpos (some p) none relation = some ((s.tree.index idx).map fun x => (x, idx)))
    (hm : s.tree.index idx ≠ none → mid' = idx) :
    ∃ index, s.findOne c p relation v = some (⟨mid', sign, index⟩, []) := by
  cases hx : s.tree.index idx with
  | none =>
    rw [hx] at he hr
    exact ⟨v.index, by simp [findOne, hh, he, hr]⟩
  | some x =>
    have hm := hm (by rw [hx]; exact Option.some_ne_none x)
    rw [hx] at he hr
    exact ⟨idx, by simp [findOne, hh, he, hr, hx, hm]⟩

theorem findOne_silent [DecidableEq α] (hc : Lawful c) (hs : Stands (some c) s l) (relation : Relation) {v : Vars}
    (hv : l ≠ [] ∨ v.c ≠ 0) :
    ∃ v', s.findOne c p relation v = some (v', []) ∧ (l ≠ [] ∨ v'.c ≠ 0) := by
  have hlen := hs.shows.1
  have hsorted := hs.beside.sorted c rfl
  have hfalls := hsorted.falls hc p
  have hsingle := hsorted.single hc p
  have hcompared : s.tree.compared (some p) none relation = some (c p) := by
    rw [Tree.compared, hs.beside.cmp_eq]
    rfl
  have hnil : l = [] ∨ 1 ≤ l.length := by
    cases l with
    | nil => exact .inl rfl
    | cons x l => exact .inr (by simp)
  have hafter : ∀ (j : Nat) y, l[j]? = some y → (s.arraylen : Int) - 1 < j → c p y < 0 := by
    intro j y hy hj
    have := (List.getElem?_eq_some_iff.mp hy).1
    omega
  have hstart : (0 : Int) ≤ s.arraylen - 1 ∨ v.c ≠ 0 := by
    rcases hnil with h | h
    · exact .inr (hv.resolve_left (not_not_intro h))
    · exact .inl (by omega)
  obtain ⟨lo, hi, mid, sign, hh, ⟨rfl, i, x, rfl, hx, hz⟩ | ⟨hsign, i, rfl, rfl, hturn⟩⟩ :=
    halve_spec hs hfalls v.mid le_rfl (by omega : (s.arraylen : Int) - 1 < l.length) (by omega)
      (fun j y hy hj => by omega) hafter hstart
  · have hilt := (List.getElem?_eq_some_iff.mp hx).1
    have hturn : Turns (c p) l i (i + 1) := by
      have hl : l = l.take i ++ x :: l.drop (i + 1) := by
        rw [← (List.getElem?_eq_some_iff.mp hx).2, ← List.drop_eq_getElem_cons hilt, List.take_append_drop]
      have hti : (l.take i).length = i := by
        rw [List.length_take]
        omega
      have := Falls.turns (hl ▸ hfalls) hz (hl ▸ hsingle)
      rwa [← hl, hti] at this
    obtain ⟨mid', he, hm⟩ := expected_found hs hx relation lo hi
    obtain ⟨index, hone⟩ := findOne_of hh he
      (hs.beside.holds.findrelpos_turns hcompared hfalls hsingle hturn fun _ => Nat.lt_succ_self i) hm
    exact ⟨_, hone, .inl (List.ne_nil_of_length_pos (by omega))⟩
  · by_cases hr : relation = .eq
    · subst hr
      have he : s.expected .eq i (i - 1) mid sign = some (s.tree.index (-1), mid) := by
        unfold expected
        rw [if_neg hsign, if_neg (by omega), if_neg (by simp), if_neg (by simp), hs.index_none (.inl (by decide))]
      have hnone := hs.index_none (i := -1) (.inl (by decide))
      obtain ⟨index, hone⟩ := findOne_of hh he
        (by rw [hs.beside.holds.findrelpos_absent hcompared hfalls hturn, hnone]; rfl) (fun h => absurd hnone h)
      exact ⟨_, hone, .inr hsign⟩
    · obtain ⟨index, hone⟩ := findOne_of hh (expected_absent hs hturn.length hr mid hsign)
        (hs.beside.holds.findrelpos_turns hcompared hfalls hsingle hturn fun h => absurd h hr) fun _ => rfl
      exact ⟨_, hone, .inr hsign⟩

theorem findAll_silent [DecidableEq α] (hc : Lawful c) (hs : Stands (some c) s l) (pairs : List (α × Relation))
    {v : Vars} (hv : l ≠ [] ∨ v.c ≠ 0) : ∃ v', s.findAll c pairs v = some (v', []) := by
  induction pairs generalizing v with
  | nil => exact ⟨v, rfl⟩
  | cons pair pairs ih =>
    obtain ⟨p, relation⟩ := pair
    obtain ⟨v₁, hone, hv₁⟩ := findOne_silent (p := p) hc hs relation hv
    obtain ⟨v₂, hall⟩ := ih hv₁
    exact ⟨v₂, by simp [findAll, hone, hall]⟩

theorem findFirst_silent [DecidableEq α] (hs : Stands (some c) s l) (v : Vars) :
    ∃ v', s.findFirst v = some (v', []) := by
  have hlen := hs.shows.1
  cases hx : s.tree.index 0 with
  | none =>
    have hl : l = [] := by
      rw [hs.beside.holds.index, if_pos le_rfl] at hx
      simpa using hx
    have h0 : s.arraylen = 0 := by rw [← hlen, hl, List.length_nil]
    exact ⟨v, by simp [findFirst, hs.beside.holds.findrelpos_first, hx, h0]⟩
  | some x =>
    have h0 : 0 < l.length := by
      rw [hs.beside.holds.index, if_pos le_rfl] at hx
      exact (List.getElem?_eq_some_iff.mp hx).1
    have hcell := hs.cell le_rfl (by omega)
    rw [hx] at hcell
    have hne : s.arraylen ≠ 0 := by omega
    exact ⟨⟨v.mid, v.c, 0⟩, by simp [findFirst, hs.beside.holds.findrelpos_first, hx, hcell, hne]⟩

theorem findLast_silent [DecidableEq α] (hs : Stands (some c) s l) (v : Vars) :
    ∃ v', s.findLast v = some (v', []) := by
  have hlen := hs.shows.1
  by_cases h0 : s.arraylen = 0
  · have hx : s.tree.index ((l.length : Int) - 1) = none := hs.index_none (.inl (by omega))
    exact ⟨v, by simp [findLast, hs.beside.holds.findrelpos_last, hx, h0]⟩
  · have hcell := hs.cell (i := (s.arraylen : Int) - 1) (by omega) (by omega)
    obtain ⟨x, hx⟩ : ∃ x, s.tree.index ((s.arraylen : Int) - 1) = some x := by
      rw [hs.beside.holds.index, if_pos (by omega)]
      exact ⟨_, List.getElem?_eq_getElem (by omega)⟩
    rw [hx] at hcell
    exact ⟨⟨v.mid, v.c, s.arraylen - 1⟩, by simp [findLast, hs.beside.holds.findrelpos_last, hlen, hx, hcell, h0]⟩

theorem Stands.findtest [DecidableEq α] (hc : Lawful c) (hs : Stands (some c) s l) (strings : List α) {v : Vars}
    (hv : l ≠ [] ∨ v.c ≠ 0) : s.findtest strings v = some (s, []) := by
  obtain ⟨v₁, hall⟩ :=
    findAll_silent hc hs (strings.flatMap fun p => rels.map fun relation => (p, relation)) hv
  obtain ⟨v₂, hfirst⟩ := findFirst_silent hs v₁
  obtain ⟨v₃, hlast⟩ := findLast_silent hs v₂
  simp [Tests.findtest, hs.cmp_eq, hall, hfirst, hlast]

end Find

/-! ## All runs -/

section Run
variable {cmp : Option (α → α → Int)} {s : Tests α} {l l' : List α} {call : Call α}
  {calls : List (Call α)} {seen : List (Report α)}

theorem ideal_silent (hst : ideal cmp l call = some (l', seen)) : seen = [] := by
  unfold ideal at hst
  split at hst
  case h_4 =>
    split at hst
    · obtain ⟨r, -, hr⟩ := Option.map_eq_some_iff.mp hst
      exact (congrArg Prod.snd hr).symm
    · cases hst
  case h_5 => exact (congrArg Prod.snd (Option.some.inj hst)).symm
  case h_6 =>
    split at hst
    · exact (congrArg Prod.snd (Option.some.inj hst)).symm
    · cases hst
  case h_7 => cases hst
  case h_2 =>
    obtain ⟨r, -, hr⟩ := Option.map_eq_some_iff.mp hst
    exact (congrArg Prod.snd hr).symm
  case h_1 | h_3 =>
    obtain ⟨-, hst⟩ := Option.ite_none_right_eq_some.mp hst
    obtain ⟨r, -, hr⟩ := Option.map_eq_some_iff.mp hst
    exact (congrArg Prod.snd hr).symm

variable [DecidableEq α] (hlaw : ∀ c, cmp = some c → Lawful c)
include hlaw

/-- Each call prints nothing, and does to the array what it does to the tree. -/
theorem Stands.step (hs : Stands cmp s l) (hst : ideal cmp l call = some (l', seen)) :
    ∃ s', Tests.step s call = some (s', seen) ∧ Stands cmp s' l' := by
  cases call with
  | addtest elem => exact hs.addtest hlaw hst
  | addpostest elem i => exact hs.addpostest hlaw hst
  | deltest elem => exact hs.deltest hlaw hst
  | delpostest i =>
    have hst' : ideal cmp l (.delpostest i) = if i < l.length then some (l.eraseIdx i, []) else none := by
      cases cmp <;> simp [ideal, List234.step]
    rw [hst'] at hst
    by_cases hi : i < l.length
    · rw [if_pos hi] at hst
      cases hst
      exact hs.delpostest hlaw hi
    · rw [if_neg hi] at hst
      cases hst
  | verify =>
    have hst' : ideal cmp l .verify = some (l, []) := by cases cmp <;> rfl
    rw [hst'] at hst
    cases hst
    exact ⟨s, by rw [Tests.step, hs.verify hlaw], hs⟩
  | findtest strings v =>
    cases cmp with
    | none => cases hst
    | some c =>
      obtain ⟨⟨hv, -⟩, hst⟩ := Option.ite_none_right_eq_some.mp hst
      cases hst
      exact ⟨s, hs.findtest (hlaw c rfl) strings hv, hs⟩

/-- Whatever the calls are, nothing is printed, and the array and the tree have the same
    elements. -/
theorem silent_run (he : exec (ideal cmp) [] calls = some (l, seen)) (array : Nat → Option α) (arraysize : Nat) :
    ∃ s, exec Tests.step (new cmp array arraysize) calls = some (s, []) ∧ s.tree.root.toList = l ∧
      Shows s.array s.arraylen l := by
  obtain ⟨s, hs, hstands⟩ := exec_refines (Stands cmp)
    (fun s l call l' seen hs (hst : ideal cmp l call = some (l', seen)) => hs.step hlaw hst) calls
    (stands_new cmp array arraysize) he
  have hnil : seen = [] := by
    refine (reach_of_exec calls he).inv (I := fun _ seen => seen = []) rfl ?_
    rintro l seen call l' o rfl hst
    rw [List.nil_append]
    exact ideal_silent hst
  subst hnil
  exact ⟨s, hs, hstands.beside.holds.list, hstands.shows⟩

end Run

theorem silent_run_ints : ∃ s : Tests Int, exec Tests.step (new (some fun a b => a - b) (fun _ => none) 0)
    [.verify, .addtest 30, .addtest 10, .addtest 10, .findtest [10, 20] ⟨0, 0, 0⟩, .deltest 30, .addtest 20,
      .delpostest 0] =
      some (s, []) ∧ s.tree.root.toList = [20] ∧ Shows s.array s.arraylen [20] := by
  have he : exec (ideal (some fun a b : Int => a - b)) [] [.verify, .addtest 30, .addtest 10, .addtest 10,
      .findtest [10, 20] ⟨0, 0, 0⟩, .deltest 30, .addtest 20, .delpostest 0] = some ([20], []) := rfl
  exact silent_run (by rintro _ ⟨⟩; exact lawful_sub) he _ _

end Tests

end Dumbnose.Tree234
