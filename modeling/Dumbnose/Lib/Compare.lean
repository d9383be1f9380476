/-
  Dumbnose.Lib.Compare — three-way comparisons, and lists that are sorted by one.

  A search compares the thing it looks for with members of a sorted list, and sees a sign
  that falls from left to right: positive where the member is smaller, negative where it
  is greater (`Falls`). That is all a search needs, and it is less than the list being
  sorted by the same comparison: the thing may be of another kind.

  For a lawful comparison the signs of a sorted list fall for everything it is compared
  with (`Sorted.falls`), at most one member compares equal (`Sorted.single`), and a sorted
  list is known by its members (`Sorted.ext`). A new member goes where the sign turns
  (`Sorted.insert`). `Turns f l lo hi` is that place as positions: positive before `lo`,
  negative from `hi` on, zero between.
-/

import Mathlib.Data.List.Sort
import Mathlib.Tactic.Common

namespace Dumbnose.Lib.Compare

variable {α : Type}

structure Lawful (cmp : α → α → Int) : Prop where
  swap : ∀ a b, cmp a b < 0 ↔ 0 < cmp b a
  trans : ∀ a b c, cmp a b ≤ 0 → cmp b c ≤ 0 → cmp a c ≤ 0

def Sorted (cmp : α → α → Int) (l : List α) : Prop := l.Pairwise fun x y => cmp x y < 0

/-- The sign of `f` falls along the list. -/
def Falls (f : α → Int) (l : List α) : Prop := l.Pairwise fun x y => (f x ≤ 0 → f y ≤ 0) ∧ (f x < 0 → f y < 0)

section Lawful
variable {cmp : α → α → Int} (hc : Lawful cmp)
include hc

theorem Lawful.refl (a : α) : cmp a a = 0 := by
  have := hc.swap a a
  omega

theorem Lawful.lt_of_lt_of_le {a b c : α} (h1 : cmp a b < 0) (h2 : cmp b c ≤ 0) : cmp a c < 0 := by
  by_contra hn
  have h3 : ¬ 0 < cmp c a := fun h => hn ((hc.swap a c).mpr h)
  have h4 := hc.trans b c a h2 (by omega)
  have h5 := (hc.swap a b).mp h1
  omega

theorem Lawful.lt_of_le_of_lt {a b c : α} (h1 : cmp a b ≤ 0) (h2 : cmp b c < 0) : cmp a c < 0 := by
  by_contra hn
  have h3 : ¬ 0 < cmp c a := fun h => hn ((hc.swap a c).mpr h)
  have h4 := hc.trans c a b (by omega) h1
  have h5 := (hc.swap b c).mp h2
  omega

theorem Sorted.falls {l : List α} (hs : Sorted cmp l) (e : α) : Falls (cmp e) l :=
  hs.imp fun h => ⟨fun h' => (hc.lt_of_le_of_lt h' h).le, fun h' => hc.lt_of_lt_of_le h' h.le⟩

/-- At most one member compares equal. -/
theorem Sorted.single {l : List α} (hs : Sorted cmp l) (e : α) : l.Pairwise fun x y => cmp e x = 0 → cmp e y ≠ 0 :=
  hs.imp fun h h1 => (hc.lt_of_le_of_lt h1.le h).ne

theorem Sorted.insert {l r : List α} {e : α} (hs : Sorted cmp (l ++ r)) (hl : ∀ x ∈ l, 0 < cmp e x)
    (hr : ∀ x ∈ r, cmp e x < 0) : Sorted cmp (l ++ e :: r) := by
  obtain ⟨h1, h2, h3⟩ := List.pairwise_append.mp hs
  refine List.pairwise_append.mpr ⟨h1, List.pairwise_cons.mpr ⟨hr, h2⟩, fun x hx y hy => ?_⟩
  rcases List.mem_cons.mp hy with rfl | hy
  · exact (hc.swap x y).mpr (hl x hx)
  · exact h3 x hx y hy

/-- A list is sorted if it is up to a member and from that member on. -/
theorem sorted_append_cons_iff {l r : List α} {x : α} :
    Sorted cmp (l ++ x :: r) ↔ Sorted cmp (l ++ [x]) ∧ Sorted cmp (x :: r) := by
  constructor
  · intro hs
    exact ⟨List.Pairwise.sublist (by simp) hs, List.Pairwise.sublist (by simp) hs⟩
  · intro hs
    obtain ⟨h1, -, h2⟩ := List.pairwise_append.mp hs.1
    refine List.pairwise_append.mpr ⟨h1, hs.2, fun a ha b hb => ?_⟩
    have hax : cmp a x < 0 := h2 a ha x (List.mem_singleton_self x)
    rcases List.mem_cons.mp hb with rfl | hb
    · exact hax
    · exact hc.lt_of_lt_of_le hax ((List.pairwise_cons.mp hs.2).1 b hb).le

/-- Sorted lists with the same members are the same. -/
theorem Sorted.ext {l l' : List α} (hs : Sorted cmp l) (hs' : Sorted cmp l') (h : ∀ x, x ∈ l ↔ x ∈ l') : l = l' := by
  have : Std.Irrefl fun x y => cmp x y < 0 := ⟨fun x hx => by have := hc.refl x; omega⟩
  have : Std.Antisymm fun x y => cmp x y < 0 := ⟨fun x y h1 h2 => by have := (hc.swap x y).mp h1; omega⟩
  exact List.Pairwise.eq_of_mem_iff hs hs' h

end Lawful

theorem lawful_sub : Lawful fun a b : Int => a - b :=
  ⟨fun a b => by omega, fun a b c h1 h2 => by omega⟩

theorem Sorted.sublist {cmp : α → α → Int} {l l' : List α} (hs : Sorted cmp l) (h : l'.Sublist l) : Sorted cmp l' :=
  List.Pairwise.sublist h hs

section Falls
variable {f : α → Int} {l r : List α} {x : α}

theorem Falls.of_append (hf : Falls f (l ++ r)) : Falls f l ∧ Falls f r :=
  ⟨(List.pairwise_append.mp hf).1, (List.pairwise_append.mp hf).2.1⟩

theorem Falls.pos (hf : Falls f (l ++ x :: r)) (hx : 0 < f x) : ∀ y ∈ l, 0 < f y := by
  intro y hy
  have := (List.pairwise_append.mp hf).2.2 y hy x List.mem_cons_self
  omega

theorem Falls.neg (hf : Falls f (l ++ x :: r)) (hx : f x < 0) : ∀ y ∈ r, f y < 0 :=
  fun y hy => ((List.pairwise_cons.mp hf.of_append.2).1 y hy).2 hx

/-- Where the sign turns. -/
structure Turns (f : α → Int) (l : List α) (lo hi : Nat) : Prop where
  le : lo ≤ hi
  length : hi ≤ l.length
  pos : ∀ {j : Nat} {y : α}, l[j]? = some y → (0 < f y ↔ j < lo)
  neg : ∀ {j : Nat} {y : α}, l[j]? = some y → (f y < 0 ↔ hi ≤ j)

theorem turns_append (hl : ∀ x ∈ l, 0 < f x) (hr : ∀ x ∈ r, f x < 0) : Turns f (l ++ r) l.length l.length := by
  have h : ∀ {j : Nat} {y : α}, (l ++ r)[j]? = some y → (j < l.length ∧ 0 < f y) ∨ (l.length ≤ j ∧ f y < 0) := by
    intro j y hy
    by_cases hj : j < l.length
    · rw [List.getElem?_append_left hj] at hy
      exact .inl ⟨hj, hl y (List.mem_of_getElem? hy)⟩
    · rw [List.getElem?_append_right (by omega)] at hy
      exact .inr ⟨by omega, hr y (List.mem_of_getElem? hy)⟩
  refine ⟨le_rfl, by simp, fun hy => ?_, fun hy => ?_⟩
  · have := h hy
    omega
  · have := h hy
    omega

/-- A zero with no other beside it. -/
theorem Falls.turns (hf : Falls f (l ++ x :: r)) (hx : f x = 0)
    (h1 : (l ++ x :: r).Pairwise fun x y => f x = 0 → f y ≠ 0) : Turns f (l ++ x :: r) l.length (l.length + 1) := by
  have hl : ∀ y ∈ l, 0 < f y := by
    intro y hy
    have h2 := (List.pairwise_append.mp hf).2.2 y hy x List.mem_cons_self
    have h3 := (List.pairwise_append.mp h1).2.2 y hy x List.mem_cons_self
    omega
  have hr : ∀ y ∈ r, f y < 0 := by
    intro y hy
    have h2 := (List.pairwise_cons.mp (List.pairwise_append.mp hf).2.1).1 y hy
    have h3 := (List.pairwise_cons.mp (List.pairwise_append.mp h1).2.1).1 y hy hx
    omega
  have h : ∀ {j : Nat} {y : α}, (l ++ x :: r)[j]? = some y →
      (j < l.length ∧ 0 < f y) ∨ (j = l.length ∧ f y = 0) ∨ (l.length < j ∧ f y < 0) := by
    intro j y hy
    rcases Nat.lt_trichotomy j l.length with hj | rfl | hj
    · rw [List.getElem?_append_left hj] at hy
      exact .inl ⟨hj, hl y (List.mem_of_getElem? hy)⟩
    · rw [List.getElem?_append_right le_rfl, Nat.sub_self, List.getElem?_cons_zero] at hy
      cases hy
      exact .inr (.inl ⟨rfl, hx⟩)
    · rw [List.getElem?_append_right hj.le, List.getElem?_cons, if_neg (by omega)] at hy
      exact .inr (.inr ⟨hj, hr y (List.mem_of_getElem? hy)⟩)
  refine ⟨Nat.le_succ _, by simp, fun hy => ?_, fun hy => ?_⟩
  · have := h hy
    omega
  · have := h hy
    omega

/-- Where nothing is zero, the positive ones come first. -/
theorem Falls.split (hf : Falls f l) (hne : ∀ x ∈ l, f x ≠ 0) :
    l = (l.filter fun x => 0 < f x) ++ l.filter fun x => f x < 0 := by
  induction l with
  | nil => rfl
  | cons x l ih =>
    obtain ⟨hx, hl⟩ := List.pairwise_cons.mp hf
    have hxne := hne x List.mem_cons_self
    by_cases hpos : 0 < f x
    · rw [List.filter_cons_of_pos (by simpa using hpos), List.filter_cons_of_neg (by simp; omega), List.cons_append,
        ← ih hl fun y hy => hne y (List.mem_cons_of_mem _ hy)]
    · have hneg : ∀ y ∈ x :: l, f y < 0 := by
        intro y hy
        rcases List.mem_cons.mp hy with rfl | hy
        · omega
        · exact (hx y hy).2 (by omega)
      rw [List.filter_eq_nil_iff.mpr fun y hy => by simpa using (hneg y hy).le,
        List.filter_eq_self.mpr (by simpa using hneg), List.nil_append]

/-- Where no other is beside it, there is one place for a zero. -/
theorem zero_unique (h1 : l.Pairwise fun x y => f x = 0 → f y ≠ 0) {i j : Nat} {x y : α} (hx : l[i]? = some x)
    (hy : l[j]? = some y) (h2 : f x = 0) (h3 : f y = 0) : i = j := by
  obtain ⟨hi, rfl⟩ := List.getElem?_eq_some_iff.mp hx
  obtain ⟨hj, rfl⟩ := List.getElem?_eq_some_iff.mp hy
  have hlt := List.pairwise_iff_getElem.mp h1
  rcases Nat.lt_trichotomy i j with h | h | h
  · exact absurd h3 (hlt i j hi hj h h2)
  · exact h
  · exact absurd h2 (hlt j i hj hi h h3)

end Falls

end Dumbnose.Lib.Compare
