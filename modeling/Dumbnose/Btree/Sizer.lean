/-
  Dumbnose.Btree.Sizer — the search for the capacity of a node, at compile time
  (`node_max_sizer`).

  Each instantiation takes the size of a node with its capacity and of one with a record
  more, and goes on from there with half the step. `nodeMaxSizerFrom` is that over the
  integers, with all capacities it takes the size of: a node with a capacity below 1 does
  not compile.

  The sizes grow with the capacity and nothing else is known of them. `sizer_optimal`: the
  search ends at the one capacity that fits where the next does not, and comes by no
  capacity below 1.
-/

import Dumbnose.Lib.Halving
import Dumbnose.Btree.Tree

namespace Dumbnose.Btree

open Lib.Halving

/-- `node_max_sizer`, instantiated at most `fuel` deep: the capacities whose nodes it
    takes the size of, and the one it selects. -/
def nodeMaxSizerFrom (size : Int → Nat) (maxSize : Nat) : Nat → Int → Int → List Int × Option Int
  | 0, _, _ => ([], none)
  | fuel + 1, recordsPerNode, step =>
    let step := if step ≤ 1 then 1 else step / 2
    let rest :=
      if size recordsPerNode ≤ maxSize ∧ size (recordsPerNode + 1) > maxSize then ([], some recordsPerNode)
      else if size recordsPerNode < maxSize then nodeMaxSizerFrom size maxSize fuel (recordsPerNode + step) step
      else nodeMaxSizerFrom size maxSize fuel (recordsPerNode - step) step
    (recordsPerNode :: (recordsPerNode + 1) :: rest.1, rest.2)

/-- The sizes of the nodes that compile. -/
def Growing (size : Int → Nat) : Prop := ∀ a b, 1 ≤ a → a < b → size a < size b

/-- The search ends at `n`, and every capacity it comes by compiles. -/
def Selects (size : Int → Nat) (maxSize : Nat) (n : Int) (fuel : Nat) (recordsPerNode step : Int) : Prop :=
  ∃ capacities, nodeMaxSizerFrom size maxSize fuel recordsPerNode step = (capacities, some n) ∧ ∀ c ∈ capacities, 1 ≤ c

theorem Selects.here {size : Int → Nat} {maxSize : Nat} {n : Int} (hn : 1 ≤ n) (hfits : size n ≤ maxSize)
    (hnext : maxSize < size (n + 1)) (fuel : Nat) (step : Int) : Selects size maxSize n (fuel + 1) n step := by
  refine ⟨[n, n + 1], ?_, ?_⟩
  · rw [nodeMaxSizerFrom, if_pos ⟨hfits, hnext⟩]
  · simp only [List.mem_cons, List.not_mem_nil, or_false]
    omega

section Moves
variable {size : Int → Nat} {maxSize fuel : Nat} {n c step : Int} (hs : Growing size)
include hs

/-- A capacity below the one that is sought fits, and so does the next. -/
theorem Selects.up (hfits : size n ≤ maxSize) (h1 : 1 ≤ c) (hc : c < n)
    (h : Selects size maxSize n fuel (c + next step) (next step)) : Selects size maxSize n (fuel + 1) c step := by
  obtain ⟨capacities, h, hpos⟩ := h
  have hlt : size c < size n := hs c n h1 hc
  have hle : size (c + 1) ≤ size n := by
    rcases Int.lt_or_eq_of_le hc with e | e
    · exact (hs _ _ (by omega) e).le
    · exact (congrArg size e).le
  refine ⟨c :: (c + 1) :: capacities, ?_, ?_⟩
  · rw [nodeMaxSizerFrom, if_neg (by omega), if_pos (by omega), ← next, h]
  · simp only [List.mem_cons]
    rintro d (rfl | rfl | hd)
    · exact h1
    · omega
    · exact hpos d hd

/-- A capacity above it does not fit. -/
theorem Selects.down (hn : 1 ≤ n) (hnext : maxSize < size (n + 1)) (hc : n < c)
    (h : Selects size maxSize n fuel (c - next step) (next step)) : Selects size maxSize n (fuel + 1) c step := by
  obtain ⟨capacities, h, hpos⟩ := h
  have hle : size (n + 1) ≤ size c := by
    rcases Int.lt_or_eq_of_le hc with e | e
    · exact (hs _ _ (by omega) e).le
    · exact (congrArg size e).le
  refine ⟨c :: (c + 1) :: capacities, ?_, ?_⟩
  · rw [nodeMaxSizerFrom, if_neg (by omega), if_neg (by omega), ← next, h]
  · simp only [List.mem_cons]
    rintro d (rfl | rfl | hd)
    · omega
    · omega
    · exact hpos d hd

end Moves

theorem exists_selects {size : Int → Nat} {maxSize : Nat} {n : Int} (hM : 2 ≤ maxSize) (hs : Growing size) (hn : 1 ≤ n)
    (hfits : size n ≤ maxSize) (hnext : maxSize < size (n + 1)) :
    ∃ fuel, Selects size maxSize n fuel (maxSize / 2) (maxSize / 2) := by
  have hnear : Near 1 (max maxSize n) n (maxSize / 2) (maxSize / 2) := by
    constructor <;> omega
  refine ⟨_, walk (P := Selects size maxSize n) hn (by omega) (Selects.here hn hfits hnext) ?_ ?_ hnear (Nat.le_refl _)⟩
  · intro f c step _ h1 hc h
    exact h.up hs hfits h1 hc
  · intro f c step _ hc _ h
    exact h.down hs hn hnext hc

/-- The search selects the greatest capacity that fits, after finitely many
    instantiations, and takes the size of no node with a capacity below 1. -/
theorem sizer_optimal {size : Int → Nat} {maxSize : Nat} {n : Int} (hM : 2 ≤ maxSize) (hs : Growing size) (hn : 1 ≤ n)
    (hfits : size n ≤ maxSize) (hnext : maxSize < size (n + 1)) :
    ∃ fuel capacities, nodeMaxSizerFrom size maxSize fuel (maxSize / 2) (maxSize / 2) = (capacities, some n) ∧
      ∀ c ∈ capacities, 1 ≤ c :=
  exists_selects hM hs hn hfits hnext

/-- 16 bytes and 12 for each record: seven records fit in 100 bytes. -/
theorem sizer_optimal_seven : ∃ fuel capacities,
    nodeMaxSizerFrom (fun c => 16 + 12 * c.toNat) 100 fuel 50 50 = (capacities, some 7) ∧ ∀ c ∈ capacities, 1 ≤ c :=
  @sizer_optimal _ 100 7 (by decide) (fun a b ha hab => by omega) (by decide) (by decide) (by decide)

/-! ## Over the natural numbers -/

section Nat
variable {size : Nat → Nat} {maxSize fuel : Nat} {n : Int}

theorem mem_nodeMaxSizerFrom {r step : Int}
    (h : (nodeMaxSizerFrom (fun c => size c.toNat) maxSize fuel r step).2 = some n) :
    r ∈ (nodeMaxSizerFrom (fun c => size c.toNat) maxSize fuel r step).1 := by
  cases fuel with
  | zero => cases h
  | succ fuel => simp [nodeMaxSizerFrom]

/-- Where all capacities are positive no difference is cut off at zero. -/
theorem nodeMaxSizer_eq {r step : Nat} (h : (nodeMaxSizerFrom (fun c => size c.toNat) maxSize fuel r step).2 = some n)
    (hpos : ∀ c ∈ (nodeMaxSizerFrom (fun c => size c.toNat) maxSize fuel r step).1, 1 ≤ c) :
    nodeMaxSizer size maxSize fuel r step = some n.toNat := by
  induction fuel generalizing r step with
  | zero => cases h
  | succ fuel ih =>
    have hstep : (if (step : Int) ≤ 1 then 1 else (step : Int) / 2) =
        ((if step ≤ 1 then 1 else step / 2 : Nat) : Int) := by
      split <;> split <;> omega
    have hsize : size ((r : Int) + 1).toNat = size (r + 1) := rfl
    rw [nodeMaxSizerFrom, hstep] at h hpos
    rw [nodeMaxSizer]
    generalize (if step ≤ 1 then 1 else step / 2) = st at h hpos ⊢
    simp only [Int.toNat_natCast, hsize] at h hpos ⊢
    by_cases e : size r ≤ maxSize ∧ size (r + 1) > maxSize
    · rw [if_pos e] at h ⊢
      obtain rfl := Option.some.inj h
      rfl
    · rw [if_neg e] at h hpos ⊢
      by_cases e' : size r < maxSize
      · rw [if_pos e'] at h hpos ⊢
        exact ih h fun c hc => hpos c (List.mem_cons_of_mem _ (List.mem_cons_of_mem _ hc))
      · rw [if_neg e'] at h hpos ⊢
        have hle := hpos _ (List.mem_cons_of_mem _ (List.mem_cons_of_mem _ (mem_nodeMaxSizerFrom h)))
        have hsub : (r : Int) - st = ((r - st : Nat) : Int) := by omega
        rw [hsub] at h hpos
        exact ih h fun c hc => hpos c (List.mem_cons_of_mem _ (List.mem_cons_of_mem _ hc))

/-- What is selected fits, and a record more does not, whatever the sizes are. -/
theorem nodeMaxSizer_fits {m step n : Nat}
    (h : nodeMaxSizer size maxSize fuel m step = some n) : size n ≤ maxSize ∧ maxSize < size (n + 1) := by
  induction fuel generalizing m step with
  | zero => cases h
  | succ fuel ih =>
    unfold nodeMaxSizer at h
    simp only at h
    split at h
    · obtain rfl := Option.some.inj h
      assumption
    · split at h <;> exact ih h

theorem nodeMaxSizer_returns {n : Nat} (hM : 2 ≤ maxSize) (hs : ∀ a b, 1 ≤ a → a < b → size a < size b) (hn : 1 ≤ n)
    (hfits : size n ≤ maxSize) (hnext : maxSize < size (n + 1)) :
    ∃ fuel, nodeMaxSizer size maxSize fuel (maxSize / 2) (maxSize / 2) = some n := by
  have hgrow : Growing fun c => size c.toNat := fun a b ha hab => hs _ _ (by omega) (by omega)
  obtain ⟨fuel, capacities, h, hpos⟩ := exists_selects hM hgrow (n := n) (by omega) hfits hnext
  refine ⟨fuel, nodeMaxSizer_eq (n := n) ?_ ?_⟩
  · rw [Int.natCast_ediv]
    exact congrArg Prod.snd h
  · rw [Int.natCast_ediv]
    exact (congrArg Prod.fst h).symm ▸ hpos

end Nat

end Dumbnose.Btree
