/-
  Dumbnose.Lib.TokenQueue — a queue of items beside a counter of tokens, one for each
  item that may be taken.

  Producer and consumer each move twice. A producer pushes its item and then pays its
  token, or loses it where the counter takes no more. A consumer claims a token and then
  pops an item. Between the two moves of each, the counter and the queue disagree by one:
  `balance` says by how much over all of them, and that an unpaid token is missing for
  good. So a consumer that has claimed finds an item (`never_starved`), and the items come
  out as they went in (`fifo`).
-/

import Dumbnose.Lib.Runs

namespace Dumbnose.Lib.TokenQueue

open Lib.Runs

structure Queue (X : Type) where
  items : List X
  tokens : Nat
  /-- Consumers with a token and no item yet. -/
  claims : Nat
  /-- Producers whose item is in and whose token is not. -/
  debts : Nat
  lost : Nat

inductive Move (X : Type) where
  | push (x : X)
  | pay
  | lose
  | claim
  | pop

inductive Seen (X : Type) where
  | pushed (x : X)
  | popped (x : X)
  /-- A consumer with a token found no item. -/
  | starved
  deriving DecidableEq

variable {X : Type}

def step (q : Queue X) : Move X → Option (Queue X × List (Seen X))
  | .push x => some ({ q with items := q.items ++ [x], debts := q.debts + 1 }, [.pushed x])
  | .pay => if 0 < q.debts then some ({ q with debts := q.debts - 1, tokens := q.tokens + 1 }, []) else none
  | .lose => if 0 < q.debts then some ({ q with debts := q.debts - 1, lost := q.lost + 1 }, []) else none
  | .claim => if 0 < q.tokens then some ({ q with tokens := q.tokens - 1, claims := q.claims + 1 }, []) else none
  | .pop =>
    if 0 < q.claims then
      match q.items with
      | x :: rest => some ({ q with items := rest, claims := q.claims - 1 }, [.popped x])
      | [] => some ({ q with claims := q.claims - 1 }, [.starved])
    else none

def empty : Queue X := ⟨[], 0, 0, 0, 0⟩

def Seen.pushed? : Seen X → Option X
  | .pushed x => some x
  | _ => none

def Seen.popped? : Seen X → Option X
  | .popped x => some x
  | _ => none

/-- The items pushed, in that order. -/
def pushed (h : List (Seen X)) : List X := h.filterMap Seen.pushed?

/-- The items popped, in that order. -/
def popped (h : List (Seen X)) : List X := h.filterMap Seen.popped?

theorem step_cases {q r : Queue X} {m : Move X} {o : List (Seen X)} (h : step q m = some (r, o)) :
    (∃ x, m = .push x ∧ r = { q with items := q.items ++ [x], debts := q.debts + 1 } ∧ o = [.pushed x]) ∨
    (m = .pay ∧ 0 < q.debts ∧ r = { q with debts := q.debts - 1, tokens := q.tokens + 1 } ∧ o = []) ∨
    (m = .lose ∧ 0 < q.debts ∧ r = { q with debts := q.debts - 1, lost := q.lost + 1 } ∧ o = []) ∨
    (m = .claim ∧ 0 < q.tokens ∧ r = { q with tokens := q.tokens - 1, claims := q.claims + 1 } ∧ o = []) ∨
    (∃ x rest, m = .pop ∧ 0 < q.claims ∧ q.items = x :: rest ∧
      r = { q with items := rest, claims := q.claims - 1 } ∧ o = [.popped x]) ∨
    (m = .pop ∧ 0 < q.claims ∧ q.items = [] ∧ r = { q with claims := q.claims - 1 } ∧ o = [.starved]) := by
  cases m with
  | push x => simp [step] at h; exact .inl ⟨x, rfl, h.1.symm, h.2.symm⟩
  | pay =>
    simp [step] at h
    exact .inr (.inl ⟨rfl, h.1, h.2.1.symm, h.2.2⟩)
  | lose =>
    simp [step] at h
    exact .inr (.inr (.inl ⟨rfl, h.1, h.2.1.symm, h.2.2⟩))
  | claim =>
    simp [step] at h
    exact .inr (.inr (.inr (.inl ⟨rfl, h.1, h.2.1.symm, h.2.2⟩)))
  | pop =>
    cases hi : q.items with
    | nil =>
      simp [step, hi] at h
      exact .inr (.inr (.inr (.inr (.inr ⟨rfl, h.1, rfl, h.2.1.symm, h.2.2.symm⟩))))
    | cons x rest =>
      simp [step, hi] at h
      exact .inr (.inr (.inr (.inr (.inl ⟨x, rest, rfl, h.1, rfl, h.2.1.symm, h.2.2.symm⟩))))

/-! ## What every run keeps -/

def Balanced (q : Queue X) : Prop := q.items.length = q.tokens + q.claims + q.debts + q.lost

theorem empty_balanced : Balanced (empty : Queue X) := rfl

theorem step_balanced {q r : Queue X} {m : Move X} {o : List (Seen X)} (hb : Balanced q)
    (h : step q m = some (r, o)) : Balanced r := by
  unfold Balanced at hb ⊢
  rcases step_cases h with ⟨x, -, rfl, -⟩ | ⟨-, hd, rfl, -⟩ | ⟨-, hd, rfl, -⟩ | ⟨-, ht, rfl, -⟩ |
    ⟨x, rest, -, hc, hi, rfl, -⟩ | ⟨-, hc, hi, -, -⟩
  · show (q.items ++ [x]).length = q.tokens + q.claims + (q.debts + 1) + q.lost
    rw [List.length_append, List.length_singleton]; omega
  · show q.items.length = q.tokens + 1 + q.claims + (q.debts - 1) + q.lost; omega
  · show q.items.length = q.tokens + q.claims + (q.debts - 1) + (q.lost + 1); omega
  · show q.items.length = q.tokens - 1 + (q.claims + 1) + q.debts + q.lost; omega
  · show rest.length = q.tokens + (q.claims - 1) + q.debts + q.lost
    rw [hi, List.length_cons] at hb; omega
  -- a claim with nothing queued is against the balance
  · rw [hi, List.length_nil] at hb; omega

theorem Balanced.run {q r : Queue X} {h : List (Seen X)} (hb : Balanced q) (hr : Reach step q r h) : Balanced r :=
  hr.inv_state (I := Balanced) hb fun _ _ _ _ hb hst => step_balanced hb hst

/-- The queue has an item for each token, each claim, each debt and each lost token. -/
theorem balance {q : Queue X} {h : List (Seen X)} (hr : Reach step empty q h) : Balanced q :=
  empty_balanced.run hr

/-- The items come out in the order they went in. -/
theorem fifo {q : Queue X} {h : List (Seen X)} (hr : Reach step empty q h) :
    pushed h = popped h ++ q.items := by
  refine hr.inv (I := fun q h => pushed h = popped h ++ q.items) rfl fun q h m r o hq hst => ?_
  unfold pushed popped at hq ⊢
  rw [List.filterMap_append, List.filterMap_append, hq]
  rcases step_cases hst with ⟨x, -, rfl, rfl⟩ | ⟨-, -, rfl, rfl⟩ | ⟨-, -, rfl, rfl⟩ | ⟨-, -, rfl, rfl⟩ |
    ⟨x, rest, -, -, hi, rfl, rfl⟩ | ⟨-, -, -, rfl, rfl⟩
  · simp [Seen.pushed?, Seen.popped?]
  · simp
  · simp
  · simp
  · simp [Seen.pushed?, Seen.popped?, hi]
  · show popped h ++ q.items ++ [] = popped h ++ [] ++ q.items
    rw [List.append_nil, List.append_nil]

theorem never_starved {q : Queue X} {h : List (Seen X)} (hr : Reach step empty q h) : Seen.starved ∉ h := by
  refine (hr.inv (I := fun q h => Balanced q ∧ Seen.starved ∉ h) ⟨empty_balanced, List.not_mem_nil⟩
    fun q h m r o hq hst => ⟨step_balanced hq.1 hst, fun hm => ?_⟩).2
  rcases List.mem_append.mp hm with hm | hm
  · exact hq.2 hm
  have hb : q.items.length = q.tokens + q.claims + q.debts + q.lost := hq.1
  rcases step_cases hst with ⟨x, -, -, rfl⟩ | ⟨-, -, -, rfl⟩ | ⟨-, -, -, rfl⟩ | ⟨-, -, -, rfl⟩ |
    ⟨x, rest, -, -, -, -, rfl⟩ | ⟨-, hc, hi, -, rfl⟩
  · simp at hm
  · simp at hm
  · simp at hm
  · simp at hm
  · simp at hm
  · rw [hi, List.length_nil] at hb
    omega

end Dumbnose.Lib.TokenQueue
