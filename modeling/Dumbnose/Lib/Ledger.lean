/-
  Dumbnose.Lib.Ledger — things that are opened and closed, and a ledger of it.

  `Kept ledger live`: every thing was opened once more than it was closed if it is
  `live`, and as often if it is not. A thing may be opened again after it was closed.
  Where nothing is live any more, everything was closed as often as it was opened
  (`Kept.settled`).

  The rules: one for each entry (`Kept.open`, `Kept.close`), and the live things in
  another order (`Kept.perm`). There are no others that the ledger could be of
  (`Kept.live_perm`).
-/

import Mathlib.Data.List.Basic
import Mathlib.Data.List.Perm.Basic

namespace Dumbnose.Lib.Ledger

variable {α : Type} [DecidableEq α]

inductive Entry (α : Type) where
  | opened (a : α)
  | closed (a : α)
  deriving DecidableEq, Repr

structure Kept (ledger : List (Entry α)) (live : List α) : Prop where
  nodup : live.Nodup
  balance : ∀ a, ledger.count (.opened a) = ledger.count (.closed a) + live.count a

theorem Kept.nil : Kept ([] : List (Entry α)) [] := ⟨List.nodup_nil, fun _ => rfl⟩

section Kept
variable {ledger : List (Entry α)} {live : List α} (h : Kept ledger live) {a : α}
include h

theorem Kept.perm {live' : List α} (hp : live.Perm live') : Kept ledger live' :=
  ⟨hp.nodup_iff.mp h.nodup, fun a => by rw [h.balance, hp.count_eq]⟩

theorem Kept.open (ha : a ∉ live) : Kept (ledger ++ [.opened a]) (a :: live) := by
  refine ⟨List.nodup_cons.mpr ⟨ha, h.nodup⟩, fun b => ?_⟩
  rw [List.count_append, List.count_append, h.balance b]
  by_cases e : a = b
  · subst e; simp; omega
  · simp [e]

/-- The ledger tells what is live. -/
theorem Kept.live_perm {live' : List α} (h' : Kept ledger live') : live.Perm live' := by
  refine List.perm_iff_count.mpr fun a => ?_
  have := h.balance a
  have := h'.balance a
  omega

theorem Kept.close (ha : a ∈ live) : Kept (ledger ++ [.closed a]) (live.erase a) := by
  refine ⟨h.nodup.erase a, fun b => ?_⟩
  rw [List.count_append, List.count_append, h.balance b]
  by_cases e : a = b
  · subst e
    have := List.count_pos_iff.mpr ha
    simp; omega
  · simp [e, List.count_erase_of_ne (Ne.symm e)]

end Kept

theorem Kept.settled {ledger : List (Entry α)} (h : Kept ledger []) (a : α) :
    ledger.count (.closed a) = ledger.count (.opened a) := (h.balance a).symm

end Dumbnose.Lib.Ledger
