/-
  Dumbnose.Sync.Semaphore — a counting semaphore (`semaphore.hpp`).

  As in Win32: `acquire` waits while the count is zero and takes one from it; a release
  that would take the count past its maximum fails and leaves it as it is.
  `semaphore::release` drops the answer of `ReleaseSemaphore`, so its caller is not told.
-/

import Mathlib.Tactic.Common

namespace Dumbnose.Sync

structure Semaphore where
  maxCount : Nat
  count : Nat
  le : count ≤ maxCount

namespace Semaphore

/-- `CreateSemaphore` with no count. -/
def new (maxCount : Nat) : Semaphore := ⟨maxCount, 0, Nat.zero_le _⟩

/-- `acquire`: `none` while it waits. -/
def acquire (s : Semaphore) : Option Semaphore :=
  if s.count = 0 then none else some ⟨s.maxCount, s.count - 1, by have := s.le; omega⟩

/-- `ReleaseSemaphore(semaphore_, 1, NULL)`: whether it succeeded, and the semaphore after it. -/
def releaseSemaphore (s : Semaphore) : Bool × Semaphore :=
  if h : s.count < s.maxCount then (true, ⟨s.maxCount, s.count + 1, h⟩) else (false, s)

def release (s : Semaphore) : Semaphore := s.releaseSemaphore.2

@[simp] theorem new_count (n : Nat) : (new n).count = 0 := rfl

@[simp] theorem new_maxCount (n : Nat) : (new n).maxCount = n := rfl

@[simp] theorem release_maxCount (s : Semaphore) : s.release.maxCount = s.maxCount := by
  unfold release releaseSemaphore
  by_cases h : s.count < s.maxCount <;> simp [h]

theorem release_count {s : Semaphore} (h : s.count < s.maxCount) : s.release.count = s.count + 1 := by
  unfold release releaseSemaphore
  simp [h]

theorem release_full {s : Semaphore} (h : ¬ s.count < s.maxCount) : s.release = s := by
  unfold release releaseSemaphore
  simp [h]

theorem acquire_eq_some {s t : Semaphore} (h : s.acquire = some t) :
    t.maxCount = s.maxCount ∧ s.count = t.count + 1 := by
  unfold acquire at h
  by_cases e : s.count = 0
  · rw [if_pos e] at h; cases h
  · rw [if_neg e] at h
    obtain rfl := Option.some.inj h
    refine ⟨rfl, ?_⟩
    show s.count = s.count - 1 + 1
    omega

theorem acquire_isSome {s : Semaphore} : s.acquire.isSome = true ↔ s.count ≠ 0 := by
  unfold acquire
  by_cases e : s.count = 0 <;> simp [e]

end Semaphore

end Dumbnose.Sync
