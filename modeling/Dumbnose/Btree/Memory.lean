/-
  Dumbnose.Btree.Memory — what the smallest steps of a node's methods do to the file:
  reading and writing a block, following a link, adopting a child.

  Following a link writes: it sets the `file_` of the node it reaches. `Refreshed s t`
  is all that reading operations ever do, `t` is `s` with the `file_` of some
  allocated blocks set to the live `mmap_file`. So a search leaves the file as it was
  once every node has that `file_` (`Refreshed.eq`).
-/

import Mathlib.Tactic.Common
import Dumbnose.Btree.Node

namespace Dumbnose.Btree

open Lib.Exec

variable {K R : Type} {N : Nat}

namespace File

def modify (s : File K R N) (b : Nat) (f : Node K R N → Node K R N) : File K R N :=
  { s with blocks := Function.update s.blocks b (f (s.blocks b)) }

/-- Block `c` is told its parent, through a link: `c = 0` is no child. -/
def adopt (s : File K R N) (c p : Nat) : File K R N :=
  if c = 0 then s else s.modify c fun n => { n with file := s.addr, parentNode := p }

/-- One more block. -/
def allocate (s : File K R N) : File K R N := { s with os := s.os.tail, blockCount := s.blockCount + 1 }

/-- A call of `allocate_block` that threw, having extended the file or not. -/
def refuse (s : File K R N) (extended : Bool) : File K R N :=
  { s with os := s.os.tail, blockCount := if extended then s.blockCount + 1 else s.blockCount }

/-- The system grants the next block. -/
def Grants (s : File K R N) : Prop := ∀ extended os, s.os ≠ .throws extended :: os

/-- Block `c` is reached through a link. -/
def refresh (s : File K R N) (c : Nat) : File K R N := s.modify c fun n => { n with file := s.addr }

@[simp] theorem modify_addr (s : File K R N) (b : Nat) (f) : (s.modify b f).addr = s.addr := rfl
@[simp] theorem modify_blockCount (s : File K R N) (b : Nat) (f) : (s.modify b f).blockCount = s.blockCount := rfl
@[simp] theorem modify_os (s : File K R N) (b : Nat) (f) : (s.modify b f).os = s.os := rfl
@[simp] theorem modify_self (s : File K R N) (b : Nat) (f) : (s.modify b f).blocks b = f (s.blocks b) := by
  simp [modify]

theorem modify_blocks (s : File K R N) (b : Nat) (f) (c : Nat) :
    (s.modify b f).blocks c = if c = b then f (s.blocks b) else s.blocks c := by
  simp [modify, Function.update_apply]

@[simp] theorem modify_ne (s : File K R N) {b c : Nat} (f) (h : c ≠ b) : (s.modify b f).blocks c = s.blocks c := by
  simp [modify_blocks, h]

@[simp] theorem adopt_addr (s : File K R N) (c p : Nat) : (s.adopt c p).addr = s.addr := by unfold adopt; split <;> rfl
@[simp] theorem adopt_blockCount (s : File K R N) (c p : Nat) : (s.adopt c p).blockCount = s.blockCount := by
  unfold adopt; split <;> rfl
@[simp] theorem adopt_os (s : File K R N) (c p : Nat) : (s.adopt c p).os = s.os := by unfold adopt; split <;> rfl

theorem adopt_blocks (s : File K R N) (c p b : Nat) :
    (s.adopt c p).blocks b =
      if b = c ∧ b ≠ 0 then { s.blocks b with file := s.addr, parentNode := p } else s.blocks b := by
  unfold adopt
  split
  · rename_i h; rw [if_neg (by rintro ⟨rfl, h'⟩; exact h' h)]
  · rename_i h
    rw [modify_blocks]
    by_cases e : b = c
    · subst e; simp [h]
    · simp [e]

@[simp] theorem refresh_addr (s : File K R N) (c : Nat) : (s.refresh c).addr = s.addr := rfl
@[simp] theorem refresh_blockCount (s : File K R N) (c : Nat) : (s.refresh c).blockCount = s.blockCount := rfl
@[simp] theorem refresh_os (s : File K R N) (c : Nat) : (s.refresh c).os = s.os := rfl

theorem refresh_setParent (s : File K R N) {c : Nat} (h : c ≠ 0) (p : Nat) :
    ((s.refresh c).modify c fun n => { n with parentNode := p }) = s.adopt c p := by
  simp [refresh, modify, adopt, h]

theorem refresh_blocks (s : File K R N) (c b : Nat) :
    (s.refresh c).blocks b = if b = c then { s.blocks c with file := s.addr } else s.blocks b := by
  rw [refresh, modify_blocks]

@[simp] theorem refresh_thisNode (s : File K R N) (c b : Nat) :
    ((s.refresh c).blocks b).thisNode = (s.blocks b).thisNode := by
  rw [refresh_blocks]; split
  · rename_i e; rw [e]
  · rfl

@[simp] theorem refresh_parentNode (s : File K R N) (c b : Nat) :
    ((s.refresh c).blocks b).parentNode = (s.blocks b).parentNode := by
  rw [refresh_blocks]; split
  · rename_i e; rw [e]
  · rfl

end File

/-! ## Reading operations -/

/-- `t` is `s` after some links were followed. -/
structure Refreshed (s t : File K R N) : Prop where
  addr : t.addr = s.addr
  blockCount : t.blockCount = s.blockCount
  os : t.os = s.os
  blocks : ∀ b, t.blocks b = s.blocks b ∨
    (b ≠ 0 ∧ b < s.blockCount ∧ t.blocks b = { s.blocks b with file := s.addr })

theorem Refreshed.refl (s : File K R N) : Refreshed s s := ⟨rfl, rfl, rfl, fun _ => Or.inl rfl⟩

theorem Refreshed.trans {s t u : File K R N} (h : Refreshed s t) (h' : Refreshed t u) : Refreshed s u := by
  refine ⟨h'.addr.trans h.addr, h'.blockCount.trans h.blockCount, h'.os.trans h.os, fun b => ?_⟩
  rcases h'.blocks b with e' | ⟨h0, hb, e'⟩
  · rw [e']; exact h.blocks b
  · rw [h.blockCount] at hb
    rw [h.addr] at e'
    rcases h.blocks b with e | ⟨-, -, e⟩
    · exact Or.inr ⟨h0, hb, by rw [e', e]⟩
    · exact Or.inr ⟨h0, hb, by rw [e', e]⟩

/-- Every node of the file already points at the live `mmap_file`. -/
def AllHeld (s : File K R N) : Prop := ∀ b, b ≠ 0 → b < s.blockCount → (s.blocks b).file = s.addr

theorem Refreshed.eq {s t : File K R N} (h : Refreshed s t) (ha : AllHeld s) : t = s := by
  have hb : t.blocks = s.blocks := by
    funext b
    rcases h.blocks b with e | ⟨h0, hlt, e⟩
    · exact e
    · rw [e, ← ha b h0 hlt]
  obtain ⟨h1, h2, h3, -⟩ := h
  cases s; cases t
  simp_all

theorem Refreshed.held {s t : File K R N} (h : Refreshed s t) {b : Nat} (hb : (s.blocks b).file = s.addr) :
    (t.blocks b).file = t.addr := by
  rw [h.addr]
  rcases h.blocks b with e | ⟨-, -, e⟩ <;> rw [e]
  exact hb

theorem Refreshed.body {s t : File K R N} (h : Refreshed s t) (b : Nat) :
    (t.blocks b).thisNode = (s.blocks b).thisNode ∧ (t.blocks b).parentNode = (s.blocks b).parentNode ∧
      (t.blocks b).largerNode = (s.blocks b).largerNode ∧ (t.blocks b).recordCount = (s.blocks b).recordCount ∧
      (t.blocks b).entries = (s.blocks b).entries := by
  rcases h.blocks b with e | ⟨-, -, e⟩ <;> rw [e] <;> exact ⟨rfl, rfl, rfl, rfl, rfl⟩

theorem refreshed_refresh {s : File K R N} {c : Nat} (h0 : c ≠ 0) (hc : c < s.blockCount) :
    Refreshed s (s.refresh c) := by
  refine ⟨rfl, rfl, rfl, fun b => ?_⟩
  by_cases e : b = c
  · subst e
    exact Or.inr ⟨h0, hc, by simp [File.refresh]⟩
  · exact Or.inl (by simp [File.refresh, e])

/-! ## The steps -/

section Reads
variable {L : Option Nat} {s : File K R N L} {E : Err → File K R N L → Prop} {this : Nat}

theorem wp_node {Q : Node K R N → File K R N L → Prop} (h : this ≠ 0) :
    wp (node this) Q E s ↔ Q (s.blocks this) s := by
  simp [node, h]

theorem wp_entry {Q : Entry K R → File K R N L → Prop} {i : Nat} {e : Entry K R} (h : this ≠ 0)
    (he : (s.blocks this).entries[i]? = some e) : wp (entry this i) Q E s ↔ Q e s := by
  simp [entry, wp_node h, he]

end Reads

section Steps
variable {s : File K R N} {α : Type} {E : Err → File K R N → Prop} {this : Nat}

theorem wp_update {Q : Unit → File K R N → Prop} {f : Node K R N → Node K R N} (h : this ≠ 0) :
    wp (update this f) Q E s ↔ Q () (s.modify this f) := by
  simp [update, h, File.modify]

theorem wp_setEntry {Q : Unit → File K R N → Prop} {i : Nat} {e : Entry K R} (h : this ≠ 0) (hi : i < N) :
    wp (setEntry this i e) Q E s ↔
      Q () (s.modify this fun n => { n with entries := n.entries.setIfInBounds i e }) := by
  simp [setEntry, hi, wp_update h]

theorem wp_assert {Q : Unit → File K R N → Prop} {c : Prop} [Decidable c] (h : c) :
    wp (assert c) Q E s ↔ Q () s := by
  simp [assert, h]

theorem wp_full {Q : Bool → File K R N → Prop} (h : this ≠ 0) :
    wp (full this) Q E s ↔ Q ((s.blocks this).recordCount == N) s := by
  simp [full, wp_node h]

@[simp] theorem wp_countBlocks {Q : Nat → File K R N → Prop} : wp countBlocks Q E s ↔ Q s.blockCount s := by
  simp [countBlocks, counts_none]

theorem wp_getReference {Q : Unit → File K R N → Prop} {file index : Nat} (hf : file = s.addr)
    (hi : index < s.blockCount) : wp (getReference file index) Q E s ↔ Q () s := by
  simp [getReference, useFile, hf, hi, Nat.not_le.mpr hi]

theorem wp_convertWith {Q : Nat → File K R N → Prop} {file index : Nat} (hf : file = s.addr) (h0 : index ≠ 0)
    (hi : index < s.blockCount) : wp (convertWith file index) Q E s ↔ Q index (s.refresh index) := by
  subst hf
  simp [convertWith, h0, wp_getReference rfl hi, wp_update h0, File.refresh]

theorem wp_convertWith_zero {Q : Nat → File K R N → Prop} {file : Nat} :
    wp (convertWith file 0) Q E s ↔ Q 0 s := by
  simp [convertWith]

theorem wp_convert {Q : Nat → File K R N → Prop} {index : Nat} (h : this ≠ 0)
    (hf : (s.blocks this).file = s.addr) (h0 : index ≠ 0) (hi : index < s.blockCount) :
    wp (convertIndexToPtr this index) Q E s ↔ Q index (s.refresh index) := by
  simp [convertIndexToPtr, wp_node h, wp_convertWith hf h0 hi]

theorem wp_setParentNode {Q : Unit → File K R N → Prop} {p : Nat} (h : this ≠ 0) :
    wp (setParentNode this p) Q E s ↔ Q () (s.modify this fun n => { n with parentNode := p }) := wp_update h

/-- A node tells a child, if there is one, that it is its parent. -/
theorem wp_adopt {Q : Unit → File K R N → Prop} {c : Nat} (h : this ≠ 0) (hf : (s.blocks this).file = s.addr)
    (hc : c ≠ 0 → c < s.blockCount) :
    wp (if c ≠ 0 then do
          let child ← convertIndexToPtr this c
          setParentNode child (← node this).thisNode
        else pure ()) Q E s ↔ Q () (s.adopt c (s.blocks this).thisNode) := by
  by_cases h0 : c = 0
  · simp [h0, File.adopt]
  · simp only [ne_eq, h0, not_false_eq_true, if_true, wp_bind, wp_convert h hf h0 (hc h0), wp_node h,
      wp_setParentNode h0, File.refresh_setParent s h0,
      File.refresh_thisNode]

theorem wp_setLargerNode {Q : Unit → File K R N → Prop} {c : Nat} (h : this ≠ 0)
    (hf : (s.blocks this).file = s.addr) (hc : c ≠ 0 → c < s.blockCount) :
    wp (setLargerNode this c) Q E s ↔
      Q () ((s.modify this fun n => { n with largerNode := c }).adopt c (s.blocks this).thisNode) := by
  rw [setLargerNode, wp_bind, wp_update h, wp_adopt h (by simpa using hf) (by simpa using hc)]
  simp

theorem wp_allocateBlock {Q : Nat → File K R N → Prop} {file : Nat} (hf : file = s.addr) (hg : s.Grants) :
    wp (allocateBlock file) Q E s ↔ Q s.blockCount s.allocate := by
  rcases hos : s.os with _ | ⟨_ | x, os⟩
  · simp [allocateBlock, useFile, hf, hos, File.allocate]
  · simp [allocateBlock, useFile, hf, hos, File.allocate]
  · exact absurd hos (hg x os)

theorem wp_allocateBlock_refused {Q : Nat → File K R N → Prop} {file : Nat} {extended : Bool} {os : List Alloc}
    (hf : file = s.addr) (hos : s.os = .throws extended :: os) :
    wp (allocateBlock file) Q E s ↔ E .allocateBlock (s.refuse extended) := by
  simp [allocateBlock, useFile, hf, hos, File.refuse]

end Steps

end Dumbnose.Btree
