/-
  Dumbnose.Btree.Pages — what a file says of a tree, and what each method of a node
  does to it.

  `Pages` forgets the slack of the arrays and the `file_` pointers: the numbers each
  block stores (its own, its parent's, its larger child's) and its records. Each
  method is stated as what it makes of the pages (`Does`, `Makes`), in the order
  the code writes, so a method's caller never looks inside it. Beside the pages a
  method keeps what a later step relies on (`Keeps`): a node that points at the live
  `mmap_file` goes on doing so, a record count within the array stays within it,
  and a node without records has no link in its first entry.
-/

import Dumbnose.Btree.Search

namespace Dumbnose.Btree

open Lib.Exec Lib.Gaps

variable {K R : Type} {N : Nat}

@[ext] structure Pages (K R : Type) where
  this : Nat → Nat
  parent : Nat → Nat
  larger : Nat → Nat
  recs : Nat → List (Entry K R)

namespace Pages

/-- The blocks `cs` are told that `p` is their parent; a null link tells nobody. -/
def adopt (P : Pages K R) (cs : List Nat) (p : Nat) : Pages K R :=
  { P with parent := fun b => if b ∈ cs ∧ b ≠ 0 then p else P.parent b }

def setRecs (P : Pages K R) (b : Nat) (es : List (Entry K R)) : Pages K R :=
  { P with recs := Function.update P.recs b es }

def setLarger (P : Pages K R) (b c : Nat) : Pages K R := { P with larger := Function.update P.larger b c }

/-- A node without records is constructed in block `b`. -/
def make (P : Pages K R) (b parent : Nat) : Pages K R :=
  { P with this := Function.update P.this b b, parent := Function.update P.parent b parent,
           recs := Function.update P.recs b [] }

/-- What `split_node` leaves: block `x` holding `as :: mid :: bs` keeps `as`, block `y`
    gets `bs`, and `mid` is on its way up. In the order the code writes. -/
def splitNode (P : Pages K R) (x y : Nat) (as : List (Entry K R)) (mid : Entry K R)
    (bs : List (Entry K R)) : Pages K R :=
  (((((((P.make y (P.parent x)).setRecs y bs).adopt (bs.map Entry.smallerNode) y).setLarger y (P.larger x)).adopt
    [P.larger x] y).setLarger x mid.smallerNode).adopt [mid.smallerNode] (P.this x)).setRecs x as

theorem adopt_nil (P : Pages K R) (p : Nat) : P.adopt [] p = P := by simp [adopt]

theorem adopt_adopt (P : Pages K R) (cs ds : List Nat) (p : Nat) :
    (P.adopt cs p).adopt ds p = P.adopt (cs ++ ds) p := by
  ext b <;> try rfl
  by_cases h0 : b = 0
  · simp [adopt, h0]
  · by_cases h1 : b ∈ cs <;> by_cases h2 : b ∈ ds <;> simp [adopt, h0, h1, h2]

@[simp] theorem adopt_this (P : Pages K R) (cs : List Nat) (p : Nat) : (P.adopt cs p).this = P.this := rfl
@[simp] theorem adopt_larger (P : Pages K R) (cs : List Nat) (p : Nat) : (P.adopt cs p).larger = P.larger := rfl
@[simp] theorem adopt_recs (P : Pages K R) (cs : List Nat) (p : Nat) : (P.adopt cs p).recs = P.recs := rfl
@[simp] theorem setRecs_this (P : Pages K R) (b : Nat) (es) : (P.setRecs b es).this = P.this := rfl
@[simp] theorem setRecs_parent (P : Pages K R) (b : Nat) (es) : (P.setRecs b es).parent = P.parent := rfl
@[simp] theorem setRecs_larger (P : Pages K R) (b : Nat) (es) : (P.setRecs b es).larger = P.larger := rfl
@[simp] theorem setRecs_recs (P : Pages K R) (b : Nat) (es) : (P.setRecs b es).recs b = es := by simp [setRecs]
theorem setRecs_recs_ne (P : Pages K R) {b c : Nat} (es) (h : c ≠ b) : (P.setRecs b es).recs c = P.recs c := by
  simp [setRecs, h]
@[simp] theorem make_this (P : Pages K R) (b p : Nat) : (P.make b p).this b = b := by simp [make]
theorem make_this_ne (P : Pages K R) {b c : Nat} (p : Nat) (h : c ≠ b) : (P.make b p).this c = P.this c := by
  simp [make, h]
@[simp] theorem setLarger_this (P : Pages K R) (b c : Nat) : (P.setLarger b c).this = P.this := rfl
@[simp] theorem setLarger_parent (P : Pages K R) (b c : Nat) : (P.setLarger b c).parent = P.parent := rfl
@[simp] theorem setLarger_recs (P : Pages K R) (b c : Nat) : (P.setLarger b c).recs = P.recs := rfl

theorem setRecs_self (P : Pages K R) (b : Nat) : P.setRecs b (P.recs b) = P := by simp [setRecs]

theorem setLarger_self (P : Pages K R) (b : Nat) : P.setLarger b (P.larger b) = P := by simp [setLarger]

theorem setRecs_setRecs (P : Pages K R) (b : Nat) (es es') : (P.setRecs b es).setRecs b es' = P.setRecs b es' := by
  simp [setRecs]

theorem adopt_setRecs (P : Pages K R) (cs : List Nat) (p b : Nat) (es) :
    (P.adopt cs p).setRecs b es = (P.setRecs b es).adopt cs p := rfl

end Pages

/-- What the file says. -/
def File.pages {L : Option Nat} (s : File K R N L) : Pages K R where
  this b := (s.blocks b).thisNode
  parent b := (s.blocks b).parentNode
  larger b := (s.blocks b).largerNode
  recs b := (s.blocks b).recs

/-- A node without records has no link in its first entry. -/
def Stub (n : Node K R N) : Prop := n.recordCount = 0 → ∀ e, n.entries[0]? = some e → e.smallerNode = 0

structure Keeps (s t : File K R N) : Prop where
  addr : t.addr = s.addr
  held : ∀ b, (s.blocks b).file = s.addr → (t.blocks b).file = s.addr
  bounded : ∀ b, (s.blocks b).recordCount ≤ N → (t.blocks b).recordCount ≤ N
  stub : ∀ b, Stub (s.blocks b) → Stub (t.blocks b)

/-- `t` is `s` with pages `P`, no block allocated. -/
structure Does (s t : File K R N) (P : Pages K R) : Prop extends Keeps s t where
  pages : t.pages = P
  blockCount : t.blockCount = s.blockCount
  os : t.os = s.os

/-- `t` is `s` with pages `P` and `n` more blocks, nodes that point at the live file. -/
structure Makes (n : Nat) (s t : File K R N) (P : Pages K R) : Prop extends Keeps s t where
  pages : t.pages = P
  blockCount : t.blockCount = s.blockCount + n
  os : t.os = s.os.drop n
  fresh : ∀ b, s.blockCount ≤ b → b < s.blockCount + n →
    (t.blocks b).file = s.addr ∧ (t.blocks b).recordCount ≤ N ∧ Stub (t.blocks b)

theorem Keeps.refl (s : File K R N) : Keeps s s := ⟨rfl, fun _ h => h, fun _ h => h, fun _ h => h⟩

theorem Keeps.trans {s t u : File K R N} (h : Keeps s t) (h' : Keeps t u) : Keeps s u :=
  ⟨h'.addr.trans h.addr, fun b hb => by have := h'.held b (by rw [h.addr]; exact h.held b hb); rwa [h.addr] at this,
    fun b hb => h'.bounded b (h.bounded b hb), fun b hb => h'.stub b (h.stub b hb)⟩

theorem Does.trans {s t u : File K R N} {P P' : Pages K R} (h : Does s t P) (h' : Does t u P') : Does s u P' :=
  ⟨h.toKeeps.trans h'.toKeeps, h'.pages, h'.blockCount.trans h.blockCount, h'.os.trans h.os⟩

theorem Makes.trans {n m : Nat} {s t u : File K R N} {P P' : Pages K R} (h : Makes n s t P) (h' : Makes m t u P') :
    Makes (n + m) s u P' := by
  refine ⟨h.toKeeps.trans h'.toKeeps, h'.pages, by rw [h'.blockCount, h.blockCount]; omega,
    by rw [h'.os, h.os, List.drop_drop], fun b h1 h2 => ?_⟩
  rw [← h.addr]
  by_cases e : b < t.blockCount
  · obtain ⟨h3, h4, h5⟩ := h.fresh b h1 (h.blockCount ▸ e)
    exact ⟨h'.held b (h3.trans h.addr.symm), h'.bounded b h4, h'.stub b h5⟩
  · exact h'.fresh b (by omega) (by rw [h.blockCount]; omega)

theorem Does.toMakes {s t : File K R N} {P : Pages K R} (h : Does s t P) : Makes 0 s t P :=
  ⟨h.toKeeps, h.pages, h.blockCount, h.os, fun b h1 h2 => absurd h1 (by omega)⟩

theorem Makes.does {n : Nat} {s t u : File K R N} {P P' : Pages K R} (h : Makes n s t P) (h' : Does t u P') :
    Makes n s u P' := h.trans h'.toMakes

theorem Does.refl (s : File K R N) : Does s s s.pages := ⟨.refl s, rfl, rfl, rfl⟩

theorem Refreshed.does {s t : File K R N} (h : Refreshed s t) : Does s t s.pages := by
  have hb := h.body
  refine ⟨⟨h.addr, fun b e => h.addr ▸ h.held e, fun b e => ?_, fun b e => ?_⟩, ?_, h.blockCount, h.os⟩
  · rw [(hb b).2.2.2.1]; exact e
  · rw [Stub, (hb b).2.2.2.1, (hb b).2.2.2.2]; exact e
  ext b : 2
  · exact (hb b).1
  · exact (hb b).2.1
  · exact (hb b).2.2.1
  · show (t.blocks b).recs = (s.blocks b).recs
    rw [Node.recs, (hb b).2.2.2.1, (hb b).2.2.2.2]; rfl

/-! ## Single writes -/

theorem pages_recs {s : File K R N} {b : Nat} : s.pages.recs b = (s.blocks b).recs := rfl
theorem pages_larger {s : File K R N} {b : Nat} : s.pages.larger b = (s.blocks b).largerNode := rfl
theorem pages_this {s : File K R N} {b : Nat} : s.pages.this b = (s.blocks b).thisNode := rfl
theorem pages_parent {s : File K R N} {b : Nat} : s.pages.parent b = (s.blocks b).parentNode := rfl

theorem pages_modify (s : File K R N) (b : Nat) (f : Node K R N → Node K R N) :
    (s.modify b f).pages =
      { this := Function.update s.pages.this b (f (s.blocks b)).thisNode
        parent := Function.update s.pages.parent b (f (s.blocks b)).parentNode
        larger := Function.update s.pages.larger b (f (s.blocks b)).largerNode
        recs := Function.update s.pages.recs b (f (s.blocks b)).recs } := by
  ext c : 2 <;> simp only [File.pages, File.modify_blocks, Function.update_apply] <;> split <;> rfl

/-- A write of records only. -/
theorem pages_modify_recs (s : File K R N) (b : Nat) (f : Node K R N → Node K R N)
    (h1 : (f (s.blocks b)).thisNode = (s.blocks b).thisNode)
    (h2 : (f (s.blocks b)).parentNode = (s.blocks b).parentNode)
    (h3 : (f (s.blocks b)).largerNode = (s.blocks b).largerNode) :
    (s.modify b f).pages = s.pages.setRecs b (f (s.blocks b)).recs := by
  rw [pages_modify, h1, h2, h3, ← pages_this, ← pages_parent, ← pages_larger]
  simp [Pages.setRecs]

theorem pages_adopt (s : File K R N) (c p : Nat) : (s.adopt c p).pages = s.pages.adopt [c] p := by
  ext b : 2 <;> simp only [File.pages, File.adopt_blocks, Pages.adopt, List.mem_singleton] <;> split <;> rfl

theorem Keeps.modify {s : File K R N} {b : Nat} {f : Node K R N → Node K R N}
    (h1 : (s.blocks b).file = s.addr → (f (s.blocks b)).file = s.addr)
    (h2 : (s.blocks b).recordCount ≤ N → (f (s.blocks b)).recordCount ≤ N)
    (h3 : Stub (s.blocks b) → Stub (f (s.blocks b))) : Keeps s (s.modify b f) := by
  refine ⟨rfl, fun c => ?_, fun c => ?_, fun c => ?_⟩ <;> rw [File.modify_blocks] <;> split
  · rename_i e; subst e; exact h1
  · exact id
  · rename_i e; subst e; exact h2
  · exact id
  · rename_i e; subst e; exact h3
  · exact id

theorem Keeps.adopt (s : File K R N) (c p : Nat) : Keeps s (s.adopt c p) := by
  refine ⟨by simp, fun b h => ?_, fun b h => ?_, fun b h => ?_⟩ <;> rw [File.adopt_blocks] <;> split <;>
    first | rfl | exact h

theorem Does.adopt (s : File K R N) (c p : Nat) : Does s (s.adopt c p) (s.pages.adopt [c] p) :=
  ⟨.adopt s c p, pages_adopt s c p, by simp, by simp⟩

/-- A write to the entries of a node and telling a child of its parent do not meet. -/
theorem File.modify_adopt (s : File K R N) (b c p : Nat) (f : Node K R N → Node K R N)
    (hf : ∀ n a q, f { n with file := a, parentNode := q } = { f n with file := a, parentNode := q }) :
    (s.modify b f).adopt c p = (s.adopt c p).modify b f := by
  unfold File.adopt
  split
  · rfl
  · by_cases e : c = b
    · subst e
      simp only [File.modify, Function.update_self, Function.update_idem]
      rw [hf (s.blocks c) s.addr p]
    · simp only [File.modify, Function.update_of_ne e, Function.update_of_ne (Ne.symm e)]
      rw [Function.update_comm e]

theorem File.modify_modify (s : File K R N) (b : Nat) (f g : Node K R N → Node K R N) :
    (s.modify b f).modify b g = s.modify b fun n => g (f n) := by
  simp [File.modify]

end Dumbnose.Btree
