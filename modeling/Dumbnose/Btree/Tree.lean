/-
  Dumbnose.Btree.Tree — the B-tree object (`btree/btree.hpp`) over its file.

  The object holds the file and a pointer to the root. `create` is its constructor:
  on a file with blocks it starts from block 1 and follows parent links, on a new
  file it makes the first node. An exception out of a node's method leaves the
  object with the pointer it had (`insert` refreshes it only when it returns).

  A run is a list of operations, each answering; an operation that throws leaves the
  tree to the next one. A session may also close the tree and open it again: the
  bytes of the file stay, the `mmap_file` object has a new address.
-/

import Dumbnose.Btree.Node

namespace Dumbnose.Btree

open Lib.Exec

structure Tree (K R : Type) (N : Nat) (L : Option Nat := none) where
  file : File K R N L
  root : Nat

variable {K R α : Type} {N : Nat} {L : Option Nat}

/-- A node's method, called from the tree object. -/
def onFile (x : M K R N L α) : EStateM Err (Tree K R N L) α := fun t =>
  match x t.file with
  | .ok a f => .ok a { t with file := f }
  | .error e f => .error e { t with file := f }

/-- `node_max_sizer`, instantiated at most `fuel` deep: the number of records for which
    a node fits in `maxSize` bytes and with one record more does not. -/
def nodeMaxSizer (size : Nat → Nat) (maxSize : Nat) : Nat → Nat → Nat → Option Nat
  | 0, _, _ => none
  | fuel + 1, recordsPerNode, step =>
    let step := if step ≤ 1 then 1 else step / 2
    if size recordsPerNode ≤ maxSize ∧ size (recordsPerNode + 1) > maxSize then some recordsPerNode
    else if size recordsPerNode < maxSize then nodeMaxSizer size maxSize fuel (recordsPerNode + step) step
    else nodeMaxSizer size maxSize fuel (recordsPerNode - step) step

/-- The constructor: the root of the tree in the file. -/
def create : M K R N L Nat := do
  let s ← get
  if (← countBlocks) > 1 then
    getReference s.addr 1
    update 1 fun n => { n with file := s.addr }
    findRoot 1
  else
    let index ← allocateBlock s.addr
    construct index s.addr index 0
    return index

/-- A file the constructor of `mmap_file` has just made, of one block; `raw` is what
    each further block will hold when it is allocated. -/
def newFile (raw : Nat → Node K R N) (addr : Nat) (L : Option Nat := none) : File K R N L := ⟨addr, raw, 1, []⟩

/-- The blocks come zero-filled: every link, number and count is 0. -/
def ZeroFilled (raw : Nat → Node K R N) : Prop :=
  ∀ b, (raw b).file = 0 ∧ (raw b).thisNode = 0 ∧ (raw b).parentNode = 0 ∧ (raw b).largerNode = 0 ∧
    (raw b).recordCount = 0 ∧ ∀ e ∈ (raw b).entries, e.smallerNode = 0

/-- Blocks of zero bytes; `key` and `record` are the values those bytes read as. -/
def zeroed (key : K) (record : R) (_ : Nat) : Node K R N := ⟨0, 0, 0, 0, 0, Vector.replicate N ⟨0, key, record⟩⟩

theorem zeroed_zeroFilled (key : K) (record : R) : ZeroFilled (zeroed key record : Nat → Node K R N) := by
  refine fun b => ⟨rfl, rfl, rfl, rfl, rfl, fun e he => ?_⟩
  rw [zeroed, Vector.mem_replicate] at he
  rw [he.2]

section Ops
variable [LinearOrder K]

def Tree.find (key : K) : EStateM Err (Tree K R N L) (Option R) := do onFile (Node.find (← get).root key)

def Tree.insert (key : K) (record : R) : EStateM Err (Tree K R N L) Unit := do
  onFile (Node.insert (← get).root key record)
  let root ← onFile (findRoot (← get).root)
  modify fun t => { t with root := root }

def Tree.depth : EStateM Err (Tree K R N L) Nat := do onFile (Node.depth (← get).root)

def Tree.validate : EStateM Err (Tree K R N L) Unit := do onFile (Node.validate (← get).root)

inductive Op (K R : Type) where
  | insert (key : K) (record : R)
  | find (key : K)
  deriving DecidableEq, Repr

/-- What a caller sees of an operation. -/
inductive Res (R : Type) where
  | inserted
  | found (r : Option R)
  | threw (e : Err)
  deriving DecidableEq, Repr

def Op.exec (t : Tree K R N L) : Op K R → Res R × Tree K R N L
  | .insert key record =>
    match Tree.insert key record t with
    | .ok _ t => (.inserted, t)
    | .error e t => (.threw e, t)
  | .find key =>
    match Tree.find key t with
    | .ok r t => (.found r, t)
    | .error e t => (.threw e, t)

def run (t : Tree K R N L) : List (Op K R) → Tree K R N L
  | [] => t
  | op :: ops => run (op.exec t).2 ops

def results (t : Tree K R N L) : List (Op K R) → List (Res R)
  | [] => []
  | op :: ops => (op.exec t).1 :: results (op.exec t).2 ops

end Ops

/-- The tree the constructor makes of a file; a constructor that throws makes none, and
    the null root stands for that. -/
def openTree (f : File K R N L) : Tree K R N L :=
  match create f with
  | .ok root f => ⟨f, root⟩
  | .error _ f => ⟨f, 0⟩

/-- A tree on a new file. -/
def fresh (raw : Nat → Node K R N) (addr : Nat) (L : Option Nat := none) : Tree K R N L := openTree (newFile raw addr L)

/-- The tree is destroyed and a new one constructed on the same file, with its
    `mmap_file` at `addr`. -/
def reopen (t : Tree K R N L) (addr : Nat) : Tree K R N L := openTree { t.file with addr := addr }

end Dumbnose.Btree
