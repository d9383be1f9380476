/-
  Dumbnose.Btree.Node — the node of the B-tree (`btree/impl_/node.hpp`).

  A pointer to a node is the number of its block, 0 the null pointer: a block is
  mapped once in a process and stays at one address. `File` is what a node reaches
  through its `file_`: the blocks of the file, how many of them are allocated, and
  what the operating system will answer the next calls of `allocate_block` (`os`,
  an empty list: every one succeeds). A block past the allocated ones holds whatever
  bytes the system will put there.

  `block_count()` is what the length of the file comes to in 32 bits, and it asserts that
  nothing is lost: from `blockLimit` blocks on, 4 GiB, no call that counts them returns.
  `File` and the methods are for any limit `L`, or none. The code's is `blockLimit`; most
  of what a tree does is proved without one first, and holds below it alike
  (`Btree.Limit`).

  Each method is a program over `File` (`EStateM`): it may throw, and what it wrote
  before throwing stays. Beside the code's exceptions it stops at what C++ leaves
  undefined: an `entries_` index outside the array, a null pointer, a `file_` that
  points at no live `mmap_file`. An assert that fails is an error of its own.

  The code recurses along links and loops on a step that halves. Those take fuel:
  the number of allocated blocks for a walk along links, twice the records and two
  more for the search loop. Running out is an error too, and never happens on a
  tree the code built.

  A debug build also validates the tree after each split (`_DEBUG` in `make_room`);
  `makeRoomFrom` does not. A whole tree passes (`Whole.validate_returns`).
-/

import Mathlib.Algebra.Group.Nat.Defs
import Mathlib.Order.Lattice
import Mathlib.Logic.Function.Basic
import Dumbnose.Lib.Exec

namespace Dumbnose.Btree

open Lib.Exec

structure Entry (K R : Type) where
  smallerNode : Nat
  key : K
  record : R
  deriving DecidableEq, Repr

structure Node (K R : Type) (N : Nat) where
  /-- The address of the `mmap_file` object that stored it. -/
  file : Nat
  thisNode : Nat
  parentNode : Nat
  largerNode : Nat
  recordCount : Nat
  entries : Vector (Entry K R) N

/-- What a call of `allocate_block` comes to. One that throws may have extended the
    file before it did. -/
inductive Alloc where
  | ok
  | throws (extended : Bool)
  deriving DecidableEq, Repr

/-- Blocks of 64 KiB whose bytes 32 bits no longer count. -/
def blockLimit : Nat := 2 ^ 32 / (64 * 1024)

structure File (K R : Type) (N : Nat) (L : Option Nat := none) where
  /-- The address of the `mmap_file` object. -/
  addr : Nat
  blocks : Nat → Node K R N
  blockCount : Nat
  os : List Alloc

inductive Err where
  | nodeAlreadyExists
  | nullLocation
  | fullNode
  | noNodePtr
  | pastEnd
  | invalidBlockNum
  | allocateBlock
  | entryOrdering
  | lessThan
  | greaterThan
  | parentChild
  /-- The assert of `block_count()`. -/
  | fileLength
  | assertion
  | outOfRange
  | nullPointer
  | staleFile
  | outOfFuel
  deriving DecidableEq, Repr

/-- The text of an exception the code throws, where `__FUNCTION__` is the function's name. -/
def Err.what : Err → Option String
  | .nodeAlreadyExists => some "node already exists"
  | .nullLocation => some "find_record_and_node returned a null location"
  | .fullNode => some "Attempting to insert a node into a full node"
  | .noNodePtr => some "Did not find the node ptr"
  | .pastEnd => some "insert_on_end_unsafe: inserted entry past end"
  | .invalidBlockNum => some "get_reference: Invalid block num"
  | .entryOrdering => some "node violates entry ordering"
  | .lessThan => some "less than invariant violated"
  | .greaterThan => some "greater than invariant violated"
  | .parentChild => some "parent/child invariant violated"
  | _ => none

/-- `middle_`: the position where splits occur. -/
def middle (N : Nat) : Nat := N / 2 + 1

abbrev M (K R : Type) (N : Nat) (L : Option Nat) := EStateM Err (File K R N L)

variable {K R : Type} {N : Nat} {L : Option Nat}

/-! ## Memory -/

def node (this : Nat) : M K R N L (Node K R N) := do
  if this = 0 then throw .nullPointer else return (← get).blocks this

def update (this : Nat) (f : Node K R N → Node K R N) : M K R N L Unit :=
  if this = 0 then throw .nullPointer
  else modify fun s => { s with blocks := Function.update s.blocks this (f (s.blocks this)) }

def entry (this i : Nat) : M K R N L (Entry K R) := do
  match (← node this).entries[i]? with
  | some e => return e
  | none => throw .outOfRange

def setEntry (this i : Nat) (e : Entry K R) : M K R N L Unit :=
  if i < N then update this fun n => { n with entries := n.entries.setIfInBounds i e } else throw .outOfRange

def assert (c : Prop) [Decidable c] : M K R N L Unit := if c then pure () else throw .assertion

/-! ## What the node uses of `mmap_file` -/

def useFile (file : Nat) : M K R N L Unit := do
  if file = (← get).addr then pure () else throw .staleFile

/-- So many blocks can be counted. -/
def Counts (L : Option Nat) (n : Nat) : Prop := ∀ l ∈ L, n < l

theorem counts_none (n : Nat) : Counts none n := fun l hl => absurd hl (Option.not_mem_none l)

instance (n : Nat) : (L : Option Nat) → Decidable (Counts L n)
  | none => .isTrue (counts_none n)
  | some l => decidable_of_iff (n < l) ⟨fun h _ hl => Option.some.inj hl ▸ h, fun h => h l rfl⟩

/-- `block_count()`. -/
def countBlocks : M K R N L Nat := do
  let n := (← get).blockCount
  if Counts L n then return n else throw .fileLength

def getReference (file index : Nat) : M K R N L Unit := do
  useFile file
  if index < (← countBlocks) then pure () else throw .invalidBlockNum

def allocateBlock (file : Nat) : M K R N L Nat := do
  useFile file
  let _ ← countBlocks
  let s ← get
  match s.os with
  | .throws extended :: os =>
    modify fun s => { s with os := os, blockCount := if extended then s.blockCount + 1 else s.blockCount }
    throw .allocateBlock
  | _ => do
    modify fun s => { s with os := s.os.tail, blockCount := s.blockCount + 1 }
    return s.blockCount

/-! ## Construction and links -/

/-- `new (ptr) node(file, this_node, parent)`: the constructor sets no `larger_node_`,
    and of each entry only its `smaller_node_`. -/
def construct (b file thisNode parent : Nat) : M K R N L Unit :=
  update b fun n =>
    { n with file := file, thisNode := thisNode, parentNode := parent, recordCount := 0,
             entries := n.entries.map fun e => { e with smallerNode := 0 } }

/-- `convert_index_to_ptr`, with the `file_` of the node or subtree that asks. -/
def convertWith (file index : Nat) : M K R N L Nat := do
  if index = 0 then return 0
  else
    getReference file index
    update index fun n => { n with file := file }
    return index

def convertIndexToPtr (this index : Nat) : M K R N L Nat := do
  convertWith (← node this).file index

/-- `parent_node(parent)`. -/
def setParentNode (this parent : Nat) : M K R N L Unit := update this fun n => { n with parentNode := parent }

/-- `larger_node(new_larger_node)`. -/
def setLargerNode (this newLargerNode : Nat) : M K R N L Unit := do
  update this fun n => { n with largerNode := newLargerNode }
  if newLargerNode ≠ 0 then
    let child ← convertIndexToPtr this newLargerNode
    setParentNode child (← node this).thisNode
  else pure ()

def full (this : Nat) : M K R N L Bool := do return (← node this).recordCount == N

/-- `find_root`. -/
def findRootFrom : Nat → Nat → M K R N L Nat
  | 0, _ => throw .outOfFuel
  | f + 1, this => do
    let n ← node this
    if n.parentNode = 0 then return this
    else findRootFrom f (← convertIndexToPtr this n.parentNode)

def findRoot (this : Nat) : M K R N L Nat := do findRootFrom (← get).blockCount this

/-! ## Inserting into a node -/

/-- A record on its way up, with the node split off to its right. -/
structure Subtree (K R : Type) where
  file : Nat
  entry : Entry K R
  largerNode : Nat

def Subtree.convertIndexToPtr (subtree : Subtree K R) (index : Nat) : M K R N L Nat := convertWith subtree.file index

/-- Where a child's number is stored. -/
inductive Slot where
  | larger
  | smaller (i : Nat)

def findNodePtr (this nodeRef : Nat) : M K R N L Slot := do
  let n ← node this
  if n.largerNode = nodeRef then return .larger
  else
    match ← scan (fun i => do return if (← entry this i).smallerNode = nodeRef then some i else none)
        n.recordCount 0 with
    | some i => return .smaller i
    | none => do
      assert False
      throw .noNodePtr

def setSlot (this : Nat) (ref : Slot) (index : Nat) : M K R N L Unit := do
  match ref with
  | .larger => update this fun n => { n with largerNode := index }
  | .smaller i => setEntry this i { ← entry this i with smallerNode := index }

/-- `free_up`'s loop, from `i` down. -/
def freeUpFrom (this position : Nat) : Nat → M K R N L Unit
  | 0 => pure ()
  | i + 1 => do
    if position < i + 1 then
      setEntry this (i + 1) (← entry this i)
      freeUpFrom this position i
    else pure ()

def freeUp (this position : Nat) : M K R N L Unit := do freeUpFrom this position (← node this).recordCount

def insertOnEndUnsafe (this : Nat) (e : Entry K R) : M K R N L Unit := do
  let n ← node this
  assert (n.recordCount ≤ N)
  if n.recordCount > N then throw .pastEnd
  else
    setEntry this n.recordCount e
    (if e.smallerNode ≠ 0 then do
      let child ← convertIndexToPtr this e.smallerNode
      setParentNode child (← node this).thisNode
    else pure ())
    update this fun n => { n with recordCount := n.recordCount + 1 }

section Keys
variable [LinearOrder K]

def findPosition (this : Nat) (key : K) : M K R N L Nat := do
  let n ← node this
  let found ← scan (fun i => do
    let e ← entry this i
    if key < e.key then return some i
    else
      assert (key ≠ e.key)
      return none) n.recordCount 0
  return found.getD n.recordCount

/-- The second half of `insert_into_node`: a record goes to its position. -/
def place (this : Nat) (e : Entry K R) : M K R N L Unit := do
  let position ← findPosition this e.key
  freeUp this position
  setEntry this position e
  (if e.smallerNode ≠ 0 then do
    let child ← convertIndexToPtr this e.smallerNode
    setParentNode child (← node this).thisNode
  else pure ())
  update this fun n => { n with recordCount := n.recordCount + 1 }

def insertIntoNode (this : Nat) (subtree : Subtree K R) : M K R N L Unit := do
  assert (¬ (← full this))
  if ← full this then throw .fullNode
  else
    -- `subtree.larger_node() != 0`: a split sent this record up
    let larger ← subtree.convertIndexToPtr subtree.largerNode
    (if larger ≠ 0 then do
      assert (subtree.entry.smallerNode ≠ 0)
      setSlot this (← findNodePtr this subtree.entry.smallerNode) subtree.largerNode
    else pure ())
    place this subtree.entry

/-! ## Splitting -/

def splitNode (this : Nat) : M K R N L (Subtree K R) := do
  let n ← node this
  let index ← allocateBlock n.file
  construct index n.file index n.parentNode
  -- `subtree.larger_node(new_node->this_node_, parent_node_)`
  let larger := (← node index).thisNode
  (if larger ≠ 0 then do
    let p ← convertWith n.file larger
    setParentNode p (← node this).parentNode
  else pure ())
  upto (fun i => do insertOnEndUnsafe index (← entry this i)) (n.recordCount - (middle N + 1)) (middle N + 1)
  setLargerNode index (← node this).largerNode
  setLargerNode this (← entry this (middle N)).smallerNode
  let mid ← entry this (middle N)
  let n ← node this
  update this fun n => { n with recordCount := middle N }
  return { file := n.file, entry := { mid with smallerNode := n.thisNode }, largerNode := larger }

/-- Returns the new root. -/
def splitRoot (this : Nat) : M K R N L Nat := do
  let subtree ← splitNode this
  let file := (← node this).file
  let index ← allocateBlock file
  construct index file index 0
  setLargerNode index subtree.largerNode
  insertOnEndUnsafe index subtree.entry
  setParentNode this index
  return index

/-- Returns the parent, which the split may have made. -/
def split (this : Nat) : M K R N L Nat := do
  if (← node this).parentNode = 0 then splitRoot this
  else
    let subtree ← splitNode this
    let parent ← convertIndexToPtr this (← node this).parentNode
    insertIntoNode parent subtree
    convertIndexToPtr this (← node this).parentNode

def makeRoomFrom : Nat → Nat → M K R N L Bool
  | 0, _ => throw .outOfFuel
  | f + 1, this => do
    if ← full this then
      let n ← node this
      (if n.parentNode ≠ 0 then do
        let parent ← convertIndexToPtr this n.parentNode
        let _ ← makeRoomFrom f parent
      else pure ())
      let _ ← split this
      return true
    else return false

def makeRoom (this : Nat) : M K R N L Bool := do makeRoomFrom (← get).blockCount this

/-! ## Searching -/

/-- Where the search loop of `find_record_and_node` stops: at a record, at a link to
    follow, or past the loop with nothing. -/
inductive Stop (R : Type) where
  | record (r : R)
  | child (index : Nat)
  | nothing
  deriving DecidableEq

def searchLoop (this : Nat) (key : K) : Nat → Int → Int → M K R N L (Stop R)
  | 0, _, _ => throw .outOfFuel
  | f + 1, current, step => do
    let n ← node this
    if 0 ≤ current ∧ current < n.recordCount then
      let e ← entry this current.toNat
      if key = e.key then return .record e.record
      else
        let step := if step / 2 = 0 then 1 else step / 2
        if key < e.key then
          if current = 0 then return .child e.smallerNode
          else
            if key > (← entry this (current - 1).toNat).key then return .child e.smallerNode
            else searchLoop this key f (current - step) step
        else searchLoop this key f (current + step) step
    else if current ≥ n.recordCount then return .child n.largerNode
    else return .nothing

/-- The record, if there is one, and the node where it is or belongs. -/
def findRecordAndNode : Nat → Nat → K → M K R N L (Option R × Nat)
  | 0, _, _ => throw .outOfFuel
  | f + 1, this, key => do
    let n ← node this
    let current : Int := (n.recordCount / 2 : Nat)
    match ← searchLoop this key (2 * n.recordCount + 2) current current with
    | .record r => return (some r, this)
    | .child index =>
      if index ≠ 0 then findRecordAndNode f (← convertIndexToPtr this index) key else return (none, this)
    | .nothing => return (none, this)

def Node.find (this : Nat) (key : K) : M K R N L (Option R) := do
  return (← findRecordAndNode (← get).blockCount this key).1

/-- The node to insert into, with room made in it. -/
def locate (this : Nat) (key : K) : M K R N L Nat := do
  let (found, location) ← findRecordAndNode (← get).blockCount this key
  if found.isSome then throw .nodeAlreadyExists
  else
    assert (location ≠ 0)
    if location = 0 then throw .nullLocation
    else if ← makeRoom location then
      let root ← findRoot this
      let (_, location) ← findRecordAndNode (← get).blockCount root key
      assert (location ≠ 0)
      if location = 0 then throw .nullLocation else return location
    else return location

def insertFrom : Nat → Nat → K → R → M K R N L Unit
  | 0, _, _, _ => throw .outOfFuel
  | f + 1, this, key, record => do
    let n ← node this
    -- inserts happen at the root
    if n.parentNode ≠ 0 then insertFrom f (← findRoot this) key record
    else
      let location ← locate this key
      insertIntoNode location { file := n.file, entry := ⟨0, key, record⟩, largerNode := 0 }

def Node.insert (this : Nat) (key : K) (record : R) : M K R N L Unit := do
  insertFrom (← get).blockCount this key record

end Keys

/-! ## Depth and validation -/

def depthFrom : Nat → Nat → M K R N L Nat
  | 0, _ => throw .outOfFuel
  | f + 1, this => do
    let e ← entry this 0
    if e.smallerNode = 0 then return 1
    else return (← depthFrom f (← convertIndexToPtr this e.smallerNode)) + 1

def Node.depth (this : Nat) : M K R N L Nat := do depthFrom (← get).blockCount this

section Validate
variable [LinearOrder K]

/-- A loop over the records of `this` from `start` on. -/
def eachRecord (this start : Nat) (body : Nat → M K R N L Unit) : M K R N L Unit := do
  upto body ((← node this).recordCount - start) start

/-- The child left of record `i`, where there is one. -/
def smallerChild (this i : Nat) (body : Nat → M K R N L Unit) : M K R N L Unit := do
  let e ← entry this i
  if e.smallerNode ≠ 0 then body (← convertIndexToPtr this e.smallerNode) else pure ()

/-- The child right of every record, where there is one. -/
def largerChild (this : Nat) (body : Nat → M K R N L Unit) : M K R N L Unit := do
  let n ← node this
  if n.largerNode ≠ 0 then body (← convertIndexToPtr this n.largerNode) else pure ()

def validateLessThan (this : Nat) (key : K) : M K R N L Unit :=
  eachRecord this 0 fun i => do
    if (← entry this i).key < key then pure () else throw .lessThan

def validateGreaterThan (this : Nat) (key : K) : M K R N L Unit :=
  eachRecord this 0 fun i => do
    if key < (← entry this i).key then pure () else throw .greaterThan

def validateParentNode (this parent : Nat) : M K R N L Unit := do
  if (← node this).parentNode ≠ parent then throw .parentChild else pure ()

def validateFrom : Nat → Nat → M K R N L Unit
  | 0, _ => throw .outOfFuel
  | f + 1, this => do
    let n ← node this
    if n.recordCount = 0 then return
    else
      -- make sure entries are in the correct order
      eachRecord this 1 fun i => do
        if (← entry this (i - 1)).key < (← entry this i).key then pure () else throw .entryOrdering
      -- make sure the smaller invariant holds
      eachRecord this 0 fun i => do
        smallerChild this i fun c => do validateLessThan c (← entry this i).key
      -- make sure the larger invariant holds
      eachRecord this 1 fun i => do
        smallerChild this i fun c => do validateGreaterThan c (← entry this (i - 1)).key
      largerChild this fun c => do validateGreaterThan c (← entry this (n.recordCount - 1)).key
      -- validate parent/child relationship
      eachRecord this 0 fun i => do
        smallerChild this i fun c => do validateParentNode c (← node this).thisNode
      largerChild this fun c => do validateParentNode c (← node this).thisNode
      -- recursively validate each child
      eachRecord this 0 fun i => smallerChild this i (validateFrom f)
      largerChild this (validateFrom f)

def Node.validate (this : Nat) : M K R N L Unit := do validateFrom (← get).blockCount this

end Validate

end Dumbnose.Btree
