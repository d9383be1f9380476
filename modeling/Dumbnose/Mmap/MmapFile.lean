/-
  Dumbnose.Mmap.MmapFile — a file mapped block by block (`mmap_file.hpp`), with the
  handle of its mapping (`windows_handle.hpp`).

  `unsigned long` has 32 bits: block numbers, and the product of one with
  `block_size_`. A LARGE_INTEGER has 64: `size / 2 ^ 32` is its HighPart and
  `size % 2 ^ 32` its LowPart. The system calls take both parts.

  A `ptr_t` is the view it points at, and a view is the offset in the file where it
  starts: it is `block_size_` bytes long. Closing a mapping leaves its views. `Os` is
  what the system answers each call; a view is refused besides when there is no
  mapping or the mapping is too short.

  What a call wrote before it threw stays. An assert that fails is an error of its
  own: the code throws it nowhere.
-/

import Mathlib.Algebra.Group.Nat.Defs
import Dumbnose.Lib.Exec

namespace Dumbnose.Mmap

open Lib.Exec

/-- `block_size_`, an int. -/
structure BlockSize where
  bytes : Nat
  pos : 0 < bytes
  int : bytes < 2 ^ 31

/-- The default, which is what the B-tree takes. -/
def blockSize : BlockSize := ⟨64 * 1024, by decide, by decide⟩

/-- Whether each system call succeeds. -/
structure Os where
  createFile : Bool
  getFileSizeEx : Bool
  createFileMapping : Bool
  closeHandle : Bool
  mapViewOfFile : Bool
  deriving DecidableEq

def Os.good : Os := ⟨true, true, true, true, true⟩

structure MmapFile where
  /-- The length of the file itself. -/
  fileSize : Nat
  size : Nat
  /-- The length of the mapping, if the handle is not null. -/
  mapping : Option Nat
  mappedBlocks : Nat → Option Nat
  os : Os

inductive Err where
  | createFile
  | getFileSizeEx
  | zeroLength
  | notMultiple
  | firstMapping
  | createMapping
  | closeHandle
  | invalidBlockNum
  | mapView
  | duplicate
  | assertion
  deriving DecidableEq, Repr

/-- What an exception is made with, where `__FUNCTION__` is the function's name. -/
def Err.what : Err → Option String
  | .createFile => some "mmap_file:  Could not create file"
  | .getFileSizeEx => some "mmap_file: GetFileSizeEx() failed"
  | .zeroLength => some "validate: Existing file corrupt (zero length)"
  | .notMultiple => some "validate: Existing file corrupt (not a multiple of block size)"
  | .firstMapping => some "mmap_file:  Could not create mapping"
  | .createMapping => some "extend_file:  Could not create mapping"
  | .closeHandle => some "Could not close handle"
  | .invalidBlockNum => some "get_reference: Invalid block num"
  | .mapView => some "map_block: MapViewOfFile failed"
  | .duplicate => some "map_block:  Duplicate entry discovered"
  | .assertion => none

abbrev M := EStateM Err MmapFile

def assert (c : Prop) [Decidable c] : M Unit := if c then pure () else throw .assertion

/-! ## The system -/

/-- The new mapping's handle. The file grows to the length asked for. -/
def createFileMapping (size : Nat) : M (Option Nat) := do
  if (← get).os.createFileMapping then
    modify fun s => { s with fileSize := max s.fileSize size }
    return some size
  else return none

def mapViewOfFile (offset bytes : Nat) : M (Option Nat) := do
  let s ← get
  match s.mapping with
  | some length => return if s.os.mapViewOfFile ∧ offset + bytes ≤ length then some offset else none
  | none => return none

/-! ## `windows_handle` -/

def close : M Unit := do
  let s ← get
  if s.mapping.isSome then
    if s.os.closeHandle then modify fun s => { s with mapping := none } else throw .closeHandle
  else pure ()

/-- `mapping_ = handle`. -/
def assignMapping (handle : Option Nat) : M Unit := do
  close
  modify fun s => { s with mapping := handle }

/-! ## `mmap_file` -/

def extendFile (newSize : Nat) : M Unit := do
  assignMapping (← createFileMapping newSize)
  if (← get).mapping = none then throw .createMapping
  else modify fun s => { s with size := newSize }

def validate (B : BlockSize) : M Unit := do
  if (← get).size = 0 then throw .zeroLength
  else if (← get).size % B.bytes > 0 then throw .notMultiple
  else pure ()

/-- The constructor; `existing` if there was such a file. -/
def create (B : BlockSize) (existing : Bool) : M Unit := do
  modify fun s => { s with size := B.bytes }
  if ¬ (← get).os.createFile then throw .createFile
  else
    (if existing then do
      if ¬ (← get).os.getFileSizeEx then throw .getFileSizeEx
      else
        modify fun s => { s with size := s.fileSize }
        validate B
    else pure ())
    assignMapping (← createFileMapping (← get).size)
    if (← get).mapping = none then throw .firstMapping else pure ()

def blockCount (B : BlockSize) : M Nat := do
  let s ← get
  assert (s.size / 2 ^ 32 = 0)
  return s.size % 2 ^ 32 / B.bytes

def mapBlock (B : BlockSize) (blockNum : Nat) : M Nat := do
  let offset := blockNum * B.bytes % 2 ^ 32
  let neededSize := offset + B.bytes
  (if neededSize > (← get).size then extendFile neededSize else pure ())
  match ← mapViewOfFile offset B.bytes with
  | none => throw .mapView
  | some memLoc =>
    if ((← get).mappedBlocks blockNum).isSome then throw .duplicate
    else
      modify fun s => { s with mappedBlocks := fun i => if i = blockNum then some memLoc else s.mappedBlocks i }
      return memLoc

def allocateBlock (B : BlockSize) : M (Nat × Nat) := do
  let blockNum ← blockCount B
  let memLoc ← mapBlock B blockNum
  return (blockNum, memLoc)

def getReference (B : BlockSize) (blockNum : Nat) : M Nat := do
  if blockNum ≥ (← blockCount B) then throw .invalidBlockNum
  else
    match (← get).mappedBlocks blockNum with
    | some memLoc => return memLoc
    | none => mapBlock B blockNum

/-! ## Runs -/

inductive Call where
  | allocateBlock
  | getReference (blockNum : Nat)
  deriving DecidableEq, Repr

inductive Res where
  | allocated (blockNum memLoc : Nat)
  | referenced (memLoc : Nat)
  | threw (e : Err)
  deriving DecidableEq, Repr

def Call.exec (B : BlockSize) (s : MmapFile) : Call → Res × MmapFile
  | .allocateBlock =>
    match Mmap.allocateBlock B s with
    | .ok (blockNum, memLoc) t => (.allocated blockNum memLoc, t)
    | .error e t => (.threw e, t)
  | .getReference blockNum =>
    match Mmap.getReference B blockNum s with
    | .ok memLoc t => (.referenced memLoc, t)
    | .error e t => (.threw e, t)

def run (B : BlockSize) (s : MmapFile) : List Call → MmapFile
  | [] => s
  | c :: cs => run B (c.exec B s).2 cs

def results (B : BlockSize) (s : MmapFile) : List Call → List Res
  | [] => []
  | c :: cs => (c.exec B s).1 :: results B (c.exec B s).2 cs

/-- A file on the disk, `none` if there is none, and an object not yet constructed. -/
def onDisk (existing : Option Nat) (os : Os) : MmapFile := ⟨existing.getD 0, 0, none, fun _ => none, os⟩

/-- What the system will answer from here on. -/
def arm (s : MmapFile) (os : Os) : MmapFile := { s with os := os }

end Dumbnose.Mmap
