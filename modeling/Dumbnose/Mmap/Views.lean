/-
  Dumbnose.Mmap.Views — the views of an `mmap_file` and who owns them
  (`mmap_file.hpp`: `map_block`, `unmap_block`, `unmap_address`).

  Here a view has an address, which the system chooses among those free at that time
  (`System`), and a number, which it does not share with a later view at its address.
  A `ptr_t` is the address of a view and the control block made for it; the copies of
  one `ptr_t` share it. So the last of them to go is the one with no equal in the
  table or with a caller, and its deleter unmaps the address.

  A process is the object, what the system has mapped for it, and the copies that
  callers hold. Its file is one of `Mmap.MmapFile`, whose own table, of offsets, stays
  empty: `mappedBlocks` below takes its place.
-/

import Dumbnose.Lib.Ledger
import Dumbnose.Mmap.Numbering

namespace Dumbnose.Mmap.Views

open Lib.Exec Lib.Ledger

@[ext]
structure Ptr where
  view : Nat
  addr : Nat
  deriving DecidableEq, Repr

/-- A view mapped now, and where in the file it starts. -/
structure View where
  view : Nat
  addr : Nat
  offset : Nat
  deriving DecidableEq, Repr

/-- A `ptr_t` handed to a caller, and what its address showed at that moment. -/
structure Return where
  blockNum : Nat
  ptr : Ptr
  shows : Option Nat
  deriving DecidableEq

structure Process where
  file : MmapFile
  mappedBlocks : List (Nat × Ptr)
  alive : Bool
  /-- The copies of `ptr_t`s that callers hold. -/
  held : List Ptr
  views : List View
  /-- How many views have been mapped: the number of the next one. -/
  mapped : Nat
  ledger : List (Entry Nat)
  /-- The addresses the system refused to unmap. -/
  failed : List Nat
  returns : List Return

/-- All the `ptr_t`s there are. -/
def Process.ptrs (s : Process) : List Ptr := s.mappedBlocks.map Prod.snd ++ s.held

/-- The offset of the view at an address. -/
def Process.shows (s : Process) (addr : Nat) : Option Nat := (s.views.find? fun v => v.addr = addr).map View.offset

/-- Where the system places the next view: at an address that is free. -/
structure System where
  place : Process → Nat
  notNull : ∀ s, place s ≠ 0
  free : ∀ s, ∀ v ∈ s.views, v.addr ≠ place s

inductive Err where
  | file (e : Mmap.Err)
  | notFound
  | unmapView
  deriving DecidableEq, Repr

def Err.what : Err → Option String
  | .file e => e.what
  | .notFound => some "unmap_block: Could not find block to unmap"
  | .unmapView => some "unmap_address: UnmapViewOfFile failed."

abbrev VM := EStateM Err Process

/-- A call that touches the file and its mapping alone. -/
def onFile {α : Type} (x : M α) : VM α := fun s =>
  match x s.file with
  | .ok a f => .ok a { s with file := f }
  | .error e f => .error (.file e) { s with file := f }

/-! ## The system -/

def mapViewOfFile (S : System) (offset bytes : Nat) : VM (Option Ptr) := do
  match ← onFile (Mmap.mapViewOfFile offset bytes) with
  | none => return none
  | some offset =>
    let s ← get
    let addr := S.place s
    modify fun s =>
      { s with
        views := ⟨s.mapped, addr, offset⟩ :: s.views
        mapped := s.mapped + 1
        ledger := s.ledger ++ [.opened s.mapped] }
    return some ⟨s.mapped, addr⟩

def unmapViewOfFile (addr : Nat) : VM Bool := do
  match (← get).views.find? fun v => v.addr = addr with
  | some v =>
    modify fun s => { s with views := s.views.erase v, ledger := s.ledger ++ [.closed v.view] }
    return true
  | none =>
    modify fun s => { s with failed := s.failed ++ [addr] }
    return false

/-! ## `mmap_file` -/

def unmapAddress (address : Nat) : VM Unit := do
  if ← unmapViewOfFile address then pure () else throw .unmapView

/-- A `ptr_t` is gone. The last one's deleter is `unmap_address`. -/
def release (ptr : Ptr) : VM Unit := do
  if ptr ∈ (← get).ptrs then pure () else unmapAddress ptr.addr

/-- The second half of `map_block`: the file is long enough. -/
def mapView (S : System) (B : BlockSize) (blockNum offset : Nat) : VM Ptr := do
  match ← mapViewOfFile S offset B.bytes with
  | none => throw (.file .mapView)
  | some ptr =>
    if ((← get).mappedBlocks.lookup blockNum).isSome then
      -- the local `ptr` goes out of scope
      release ptr
      throw (.file .duplicate)
    else
      modify fun s => { s with mappedBlocks := s.mappedBlocks ++ [(blockNum, ptr)] }
      return ptr

def mapBlock (S : System) (B : BlockSize) (blockNum : Nat) : VM Ptr := do
  let offset := blockNum * B.bytes % 2 ^ 32
  let neededSize := offset + B.bytes
  (if neededSize > (← get).file.size then onFile (extendFile neededSize) else pure ())
  mapView S B blockNum offset

/-- A copy for the caller. -/
def giveOut (blockNum : Nat) (ptr : Ptr) : VM Unit :=
  modify fun s => { s with held := ptr :: s.held, returns := s.returns ++ [⟨blockNum, ptr, s.shows ptr.addr⟩] }

def allocateBlock (S : System) (B : BlockSize) : VM Unit := do
  let blockNum ← onFile (blockCount B)
  giveOut blockNum (← mapBlock S B blockNum)

def getReference (S : System) (B : BlockSize) (blockNum : Nat) : VM Unit := do
  if blockNum ≥ (← onFile (blockCount B)) then throw (.file .invalidBlockNum)
  else
    match (← get).mappedBlocks.lookup blockNum with
    | some ptr => giveOut blockNum ptr
    | none => giveOut blockNum (← mapBlock S B blockNum)

def unmapBlock (blockNum : Nat) : VM Unit := do
  match (← get).mappedBlocks.lookup blockNum with
  | none => throw .notFound
  | some ptr => unmapAddress ptr.addr

/-- The table goes, entry by entry. -/
def clear : List (Nat × Ptr) → VM Unit
  | [] => pure ()
  | (_, ptr) :: rest => do
    modify fun s => { s with mappedBlocks := rest }
    release ptr
    clear rest

def destroy : VM Unit := do
  modify fun s => { s with alive := false }
  clear (← get).mappedBlocks

/-- A caller is done with a copy it holds. -/
def drop (ptr : Ptr) : VM Unit := do
  if ptr ∈ (← get).held then
    modify fun s => { s with held := s.held.erase ptr }
    release ptr
  else pure ()

/-! ## Runs -/

inductive Call where
  | allocateBlock
  | getReference (blockNum : Nat)
  | unmapBlock (blockNum : Nat)
  | destroy
  | drop (ptr : Ptr)
  deriving DecidableEq, Repr

def Call.body (S : System) (B : BlockSize) : Call → VM Unit
  | .allocateBlock => Views.allocateBlock S B
  | .getReference blockNum => Views.getReference S B blockNum
  | .unmapBlock blockNum => Views.unmapBlock blockNum
  | .destroy => Views.destroy
  | .drop ptr => Views.drop ptr

/-- Once the object is destroyed only copies are left to drop. An exception undoes nothing. -/
def Call.exec (S : System) (B : BlockSize) (s : Process) (c : Call) : Process :=
  if s.alive ∨ ∃ ptr ∈ s.held, c = .drop ptr then
    match c.body S B s with
    | .ok _ t => t
    | .error _ t => t
  else s

def run (S : System) (B : BlockSize) (s : Process) : List Call → Process
  | [] => s
  | c :: cs => run S B (c.exec S B s) cs

/-- An object the constructor has made of a file. -/
def start (file : MmapFile) : Process := ⟨file, [], true, [], [], 0, [], [], []⟩

end Dumbnose.Mmap.Views
