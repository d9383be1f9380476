/-
  Dumbnose.Handles.WindowsHandle — `windows_handle`, one object and then a program of them
  (`windows_handle.hpp`).

  A method has one `handle_` and the system, which is asked to close and to duplicate. What
  it answers is part of the call: whether `CloseHandle` succeeds, and which handle, if any,
  `DuplicateHandle` gives. `NULL` cannot be duplicated. `INVALID_HANDLE_VALUE` is also what
  `GetCurrentProcess` returns, so it may be, into a handle of the process. The ledger has
  what was opened for the program and what was closed.
-/

import Mathlib.Logic.Function.Basic
import Dumbnose.Lib.Exec
import Dumbnose.Lib.Ledger

namespace Dumbnose.Handles

open Lib.Ledger

abbrev HANDLE := Int

def null : HANDLE := 0

def invalidHandleValue : HANDLE := -1

/-- `operator bool`: it is a real handle. -/
def operatorBool (handle : HANDLE) : Bool := handle ≠ null && handle ≠ invalidHandleValue

inductive Err where
  | couldNotDuplicate
  | couldNotClose
  deriving DecidableEq, Repr

def Err.what : Err → String
  | .couldNotDuplicate => "Could not duplicate handle"
  | .couldNotClose => "Could not close handle"

/-- What an object owns. -/
def held (handle : HANDLE) : List HANDLE := if operatorBool handle then [handle] else []

/-! ## One object -/

/-- What a method has before it. -/
structure Self where
  handle : HANDLE
  ledger : List (Entry HANDLE)

abbrev HM := EStateM Err Self

def closeHandle (handle : HANDLE) (closes : Bool) : HM Bool := do
  if closes then
    modify fun s => { s with ledger := s.ledger ++ [.closed handle] }
    return true
  else return false

def duplicateHandle (source : HANDLE) (duplicate : Option HANDLE) : HM (Option HANDLE) := do
  if source = null then return none
  else
    match duplicate with
    | none => return none
    | some newHandle =>
      modify fun s => { s with ledger := s.ledger ++ [.opened newHandle] }
      return some newHandle

def close (closes : Bool) : HM Unit := do
  let handle := (← get).handle
  if operatorBool handle then
    if ← closeHandle handle closes then modify fun s => { s with handle := null } else throw .couldNotClose
  else pure ()

/-- `operator=(HANDLE)`. -/
def assignHandle (handle : HANDLE) (closes : Bool) : HM Unit := do
  close closes
  modify fun s => { s with handle := handle }

/-- `operator=(const windows_handle&)`. -/
def assign (other : HANDLE) (duplicate : Option HANDLE) (closes : Bool) : HM Unit := do
  match ← duplicateHandle other duplicate with
  | none => throw .couldNotDuplicate
  | some newHandle => assignHandle newHandle closes

/-- `~windows_handle`. -/
def destroy (closes : Bool) : HM Unit :=
  tryCatch (close closes) fun _ => pure ()

/-! ## Programs -/

structure Program where
  /-- `handle_` of each object that is there. -/
  objects : Nat → Option HANDLE
  /-- How many objects have been built: the number of the next one. -/
  next : Nat
  ledger : List (Entry HANDLE)

inductive Call where
  | construct
  | fromHandle (handle : HANDLE)
  | copy (other : Nat) (duplicate : Option HANDLE)
  | assignHandle (target : Nat) (handle : HANDLE) (closes : Bool)
  | assign (target other : Nat) (duplicate : Option HANDLE) (closes : Bool)
  | close (target : Nat) (closes : Bool)
  | destroy (target : Nat) (closes : Bool)
  deriving DecidableEq, Repr

namespace Program

/-- Not open now. -/
def Free (s : Program) (handle : HANDLE) : Prop := s.ledger.count (.opened handle) = s.ledger.count (.closed handle)

instance (s : Program) (handle : HANDLE) : Decidable (s.Free handle) := inferInstanceAs (Decidable (_ = _))

/-- The caller has just opened the handle, if it is one. -/
def given (s : Program) (handle : HANDLE) : Program :=
  if operatorBool handle then { s with ledger := s.ledger ++ [.opened handle] } else s

/-- What a method has done to an object. -/
def put (s : Program) (target : Nat) (o : Option HANDLE) (ledger : List (Entry HANDLE)) : Program :=
  { s with objects := Function.update s.objects target o, ledger := ledger }

/-- A constructor: an object that it throws out of is not there. -/
def build (s : Program) (body : HM Unit) : Option Err × Program :=
  match body ⟨null, s.ledger⟩ with
  | .ok _ t => (none, { s.put s.next (some t.handle) t.ledger with next := s.next + 1 })
  | .error e t => (some e, { s with ledger := t.ledger })

/-- A method of an object with this `handle_`. -/
def on (s : Program) (target : Nat) (handle : HANDLE) (body : HM Unit) : Option Err × Program :=
  match body ⟨handle, s.ledger⟩ with
  | .ok _ t => (none, s.put target (some t.handle) t.ledger)
  | .error e t => (some e, s.put target (some t.handle) t.ledger)

def perform (s : Program) : Call → Option Err × Program
  | .construct => s.build (pure ())
  | .fromHandle handle => (s.given handle).build (modify fun t => { t with handle := handle })
  | .copy other duplicate =>
    match s.objects other with
    -- there is nothing to close in a new object
    | some handle => s.build (Handles.assign handle duplicate true)
    | none => (none, s)
  | .assignHandle target handle closes =>
    match s.objects target with
    | some old => (s.given handle).on target old (Handles.assignHandle handle closes)
    | none => (none, s)
  | .assign target other duplicate closes =>
    match s.objects target, s.objects other with
    | some old, some handle => s.on target old (Handles.assign handle duplicate closes)
    | _, _ => (none, s)
  | .close target closes =>
    match s.objects target with
    | some old => s.on target old (Handles.close closes)
    | none => (none, s)
  | .destroy target closes =>
    match s.objects target with
    | some old =>
      let (e, t) := s.on target old (Handles.destroy closes)
      (e, t.put target none t.ledger)
    | none => (none, s)

/-- What the caller gives is fresh, and what the system gives is a handle, and fresh. -/
def Possible (s : Program) : Call → Prop
  | .fromHandle handle | .assignHandle _ handle _ => operatorBool handle → s.Free handle
  | .copy _ duplicate | .assign _ _ duplicate _ => ∀ handle ∈ duplicate, operatorBool handle ∧ s.Free handle
  | _ => True

instance (s : Program) : ∀ c : Call, Decidable (s.Possible c)
  | .fromHandle _ | .assignHandle .. => inferInstanceAs (Decidable (_ → _))
  | .copy .. | .assign .. => inferInstanceAs (Decidable (∀ handle ∈ _, _))
  | .construct | .close .. | .destroy .. => inferInstanceAs (Decidable True)

/-- What is thrown, if anything, and the program after that. -/
def exec (s : Program) (c : Call) : Option Err × Program := if s.Possible c then s.perform c else (none, s)

def run (s : Program) : List Call → Program
  | [] => s
  | c :: cs => run (s.exec c).2 cs

def start : Program := ⟨fun _ => none, 0, []⟩

/-- The real handles that objects have, an object at a time. -/
def handles (s : Program) : List HANDLE := (List.range s.next).flatMap fun i => (s.objects i).elim [] held

end Program

end Dumbnose.Handles
