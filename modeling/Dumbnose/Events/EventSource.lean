/-
  Dumbnose.Events.EventSource — an event source and the cookies of its listeners
  (`event_source.hpp`).

  A `World` is one event source and the cookie objects that live beside it, each under
  a name of its own. `cookie_` and `largest_event_cookie_` are uint64_t: the one after
  2^64 - 1 is 0. The calls run one after another; the lock is not in the model.

  Copying writes to the object copied from. `operator=` gives what the left object
  holds to the right one, and the copy constructor calls it on the object it copies,
  with itself on the right. A result of `register_listener` is bound to the argument
  of `operator=` as a temporary, which is destroyed afterwards.

  An assert that fails and a null `event_source_` that is used are errors.
-/

import Mathlib.Algebra.Group.Nat.Defs
import Mathlib.Logic.Function.Basic
import Dumbnose.Lib.Exec

namespace Dumbnose.Events

open Lib.Exec

/-- `event_source_cookie`: whether `event_source_` points at the source, and `cookie_`. -/
structure Cookie where
  eventSource : Bool
  cookie : Nat
  deriving DecidableEq, Repr

/-- The members' initializers. -/
def Cookie.empty : Cookie := ⟨false, 0⟩

structure World (H : Type) where
  largestEventCookie : Nat
  listeners : Nat → Option H
  cookies : Nat → Option Cookie

inductive Err where
  | assertion
  | nullPointer
  /-- A name with no object behind it. -/
  | noObject
  deriving DecidableEq, Repr

abbrev M (H : Type) := EStateM Err (World H)

variable {H : Type}

def assert (c : Prop) [Decidable c] : M H Unit := if c then pure () else throw .assertion

/-! ## Objects -/

def object (this : Nat) : M H Cookie := do
  match (← get).cookies this with
  | some c => return c
  | none => throw .noObject

def setObject (this : Nat) (c : Option Cookie) : M H Unit :=
  modify fun s => { s with cookies := Function.update s.cookies this c }

/-! ## `event_source` -/

def registerListener (listener : H) : M H Cookie := do
  let cookieNum := ((← get).largestEventCookie + 1) % 2 ^ 64
  modify fun s =>
    { s with largestEventCookie := cookieNum, listeners := Function.update s.listeners cookieNum (some listener) }
  return ⟨true, cookieNum⟩

def unregisterListener (cookie : Nat) : M H Unit := do
  if cookie = 0 then return
  else
    assert (cookie ≠ 0 ∧ cookie ≤ (← get).largestEventCookie)
    assert (((← get).listeners cookie).isSome = true)
    modify fun s => { s with listeners := Function.update s.listeners cookie none }

/-! ## `event_source_cookie` -/

/-- `unregister`, on an object that holds `c`: what it holds then. -/
def unregister (c : Cookie) : M H Cookie := do
  if c.cookie ≠ 0 then
    if c.eventSource then
      unregisterListener c.cookie
      return .empty
    else throw .nullPointer
  else return c

/-- `operator=`, called on `this`. -/
def assign (this other : Nat) : M H Unit := do
  setObject other (some (← object this))
  setObject this (some .empty)

/-- The copy constructor. -/
def copy (this other : Nat) : M H Unit := do
  setObject this (some .empty)
  assign other this

def unregisterEarly (this : Nat) : M H Unit := do setObject this (some (← unregister (← object this)))

/-- The destructor. -/
def destroy (this : Nat) : M H Unit := do
  let _ ← unregister (← object this)
  setObject this none

/-! ## Programs -/

inductive Op (H : Type) where
  | construct (this : Nat)
  | register (this : Nat) (listener : H)
  | copy (this other : Nat)
  | assign (this other : Nat)
  | assignRegistered (this : Nat) (listener : H)
  | unregisterEarly (this : Nat)
  | destroy (this : Nat)
  deriving DecidableEq, Repr

def Op.exec : Op H → M H Unit
  | .construct this => setObject this (some .empty)
  | .register this listener => do setObject this (some (← registerListener listener))
  | .copy this other => Events.copy this other
  | .assign this other => Events.assign this other
  | .assignRegistered this listener => do
    let _ ← registerListener listener
    -- the temporary now holds what the left object held, and goes
    let temporary ← object this
    setObject this (some .empty)
    let _ ← unregister temporary
  | .unregisterEarly this => Events.unregisterEarly this
  | .destroy this => Events.destroy this

/-- The objects an operation is about are there, the one it constructs is not. -/
def Op.Legal (s : World H) : Op H → Prop
  | .construct this | .register this _ => s.cookies this = none
  | .copy this other => s.cookies this = none ∧ s.cookies other ≠ none
  | .assign this other => s.cookies this ≠ none ∧ s.cookies other ≠ none
  | .assignRegistered this _ | .unregisterEarly this | .destroy this => s.cookies this ≠ none

def run (s : World H) : List (Op H) → World H
  | [] => s
  | op :: ops =>
    match op.exec s with
    | .ok _ t => run t ops
    | .error _ t => run t ops

/-- Before anything is registered. -/
def World.new : World H := ⟨0, fun _ => none, fun _ => none⟩

end Dumbnose.Events
