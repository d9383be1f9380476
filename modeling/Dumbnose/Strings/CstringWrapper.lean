/-
  Dumbnose.Strings.CstringWrapper — the fixed size string (`cstring_wrapper.hpp`).

  A string is its buffer of `max_size_t + 1` characters and how far into it `_end` is. The
  functions run as programs on a string, `swap` on two; a write outside the buffer and an
  `int` that overflows are errors beside the exceptions. `traits_t::move` and `std::copy`
  are of characters that the buffer has, or of a range that is outside it.

  Strings live under names. One that is constructed is made in memory with anything in it;
  if its construction throws, there is none.
-/

import Mathlib.Algebra.Group.Nat.Defs
import Mathlib.Logic.Function.Basic
import Dumbnose.Lib.Exec

namespace Dumbnose.Strings

open Lib.Exec

/-- `_buffer`, and `_end - _buffer`. -/
structure CstringWrapper (C : Type) (max : Nat) where
  buffer : List C
  end_ : Nat
  space : buffer.length = max + 1

namespace CstringWrapper

inductive Err where
  /-- `std::length_error`. -/
  | lengthError
  /-- `std::out_of_range`. -/
  | outOfRange
  /-- Outside `_buffer`. -/
  | outside
  | intOverflow
  /-- A name with no object behind it. -/
  | noObject
  deriving DecidableEq, Repr

def Err.isException : Err → Bool
  | .lengthError | .outOfRange => true
  | .outside | .intOverflow | .noObject => false

abbrev M (C : Type) (max : Nat) := EStateM Err (CstringWrapper C max)

variable {C : Type} {max : Nat}

/-- The characters of the string. -/
def contents (s : CstringWrapper C max) : List C := s.buffer.take s.end_

/-! ## The buffer -/

/-- The characters with these from `pos` on. -/
def spliced (b : List C) (pos : Nat) (cs : List C) : List C := b.take pos ++ cs ++ b.drop (pos + cs.length)

theorem length_spliced {b : List C} {pos : Nat} {cs : List C} (h : pos + cs.length ≤ b.length) :
    (spliced b pos cs).length = b.length := by
  simp [spliced]
  omega

def written (s : CstringWrapper C max) (pos : Nat) (cs : List C) (h : pos + cs.length ≤ max + 1) :
    CstringWrapper C max where
  buffer := spliced s.buffer pos cs
  end_ := s.end_
  space := (length_spliced (s.space.symm ▸ h)).trans s.space

/-- `std::copy` to `pos`, `std::uninitialized_copy`, `std::uninitialized_fill_n`. -/
def write (pos : Nat) (cs : List C) : M C max Unit := fun s =>
  if h : pos + cs.length ≤ max + 1 then .ok () (s.written pos cs h) else .error .outside s

/-- `traits_t::move`. -/
def move (dest source n : Nat) : M C max Unit := do
  let s ← get
  if source + n ≤ max + 1 then write dest ((s.buffer.drop source).take n) else throw .outside

def setEnd (n : Nat) : M C max Unit := modify fun s => { s with end_ := n }

/-! ## The functions -/

/-- The default constructor, and `clear`. -/
def clear : M C max Unit := setEnd 0

def elementInitialize (n : Nat) (c : C) : M C max Unit := do
  if n > max then throw .lengthError
  else
    write 0 (List.replicate n c)
    setEnd n

def rangeInitialize (range : List C) : M C max Unit := do
  if range.length ≥ max then throw .lengthError
  else
    write 0 range
    setEnd range.length

/-- `std::copy` of the range to `pos`, and the new end. -/
def copyIn (pos : Nat) (range : List C) : M C max Unit := do
  write pos range
  setEnd ((← get).end_ + range.length)

def insert (pos : Nat) (range : List C) : M C max Unit := do
  if range.length ≠ 0 then
    let s ← get
    if pos ≠ s.end_ then
      if s.end_ + range.length ≥ max then throw .outOfRange
      else
        move (pos + range.length) pos (s.end_ - pos)
        copyIn pos range
    else copyIn pos range
  else pure ()

def erase (first last : Nat) : M C max Unit := do
  if first ≠ last then
    let s ← get
    move first last (s.end_ - last + 1)
    setEnd (s.end_ - (last - first))
  else pure ()

/-- The terminator is `char_t()`. -/
def cStr [Inhabited C] : M C max Unit := do write (← get).end_ [default]

/-! ## `swap` -/

/-- The string with this character at `i`. -/
def withCell (s : CstringWrapper C max) (i : Nat) (c : C) : CstringWrapper C max where
  buffer := s.buffer.set i c
  end_ := s.end_
  space := by rw [List.length_set, s.space]

/-- `std::swap(_buffer[i], s._buffer[i])`. -/
def swapAt (i : Nat) (h : i < max + 1) (p : CstringWrapper C max × CstringWrapper C max) :
    CstringWrapper C max × CstringWrapper C max :=
  (p.1.withCell i (p.2.buffer.get ⟨i, by rw [p.2.space]; exact h⟩),
    p.2.withCell i (p.1.buffer.get ⟨i, by rw [p.1.space]; exact h⟩))

/-- The loop's body, and `++i`. -/
def swapCell (i : Nat) : EStateM Err (CstringWrapper C max × CstringWrapper C max) Unit := fun p =>
  if h : i < max + 1 then
    if i + 1 < 2 ^ 31 then .ok () (swapAt i h p) else .error .intOverflow (swapAt i h p)
  else .error .outside p

/-- `len` is an `int`: what does not fit makes an end before the buffer. -/
def swap : EStateM Err (CstringWrapper C max × CstringWrapper C max) Unit := do
  upto swapCell max 0
  let p ← get
  if p.1.end_ < 2 ^ 31 then set ({ p.1 with end_ := p.2.end_ }, { p.2 with end_ := p.1.end_ })
  else throw .outside

/-! ## Strings under names -/

abbrev Objects (C : Type) (max : Nat) := Nat → Option (CstringWrapper C max)

inductive Op (C : Type) (max : Nat) where
  | construct (x : Nat) (memory : CstringWrapper C max)
  | elementInitialize (x : Nat) (memory : CstringWrapper C max) (n : Nat) (c : C)
  | rangeInitialize (x : Nat) (memory : CstringWrapper C max) (range : List C)
  | copy (x : Nat) (memory : CstringWrapper C max) (y : Nat)
  | insert (x : Nat) (pos : Nat) (range : List C)
  | erase (x : Nat) (first last : Nat)
  | clear (x : Nat)
  | swap (x y : Nat)
  | cStr (x : Nat)

/-- A program on one object; what it does to the object before it throws is done. -/
def on (x : Nat) (f : M C max Unit) : EStateM Err (Objects C max) Unit := fun w =>
  match w x with
  | some s =>
    match f s with
    | .ok _ t => .ok () (Function.update w x (some t))
    | .error e t => .error e (Function.update w x (some t))
  | none => .error .noObject w

/-- A constructor. -/
def make (x : Nat) (memory : CstringWrapper C max) (f : M C max Unit) : EStateM Err (Objects C max) Unit := fun w =>
  match f memory with
  | .ok _ t => .ok () (Function.update w x (some t))
  | .error e _ => .error e w

/-- The copy constructor. -/
def copyOf (x : Nat) (memory : CstringWrapper C max) (y : Nat) : EStateM Err (Objects C max) Unit := fun w =>
  match w y with
  | some s => make x memory (rangeInitialize s.contents) w
  | none => .error .noObject w

def onBoth (x y : Nat) (f : EStateM Err (CstringWrapper C max × CstringWrapper C max) Unit) :
    EStateM Err (Objects C max) Unit := fun w =>
  match w x, w y with
  | some s, some t =>
    match f (s, t) with
    | .ok _ p => .ok () (Function.update (Function.update w x (some p.1)) y (some p.2))
    | .error e p => .error e (Function.update (Function.update w x (some p.1)) y (some p.2))
  | _, _ => .error .noObject w

def Op.exec [Inhabited C] : Op C max → EStateM Err (Objects C max) Unit
  | .construct x memory => make x memory CstringWrapper.clear
  | .elementInitialize x memory n c => make x memory (CstringWrapper.elementInitialize n c)
  | .rangeInitialize x memory range => make x memory (CstringWrapper.rangeInitialize range)
  | .copy x memory y => copyOf x memory y
  | .insert x pos range => on x (CstringWrapper.insert pos range)
  | .erase x first last => on x (CstringWrapper.erase first last)
  | .clear x => on x CstringWrapper.clear
  | .swap x y => onBoth x y CstringWrapper.swap
  | .cStr x => on x CstringWrapper.cStr

/-- The objects an operation is about are there, the one it constructs is not, and its
    positions are in the string, one before the other. -/
def Op.Legal (w : Objects C max) : Op C max → Prop
  | .construct x _ | .elementInitialize x _ _ _ | .rangeInitialize x _ _ => w x = none
  | .copy x _ y => w x = none ∧ ∃ s, w y = some s
  | .insert x pos _ => ∃ s, w x = some s ∧ pos ≤ s.end_
  | .erase x first last => ∃ s, w x = some s ∧ first ≤ last ∧ last ≤ s.end_
  | .clear x | .cStr x => ∃ s, w x = some s
  | .swap x y => (∃ s, w x = some s) ∧ ∃ t, w y = some t

/-- The strings after these operations. -/
def run [Inhabited C] (w : Objects C max) : List (Op C max) → Objects C max
  | [] => w
  | op :: ops =>
    match op.exec w with
    | .ok _ t => run t ops
    | .error _ t => run t ops

end CstringWrapper

end Dumbnose.Strings
