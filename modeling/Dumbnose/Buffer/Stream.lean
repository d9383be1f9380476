/-
  Dumbnose.Buffer.Stream — an output stream with its formatting state, as far as
  characters, texts and integers go.

  Whatever is inserted with a width is padded to it with the fill character, and uses the
  width up; the flags and the fill character stay. The stream is of `char`, without the
  grouping of digits that a locale may ask for, and what is sent arrives.
-/

import Mathlib.Data.List.Basic
import Mathlib.Tactic.Common

namespace Dumbnose.Buffer

/-- `basefield`; any other setting prints as `dec`. -/
inductive Base where
  | dec
  | oct
  | hex
  deriving DecidableEq, Repr

/-- `adjustfield`; any other setting pads as `right`. -/
inductive Adjust where
  | left
  | right
  | internal
  deriving DecidableEq, Repr

structure Flags where
  base : Base
  adjust : Adjust
  showbase : Bool
  showpos : Bool
  uppercase : Bool
  deriving DecidableEq, Repr

/-- The formatting state. -/
structure Format where
  flags : Flags
  width : Int
  fill : Char
  deriving DecidableEq, Repr

structure Stream where
  format : Format
  /-- All that was sent to it. -/
  out : List Char
  deriving DecidableEq, Repr

/-- A stream as it is made. -/
def Stream.new : Stream := ⟨⟨⟨.dec, .right, false, false, false⟩, 0, ' '⟩, []⟩

namespace Format

/-- The padding of a text of this length. -/
def padding (f : Format) (length : Nat) : List Char := List.replicate (f.width.toNat - length) f.fill

/-- `lead` is what `internal` pads behind: a sign, or 0x. -/
def pad (f : Format) (lead text : List Char) : List Char :=
  match f.flags.adjust with
  | .left => lead ++ text ++ f.padding (lead.length + text.length)
  | .right => f.padding (lead.length + text.length) ++ lead ++ text
  | .internal => lead ++ f.padding (lead.length + text.length) ++ text

def digits (f : Format) (n : Nat) : List Char :=
  match f.flags.base with
  | .dec => Nat.toDigits 10 n
  | .oct => Nat.toDigits 8 n
  | .hex => if f.flags.uppercase then (Nat.toDigits 16 n).map Char.toUpper else Nat.toDigits 16 n

/-- A number that is printed without a sign: its base, if that is shown, and its digits. -/
def unsigned (f : Format) (n : Nat) : List Char × List Char :=
  match f.flags.base with
  | .dec => ([], f.digits n)
  | .oct => ([], if f.flags.showbase ∧ n ≠ 0 then '0' :: f.digits n else f.digits n)
  | .hex => (if f.flags.showbase ∧ n ≠ 0 then ['0', if f.flags.uppercase then 'X' else 'x'] else [], f.digits n)

/-- An `int`; only `dec` shows its sign, the others print its 32 bits. -/
def signed (f : Format) (i : Int) : List Char × List Char :=
  match f.flags.base with
  | .dec => (if i < 0 then ['-'] else if f.flags.showpos then ['+'] else [], f.digits i.natAbs)
  | _ => f.unsigned (i % 4294967296).toNat

end Format

namespace Stream

def setFlags (s : Stream) (flags : Flags) : Stream := { s with format := { s.format with flags := flags } }

def setw (s : Stream) (n : Int) : Stream := { s with format := { s.format with width := n } }

def setfill (s : Stream) (c : Char) : Stream := { s with format := { s.format with fill := c } }

/-- What every inserter does: it pads, sends, and takes the width back. -/
def send (s : Stream) (lead text : List Char) : Stream :=
  { format := { s.format with width := 0 }, out := s.out ++ s.format.pad lead text }

def putText (s : Stream) (text : List Char) : Stream := s.send [] text

def putChar (s : Stream) (c : Char) : Stream := s.send [] [c]

def putUnsigned (s : Stream) (n : Nat) : Stream := s.send (s.format.unsigned n).1 (s.format.unsigned n).2

def putInt (s : Stream) (i : Int) : Stream := s.send (s.format.signed i).1 (s.format.signed i).2

/-- `std::endl`, which sends its character as it is. -/
def endl (s : Stream) : Stream := { s with out := s.out ++ ['\n'] }

/-! ## What changes -/

@[simp] theorem setFlags_out (s : Stream) (flags : Flags) : (s.setFlags flags).out = s.out := rfl
@[simp] theorem setFlags_format (s : Stream) (flags : Flags) :
    (s.setFlags flags).format = { s.format with flags := flags } := rfl
@[simp] theorem setw_out (s : Stream) (n : Int) : (s.setw n).out = s.out := rfl
@[simp] theorem setw_format (s : Stream) (n : Int) : (s.setw n).format = { s.format with width := n } := rfl
@[simp] theorem setfill_out (s : Stream) (c : Char) : (s.setfill c).out = s.out := rfl
@[simp] theorem setfill_format (s : Stream) (c : Char) : (s.setfill c).format = { s.format with fill := c } := rfl
@[simp] theorem send_out (s : Stream) (lead text : List Char) :
    (s.send lead text).out = s.out ++ s.format.pad lead text := rfl
@[simp] theorem send_format (s : Stream) (lead text : List Char) :
    (s.send lead text).format = { s.format with width := 0 } := rfl
@[simp] theorem endl_out (s : Stream) : s.endl.out = s.out ++ ['\n'] := rfl
@[simp] theorem endl_format (s : Stream) : s.endl.format = s.format := rfl

end Stream

/-- What is no longer than the width asks for is sent as it is. -/
theorem Format.pad_eq {f : Format} {lead text : List Char} (h : f.width ≤ (lead.length + text.length : Nat)) :
    f.pad lead text = lead ++ text := by
  have hp : f.padding (lead.length + text.length) = [] := by
    rw [padding, List.replicate_eq_nil_iff]
    omega
  unfold pad
  rw [hp]
  cases f.flags.adjust <;> simp

/-- Something is always sent of a text. -/
theorem Format.length_pad (f : Format) (lead text : List Char) : text.length ≤ (f.pad lead text).length := by
  unfold pad
  cases f.flags.adjust <;> simp <;> omega

end Dumbnose.Buffer
