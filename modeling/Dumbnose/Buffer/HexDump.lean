/-
  Dumbnose.Buffer.HexDump — a buffer as hexadecimal text (`buffer.hpp`).

  Each line has the offset of its first byte, sixteen columns of two digits and the bytes
  as characters. Which characters are printed as they are, `isgraph` says for the C locale
  that is set. An iterator is the bytes it still has before it.

  The operator sends the offset to `std::cout`, and only the rest of a line to the stream
  it was given. What it does send there can be read back (`insertBuffer_lines`): columns
  that decode to the bytes, and a character for each. As a dump it is complete where
  there is nothing to dump (`dumped_iff`).
-/

import Dumbnose.Buffer.Stream

namespace Dumbnose.Buffer

/-- Bytes per line. -/
def bufferLineSize : Nat := 16

/-- A number in an `int`: its 32 low bits. -/
def toInt (n : Int) : Int := Int.bmod n 4294967296

variable (isgraph : UInt8 → Bool)

/-- One turn of the first loop of `output_buffer_line`. -/
def outputColumn (p : Stream × List UInt8) (i : Nat) : Stream × List UInt8 :=
  let os := if i % (bufferLineSize / 2) = 0 then p.1.putText [' ', ' '] else p.1
  match p.2 with
  | b :: it => ((((os.setfill '0').setw 2).putUnsigned b.toNat).putChar ' ', it)
  | [] => (os.putText [' ', ' ', ' '], [])

/-- One turn of the second. -/
def outputCharacter (os : Stream) (b : UInt8) : Stream :=
  os.putChar (if isgraph b then Char.ofNat b.toNat else '.')

/-- The stream after a line, and the iterator. -/
def outputBufferLine (os : Stream) (it : List UInt8) : Stream × List UInt8 :=
  let p := (List.range bufferLineSize).foldl outputColumn (os, it)
  let os := p.1.putText [' ', ' ']
  (((it.take bufferLineSize).foldl (outputCharacter isgraph) os).endl, p.2)

/-- What the streams are after the line of number `i` and those after it, `n` in all. -/
def outputLines : Nat → Nat → Stream → Stream → List UInt8 → Stream × Stream
  | 0, _, cout, os, _ => (cout, os)
  | n + 1, i, cout, os, it =>
    let cout := (((cout.setw 6).setfill '0').putInt (toInt (i * bufferLineSize))).putText [' ', ' ']
    let p := outputBufferLine isgraph os it
    outputLines n (i + 1) cout p.1 p.2

/-- `num_lines`. -/
def numLines (size : Nat) : Int :=
  let lines := toInt (size / bufferLineSize : Nat)
  if size % bufferLineSize > 0 then toInt (lines + 1) else lines

/-- `std::hex << std::uppercase << std::noshowbase << std::right`. -/
def Flags.dump (flags : Flags) : Flags :=
  { flags with base := .hex, uppercase := true, showbase := false, adjust := .right }

/-- `operator<<`: `std::cout` and the stream after it. -/
def insertBuffer (cout os : Stream) (buffer : List UInt8) : Stream × Stream :=
  let fmt := os.format.flags
  let os := os.setFlags fmt.dump
  let p := outputLines isgraph (numLines buffer.length).toNat 0 cout os buffer
  (p.1, p.2.setFlags fmt)

/-! ## Reading a dump -/

def hexValue (c : Char) : Option Nat :=
  if '0' ≤ c ∧ c ≤ '9' then some (c.toNat - 48)
  else if 'A' ≤ c ∧ c ≤ 'F' then some (c.toNat - 55)
  else if 'a' ≤ c ∧ c ≤ 'f' then some (c.toNat - 87)
  else none

/-- The number that hexadecimal digits stand for. -/
def readHex (digits : List Char) : Option Nat :=
  (digits.mapM hexValue).map fun values => values.foldl (fun n v => 16 * n + v) 0

/-- The bytes that columns of two digits stand for, with any blanks between them. -/
def readColumns : List Char → Option (List UInt8)
  | [] => some []
  | [c] => if c = ' ' then some [] else none
  | c :: d :: rest =>
    if c = ' ' then readColumns (d :: rest)
    else do
      let high ← hexValue c
      let low ← hexValue d
      let bytes ← readColumns rest
      return UInt8.ofNat (16 * high + low) :: bytes

/-- The bytes of the line of number `j`. -/
def lineBytes (buffer : List UInt8) (j : Nat) : List UInt8 := (buffer.drop (16 * j)).take 16

/-- The columns of a line, `width` characters wide, and its characters. -/
def Columns (width : Nat) (bytes : List UInt8) (columns text : List Char) : Prop :=
  readColumns columns = some bytes ∧ columns.length = width ∧ text.length = bytes.length

/-- A line of a dump: six digits of its offset, the columns, a character for each byte. -/
def DumpLine (width : Nat) (buffer : List UInt8) (j : Nat) (line : List Char) : Prop :=
  ∃ offset blanks columns text, line = offset ++ blanks ++ columns ++ text ++ ['\n'] ∧ offset.length = 6 ∧
    readHex offset = some (16 * j) ∧ (∀ c ∈ blanks, c = ' ') ∧ Columns width (lineBytes buffer j) columns text

/-- The stream got the lines of the dump, nothing else got anything, and the formatting
    state is as it was. -/
structure Dumped (buffer : List UInt8) (cout os cout' os' : Stream) : Prop where
  alone : cout'.out = cout.out
  lines : ∃ width lines, os'.out = os.out ++ List.flatten lines ∧ lines.length = (buffer.length + 15) / 16 ∧
    ∀ j line, lines[j]? = some line → DumpLine width buffer j line
  format : os'.format = os.format

/-! ## The digits of a byte -/

/-- The stream has the flags of a dump, and no width that two characters do not fill. -/
structure Ready (flags : Flags) (os : Stream) : Prop where
  flags : os.format.flags = flags.dump
  width : os.format.width ≤ 2

theorem hexValue_digitChar : ∀ n < 16, hexValue (Nat.digitChar n).toUpper = some n := by decide

/-- The upper case digits of a byte, with the zero in front that the width asks for. -/
theorem toDigits_byte : ∀ n < 256,
    List.replicate (2 - (Nat.toDigits 16 n).length) '0' ++ (Nat.toDigits 16 n).map Char.toUpper =
      [(Nat.digitChar (n / 16)).toUpper, (Nat.digitChar (n % 16)).toUpper] := by
  decide +kernel

/-- The two digits of a byte. -/
def byteDigits (b : UInt8) : List Char :=
  [(Nat.digitChar (b.toNat / 16)).toUpper, (Nat.digitChar (b.toNat % 16)).toUpper]

theorem readColumns_blanks (n : Nat) (rest : List Char) :
    readColumns (List.replicate n ' ' ++ rest) = readColumns rest := by
  induction n with
  | zero => rfl
  | succ n ih =>
    rw [List.replicate_succ, List.cons_append]
    rcases h : List.replicate n ' ' ++ rest with _ | ⟨d, ds⟩
    · rw [h] at ih
      simpa [readColumns] using ih
    · rw [h] at ih
      simpa [readColumns] using ih

theorem readColumns_byte (b : UInt8) (rest : List Char) :
    readColumns (byteDigits b ++ rest) = (readColumns rest).map (b :: ·) := by
  have hb : b.toNat < 256 := b.toNat_lt
  have hh := hexValue_digitChar (b.toNat / 16) (by omega)
  have hl := hexValue_digitChar (b.toNat % 16) (by omega)
  have hne : (Nat.digitChar (b.toNat / 16)).toUpper ≠ ' ' := by
    intro h
    rw [h] at hh
    revert hh
    simp [hexValue]
  have hv : UInt8.ofNat (16 * (b.toNat / 16) + b.toNat % 16) = b := by
    rw [Nat.div_add_mod, UInt8.ofNat_toNat]
  simp only [byteDigits, List.cons_append, List.nil_append, readColumns, if_neg hne, hh, hl]
  cases readColumns rest with
  | none => rfl
  | some bytes => exact congrArg (fun x => some (x :: bytes)) hv

/-! ## A line -/

/-- What one turn of the first loop sends. -/
def columnText (it : List UInt8) (i : Nat) : List Char :=
  (if i % (bufferLineSize / 2) = 0 then [' ', ' '] else []) ++
    match it with
    | b :: _ => byteDigits b ++ [' ']
    | [] => [' ', ' ', ' ']

theorem Ready.send {flags : Flags} {os : Stream} (h : Ready flags os) (lead text : List Char) :
    Ready flags (os.send lead text) := ⟨h.flags, by simp⟩

/-- A byte is sent as its two digits and a blank. -/
theorem Ready.byte {flags : Flags} {os : Stream} (h : Ready flags os) (b : UInt8) :
    ((((os.setfill '0').setw 2).putUnsigned b.toNat).putChar ' ').out = os.out ++ (byteDigits b ++ [' ']) := by
  have hd := toDigits_byte b.toNat b.toNat_lt
  simp [Stream.putUnsigned, Stream.putChar, Format.unsigned, Format.digits, Format.pad, Format.padding, h.flags,
    Flags.dump, byteDigits, ← hd]

/-- The two blanks before a column are sent as they are. -/
theorem Ready.gap {flags : Flags} {os : Stream} (h : Ready flags os) (q : Prop) [Decidable q] :
    Ready flags (if q then os.putText [' ', ' '] else os) ∧
      (if q then os.putText [' ', ' '] else os).out = os.out ++ if q then [' ', ' '] else [] := by
  by_cases hq : q
  · rw [if_pos hq, if_pos hq]
    refine ⟨h.send _ _, ?_⟩
    rw [Stream.putText, Stream.send_out, Format.pad_eq h.width]
    rfl
  · rw [if_neg hq, if_neg hq, List.append_nil]
    exact ⟨h, rfl⟩

/-- One turn takes one byte, if there is one, and sends its column. -/
theorem Ready.column {flags : Flags} {os : Stream} (h : Ready flags os) (it : List UInt8) (i : Nat) :
    Ready flags (outputColumn (os, it) i).1 ∧ (outputColumn (os, it) i).1.out = os.out ++ columnText it i ∧
      (outputColumn (os, it) i).2 = it.tail := by
  obtain ⟨hr, ho⟩ := h.gap (i % (bufferLineSize / 2) = 0)
  cases it with
  | cons b it =>
    refine ⟨⟨hr.flags, by simp [outputColumn, Stream.putChar]⟩, ?_, rfl⟩
    show ((((_ : Stream).setfill '0').setw 2).putUnsigned b.toNat |>.putChar ' ').out = _
    rw [hr.byte, ho, List.append_assoc]
    rfl
  | nil =>
    refine ⟨hr.send _ _, ?_, rfl⟩
    have hw := hr.width
    show (Stream.putText _ [' ', ' ', ' ']).out = _
    rw [Stream.putText, Stream.send_out, Format.pad_eq (by simp; omega), ho, List.append_assoc]
    rfl

/-- A column reads as its byte, wherever it stands. -/
theorem readColumns_columnText (it : List UInt8) (i : Nat) (rest : List Char) :
    readColumns (columnText it i ++ rest) = (readColumns rest).map (it.take 1 ++ ·) := by
  have hgap : ∀ text, readColumns ((if i % (bufferLineSize / 2) = 0 then [' ', ' '] else []) ++ text) =
      readColumns text := by
    intro text
    split
    · exact readColumns_blanks 2 text
    · rfl
  unfold columnText
  rw [List.append_assoc, hgap]
  cases it with
  | cons b it =>
    show readColumns (byteDigits b ++ [' '] ++ rest) = _
    rw [List.append_assoc, readColumns_byte]
    exact congrArg _ (readColumns_blanks 1 rest)
  | nil =>
    rw [show (fun x : List UInt8 => [].take 1 ++ x) = id from rfl, Option.map_id]
    exact readColumns_blanks 3 rest

theorem length_columnText (it : List UInt8) (i : Nat) :
    (columnText it i).length = 3 + if i % (bufferLineSize / 2) = 0 then 2 else 0 := by
  unfold columnText
  cases it <;> split <;> rfl

/-- The columns of as many bytes as there are turns, and the bytes after them. -/
theorem Ready.columns {flags : Flags} (turns : List Nat) : ∀ {os : Stream}, Ready flags os → ∀ it : List UInt8,
    ∃ columns, Ready flags (turns.foldl outputColumn (os, it)).1 ∧
      (turns.foldl outputColumn (os, it)).1.out = os.out ++ columns ∧
      (turns.foldl outputColumn (os, it)).2 = it.drop turns.length ∧
      columns.length = 3 * turns.length + 2 * turns.countP (fun i => i % (bufferLineSize / 2) == 0) ∧
      ∀ rest, readColumns (columns ++ rest) = (readColumns rest).map (it.take turns.length ++ ·) := by
  induction turns with
  | nil => exact fun h it => ⟨[], h, by simp, rfl, rfl, by simp⟩
  | cons i turns ih =>
    intro os h it
    obtain ⟨hr, ho, ht⟩ := h.column it i
    obtain ⟨columns, hr', ho', ht', hl', hread⟩ := ih hr (outputColumn (os, it) i).2
    refine ⟨columnText it i ++ columns, hr', ?_, ?_, ?_, ?_⟩
    · rw [List.foldl_cons, ho', ho, List.append_assoc]
    · rw [List.foldl_cons, ht', ht, List.length_cons, List.drop_tail]
    · rw [List.length_append, length_columnText, hl', List.length_cons, List.countP_cons]
      simp only [beq_iff_eq]
      split <;> omega
    · intro rest
      rw [List.append_assoc, readColumns_columnText, hread, ht, Option.map_map]
      congr 1
      funext x
      show it.take 1 ++ (it.tail.take turns.length ++ x) = it.take (turns.length + 1) ++ x
      cases it <;> simp

/-- A character for each byte. -/
theorem outputCharacters_out (bytes : List UInt8) : ∀ os : Stream, os.format.width ≤ 1 →
    (bytes.foldl (outputCharacter isgraph) os).format.flags = os.format.flags ∧
      (bytes.foldl (outputCharacter isgraph) os).format.width ≤ 1 ∧
      ∃ text, (bytes.foldl (outputCharacter isgraph) os).out = os.out ++ text ∧ text.length = bytes.length := by
  induction bytes with
  | nil => exact fun os h => ⟨rfl, h, [], by simp, rfl⟩
  | cons b bytes ih =>
    intro os h
    obtain ⟨hf, hw, text, ht, hl⟩ := ih (outputCharacter isgraph os b) (by simp [outputCharacter, Stream.putChar])
    refine ⟨hf, hw, (if isgraph b then Char.ofNat b.toNat else '.') :: text, ?_, by simp [hl]⟩
    rw [List.foldl_cons, ht, outputCharacter, Stream.putChar, Stream.send_out, Format.pad_eq h]
    simp

/-- A line takes the bytes of its columns, and sends these columns and a character for each byte. -/
theorem Ready.line {flags : Flags} {os : Stream} (h : Ready flags os) (it : List UInt8) :
    Ready flags (outputBufferLine isgraph os it).1 ∧ (outputBufferLine isgraph os it).2 = it.drop 16 ∧
      ∃ columns text, (outputBufferLine isgraph os it).1.out = os.out ++ (columns ++ text ++ ['\n']) ∧
        Columns 54 (it.take 16) columns text := by
  obtain ⟨columns, hr, ho, ht, hl, hread⟩ := h.columns (List.range bufferLineSize) it
  obtain ⟨hf, hw, text, hx, hn⟩ := outputCharacters_out isgraph (it.take bufferLineSize)
    (((List.range bufferLineSize).foldl outputColumn (os, it)).1.putText [' ', ' ']) (by simp [Stream.putText])
  refine ⟨⟨hf.trans hr.flags, ?_⟩, ht, columns ++ [' ', ' '], text, ?_, ?_, ?_, hn⟩
  · have := hw
    simp only [outputBufferLine, Stream.endl_format]
    omega
  · rw [outputBufferLine, Stream.endl_out, hx, Stream.putText, Stream.send_out, Format.pad_eq hr.width, ho]
    simp
  · rw [hread]
    exact congrArg some (List.append_nil _)
  · rw [List.length_append, hl]
    rfl

/-! ## The dump -/

theorem lineBytes_succ (buffer : List UInt8) (j : Nat) : lineBytes buffer (j + 1) = lineBytes (buffer.drop 16) j := by
  rw [lineBytes, lineBytes, List.drop_drop, Nat.mul_succ, Nat.add_comm]

/-- As many lines as there are turns, each with its bytes. -/
theorem Ready.lines {flags : Flags} (n : Nat) : ∀ (i : Nat) (cout : Stream) {os : Stream}, Ready flags os →
    ∀ it : List UInt8, Ready flags (outputLines isgraph n i cout os it).2 ∧
      ∃ lines, (outputLines isgraph n i cout os it).2.out = os.out ++ List.flatten lines ∧ lines.length = n ∧
        ∀ j line, lines[j]? = some line →
          ∃ columns text, line = columns ++ text ++ ['\n'] ∧ Columns 54 (lineBytes it j) columns text := by
  induction n with
  | zero => exact fun i cout os h it => ⟨h, [], by simp [outputLines], rfl, by simp⟩
  | succ n ih =>
    intro i cout os h it
    obtain ⟨hr, ht, columns, text, ho, hc⟩ := h.line isgraph it
    obtain ⟨hr', lines, ho', hl', hlines⟩ := ih (i + 1)
      ((((cout.setw 6).setfill '0').putInt (toInt (i * bufferLineSize))).putText [' ', ' ']) hr
      (outputBufferLine isgraph os it).2
    refine ⟨hr', (columns ++ text ++ ['\n']) :: lines, ?_, congrArg (· + 1) hl', ?_⟩
    · rw [outputLines, ho', ho, List.flatten_cons, List.append_assoc]
    · intro j line hj
      cases j with
      | zero =>
        obtain rfl := Option.some.inj hj
        exact ⟨columns, text, rfl, hc⟩
      | succ j =>
        rw [lineBytes_succ, ← ht]
        exact hlines j line hj

/-- Every turn sends something to `std::cout`. -/
theorem outputLines_cout (n : Nat) : ∀ (i : Nat) (cout os : Stream) (it : List UInt8),
    cout.out.length + 2 * n ≤ (outputLines isgraph n i cout os it).1.out.length := by
  induction n with
  | zero => exact fun i cout os it => Nat.le_refl _
  | succ n ih =>
    intro i cout os it
    -- The column of the offset is at least the two blanks after it.
    have hp := Format.length_pad (((cout.setw 6).setfill '0').putInt (toInt (i * bufferLineSize))).format [] [' ', ' ']
    have hsent : cout.out.length + 2 ≤
        ((((cout.setw 6).setfill '0').putInt (toInt (i * bufferLineSize))).putText [' ', ' ']).out.length := by
      rw [Stream.putText, Stream.send_out, List.length_append, Stream.putInt, Stream.send_out, List.length_append]
      exact Nat.add_le_add (Nat.le_add_right _ _) hp
    have hn := ih (i + 1) ((((cout.setw 6).setfill '0').putInt (toInt (i * bufferLineSize))).putText [' ', ' '])
      (outputBufferLine isgraph os it).1 (outputBufferLine isgraph os it).2
    exact Nat.le_trans (by omega) hn

/-- A line for every sixteen bytes, and one for what is left, as far as an `int` counts them. -/
theorem numLines_eq {size : Nat} (h : size ≤ 34359738352) : numLines size = ((size + 15) / 16 : Nat) := by
  have hi : ∀ m : Nat, m < 2147483648 → toInt m = m := by
    intro m hm
    exact Int.bmod_eq_of_le (by omega) (by omega)
  unfold numLines
  rw [show bufferLineSize = 16 from rfl, hi _ (by omega)]
  split
  · show toInt (size / 16 + 1 : Nat) = _
    rw [hi _ (by omega)]
    omega
  · show ((size / 16 : Nat) : Int) = _
    omega

/-- The columns and the characters of a dump: each line decodes to its bytes, and the flags are restored. -/
theorem insertBuffer_lines (cout os : Stream) (buffer : List UInt8) (hn : buffer.length ≤ 34359738352)
    (hw : os.format.width ≤ 2) :
    (insertBuffer isgraph cout os buffer).2.format.flags = os.format.flags ∧
      ∃ lines, (insertBuffer isgraph cout os buffer).2.out = os.out ++ List.flatten lines ∧
        lines.length = (buffer.length + 15) / 16 ∧ ∀ j line, lines[j]? = some line →
          ∃ columns text, line = columns ++ text ++ ['\n'] ∧ Columns 54 (lineBytes buffer j) columns text := by
  have hr : Ready os.format.flags (os.setFlags os.format.flags.dump) := ⟨rfl, hw⟩
  obtain ⟨-, lines, ho, hl, hlines⟩ := hr.lines isgraph (numLines buffer.length).toNat 0 cout buffer
  refine ⟨rfl, lines, ho, ?_, hlines⟩
  rw [hl, numLines_eq hn, Int.toNat_natCast]

/-- The operator sends a dump to its stream alone just when there is nothing to dump. -/
theorem dumped_iff (cout os : Stream) (buffer : List UInt8) :
    Dumped buffer cout os (insertBuffer isgraph cout os buffer).1 (insertBuffer isgraph cout os buffer).2 ↔
      buffer = [] := by
  constructor
  · intro h
    have hc := outputLines_cout isgraph (numLines buffer.length).toNat 0 cout
      (os.setFlags os.format.flags.dump) buffer
    have hz : (numLines buffer.length).toNat = 0 := by
      have := congrArg List.length h.alone
      simp only [insertBuffer] at this
      omega
    -- No turn was taken, but a line would not have been empty.
    obtain ⟨width, lines, ho, hl, hlines⟩ := h.lines
    simp only [insertBuffer, hz, outputLines, Stream.setFlags_out, List.self_eq_append_right] at ho
    by_contra hb
    have hpos : 0 < lines.length := by
      have := List.length_pos_iff.mpr hb
      omega
    obtain ⟨offset, blanks, columns, text, he, -⟩ := hlines 0 lines[0] (List.getElem?_eq_getElem hpos)
    have := List.flatten_eq_nil_iff.mp ho lines[0] (List.getElem_mem hpos)
    rw [he] at this
    simp at this
  · rintro rfl
    exact ⟨rfl, ⟨0, [], by simp [insertBuffer, numLines, toInt, outputLines], rfl, by simp⟩, rfl⟩

/-- Of one byte, the offset goes to `std::cout`. -/
theorem not_dumped_A : ¬ Dumped [0x41] Stream.new Stream.new
    (insertBuffer (fun b => 33 ≤ b ∧ b ≤ 126) Stream.new Stream.new [0x41]).1
    (insertBuffer (fun b => 33 ≤ b ∧ b ≤ 126) Stream.new Stream.new [0x41]).2 := by
  intro h
  have := h.alone
  revert this
  decide +kernel

end Dumbnose.Buffer
