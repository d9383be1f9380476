/-
  Dumbnose.Strings.Bounded — fixed size strings against ordinary lists of characters.

  Each operation ought to do what it does to a list if the result fits, and to throw and
  change nothing if it does not. The tests that decide differ: `element_initialize` throws
  from `max_size_t + 1` characters on, `range_initialize`, the copy constructor and an
  `insert` before the end from `max_size_t` on, and an `insert` at the end never; `swap`
  counts with an `int`. So a string of the full length cannot be copied, nor made by an
  insertion before the end, and an insertion at the end goes past the limit.

  `bounded_list_iff`: a program's operations are all right exactly if none of them comes to
  where its test is not the limit (`Agrees`).
-/

import Dumbnose.Lib.Splits
import Dumbnose.Strings.CstringWrapper

namespace Dumbnose.Strings.CstringWrapper

open Lib.Exec Lib.Splits

variable {C : Type} {max : Nat}

/-! ## One string -/

theorem wp_write {Q : Unit → CstringWrapper C max → Prop} {E : Err → CstringWrapper C max → Prop}
    {s : CstringWrapper C max} {pos : Nat} {cs : List C} (h : pos + cs.length ≤ max + 1) :
    wp (write pos cs) Q E s ↔ Q () (s.written pos cs h) := by
  unfold wp write
  rw [dif_pos h]

theorem wp_write_outside {Q : Unit → CstringWrapper C max → Prop} {E : Err → CstringWrapper C max → Prop}
    {s : CstringWrapper C max} {pos : Nat} {cs : List C} (h : ¬ pos + cs.length ≤ max + 1) :
    wp (write pos cs) Q E s ↔ E .outside s := by
  unfold wp write
  rw [dif_neg h]

theorem wp_setEnd {Q : Unit → CstringWrapper C max → Prop} {E : Err → CstringWrapper C max → Prop}
    {s : CstringWrapper C max} {n : Nat} : wp (setEnd n) Q E s ↔ Q () { s with end_ := n } := Iff.rfl

theorem length_contents {s : CstringWrapper C max} (h : s.end_ ≤ max) : s.contents.length = s.end_ := by
  have := s.space
  simp [contents]
  omega

/-- What an operation on a string with this result ought to do. -/
structure RightOn (f : M C max Unit) (s : CstringWrapper C max) (result : List C) : Prop where
  fits : result.length ≤ max → Returns f (fun _ t => t.end_ ≤ max ∧ t.contents = result) s
  tooLong : max < result.length →
    wp f (fun _ _ => False) (fun e t => e.isException = true ∧ t.end_ ≤ max ∧ t.contents = s.contents) s

/-- What a constructor ought to do. -/
structure RightMade (f : M C max Unit) (memory : CstringWrapper C max) (result : List C) : Prop where
  fits : result.length ≤ max → Returns f (fun _ t => t.end_ ≤ max ∧ t.contents = result) memory
  tooLong : max < result.length → wp f (fun _ _ => False) (fun e _ => e.isException = true) memory

/-- What was written, after what was before it. -/
theorem spliced_split {b : List C} {pos : Nat} (cs : List C) (h : pos ≤ b.length) :
    (spliced b pos cs).take pos = b.take pos ∧ (spliced b pos cs).drop pos = cs ++ b.drop (pos + cs.length) := by
  have hlen : (b.take pos).length = pos := by
    rw [List.length_take]
    omega
  unfold spliced
  rw [List.append_assoc]
  exact ⟨List.take_left' hlen, List.drop_left' hlen⟩

/-- The first characters, up to some of those that were written. -/
theorem take_spliced {b : List C} {pos : Nat} {cs : List C} (h : pos ≤ b.length) {k : Nat} (hk : k ≤ cs.length) :
    (spliced b pos cs).take (pos + k) = b.take pos ++ cs.take k := by
  rw [List.take_add, (spliced_split cs h).1, (spliced_split cs h).2, List.take_append_of_le_length hk]

theorem take_spliced_zero (b cs : List C) : (spliced b 0 cs).take cs.length = cs := by
  have := take_spliced (Nat.zero_le b.length) (Nat.le_refl cs.length)
  rw [Nat.zero_add, List.take_length] at this
  exact this

theorem construct_right (memory : CstringWrapper C max) : RightMade clear memory [] :=
  ⟨fun _ => ⟨Nat.zero_le _, List.take_zero⟩, fun h => absurd h (Nat.not_lt_zero _)⟩

theorem elementInitialize_right (memory : CstringWrapper C max) (n : Nat) (c : C) :
    RightMade (elementInitialize n c) memory (List.replicate n c) := by
  refine ⟨fun h => ?_, fun h => ?_⟩
  · rw [List.length_replicate] at h
    unfold Returns elementInitialize
    rw [if_neg (by omega), wp_bind, wp_write (by rw [List.length_replicate]; omega), wp_setEnd]
    refine ⟨h, ?_⟩
    have := take_spliced_zero memory.buffer (List.replicate n c)
    rw [List.length_replicate] at this
    exact this
  · rw [List.length_replicate] at h
    unfold elementInitialize
    rw [if_pos h, wp_throw]
    rfl

theorem rangeInitialize_right_iff (memory : CstringWrapper C max) (range : List C) :
    RightMade (rangeInitialize range) memory range ↔ range.length ≠ max := by
  have hthrows : range.length ≥ max → rangeInitialize range memory = .error .lengthError memory := fun h => by
    unfold rangeInitialize
    rw [if_pos h]
    rfl
  refine ⟨fun hr h => ?_, fun h => ⟨fun hl => ?_, fun hl => ?_⟩⟩
  · have := hr.fits (Nat.le_of_eq h)
    unfold Returns wp at this
    rw [hthrows (Nat.le_of_eq h.symm)] at this
    exact this
  · unfold Returns rangeInitialize
    rw [if_neg (by omega), wp_bind, wp_write (by omega), wp_setEnd]
    exact ⟨hl, take_spliced_zero ..⟩
  · unfold wp
    rw [hthrows (by omega)]
    rfl

theorem clear_right (s : CstringWrapper C max) : RightOn clear s [] :=
  ⟨(construct_right s).fits, fun h => absurd h (Nat.not_lt_zero _)⟩

theorem cStr_right [Inhabited C] {s : CstringWrapper C max} (hs : s.end_ ≤ max) : RightOn cStr s s.contents := by
  refine ⟨fun _ => ?_, fun h => ?_⟩
  · unfold Returns cStr
    rw [wp_bind, wp_get, wp_write (by simp; omega)]
    exact ⟨hs, (spliced_split [default] (show s.end_ ≤ s.buffer.length by rw [s.space]; omega)).1⟩
  · rw [length_contents hs] at h
    omega

/-- A move within the buffer. -/
theorem wp_move {Q : Unit → CstringWrapper C max → Prop} {E : Err → CstringWrapper C max → Prop}
    {s : CstringWrapper C max} {dest source n : Nat} (hs : source + n ≤ max + 1) (hd : dest + n ≤ max + 1) :
    wp (move dest source n) Q E s ↔
      Q () (s.written dest ((s.buffer.drop source).take n) (by rw [List.length_take]; omega)) := by
  unfold move
  rw [wp_bind, wp_get, if_pos hs, wp_write (by rw [List.length_take]; omega)]

theorem erase_right {s : CstringWrapper C max} (hs : s.end_ ≤ max) {first last : Nat} (hf : first ≤ last)
    (hl : last ≤ s.end_) : RightOn (erase first last) s (s.contents.take first ++ s.contents.drop last) := by
  have hlen := length_contents hs
  have hspace := s.space
  refine ⟨fun _ => ?_, fun h => ?_⟩
  · unfold Returns erase
    by_cases e : first = last
    · rw [if_neg (not_not.mpr e), wp_pure, e, List.take_append_drop]
      exact ⟨hs, rfl⟩
    · rw [if_pos e, wp_bind, wp_get, wp_bind, wp_move (by omega) (by omega), wp_setEnd]
      refine ⟨by show s.end_ - (last - first) ≤ max; omega, ?_⟩
      show (spliced s.buffer first _).take (s.end_ - (last - first)) =
        (s.buffer.take s.end_).take first ++ (s.buffer.take s.end_).drop last
      rw [show s.end_ - (last - first) = first + (s.end_ - last) by omega, take_spliced (by omega) (by simp; omega),
        List.take_take, List.take_take, List.drop_take, Nat.min_eq_left (by omega), Nat.min_eq_left (by omega)]
  · simp [hlen] at h
    omega

/-! ## `insert` -/

theorem length_inserted {s : CstringWrapper C max} (hs : s.end_ ≤ max) {pos : Nat} (hp : pos ≤ s.end_)
    (range : List C) : (s.contents.take pos ++ range ++ s.contents.drop pos).length = s.end_ + range.length := by
  have hlen := length_contents hs
  simp [hlen]
  omega

/-- What is behind `p` moved on, and other characters put in between. -/
theorem take_moved {b range : List C} {n e p : Nat} (hb : b.length = n + 1) (hp : p < e) (he : e + range.length ≤ n) :
    (spliced (spliced b (p + range.length) ((b.drop p).take (e - p))) p range).take (e + range.length) =
      b.take p ++ range ++ (b.drop p).take (e - p) := by
  have hmoved := spliced_split ((b.drop p).take (e - p)) (show p + range.length ≤ b.length by omega)
  have hlen : (spliced b (p + range.length) ((b.drop p).take (e - p))).length = b.length :=
    length_spliced (by simp; omega)
  have hput := spliced_split range (show p ≤ (spliced b (p + range.length) ((b.drop p).take (e - p))).length by omega)
  have hbefore : (spliced b (p + range.length) ((b.drop p).take (e - p))).take p = b.take p := by
    have := congrArg (List.take p) hmoved.1
    rw [List.take_take, List.take_take, Nat.min_eq_left (Nat.le_add_right ..)] at this
    exact this
  have hmid : ((b.drop p).take (e - p)).length = e - p := by
    simp
    omega
  rw [show e + range.length = p + (range.length + (e - p)) by omega, List.take_add, hput.1, hput.2, hbefore, hmoved.2,
    List.take_length_add_append, List.append_assoc, List.take_left' hmid]

theorem wp_copyIn {Q : Unit → CstringWrapper C max → Prop} {E : Err → CstringWrapper C max → Prop}
    {s : CstringWrapper C max} {pos : Nat} {range : List C} (h : pos + range.length ≤ max + 1) :
    wp (copyIn pos range) Q E s ↔ Q () { s.written pos range h with end_ := s.end_ + range.length } := by
  unfold copyIn
  rw [wp_bind, wp_write h, wp_bind, wp_get, wp_setEnd]
  rfl

/-- Before the end, where there is room. -/
theorem insert_before_end {s : CstringWrapper C max} (hs : s.end_ ≤ max) {pos : Nat} (hp : pos < s.end_)
    {range : List C} (hne : range.length ≠ 0) (hroom : s.end_ + range.length < max) :
    Returns (insert pos range) (fun _ t => t.end_ ≤ max ∧
      t.contents = s.contents.take pos ++ range ++ s.contents.drop pos) s := by
  have hspace := s.space
  unfold Returns insert
  rw [if_pos hne, wp_bind, wp_get, if_pos (by omega), if_neg (by omega), wp_bind, wp_move (by omega) (by omega),
    wp_copyIn (by omega)]
  refine ⟨by show s.end_ + range.length ≤ max; omega, ?_⟩
  show (spliced (spliced s.buffer (pos + range.length) ((s.buffer.drop pos).take (s.end_ - pos))) pos range).take
      (s.end_ + range.length) = (s.buffer.take s.end_).take pos ++ range ++ (s.buffer.take s.end_).drop pos
  rw [List.take_take, Nat.min_eq_left (by omega), List.drop_take]
  exact take_moved hspace hp (by omega)

/-- At the end, where there is room for it and the terminator. -/
theorem insert_at_end {s : CstringWrapper C max} (hs : s.end_ ≤ max) {range : List C} (hne : range.length ≠ 0)
    (hroom : s.end_ + range.length ≤ max) :
    Returns (insert s.end_ range) (fun _ t => t.end_ ≤ max ∧
      t.contents = s.contents.take s.end_ ++ range ++ s.contents.drop s.end_) s := by
  have hspace := s.space
  have hlen := length_contents hs
  unfold Returns insert
  rw [if_pos hne, wp_bind, wp_get, if_neg (by omega), wp_copyIn (by omega)]
  refine ⟨hroom, ?_⟩
  show (spliced s.buffer s.end_ range).take (s.end_ + range.length) = _
  rw [take_spliced (by omega) (Nat.le_refl _), List.take_length, List.take_of_length_le (Nat.le_of_eq hlen),
    List.drop_of_length_le (Nat.le_of_eq hlen), List.append_nil]
  rfl

/-- At the end there is no test: the insertion goes past `max_size_t`, or outside. -/
theorem insert_at_end_not_throws {s : CstringWrapper C max} {range : List C} (hne : range.length ≠ 0)
    {E : Err → CstringWrapper C max → Prop} (hE : ∀ t, ¬ E .outside t) :
    ¬ wp (insert s.end_ range) (fun _ _ => False) E s := by
  unfold insert
  rw [if_pos hne, wp_bind, wp_get, if_neg (not_not.mpr rfl)]
  by_cases h : s.end_ + range.length ≤ max + 1
  · rw [wp_copyIn h]
    exact id
  · unfold copyIn
    rw [wp_bind, wp_write_outside h]
    exact hE s

/-- Before the end the test is made, and is for one character less than fit. -/
theorem insert_throws {s : CstringWrapper C max} {pos : Nat} {range : List C} (hne : range.length ≠ 0)
    (hp : pos ≠ s.end_) (h : s.end_ + range.length ≥ max) : insert pos range s = .error .outOfRange s := by
  unfold insert
  rw [if_pos hne]
  show (if pos ≠ s.end_ then if s.end_ + range.length ≥ max then throw .outOfRange else _ else _ : M C max Unit) s = _
  rw [if_pos hp, if_pos h]
  rfl

theorem insert_right_iff {s : CstringWrapper C max} (hs : s.end_ ≤ max) {pos : Nat} (hp : pos ≤ s.end_)
    (range : List C) : RightOn (insert pos range) s (s.contents.take pos ++ range ++ s.contents.drop pos) ↔
      range.length ≠ 0 → if pos = s.end_ then s.end_ + range.length ≤ max else s.end_ + range.length ≠ max := by
  have hlen := length_inserted hs hp range
  by_cases hne : range.length = 0
  · refine iff_of_true ⟨fun _ => ?_, fun h => by omega⟩ fun h => absurd hne h
    rw [List.eq_nil_of_length_eq_zero hne, List.append_nil, List.take_append_drop]
    unfold Returns insert
    rw [if_neg (by simp), wp_pure]
    exact ⟨hs, rfl⟩
  · rw [imp_iff_right hne]
    by_cases he : pos = s.end_
    · rw [if_pos he, he]
      rw [he] at hlen
      refine ⟨fun hr => ?_, fun h => ⟨fun _ => insert_at_end hs hne h, fun hl => by omega⟩⟩
      by_contra h
      refine insert_at_end_not_throws hne (fun t ht => ?_) (hr.tooLong (by omega))
      cases ht.1
    · rw [if_neg he]
      refine ⟨fun hr h => ?_, fun h => ⟨fun hl => insert_before_end hs (by omega) hne (by omega), fun hl => ?_⟩⟩
      · obtain ⟨a, t, hreturn, -⟩ := (hr.fits (by omega)).run
        rw [insert_throws hne he (by omega)] at hreturn
        cases hreturn
      · unfold wp
        rw [insert_throws hne he (by omega)]
        exact ⟨rfl, hs, rfl⟩

/-! ## `swap` -/

/-- The cells below `i` are exchanged. -/
structure Swapped (s t : CstringWrapper C max) (i : Nat) (p : CstringWrapper C max × CstringWrapper C max) : Prop where
  ends : p.1.end_ = s.end_ ∧ p.2.end_ = t.end_
  left : ∀ j, p.1.buffer[j]? = if j < i then t.buffer[j]? else s.buffer[j]?
  right : ∀ j, p.2.buffer[j]? = if j < i then s.buffer[j]? else t.buffer[j]?

theorem set_swapped {a b d e : List C} {i : Nat} (hi : i < a.length) (hb : i < b.length) (ha : a[i]? = d[i]?)
    (h : ∀ j, b[j]? = if j < i then d[j]? else e[j]?) (j : Nat) :
    (b.set i (a.get ⟨i, hi⟩))[j]? = if j < i + 1 then d[j]? else e[j]? := by
  rcases Nat.lt_trichotomy i j with hij | rfl | hij
  · rw [List.getElem?_set_ne (Nat.ne_of_lt hij), if_neg (by omega), h j, if_neg (by omega)]
  · rw [List.getElem?_set_self hb, if_pos (by omega), ← ha, List.getElem?_eq_getElem hi]
    rfl
  · rw [List.getElem?_set_ne (Nat.ne_of_gt hij), if_pos (by omega), h j, if_pos hij]

theorem swapCell_returns {s t : CstringWrapper C max} {i : Nat} (hi : i < max) (h31 : i + 1 < 2 ^ 31)
    {p : CstringWrapper C max × CstringWrapper C max} (hp : Swapped s t i p) :
    Returns (swapCell i) (fun _ q => Swapped s t (i + 1) q) p := by
  have h1 := p.1.space
  have h2 := p.2.space
  unfold Returns wp swapCell
  rw [dif_pos (show i < max + 1 by omega), if_pos h31]
  refine ⟨hp.ends, set_swapped (by omega) (by omega) ?_ hp.left, set_swapped (by omega) (by omega) ?_ hp.right⟩
  · rw [hp.right i, if_neg (Nat.lt_irrefl i)]
  · rw [hp.left i, if_neg (Nat.lt_irrefl i)]

theorem take_eq_of_getElem? {a b : List C} {n : Nat} (h : ∀ j, j < n → a[j]? = b[j]?) : a.take n = b.take n := by
  apply List.ext_getElem?
  intro j
  rw [List.getElem?_take, List.getElem?_take]
  by_cases e : j < n
  · rw [if_pos e, if_pos e, h j e]
  · rw [if_neg e, if_neg e]

theorem swap_returns {s t : CstringWrapper C max} (hs : s.end_ ≤ max) (ht : t.end_ ≤ max) (hmax : max < 2 ^ 31) :
    Returns swap (fun _ p => (p.1.end_ ≤ max ∧ p.1.contents = t.contents) ∧ p.2.end_ ≤ max ∧ p.2.contents = s.contents)
      (s, t) := by
  have hloop : Returns (upto swapCell max 0) (fun _ p => Swapped s t (0 + max) p) (s, t) := by
    refine upto_returns (Swapped s t) max 0 (s, t) ⟨⟨rfl, rfl⟩, fun j => ?_, fun j => ?_⟩ fun i p _ hi hp =>
      swapCell_returns (by omega) (by omega) hp
    · rw [if_neg (Nat.not_lt_zero j)]
    · rw [if_neg (Nat.not_lt_zero j)]
  unfold Returns swap
  rw [wp_bind]
  refine hloop.wp fun _ p hp => ?_
  rw [wp_bind, wp_get, if_pos (by rw [hp.ends.1]; omega)]
  refine ⟨⟨hp.ends.2 ▸ ht, ?_⟩, hp.ends.1 ▸ hs, ?_⟩
  · show p.1.buffer.take p.2.end_ = t.buffer.take t.end_
    rw [hp.ends.2]
    exact take_eq_of_getElem? fun j hj => by rw [hp.left j, if_pos (by omega)]
  · show p.2.buffer.take p.1.end_ = s.buffer.take s.end_
    rw [hp.ends.1]
    exact take_eq_of_getElem? fun j hj => by rw [hp.right j, if_pos (by omega)]

/-- The `int` that counts comes to its end before a limit that it cannot reach. -/
theorem swapCell_overflows (n i : Nat) (p : CstringWrapper C max × CstringWrapper C max) (hi : i < 2 ^ 31)
    (hn : 2 ^ 31 ≤ i + n) (hmax : i + n ≤ max) : wp (upto swapCell n i) (fun _ _ => False) (fun _ _ => True) p := by
  induction n generalizing i p with
  | zero => omega
  | succ n ih =>
    unfold upto
    rw [wp_bind]
    by_cases h31 : i + 1 < 2 ^ 31
    · have hbody : Returns (swapCell i) (fun _ _ => True) p := by
        unfold Returns wp swapCell
        rw [dif_pos (show i < max + 1 by omega), if_pos h31]
        trivial
      exact hbody.wp fun _ q _ => ih (i + 1) q h31 (by omega) (by omega)
    · unfold wp swapCell
      rw [dif_pos (show i < max + 1 by omega), if_neg h31]
      trivial

theorem swap_not_returns {p : CstringWrapper C max × CstringWrapper C max} (hmax : 2 ^ 31 ≤ max)
    {Q : Unit → CstringWrapper C max × CstringWrapper C max → Prop} : ¬ Returns swap Q p := by
  intro h
  unfold Returns swap at h
  rw [wp_bind] at h
  obtain ⟨e, u, hthrow, -⟩ := (swapCell_overflows max 0 p (by omega) (by omega) (by omega)).throws
  unfold wp at h
  rw [hthrow] at h
  exact h

/-! ## Strings under names -/

/-- The lists that the strings stand for. -/
def lists (w : Objects C max) : Nat → Option (List C) := Option.map contents ∘ w

/-- The operation on ordinary lists. -/
def Op.onLists (l : Nat → Option (List C)) : Op C max → Nat → Option (List C)
  | .construct x _ => Function.update l x (some [])
  | .elementInitialize x _ n c => Function.update l x (some (List.replicate n c))
  | .rangeInitialize x _ range => Function.update l x (some range)
  | .copy x _ y => Function.update l x (l y)
  | .insert x pos range => Function.update l x ((l x).map fun cs => cs.take pos ++ range ++ cs.drop pos)
  | .erase x first last => Function.update l x ((l x).map fun cs => cs.take first ++ cs.drop last)
  | .clear x => Function.update l x (some [])
  | .swap x y => Function.update (Function.update l x (l y)) y (l x)
  | .cStr _ => l

/-- No list is longer than a string can be. -/
def Fits (max : Nat) (l : Nat → Option (List C)) : Prop := ∀ x cs, l x = some cs → cs.length ≤ max

/-- No `size()` exceeds `max_size()`. -/
def Bounded (w : Objects C max) : Prop := ∀ x s, w x = some s → s.end_ ≤ max

/-- What an operation ought to do: the same as to lists if the result fits, else throw
    and leave them as they were. -/
structure Right [Inhabited C] (w : Objects C max) (op : Op C max) : Prop where
  fits : Fits max (op.onLists (lists w)) → Returns op.exec (fun _ u => Bounded u ∧ lists u = op.onLists (lists w)) w
  tooLong : ¬ Fits max (op.onLists (lists w)) →
    wp op.exec (fun _ _ => False) (fun e u => e.isException = true ∧ Bounded u ∧ lists u = lists w) w

/-- An operation's test is the limit at what it is called with. -/
def Agrees (w : Objects C max) : Op C max → Prop
  | .rangeInitialize _ _ range => range.length ≠ max
  | .copy _ _ y => ∀ s, w y = some s → s.end_ ≠ max
  | .insert x pos range => ∀ s, w x = some s → range.length ≠ 0 →
    if pos = s.end_ then s.end_ + range.length ≤ max else s.end_ + range.length ≠ max
  | .swap _ _ => max < 2 ^ 31
  | _ => True

theorem lists_update (w : Objects C max) (x : Nat) (t : CstringWrapper C max) :
    lists (Function.update w x (some t)) = Function.update (lists w) x (some t.contents) :=
  Function.comp_update ..

theorem lists_fits {w : Objects C max} (hw : Bounded w) : Fits max (lists w) := by
  intro x cs h
  obtain ⟨s, hs, rfl⟩ := Option.map_eq_some_iff.mp h
  rw [length_contents (hw x s hs)]
  exact hw x s hs

theorem fits_update_iff {w : Objects C max} (hw : Bounded w) (x : Nat) (cs : List C) :
    Fits max (Function.update (lists w) x (some cs)) ↔ cs.length ≤ max := by
  refine ⟨fun h => h x cs (Function.update_self ..), fun h y ds hy => ?_⟩
  by_cases e : y = x
  · rw [e, Function.update_self] at hy
    exact Option.some.inj hy ▸ h
  · rw [Function.update_of_ne e] at hy
    exact lists_fits hw y ds hy

theorem bounded_update_iff {w : Objects C max} (hw : Bounded w) (x : Nat) (t : CstringWrapper C max) :
    Bounded (Function.update w x (some t)) ↔ t.end_ ≤ max := by
  refine ⟨fun h => h x t (Function.update_self ..), fun h y s hy => ?_⟩
  by_cases e : y = x
  · rw [e, Function.update_self] at hy
    exact Option.some.inj hy ▸ h
  · rw [Function.update_of_ne e] at hy
    exact hw y s hy

/-- A string is as it ought to be exactly if all are. -/
theorem put_iff {w : Objects C max} (hw : Bounded w) (x : Nat) (t : CstringWrapper C max) (cs : List C) :
    Bounded (Function.update w x (some t)) ∧
      lists (Function.update w x (some t)) = Function.update (lists w) x (some cs) ↔
        t.end_ ≤ max ∧ t.contents = cs := by
  rw [bounded_update_iff hw, lists_update]
  refine and_congr_right fun _ => ⟨fun h => ?_, fun h => by rw [h]⟩
  have := congrFun h x
  rw [Function.update_self, Function.update_self] at this
  exact Option.some.inj this

theorem wp_on {Q : Unit → Objects C max → Prop} {E : Err → Objects C max → Prop} {w : Objects C max} {x : Nat}
    {s : CstringWrapper C max} (hs : w x = some s) (f : M C max Unit) :
    wp (on x f) Q E w ↔ wp f (fun _ t => Q () (Function.update w x (some t)))
      (fun e t => E e (Function.update w x (some t))) s := by
  cases hf : f s <;> simp only [wp, on, hs, hf]

theorem wp_make {Q : Unit → Objects C max → Prop} {E : Err → Objects C max → Prop} {w : Objects C max} (x : Nat)
    (memory : CstringWrapper C max) (f : M C max Unit) :
    wp (make x memory f) Q E w ↔ wp f (fun _ t => Q () (Function.update w x (some t))) (fun e _ => E e w) memory := by
  cases hf : f memory <;> simp only [wp, make, hf]

theorem wp_onBoth {Q : Unit → Objects C max → Prop} {E : Err → Objects C max → Prop} {w : Objects C max} {x y : Nat}
    {s t : CstringWrapper C max} (hx : w x = some s) (hy : w y = some t)
    (f : EStateM Err (CstringWrapper C max × CstringWrapper C max) Unit) : wp (onBoth x y f) Q E w ↔
      wp f (fun _ p => Q () (Function.update (Function.update w x (some p.1)) y (some p.2)))
        (fun e p => E e (Function.update (Function.update w x (some p.1)) y (some p.2))) (s, t) := by
  cases hf : f (s, t) <;> simp only [wp, onBoth, hx, hy, hf]

theorem lists_eq {w : Objects C max} {x : Nat} {s : CstringWrapper C max} (hs : w x = some s) :
    lists w x = some s.contents :=
  congrArg (Option.map contents) hs

section Exec
variable [Inhabited C] {w : Objects C max} {op : Op C max} {x : Nat}

/-- A program is right exactly if what it comes down to is. -/
theorem right_iff_of {P Q : Prop} {n : Nat} (hfits : Fits max (op.onLists (lists w)) ↔ n ≤ max)
    (hret : Returns op.exec (fun _ u => Bounded u ∧ lists u = op.onLists (lists w)) w ↔ P)
    (hthrow : wp op.exec (fun _ _ => False) (fun e u => e.isException = true ∧ Bounded u ∧ lists u = lists w) w ↔ Q) :
    Right w op ↔ (n ≤ max → P) ∧ (max < n → Q) := by
  rw [← hret, ← hthrow, ← hfits, ← Nat.not_le, ← hfits]
  exact ⟨fun h => ⟨h.fits, h.tooLong⟩, fun h => ⟨h.1, h.2⟩⟩

theorem right_of_make (hw : Bounded w) {memory : CstringWrapper C max} {f : M C max Unit} {cs : List C}
    (hexec : op.exec w = make x memory f w) (hlists : op.onLists (lists w) = Function.update (lists w) x (some cs)) :
    Right w op ↔ RightMade f memory cs := by
  have hq : ∀ {Q E}, wp op.exec Q E w ↔
      wp f (fun _ t => Q () (Function.update w x (some t))) (fun e _ => E e w) memory := by
    intro Q E
    rw [← wp_make]
    unfold wp
    rw [hexec]
  have hfits := fits_update_iff hw x cs
  rw [← hlists] at hfits
  have hret : Returns op.exec (fun _ u => Bounded u ∧ lists u = op.onLists (lists w)) w ↔
      Returns f (fun _ t => t.end_ ≤ max ∧ t.contents = cs) memory := by
    unfold Returns
    rw [hq, hlists]
    simp only [put_iff hw]
  have hthrow : wp op.exec (fun _ _ => False) (fun e u => e.isException = true ∧ Bounded u ∧ lists u = lists w) w ↔
      wp f (fun _ _ => False) (fun e _ => e.isException = true) memory := by
    rw [hq]
    simp only [hw, and_true]
  exact (right_iff_of hfits hret hthrow).trans ⟨fun h => ⟨h.1, h.2⟩, fun h => ⟨h.fits, h.tooLong⟩⟩

theorem right_of_on (hw : Bounded w) {s : CstringWrapper C max} (hs : w x = some s) {f : M C max Unit} {cs : List C}
    (hexec : op.exec w = on x f w) (hlists : op.onLists (lists w) = Function.update (lists w) x (some cs)) :
    Right w op ↔ RightOn f s cs := by
  have hq : ∀ {Q E}, wp op.exec Q E w ↔ wp f (fun _ t => Q () (Function.update w x (some t)))
      (fun e t => E e (Function.update w x (some t))) s := by
    intro Q E
    rw [← wp_on hs]
    unfold wp
    rw [hexec]
  have hfits := fits_update_iff hw x cs
  rw [← hlists] at hfits
  have hold : lists w = Function.update (lists w) x (some s.contents) := by
    rw [← lists_eq hs, Function.update_eq_self]
  have hret : Returns op.exec (fun _ u => Bounded u ∧ lists u = op.onLists (lists w)) w ↔
      Returns f (fun _ t => t.end_ ≤ max ∧ t.contents = cs) s := by
    unfold Returns
    rw [hq, hlists]
    simp only [put_iff hw]
  have hthrow : wp op.exec (fun _ _ => False) (fun e u => e.isException = true ∧ Bounded u ∧ lists u = lists w) w ↔
      wp f (fun _ _ => False) (fun e t => e.isException = true ∧ t.end_ ≤ max ∧ t.contents = s.contents) s := by
    rw [hq, hold]
    simp only [put_iff hw]
  exact (right_iff_of hfits hret hthrow).trans ⟨fun h => ⟨h.1, h.2⟩, fun h => ⟨h.fits, h.tooLong⟩⟩

theorem swap_right_iff (hw : Bounded w) {y : Nat} {s t : CstringWrapper C max} (hx : w x = some s)
    (hy : w y = some t) : Right w (.swap x y) ↔ max < 2 ^ 31 := by
  have hlists : (Op.swap x y : Op C max).onLists (lists w) =
      Function.update (Function.update (lists w) x (some t.contents)) y (some s.contents) := by
    show Function.update (Function.update (lists w) x (lists w y)) y (lists w x) = _
    rw [lists_eq hx, lists_eq hy]
  have hfits : Fits max ((Op.swap x y : Op C max).onLists (lists w)) := by
    have h := (bounded_update_iff ((bounded_update_iff hw x t).mpr (hw y t hy)) y s).mpr (hw x s hx)
    rw [hlists, ← lists_update, ← lists_update]
    exact lists_fits h
  refine ⟨fun h => ?_, fun hmax => ⟨fun _ => ?_, fun hn => absurd hfits hn⟩⟩
  · by_contra hmax
    have := h.fits hfits
    exact swap_not_returns (by omega) ((wp_onBoth hx hy swap).mp this)
  · apply (wp_onBoth hx hy swap).mpr
    refine (swap_returns (hw x s hx) (hw y t hy) hmax).mono fun _ p hp => ?_
    obtain ⟨⟨h1, h2⟩, h3, h4⟩ := hp
    refine ⟨(bounded_update_iff ((bounded_update_iff hw x p.1).mpr h1) y p.2).mpr h3, ?_⟩
    rw [lists_update, lists_update, h2, h4, hlists]

/-- One operation: right exactly where its test is the limit. -/
theorem right_iff (hw : Bounded w) (hl : op.Legal w) : Right w op ↔ Agrees w op := by
  cases op with
  | construct x memory =>
    exact iff_of_true ((right_of_make hw rfl rfl).mpr (construct_right memory)) trivial
  | elementInitialize x memory n c =>
    exact iff_of_true ((right_of_make hw rfl rfl).mpr (elementInitialize_right memory n c)) trivial
  | rangeInitialize x memory range => exact (right_of_make hw rfl rfl).trans (rangeInitialize_right_iff memory range)
  | copy x memory y =>
    obtain ⟨-, s, hs⟩ := hl
    have hexec : (Op.copy x memory y).exec w = make x memory (rangeInitialize s.contents) w := by
      show copyOf x memory y w = _
      unfold copyOf
      rw [hs]
    have hlists : (Op.copy x memory y).onLists (lists w) = Function.update (lists w) x (some s.contents) :=
      congrArg (Function.update (lists w) x) (lists_eq hs)
    rw [right_of_make hw hexec hlists, rangeInitialize_right_iff, length_contents (hw y s hs)]
    refine ⟨fun h t ht => ?_, fun h => h s hs⟩
    rw [hs] at ht
    exact Option.some.inj ht ▸ h
  | insert x pos range =>
    obtain ⟨s, hs, hp⟩ := hl
    have hlists : (Op.insert x pos range : Op C max).onLists (lists w) =
        Function.update (lists w) x (some (s.contents.take pos ++ range ++ s.contents.drop pos)) := by
      show Function.update (lists w) x ((lists w x).map _) = _
      rw [lists_eq hs]
      rfl
    rw [right_of_on hw hs rfl hlists, insert_right_iff (hw x s hs) hp]
    refine ⟨fun h t ht => ?_, fun h => h s hs⟩
    rw [hs] at ht
    exact Option.some.inj ht ▸ h
  | erase x first last =>
    obtain ⟨s, hs, hf, hl⟩ := hl
    have hlists : (Op.erase x first last : Op C max).onLists (lists w) =
        Function.update (lists w) x (some (s.contents.take first ++ s.contents.drop last)) := by
      show Function.update (lists w) x ((lists w x).map _) = _
      rw [lists_eq hs]
      rfl
    exact iff_of_true ((right_of_on hw hs rfl hlists).mpr (erase_right (hw x s hs) hf hl)) trivial
  | clear x =>
    obtain ⟨s, hs⟩ := hl
    exact iff_of_true ((right_of_on hw hs rfl rfl).mpr (clear_right s)) trivial
  | swap x y =>
    obtain ⟨⟨s, hs⟩, t, ht⟩ := hl
    exact swap_right_iff hw hs ht
  | cStr x =>
    obtain ⟨s, hs⟩ := hl
    have hlists : (Op.cStr x : Op C max).onLists (lists w) = Function.update (lists w) x (some s.contents) := by
      rw [← lists_eq hs, Function.update_eq_self]
      rfl
    exact iff_of_true ((right_of_on hw hs rfl hlists).mpr (cStr_right (hw x s hs))) trivial

/-! ## Every program -/

theorem run_snoc (w : Objects C max) (ops : List (Op C max)) (op : Op C max) :
    run w (ops ++ [op]) = run (run w ops) [op] := by
  induction ops generalizing w with
  | nil => rfl
  | cons o ops ih =>
    cases ho : o.exec w <;> simp only [List.cons_append, run, ho, ih]

theorem bounded_of_right (h : Right w op) : Bounded (run w [op]) := by
  unfold run
  by_cases hf : Fits max (op.onLists (lists w))
  · obtain ⟨a, t, ht, hb, -⟩ := (h.fits hf).run
    rw [ht]
    exact hb
  · obtain ⟨e, t, ht, -, hb, -⟩ := (h.tooLong hf).throws
    rw [ht]
    exact hb

end Exec

/-- No strings. -/
def noStrings : Objects C max := fun _ => none

theorem bounded_noStrings : Bounded (noStrings : Objects C max) := by
  intro x s hs
  cases hs

section Programs
variable [Inhabited C]

theorem bounded_run {ops : List (Op C max)} (h : ∀ p op, p ++ [op] <+: ops → Right (run noStrings p) op) :
    Bounded (run noStrings ops) := by
  induction ops using List.reverseRecOn with
  | nil => exact bounded_noStrings
  | append_singleton ops op ih =>
    obtain ⟨-, hop⟩ := forall_step_snoc.mp h
    rw [run_snoc]
    exact bounded_of_right hop

/-- A program's operations are all right exactly if each meets its test at the limit, or
    away from it. -/
theorem bounded_list_iff (ops : List (Op C max)) (hl : ∀ p op, p ++ [op] <+: ops → op.Legal (run noStrings p)) :
    (∀ p op, p ++ [op] <+: ops → Right (run noStrings p) op) ↔
      ∀ p op, p ++ [op] <+: ops → Agrees (run noStrings p) op := by
  induction ops using List.reverseRecOn with
  | nil => exact iff_of_true forall_step_nil forall_step_nil
  | append_singleton ops op ih =>
    obtain ⟨hl, hop⟩ := forall_step_snoc.mp hl
    rw [forall_step_snoc, forall_step_snoc, ← ih hl]
    exact and_congr_right fun hr => right_iff (bounded_run hr) hop

end Programs

/-! ## At the limit -/

/-- Memory with two characters of room, and one for the terminator. -/
def twoCells : CstringWrapper Nat 2 := ⟨[9, 9, 9], 0, rfl⟩

theorem bounded_list_iff_two_strings :
    Right (run noStrings [.rangeInitialize 0 twoCells [7], .copy 1 twoCells 0]) (.insert 1 1 [8]) := by
  have hright := (bounded_list_iff [.rangeInitialize 0 twoCells [7], .copy 1 twoCells 0, .insert 1 1 [8]] ?_).mpr ?_
  · exact hright _ _ List.prefix_rfl
  · exact forall_step_cons.mpr ⟨rfl, forall_step_cons.mpr ⟨⟨rfl, _, rfl⟩, forall_step_cons.mpr
      ⟨⟨_, rfl, Nat.le_refl _⟩, forall_step_nil⟩⟩⟩
  · refine forall_step_cons.mpr ⟨show 1 ≠ 2 by decide, forall_step_cons.mpr ⟨fun s hs => ?_, forall_step_cons.mpr
      ⟨fun s hs _ => ?_, forall_step_nil⟩⟩⟩
    · obtain rfl := Option.some.inj hs
      decide
    · obtain rfl := Option.some.inj hs
      decide

/-- Two characters where there is room for two. -/
def full : Objects Nat 2 := run noStrings [.elementInitialize 0 twoCells 2 7]

theorem bounded_full : Bounded full :=
  (bounded_update_iff bounded_noStrings 0 _).mpr (Nat.le_refl 2)

/-- It cannot be copied; another insertion at its end goes past `max_size()`, and then
    the terminator is outside. -/
theorem not_bounded_list :
    (∀ op, op = .copy 1 twoCells 0 ∨ op = .insert 0 2 [8] → op.Legal full ∧ ¬ Right full op) ∧
      (∃ u, (Op.copy 1 twoCells 0).exec full = .error .lengthError u) ∧
      (run full [.insert 0 2 [8]] 0).map end_ = some 3 ∧
      ∃ u, (Op.cStr 0).exec (run full [.insert 0 2 [8]]) = .error .outside u := by
  refine ⟨?_, ⟨_, rfl⟩, rfl, _, rfl⟩
  rintro op (rfl | rfl)
  · have hl : Op.Legal full (.copy 1 twoCells 0) := ⟨rfl, _, rfl⟩
    exact ⟨hl, fun h => (right_iff bounded_full hl).mp h _ rfl rfl⟩
  · have hl : Op.Legal full (.insert 0 2 [8]) := ⟨_, rfl, Nat.le_refl _⟩
    refine ⟨hl, fun h => ?_⟩
    have : 2 + 1 ≤ 2 := (right_iff bounded_full hl).mp h _ rfl (by decide)
    omega

end Dumbnose.Strings.CstringWrapper
