/-
  Dumbnose.Registry.RoundTrip — whether a map that is saved in a key is what enumerating
  the key returns.

  `save_enum_values_as_strings` stores a string without its terminator, and
  `enum_values_as_strings` reads each value into one buffer and takes what is there up to
  a null character. So a string comes back as itself where the buffer happens to hold
  zeros behind it: where the values enumerated earlier do not reach that far. A string
  without characters has no data and is left out. `clear_enum_values` does not delete the
  unnamed value, as its name is empty.

  `round_trips_iff`: the map that is returned is the map that was saved exactly if none of
  that gets in the way (`RoundTrips`), whatever was in the key and in whatever order the
  system enumerates.
-/

import Mathlib.Data.List.Induction
import Mathlib.Data.List.Nodup
import Dumbnose.Lib.Splits
import Dumbnose.Registry.Key

namespace Dumbnose.Registry

open Strings Lib.Overwrite Lib.Splits

namespace Key

variable {upcase : UInt16 → UInt16}

/-! ## What is in the key -/

theorem same_nil_iff {name : WString} : Same upcase name [] ↔ name = [] := List.map_eq_nil_iff

/-- Setting a value whose name is in the key in no other spelling. -/
theorem mem_set_iff {k : Key upcase} {name : WString} (hn : 0 ∉ name)
    (hs : ∀ w ∈ k.values, Same upcase w.name name → w.name = name) (type : UInt32) (data : List UInt8) (v : Value) :
    v ∈ (k.regSetValueEx name type data).values ↔ v = ⟨name, type, data⟩ ∨ v ∈ k.values ∧ v.name ≠ name := by
  show v ∈ withValue upcase k.values (cStr name) type data ↔ _
  rw [cStr_eq hn]
  unfold withValue
  by_cases e : ∃ w ∈ k.values, Same upcase w.name name
  · rw [if_pos e, List.mem_map]
    refine ⟨fun h => ?_, fun h => ?_⟩
    · obtain ⟨w, hw, rfl⟩ := h
      by_cases e' : Same upcase w.name name
      · rw [if_pos e', hs w hw e']
        exact .inl rfl
      · rw [if_neg e']
        exact .inr ⟨hw, fun h => e' (congrArg (List.map upcase) h)⟩
    · rcases h with rfl | ⟨hv, hne⟩
      · obtain ⟨w, hw, e'⟩ := e
        exact ⟨w, hw, by rw [if_pos e', hs w hw e']⟩
      · exact ⟨v, hv, if_neg fun e' => hne (hs v hv e')⟩
  · rw [if_neg e, List.mem_append, List.mem_singleton, or_comm]
    refine or_congr_right ⟨fun hv => ⟨hv, fun h => e ⟨v, hv, congrArg (List.map upcase) h⟩⟩, fun h => h.1⟩

theorem mem_delete_iff {k : Key upcase} (names : List WString) (v : Value) :
    v ∈ (names.foldl regDeleteValue k).values ↔ v ∈ k.values ∧ ∀ name ∈ names, ¬ Same upcase v.name name := by
  induction names generalizing k with
  | nil => simp
  | cons name names ih =>
    rw [List.foldl_cons, ih]
    show v ∈ k.values.filter _ ∧ _ ↔ _
    simp only [List.mem_filter, decide_eq_true_eq, List.forall_mem_cons, and_assoc]

theorem mem_enumValueNames {enumeration : List Value} (h : ∀ v ∈ enumeration, v.name.length < 1024) :
    ∃ names, enumValueNames enumeration = some names ∧
      ∀ name, name ∈ names ↔ ∃ v ∈ enumeration, v.name ≠ [] ∧ cStr v.name = name := by
  induction enumeration with
  | nil => exact ⟨[], rfl, by simp⟩
  | cons v vs ih =>
    obtain ⟨hv, hvs⟩ := List.forall_mem_cons.mp h
    obtain ⟨names, hnames, hmem⟩ := ih hvs
    simp only [enumValueNames, if_pos hv, hnames, Option.map_some]
    by_cases e : v.name = []
    · refine ⟨names, by simp [e], fun name => ?_⟩
      simp [hmem, e]
    · refine ⟨cStr v.name :: names, by simp [List.length_pos_iff.mpr e], fun name => ?_⟩
      simp [hmem, e, eq_comm]

/-- What `clear_enum_values` leaves: the unnamed value. -/
theorem clear_values {k : Key upcase} {enumeration : List Value} (he : enumeration.Perm k.values)
    (h : ∀ v ∈ k.values, v.name.length < 1024) :
    ∃ c, k.clearEnumValues enumeration = some c ∧ ∀ v, v ∈ c.values ↔ v ∈ k.values ∧ v.name = [] := by
  obtain ⟨names, hnames, hmem⟩ := mem_enumValueNames fun v hv => h v (he.mem_iff.mp hv)
  refine ⟨_, by rw [clearEnumValues, hnames, Option.map_some], fun v => ?_⟩
  rw [mem_delete_iff]
  refine and_congr_right fun hv => ⟨fun hall => ?_, fun h0 name hname hs => ?_⟩
  · by_contra e
    refine hall (cStr v.name) ((hmem _).mpr ⟨v, he.mem_iff.mpr hv, e, rfl⟩) ?_
    rw [cStr_eq (k.terminable v hv)]
    rfl
  · obtain ⟨w, hw, hne, rfl⟩ := (hmem name).mp hname
    rw [cStr_eq (k.terminable w (he.mem_iff.mp hw)), h0] at hs
    exact hne (same_nil_iff.mp hs.symm)

/-- The value that a pair of the map is stored as. -/
def stored (x : WString × WString) : Value := ⟨x.1, regSz, bytes x.2⟩

theorem mem_save_iff {l : List (WString × WString)} {k : Key upcase} (hn : ∀ x ∈ l, 0 ∉ x.1)
    (hl : l.Pairwise fun x y => ¬ Same upcase x.1 y.1)
    (hs : ∀ w ∈ k.values, ∀ x ∈ l, Same upcase w.name x.1 → w.name = x.1) (v : Value) :
    v ∈ (l.foldl (fun k x => k.regSetValueEx x.1 regSz (bytes x.2)) k).values ↔
      (∃ x ∈ l, v = stored x) ∨ v ∈ k.values ∧ ∀ x ∈ l, v.name ≠ x.1 := by
  induction l generalizing k with
  | nil => simp
  | cons x l ih =>
    obtain ⟨hx, hn⟩ := List.forall_mem_cons.mp hn
    obtain ⟨hxl, hl⟩ := List.pairwise_cons.mp hl
    have hset := mem_set_iff hx (fun w hw => hs w hw x List.mem_cons_self) regSz (bytes x.2)
    rw [List.foldl_cons, ih hn hl]
    · rw [hset, List.exists_mem_cons_iff, List.forall_mem_cons]
      refine ⟨fun h => ?_, fun h => ?_⟩
      · rcases h with h | ⟨h | ⟨hk, hne⟩, hall⟩
        · exact .inl (.inr h)
        · exact .inl (.inl h)
        · exact .inr ⟨hk, hne, hall⟩
      · rcases h with (h | h) | ⟨hk, hne, hall⟩
        -- a value that was just set has a name that is not set again
        · refine .inr ⟨.inl h, fun y hy e => hxl y hy ?_⟩
          rw [h] at e
          exact congrArg (List.map upcase) e
        · exact .inl h
        · exact .inr ⟨.inr ⟨hk, hne⟩, hall⟩
    · intro w hw y hy e
      rcases (hset w).mp hw with rfl | ⟨hw, -⟩
      · exact absurd e (hxl y hy)
      · exact hs w hw y (List.mem_cons_of_mem _ hy) e

/-- Names under 1024 characters, pairwise different ignoring case, and strings under 4096
    characters, none of them null. -/
structure Saveable (upcase : UInt16 → UInt16) (m : Std.ExtTreeMap WString WString) : Prop where
  short : ∀ name ∈ m, name.length < 1024
  distinct : ∀ name ∈ m, ∀ other ∈ m, Same upcase name other → name = other
  strings : ∀ (name s : WString), m[name]? = some s → 0 ∉ s ∧ s.length < 4096

theorem mem_iff_toList {m : Std.ExtTreeMap WString WString} {name : WString} :
    name ∈ m ↔ ∃ x ∈ m.toList, name = x.1 := by
  refine ⟨fun h => ?_, fun h => ?_⟩
  · rw [Std.ExtTreeMap.mem_iff_isSome_getElem?] at h
    obtain ⟨s, hs⟩ := Option.isSome_iff_exists.mp h
    exact ⟨(name, s), Std.ExtTreeMap.mem_toList_iff_getElem?_eq_some.mpr hs, rfl⟩
  · obtain ⟨x, hx, rfl⟩ := h
    rw [Std.ExtTreeMap.mem_iff_isSome_getElem?, Std.ExtTreeMap.mem_toList_iff_getElem?_eq_some.mp hx]
    rfl

theorem toList_pairwise {m : Std.ExtTreeMap WString WString} (hm : Saveable upcase m) :
    m.toList.Pairwise fun x y => ¬ Same upcase x.1 y.1 := by
  have hkey : ∀ x ∈ m.toList, x.1 ∈ m := fun x hx => mem_iff_toList.mpr ⟨x, hx, rfl⟩
  refine Std.ExtTreeMap.distinct_keys_toList.imp_of_mem fun {x y} hx hy hne e => hne ?_
  rw [hm.distinct x.1 (hkey x hx) y.1 (hkey y hy) e]
  exact Std.ReflCmp.compare_self

/-- What is in the key after the map was saved, if its names have no null character: the
    map, and the unnamed value that was there if the map has none. -/
theorem save_values {k : Key upcase} {enumeration : List Value} (he : enumeration.Perm k.values)
    (h : ∀ v ∈ k.values, v.name.length < 1024) {m : Std.ExtTreeMap WString WString} (hm : Saveable upcase m) :
    ∃ c, k.saveEnumValuesAsStrings enumeration m = some c ∧ ((∀ name ∈ m, (0 : UInt16) ∉ name) → ∀ v, v ∈ c.values ↔
      (∃ s, m[v.name]? = some s ∧ v = stored (v.name, s)) ∨ v ∈ k.values ∧ v.name = [] ∧ [] ∉ m) := by
  obtain ⟨d, hd, hmem⟩ := clear_values he h
  refine ⟨_, by rw [saveEnumValuesAsStrings, hd, Option.map_some], fun hn v => ?_⟩
  rw [mem_save_iff (fun x hx => hn _ (mem_iff_toList.mpr ⟨x, hx, rfl⟩)) (toList_pairwise hm) fun w hw x _ e => ?_]
  · have hput : (∃ x ∈ m.toList, v = stored x) ↔ ∃ s, m[v.name]? = some s ∧ v = stored (v.name, s) := by
      refine ⟨fun h => ?_, fun h => ?_⟩
      · obtain ⟨x, hx, rfl⟩ := h
        exact ⟨x.2, Std.ExtTreeMap.mem_toList_iff_getElem?_eq_some.mp hx, rfl⟩
      · obtain ⟨s, hs, hv⟩ := h
        exact ⟨_, Std.ExtTreeMap.mem_toList_iff_getElem?_eq_some.mpr hs, hv⟩
    have hkept : (∀ x ∈ m.toList, v.name ≠ x.1) ↔ v.name ∉ m := by
      rw [mem_iff_toList]
      simp only [not_exists, not_and, ne_eq]
    rw [hput, hmem, hkept, and_assoc]
    refine or_congr_right (and_congr_right fun _ => and_congr_right fun h0 => ?_)
    rw [h0]
  · have h0 := ((hmem w).mp hw).2
    rw [h0] at e ⊢
    exact (same_nil_iff.mp e.symm).symm

/-! ## What is read -/

/-- A value that the enumeration puts into the result. -/
def Shown (v : Value) : Prop := v.data.length > 0 ∧ v.type = regSz

/-- `value_buffer` after the values before. -/
def buffer (before : List Value) : Nat → UInt8 := (before.map Value.data).foldl overwrite fun _ => 0

/-- The string that a value is read as, after the values before. -/
def readAs (before : List Value) (v : Value) : Option WString := cString (units (overwrite (buffer before) v.data) 4096)

/-- The calls succeed, and the reading stays in the buffer. -/
structure Readable (vs : List Value) : Prop where
  fits : ∀ v ∈ vs, v.name.length < 1024 ∧ v.data.length ≤ 8192
  strings : ∀ before v after, vs = before ++ v :: after → Shown v → (readAs before v).isSome = true

/-- The result has what each value was read as. -/
def Result (vs : List Value) (m : Std.ExtTreeMap WString WString) : Prop :=
  ∀ name s, m[name]? = some s ↔
    ∃ before v after, vs = before ++ v :: after ∧ Shown v ∧ v.name = name ∧ readAs before v = some s

theorem buffer_snoc (before : List Value) (v : Value) : buffer (before ++ [v]) = overwrite (buffer before) v.data := by
  unfold buffer
  rw [List.map_append, List.foldl_append]
  rfl

theorem readValues_snoc (vs : List Value) (v : Value) :
    readValues (vs ++ [v]) = (readValues vs).bind fun s => readValue s v := by
  unfold readValues
  rw [List.foldlM_append]
  cases List.foldlM readValue (fun _ => 0, ∅) vs <;> simp

theorem result_snoc_shown {vs : List Value} {v : Value} {m : Std.ExtTreeMap WString WString} (hm : Result vs m)
    (hv : Shown v) (hnew : ∀ w ∈ vs, w.name ≠ v.name) {s : WString} (hs : readAs vs v = some s) :
    Result (vs ++ [v]) (m.insert v.name s) := by
  intro name t
  rw [Std.ExtTreeMap.getElem?_insert]
  refine ⟨fun h => ?_, fun h => ?_⟩
  · by_cases e : v.name = name
    · rw [if_pos (by rw [e]; exact Std.ReflCmp.compare_self)] at h
      exact ⟨vs, v, [], rfl, hv, e, hs.trans h⟩
    · rw [if_neg fun h => e (Std.LawfulEqCmp.eq_of_compare h)] at h
      obtain ⟨before, w, after, rfl, hw, hn, hr⟩ := (hm name t).mp h
      exact ⟨before, w, after ++ [v], by simp, hw, hn, hr⟩
  · obtain ⟨before, w, after, he, hw, hn, hr⟩ := h
    rcases split_snoc he with ⟨after', rfl⟩ | ⟨rfl, rfl⟩
    · have hne : v.name ≠ name := fun e => hnew w (by simp) (hn.trans e.symm)
      rw [if_neg fun h => hne (Std.LawfulEqCmp.eq_of_compare h)]
      exact (hm name t).mpr ⟨before, w, after', rfl, hw, hn, hr⟩
    · rw [if_pos (by rw [hn]; exact Std.ReflCmp.compare_self), ← hs, hr]

theorem result_snoc_hidden {vs : List Value} {v : Value} {m : Std.ExtTreeMap WString WString} (hm : Result vs m)
    (hv : ¬ Shown v) : Result (vs ++ [v]) m := by
  intro name t
  refine (hm name t).trans ⟨fun h => ?_, fun h => ?_⟩
  · obtain ⟨before, w, after, rfl, hw, hn, hr⟩ := h
    exact ⟨before, w, after ++ [v], by simp, hw, hn, hr⟩
  · obtain ⟨before, w, after, he, hw, hn, hr⟩ := h
    rcases split_snoc he with ⟨after', rfl⟩ | ⟨rfl, rfl⟩
    · exact ⟨before, w, after', rfl, hw, hn, hr⟩
    · exact absurd hw hv

theorem readable_snoc {vs : List Value} {v : Value} : Readable (vs ++ [v]) ↔
    Readable vs ∧ (v.name.length < 1024 ∧ v.data.length ≤ 8192) ∧ (Shown v → (readAs vs v).isSome = true) := by
  refine ⟨fun h => ⟨⟨fun w hw => h.fits w (List.mem_append_left _ hw), fun before w after e => ?_⟩, ?_, ?_⟩,
    fun h => ⟨fun w hw => ?_, fun before w after e => ?_⟩⟩
  · exact h.strings before w (after ++ [v]) (by rw [e]; simp)
  · exact h.fits v (by simp)
  · exact h.strings vs v [] rfl
  · rcases List.mem_append.mp hw with hw | hw
    · exact h.1.fits w hw
    · rw [List.mem_singleton.mp hw]
      exact h.2.1
  · rcases split_snoc e with ⟨after', he⟩ | ⟨rfl, rfl⟩
    · exact h.1.strings before w after' he
    · exact h.2.2

theorem readValue_eq_some {vs : List Value} {v : Value} {m : Std.ExtTreeMap WString WString}
    {r : (Nat → UInt8) × Std.ExtTreeMap WString WString} (h : readValue (buffer vs, m) v = some r) :
    (v.name.length < 1024 ∧ v.data.length ≤ 8192) ∧ r.1 = buffer (vs ++ [v]) ∧
      (Shown v ∧ (∃ s, readAs vs v = some s ∧ r.2 = m.insert (cStr v.name) s) ∨ ¬ Shown v ∧ r.2 = m) := by
  rw [buffer_snoc]
  unfold readValue at h
  by_cases hf : v.name.length < 1024 ∧ v.data.length ≤ 8192
  · rw [if_pos hf] at h
    by_cases hv : Shown v
    · rw [if_pos (show v.data.length > 0 ∧ v.type = regSz from hv)] at h
      obtain ⟨s, hs, rfl⟩ := Option.map_eq_some_iff.mp h
      exact ⟨hf, rfl, .inl ⟨hv, s, hs, rfl⟩⟩
    · rw [if_neg (show ¬ (v.data.length > 0 ∧ v.type = regSz) from hv)] at h
      obtain rfl := Option.some.inj h
      exact ⟨hf, rfl, .inr ⟨hv, rfl⟩⟩
  · rw [if_neg hf] at h
    cases h

theorem readValue_isSome {vs : List Value} {v : Value} (m : Std.ExtTreeMap WString WString)
    (hf : v.name.length < 1024 ∧ v.data.length ≤ 8192) (hs : Shown v → (readAs vs v).isSome = true) :
    ∃ r, readValue (buffer vs, m) v = some r := by
  unfold readValue
  rw [if_pos hf]
  by_cases hv : Shown v
  · obtain ⟨s, hs⟩ := Option.isSome_iff_exists.mp (hs hv)
    rw [if_pos (show v.data.length > 0 ∧ v.type = regSz from hv)]
    exact ⟨_, Option.map_eq_some_iff.mpr ⟨s, hs, rfl⟩⟩
  · rw [if_neg (show ¬ (v.data.length > 0 ∧ v.type = regSz) from hv)]
    exact ⟨_, rfl⟩

/-- The loop: it comes to its end exactly if every value can be read, with the strings
    the values are read as. -/
theorem readValues_spec {vs : List Value} (hterm : ∀ v ∈ vs, 0 ∉ v.name) (hd : (vs.map Value.name).Nodup) :
    (Readable vs → ∃ r, readValues vs = some r) ∧
    ∀ r, readValues vs = some r → r.1 = buffer vs ∧ Readable vs ∧ Result vs r.2 := by
  induction vs using List.reverseRecOn with
  | nil =>
    refine ⟨fun _ => ⟨_, rfl⟩, fun r h => ?_⟩
    obtain rfl := Option.some.inj h
    refine ⟨rfl, ⟨fun v hv => absurd hv List.not_mem_nil, fun before v after e => ?_⟩, fun name s => ?_⟩
    · simp at e
    · refine iff_of_false (by simp) fun h => ?_
      obtain ⟨before, v, after, e, -⟩ := h
      simp at e
  | append_singleton vs v ih =>
    rw [List.map_append, List.nodup_append] at hd
    obtain ⟨hd, -, hdv⟩ := hd
    obtain ⟨ih1, ih2⟩ := ih (fun w hw => hterm w (List.mem_append_left _ hw)) hd
    have hnew : ∀ w ∈ vs, w.name ≠ v.name := fun w hw =>
      hdv w.name (List.mem_map_of_mem hw) v.name (List.mem_singleton.mpr rfl)
    have hname : cStr v.name = v.name := cStr_eq (hterm v (by simp))
    rw [readable_snoc]
    refine ⟨fun h => ?_, fun r h => ?_⟩
    · obtain ⟨r, hr⟩ := ih1 h.1
      obtain ⟨hb, -, -⟩ := ih2 r hr
      rw [readValues_snoc, hr, show r = (buffer vs, r.2) from Prod.ext hb rfl]
      exact readValue_isSome r.2 h.2.1 h.2.2
    · rw [readValues_snoc] at h
      obtain ⟨q, hq, h⟩ := Option.bind_eq_some_iff.mp h
      obtain ⟨hb, hread, hres⟩ := ih2 q hq
      rw [show q = (buffer vs, q.2) from Prod.ext hb rfl] at h
      obtain ⟨hf, hb', hcase⟩ := readValue_eq_some h
      refine ⟨hb', ⟨hread, hf, fun hv => ?_⟩, ?_⟩
      · rcases hcase with ⟨-, s, hs, -⟩ | ⟨hv', -⟩
        · rw [hs]
          rfl
        · exact absurd hv hv'
      · rcases hcase with ⟨hv, s, hs, hr⟩ | ⟨hv, hr⟩
        · rw [hr, hname]
          exact result_snoc_shown hres hv hnew hs
        · rw [hr]
          exact result_snoc_hidden hres hv

/-! ## The round trip -/

/-- What does not get in the way: of the map, no name with a null character and no string
    without characters; of the key, no unnamed string that is kept (and none that is too
    long to be read); of the enumeration, no bytes behind a string of the map but zeros,
    from the last value before it that reaches them. -/
structure RoundTrips (k : Key upcase) (m : Std.ExtTreeMap WString WString) (vs : List Value) : Prop where
  names : ∀ name ∈ m, (0 : UInt16) ∉ name
  nonempty : ∀ name : WString, m[name]? ≠ some []
  unnamed : [] ∉ m → ∀ v ∈ k.values, v.name = [] → v.data.length ≤ 8192 ∧ ¬ Shown v
  behind : ∀ before v after s, vs = before ++ v :: after → m[v.name]? = some s →
    ∀ i, i = 2 * s.length ∨ i = 2 * s.length + 1 → (last (before.map Value.data) i).getD 0 = 0

theorem shown_stored_iff (name s : WString) : Shown (stored (name, s)) ↔ s ≠ [] := by
  show (bytes s).length > 0 ∧ regSz = regSz ↔ s ≠ []
  rw [length_bytes, ← List.length_pos_iff]
  refine ⟨fun h => ?_, fun h => ⟨?_, rfl⟩⟩ <;> omega

theorem readAs_stored_iff {name s : WString} (hs : 0 ∉ s) (hl : s.length < 4096) (before : List Value) :
    readAs before (stored (name, s)) = some s ↔
      ∀ i, i = 2 * s.length ∨ i = 2 * s.length + 1 → (last (before.map Value.data) i).getD 0 = 0 := by
  have hlen := length_bytes s
  have hstart : ∀ i, i < 2 * s.length →
      some (overwrite (buffer before) (stored (name, s)).data i) = (bytes s)[i]? := fun i hi =>
    overwrite_of_lt (show i < (bytes s).length by omega)
  unfold readAs
  rw [cString_units_iff hs hl hstart]
  have hbehind : ∀ i, 2 * s.length ≤ i →
      overwrite (buffer before) (stored (name, s)).data i = (last (before.map Value.data) i).getD 0 := by
    intro i hi
    exact (overwrite_of_ge (show (bytes s).length ≤ i by omega)).trans (foldl_overwrite ..)
  rw [hbehind _ (Nat.le_refl _), hbehind _ (Nat.le_succ _)]
  refine ⟨fun h i hi => ?_, fun h => ⟨h _ (.inl rfl), h _ (.inr rfl)⟩⟩
  rcases hi with rfl | rfl
  · exact h.1
  · exact h.2

/-- The values of a key, enumerated in some order, have one name each. -/
theorem enumeration_names {k : Key upcase} {vs : List Value} (hvs : vs.Perm k.values) :
    (∀ v ∈ vs, 0 ∉ v.name) ∧ (vs.map Value.name).Nodup := by
  refine ⟨fun v hv => k.terminable v (hvs.mem_iff.mp hv), ?_⟩
  have := (hvs.map fun v => v.name.map upcase).nodup_iff.mpr k.distinct
  exact List.Nodup.of_map (List.map upcase) (by rw [List.map_map]; exact this)

section Saved
variable {k : Key upcase} {m : Std.ExtTreeMap WString WString} {vs : List Value}

/-- The values of the key are those of the map, and the unnamed one that was kept. -/
def Saved (k : Key upcase) (m : Std.ExtTreeMap WString WString) (vs : List Value) : Prop := ∀ v, v ∈ vs ↔
  (∃ s, m[v.name]? = some s ∧ v = stored (v.name, s)) ∨ v ∈ k.values ∧ v.name = [] ∧ [] ∉ m

theorem Saved.eq_stored (hs : Saved k m vs) {v : Value} (hv : v ∈ vs) {s : WString} (h : m[v.name]? = some s) :
    v = stored (v.name, s) := by
  rcases (hs v).mp hv with ⟨t, ht, he⟩ | ⟨-, h0, hm⟩
  · rw [h] at ht
    exact Option.some.inj ht ▸ he
  · rw [h0] at h
    rw [Std.ExtTreeMap.mem_iff_isSome_getElem?, h] at hm
    exact absurd rfl hm

theorem Saved.split (hs : Saved k m vs) {name s : WString} (h : m[name]? = some s) :
    ∃ before after, vs = before ++ stored (name, s) :: after :=
  List.append_of_mem ((hs _).mpr (.inl ⟨s, h, rfl⟩))

theorem roundTrips_of_read (hm : Saveable upcase m) (hs : (∀ name ∈ m, (0 : UInt16) ∉ name) → Saved k m vs)
    (hterm : ∀ v ∈ vs, 0 ∉ v.name) (hread : Readable vs) (hres : Result vs m) : RoundTrips k m vs := by
  have hnames : ∀ name ∈ m, (0 : UInt16) ∉ name := by
    intro name hn
    rw [Std.ExtTreeMap.mem_iff_isSome_getElem?] at hn
    obtain ⟨s, hs⟩ := Option.isSome_iff_exists.mp hn
    obtain ⟨before, v, after, rfl, -, rfl, -⟩ := (hres name s).mp hs
    exact hterm v (by simp)
  have hs := hs hnames
  have hnonempty : ∀ name : WString, m[name]? ≠ some [] := by
    intro name h0
    obtain ⟨before, v, after, rfl, hv, rfl, -⟩ := (hres name []).mp h0
    rw [hs.eq_stored (by simp) h0] at hv
    exact (shown_stored_iff _ _).mp hv rfl
  refine ⟨hnames, hnonempty, fun h0 v hv hname => ?_, fun before v after s e h => ?_⟩
  · have hin : v ∈ vs := (hs v).mpr (.inr ⟨hv, hname, h0⟩)
    refine ⟨(hread.fits v hin).2, fun hshown => h0 ?_⟩
    obtain ⟨before, after, e⟩ := List.append_of_mem hin
    obtain ⟨s, hr⟩ := Option.isSome_iff_exists.mp (hread.strings before v after e hshown)
    rw [Std.ExtTreeMap.mem_iff_isSome_getElem?, (hres [] s).mpr ⟨before, v, after, e, hshown, hname, hr⟩]
    rfl
  · have he := hs.eq_stored (by rw [e]; simp) h
    have hshown : Shown v := by
      rw [he, shown_stored_iff]
      intro h0
      exact hnonempty v.name (h0 ▸ h)
    obtain ⟨t, ht⟩ := Option.isSome_iff_exists.mp (hread.strings before v after e hshown)
    have hst := (hres v.name t).mpr ⟨before, v, after, e, hshown, rfl, ht⟩
    rw [h] at hst
    rw [← Option.some.inj hst, he] at ht
    exact (readAs_stored_iff (hm.strings _ _ h).1 (hm.strings _ _ h).2 before).mp ht

/-- The values that are shown are those of the map, each read as its string. -/
theorem RoundTrips.shown (hm : Saveable upcase m) (hr : RoundTrips k m vs) (hs : Saved k m vs)
    {before after : List Value} {v : Value} (e : vs = before ++ v :: after) (hv : Shown v) :
    ∃ s, m[v.name]? = some s ∧ readAs before v = some s := by
  rcases (hs v).mp (by rw [e]; simp) with ⟨s, hms, he⟩ | ⟨hk, hname, h0⟩
  · refine ⟨s, hms, ?_⟩
    rw [he]
    exact (readAs_stored_iff (hm.strings _ _ hms).1 (hm.strings _ _ hms).2 before).mpr
      (hr.behind before v after s e hms)
  · exact absurd hv (hr.unnamed h0 v hk hname).2

theorem RoundTrips.readable (hm : Saveable upcase m) (hr : RoundTrips k m vs) (hs : Saved k m vs) : Readable vs := by
  refine ⟨fun v hv => ?_, fun before v after e hv => ?_⟩
  · rcases (hs v).mp hv with ⟨s, hms, he⟩ | ⟨hk, hname, h0⟩
    · have hlen := length_bytes s
      have := (hm.strings _ _ hms).2
      have hin : v.name ∈ m := by
        rw [Std.ExtTreeMap.mem_iff_isSome_getElem?, hms]
        rfl
      refine ⟨hm.short _ hin, ?_⟩
      rw [he]
      show (bytes s).length ≤ 8192
      omega
    · refine ⟨?_, (hr.unnamed h0 v hk hname).1⟩
      rw [hname]
      decide
  · obtain ⟨s, -, hs⟩ := hr.shown hm hs e hv
    rw [hs]
    rfl

theorem RoundTrips.result (hm : Saveable upcase m) (hr : RoundTrips k m vs) (hs : Saved k m vs)
    {r : Std.ExtTreeMap WString WString} (hres : Result vs r) : r = m := by
  refine Std.ExtTreeMap.ext_getElem? fun name => Option.ext fun s => (hres name s).trans ⟨fun h => ?_, fun h => ?_⟩
  · obtain ⟨before, v, after, e, hv, rfl, hread⟩ := h
    obtain ⟨t, ht, hread'⟩ := hr.shown hm hs e hv
    rw [hread] at hread'
    rw [ht, Option.some.inj hread']
  · obtain ⟨before, after, e⟩ := hs.split h
    have hshown : Shown (stored (name, s)) := by
      rw [shown_stored_iff]
      intro h0
      exact hr.nonempty name (h0 ▸ h)
    exact ⟨before, _, after, e, hshown, rfl,
      (readAs_stored_iff (hm.strings _ _ h).1 (hm.strings _ _ h).2 before).mpr (hr.behind before _ after s e h)⟩

end Saved

/-- Whatever was in the key: after the map is saved, each enumeration of the key returns
    the map exactly if nothing of that gets in the way. -/
theorem round_trips_iff {k : Key upcase} {enumeration : List Value} (he : enumeration.Perm k.values)
    (h : ∀ v ∈ k.values, v.name.length < 1024) {m : Std.ExtTreeMap WString WString} (hm : Saveable upcase m) :
    ∃ c, k.saveEnumValuesAsStrings enumeration m = some c ∧
      ∀ vs, vs.Perm c.values → (enumValuesAsStrings vs = some m ↔ RoundTrips k m vs) := by
  obtain ⟨c, hc, hvalues⟩ := save_values he h hm
  refine ⟨c, hc, fun vs hvs => ?_⟩
  obtain ⟨hterm, hdistinct⟩ := enumeration_names hvs
  obtain ⟨hsucceeds, hspec⟩ := readValues_spec hterm hdistinct
  have hsaved : (∀ name ∈ m, (0 : UInt16) ∉ name) → Saved k m vs := fun hn v =>
    hvs.mem_iff.trans (hvalues hn v)
  refine ⟨fun h => ?_, fun hr => ?_⟩
  · obtain ⟨r, hr, rfl⟩ := Option.map_eq_some_iff.mp h
    obtain ⟨-, hread, hres⟩ := hspec r hr
    exact roundTrips_of_read hm hsaved hterm hread hres
  · obtain ⟨r, hread⟩ := hsucceeds (hr.readable hm (hsaved hr.names))
    unfold enumValuesAsStrings
    rw [hread, Option.map_some, hr.result hm (hsaved hr.names) (hspec r hread).2.2]

/-- A key without values. -/
def empty : Key upcase := ⟨[], by simp, by simp⟩

/-- The map with the values named a and b. -/
def twoValues (a b : WString) : Std.ExtTreeMap WString WString := (Std.ExtTreeMap.insert ∅ [97] a).insert [98] b

theorem saveable_twoValues {a b : WString} (ha : 0 ∉ a ∧ a.length < 4096) (hb : 0 ∉ b ∧ b.length < 4096) :
    Saveable id (twoValues a b) := by
  unfold twoValues
  refine ⟨fun name h => ?_, fun name _ other _ e => ?_, fun name s h => ?_⟩
  · simp at h
    rcases h with rfl | rfl <;> decide
  · unfold Same at e
    simpa using e
  · simp [Std.ExtTreeMap.getElem?_insert] at h
    by_cases e : name = [98]
    · rw [if_pos e.symm] at h
      exact Option.some.inj h ▸ hb
    · rw [if_neg (Ne.symm e)] at h
      exact (by simpa using h : _ ∧ a = s).2 ▸ ha

theorem eq_some_of_toList {r : Option (Std.ExtTreeMap WString WString)} {m : Std.ExtTreeMap WString WString}
    (h : r.map Std.ExtTreeMap.toList = some m.toList) : r = some m := by
  obtain ⟨n, rfl, hn⟩ := Option.map_eq_some_iff.mp h
  rw [Std.ExtTreeMap.toList_inj.mp hn]

theorem round_trips_iff_growing : ∃ c : Key id,
    (empty : Key id).saveEnumValuesAsStrings [] (twoValues [120] [121, 122]) = some c ∧
    RoundTrips (empty : Key id) (twoValues [120] [121, 122]) c.values := by
  obtain ⟨c, hc, hiff⟩ := round_trips_iff (k := (empty : Key id)) (.refl _) (fun v hv => absurd hv List.not_mem_nil)
    (saveable_twoValues (by decide) (by decide) : Saveable id (twoValues [120] [121, 122]))
  have hvalues : c.values = [⟨[97], 1, [120, 0]⟩, ⟨[98], 1, [121, 0, 122, 0]⟩] := by
    have h := congrArg (Option.map values) hc
    exact (Option.some.inj h).symm
  refine ⟨c, hc, (hiff c.values (.refl _)).mp (eq_some_of_toList ?_)⟩
  rw [hvalues]
  decide +kernel

/-- Saved as a and b, the strings "yz" and "x" come back as "yz" and "xz". -/
theorem shorter_after_longer : ∃ c : Key id, Saveable id (twoValues [121, 122] [120]) ∧
    (empty : Key id).saveEnumValuesAsStrings [] (twoValues [121, 122] [120]) = some c ∧
    enumValuesAsStrings c.values = some (twoValues [121, 122] [120, 122]) ∧
    twoValues [121, 122] [120, 122] ≠ twoValues [121, 122] [120] := by
  refine ⟨_, saveable_twoValues (by decide) (by decide), rfl, eq_some_of_toList (by decide +kernel), fun h => ?_⟩
  have hb := congrArg Std.ExtTreeMap.toList h
  revert hb
  decide +kernel

end Key

end Dumbnose.Registry
