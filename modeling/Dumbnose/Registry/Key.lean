/-
  Dumbnose.Registry.Key — the values of a registry key, and the functions of
  `registry::key` that save and enumerate them (`key.hpp`).

  A key is a set of named values, no two of one name but for case; how the system folds
  case is a parameter. A name is handed over null-terminated, so none has a null character
  in it. A value is a type and bytes, whatever its type says.

  The system lists a key's values in an order of its own, each once: an enumeration of a
  key is any list of its values in some order. What a call has too little room for fails
  (`ERROR_MORE_DATA`), and the functions throw (`none`).
-/

import Std.Data.ExtTreeMap
import Dumbnose.Lib.Overwrite
import Dumbnose.Strings.Wide

namespace Dumbnose.Registry

open Strings Lib.Overwrite

structure Value where
  name : WString
  type : UInt32
  data : List UInt8
  deriving DecidableEq, Repr

/-- `REG_SZ`. -/
def regSz : UInt32 := 1

structure Key (upcase : UInt16 → UInt16) where
  values : List Value
  terminable : ∀ v ∈ values, 0 ∉ v.name
  distinct : (values.map fun v => v.name.map upcase).Nodup

namespace Key

variable {upcase : UInt16 → UInt16}

/-! ## The system -/

/-- Two names of one value. -/
def Same (upcase : UInt16 → UInt16) (name other : WString) : Prop := name.map upcase = other.map upcase

instance (name other : WString) : Decidable (Same upcase name other) := inferInstanceAs (Decidable (_ = _))

def regDeleteValue (k : Key upcase) (name : WString) : Key upcase where
  values := k.values.filter fun v => ¬ Same upcase v.name name
  terminable v hv := k.terminable v (List.mem_filter.mp hv).1
  distinct := k.distinct.sublist (List.filter_sublist.map _)

/-- The value of this name with this type and data; a value that is there keeps its name. -/
def withValue (upcase : UInt16 → UInt16) (values : List Value) (name : WString) (type : UInt32) (data : List UInt8) :
    List Value :=
  if ∃ v ∈ values, Same upcase v.name name then
    values.map fun v => if Same upcase v.name name then { v with type := type, data := data } else v
  else values ++ [⟨name, type, data⟩]

theorem withValue_names {values : List Value} {name : WString} {type : UInt32} {data : List UInt8} :
    (withValue upcase values name type data).map Value.name =
      if ∃ v ∈ values, Same upcase v.name name then values.map Value.name else values.map Value.name ++ [name] := by
  unfold withValue
  split
  · rw [List.map_map]
    refine List.map_congr_left fun v _ => ?_
    show (if Same upcase v.name name then _ else v : Value).name = v.name
    split <;> rfl
  · rw [List.map_append]
    rfl

def regSetValueEx (k : Key upcase) (name : WString) (type : UInt32) (data : List UInt8) : Key upcase where
  values := withValue upcase k.values (cStr name) type data
  terminable v hv := by
    have hn : v.name ∈ (withValue upcase k.values (cStr name) type data).map Value.name := List.mem_map_of_mem hv
    rw [withValue_names] at hn
    have hold : v.name ∈ k.values.map Value.name → 0 ∉ v.name := fun h => by
      obtain ⟨w, hw, he⟩ := List.mem_map.mp h
      exact he ▸ k.terminable w hw
    split at hn
    · exact hold hn
    · rcases List.mem_append.mp hn with hn | hn
      · exact hold hn
      · rw [List.mem_singleton.mp hn]
        exact not_mem_cStr name
  distinct := by
    have hmap : ∀ vs : List Value, (vs.map fun v => v.name.map upcase) = (vs.map Value.name).map (List.map upcase) :=
      fun vs => by rw [List.map_map]; rfl
    have hd := k.distinct
    rw [hmap] at hd ⊢
    rw [withValue_names]
    split
    · exact hd
    · rename_i hnew
      rw [List.map_append, List.nodup_append]
      refine ⟨hd, by simp, fun x hx y hy e => hnew ?_⟩
      obtain ⟨n, hn, rfl⟩ := List.mem_map.mp hx
      obtain ⟨v, hv, rfl⟩ := List.mem_map.mp hn
      obtain ⟨n, hn, rfl⟩ := List.mem_map.mp hy
      rw [List.mem_singleton.mp hn] at e
      exact ⟨v, hv, e⟩

/-! ## `registry::key` -/

/-- `enum_value_names`, of an enumeration of the key. -/
def enumValueNames : List Value → Option (List WString)
  | [] => some []
  | v :: vs =>
    if v.name.length < 1024 then
      (enumValueNames vs).map fun names => if v.name.length > 0 then cStr v.name :: names else names
    else none

def clearEnumValues (k : Key upcase) (enumeration : List Value) : Option (Key upcase) :=
  (enumValueNames enumeration).map fun names => names.foldl regDeleteValue k

/-- One turn of the loop in `enum_values_as_strings`: `value_buffer`, 8192 bytes, and the
    result so far. -/
def readValue (s : (Nat → UInt8) × Std.ExtTreeMap WString WString) (v : Value) :
    Option ((Nat → UInt8) × Std.ExtTreeMap WString WString) :=
  if v.name.length < 1024 ∧ v.data.length ≤ 8192 then
    if v.data.length > 0 ∧ v.type = regSz then
      (cString (units (overwrite s.1 v.data) 4096)).map fun value =>
        (overwrite s.1 v.data, s.2.insert (cStr v.name) value)
    else some (overwrite s.1 v.data, s.2)
  else none

def readValues (enumeration : List Value) : Option ((Nat → UInt8) × Std.ExtTreeMap WString WString) :=
  enumeration.foldlM readValue (fun _ => 0, ∅)

/-- `enum_values_as_strings`, of an enumeration of the key. -/
def enumValuesAsStrings (enumeration : List Value) : Option (Std.ExtTreeMap WString WString) :=
  (readValues enumeration).map Prod.snd

def saveEnumValuesAsStrings (k : Key upcase) (enumeration : List Value) (values : Std.ExtTreeMap WString WString) :
    Option (Key upcase) :=
  (k.clearEnumValues enumeration).map fun k =>
    values.toList.foldl (fun k value => k.regSetValueEx value.1 regSz (bytes value.2)) k

end Key

end Dumbnose.Registry
