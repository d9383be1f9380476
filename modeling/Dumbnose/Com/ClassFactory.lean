/-
  Dumbnose.Com.ClassFactory — `QueryInterface` of `unknown_t`, and the class factory, one
  call at a time (`com_unknown.hpp`, `com_class_factory.hpp`).

  `unknown_t` of a list of interfaces derives from one `query_interface_impl` for each, the
  last outermost, over `empty_query_interface_impl`. Each overrides `QueryInterface` in the
  vtables of all it derives from, so a call through any pointer to the object begins at
  the outermost (`queryInterface`), and each passes on what it does not answer. The
  pointer it gives is one to the part of the object with that interface.

  A server has objects and what has been handed to callers: pointers, each a reference. A
  caller that passes a pointer on, or drops it without `Release`, does nothing the objects
  see. COM is a caller: what `CoRegisterClassObject` takes it releases later. `log` has
  the queries and the creations, with the count of references before and after.
-/

import Mathlib.Data.List.Induction
import Dumbnose.Com.Unknown

namespace Dumbnose.Com

variable {I : Type} [DecidableEq I]

/-! ## `QueryInterface` -/

section Query
variable (iidUnknown : I)

/-- `query_interface_impl<base_t, type_t>`: the interface that the pointer is to. -/
def queryInterfaceImpl (base : I → Option I) (type riid : I) : Option I :=
  if riid ≠ iidUnknown ∧ riid ≠ type then base riid else some type

omit [DecidableEq I] in
/-- `*ppvObject = NULL`, and `E_NOINTERFACE`. -/
def emptyQueryInterfaceImpl (_ : I) : Option I := none

/-- `mpl::inherit_linearly`. -/
def queryInterface (interfaces : List I) : I → Option I :=
  interfaces.foldl (queryInterfaceImpl iidUnknown) emptyQueryInterfaceImpl

theorem queryInterface_snoc (interfaces : List I) (type riid : I) :
    queryInterface iidUnknown (interfaces ++ [type]) riid =
      if riid ≠ iidUnknown ∧ riid ≠ type then queryInterface iidUnknown interfaces riid else some type := by
  unfold queryInterface
  rw [List.foldl_append]
  rfl

/-- `IUnknown` is answered by the outermost. -/
theorem queryInterface_unknown (interfaces : List I) :
    queryInterface iidUnknown interfaces iidUnknown = interfaces.getLast? := by
  induction interfaces using List.reverseRecOn with
  | nil => rfl
  | append_singleton interfaces type ih =>
    rw [queryInterface_snoc, if_neg fun h => h.1 rfl, List.getLast?_append_cons]
    rfl

theorem queryInterface_of_ne (interfaces : List I) {riid : I} (h : riid ≠ iidUnknown) :
    queryInterface iidUnknown interfaces riid = if riid ∈ interfaces then some riid else none := by
  induction interfaces using List.reverseRecOn with
  | nil => rfl
  | append_singleton interfaces type ih =>
    rw [queryInterface_snoc, ih]
    by_cases e : riid = type
    · subst e
      simp
    · simp [h, e]

/-- What is listed is answered, and `IUnknown` if anything is listed. -/
theorem queryInterface_isSome (interfaces : List I) (riid : I) :
    (queryInterface iidUnknown interfaces riid).isSome = true ↔
      (riid = iidUnknown ∧ interfaces ≠ []) ∨ riid ∈ interfaces := by
  by_cases h : riid = iidUnknown
  · subst h
    rw [queryInterface_unknown, List.getLast?_isSome]
    refine ⟨fun hne => .inl ⟨rfl, hne⟩, fun hor => ?_⟩
    rcases hor with hne | hmem
    · exact hne.2
    · exact List.ne_nil_of_mem hmem
  · rw [queryInterface_of_ne iidUnknown interfaces h]
    by_cases e : riid ∈ interfaces <;> simp [h, e]

end Query

/-! ## Objects and pointers -/

structure Object (I : Type) where
  interfaces : List I
  /-- Of a class factory: the interfaces of what it creates. -/
  creates : Option (List I)
  refCount : Nat
  alive : Bool

/-- To the part of an object with an interface; what creates an object has one to the
    whole of it. -/
structure Pointer (I : Type) where
  object : Nat
  interface : Option I
  deriving DecidableEq

inductive Seen (I : Type) where
  /-- `QueryInterface`, with `*ppvObject`. -/
  | queried (object : Nat) (riid : I) (out : Option I) (before after : Nat)
  /-- `CreateInstance`, with `*ppvObject` of a call that succeeded, and the references to
      the object that was made, if it is still there. -/
  | created (out : Option (Pointer I)) (references : Option Nat)

structure Server (I : Type) where
  object : Nat → Object I
  /-- How many objects have been made: the number of the next one. -/
  next : Nat
  held : List (Pointer I)
  log : List (Seen I)

namespace Server

def setObject (s : Server I) (o : Nat) (x : Object I) : Server I := { s with object := Function.update s.object o x }

def see (s : Server I) (x : Seen I) : Server I := { s with log := s.log ++ [x] }

/-- A caller has one more pointer. -/
def give (s : Server I) (p : Pointer I) : Server I := { s with held := p :: s.held }

/-- `new`, of an object of these interfaces. Its count begins at 1. -/
def new (s : Server I) (interfaces : List I) (creates : Option (List I)) : Server I :=
  { s.setObject s.next ⟨interfaces, creates, 1, true⟩ with next := s.next + 1 }

def addRef (s : Server I) (o : Nat) : Server I :=
  s.setObject o { s.object o with refCount := Unknown.interlockedIncrement (s.object o).refCount }

/-- The decrement, and `delete this` if that has left nothing. -/
def release (s : Server I) (o : Nat) : Server I :=
  let refCount := Unknown.interlockedDecrement (s.object o).refCount
  s.setObject o { s.object o with refCount := refCount, alive := refCount ≠ 0 }

variable (iidUnknown iidClassFactory : I)

/-- `QueryInterface`: what `*ppvObject` is then. -/
def query (s : Server I) (o : Nat) (riid : I) : Option I × Server I :=
  match queryInterface iidUnknown (s.object o).interfaces riid with
  | none => (none, s.see (.queried o riid none (s.object o).refCount (s.object o).refCount))
  | some type =>
    (some type, (s.addRef o).see
      (.queried o riid (some type) (s.object o).refCount ((s.addRef o).object o).refCount))

/-- `CreateInstance`, of a factory of objects of these interfaces. -/
def createInstance (s : Server I) (interfaces : List I) (aggregated memory : Bool) (riid : I) : Server I :=
  -- `CLASS_E_NOAGGREGATION`, `E_OUTOFMEMORY`
  if aggregated ∨ ¬ memory then s.see (.created none none)
  else
    let comServer := s.next
    let (out, t) := (s.new interfaces none).query iidUnknown comServer riid
    let t := t.release comServer
    let references := if (t.object comServer).alive then some (t.object comServer).refCount else none
    match out with
    | some type => (t.give ⟨comServer, some type⟩).see (.created (some ⟨comServer, some type⟩) references)
    | none => t.see (.created none references)

/-- `RegisterClassObject`; COM takes a reference of its own if it registers the factory. -/
def registerClassObject (s : Server I) (o : Nat) (registers : Bool) : Server I :=
  match s.query iidUnknown o iidUnknown with
  | (none, t) => t
  | (some unk, t) => if registers then (t.addRef o).give ⟨o, some unk⟩ else t

/-! ## Runs -/

inductive Call (I : Type) where
  | new (interfaces : List I)
  | newFactory (creates : List I)
  | addRef (p : Pointer I)
  | release (p : Pointer I)
  | queryInterface (p : Pointer I) (riid : I)
  | createInstance (p : Pointer I) (aggregated memory : Bool) (riid : I)
  | registerClassObject (p : Pointer I) (registers : Bool)

/-- The pointer that a call is made through. -/
def Call.through : Call I → Option (Pointer I)
  | .new _ | .newFactory _ => none
  | .addRef p | .release p | .queryInterface p _ | .createInstance p _ _ _ | .registerClassObject p _ => some p

/-- A call through a pointer that the caller has. -/
def perform (s : Server I) : Call I → Server I
  | .new interfaces => (s.new interfaces none).give ⟨s.next, none⟩
  | .newFactory creates => (s.new [iidClassFactory] (some creates)).give ⟨s.next, none⟩
  | .addRef p => (s.addRef p.object).give p
  | .release p => release { s with held := s.held.erase p } p.object
  | .queryInterface p riid =>
    match s.query iidUnknown p.object riid with
    | (none, t) => t
    | (some type, t) => t.give ⟨p.object, some type⟩
  | .createInstance p aggregated memory riid =>
    match (s.object p.object).creates with
    | some interfaces => s.createInstance iidUnknown interfaces aggregated memory riid
    | none => s
  | .registerClassObject p registers =>
    if (s.object p.object).creates.isSome then s.registerClassObject iidUnknown p.object registers else s

/-- No call is made through a pointer that nobody has. -/
def exec (s : Server I) (c : Call I) : Server I :=
  if ∀ p ∈ c.through, p ∈ s.held then s.perform iidUnknown iidClassFactory c else s

def run (s : Server I) : List (Call I) → Server I
  | [] => s
  | c :: cs => run (s.exec iidUnknown iidClassFactory c) cs

/-- Before anything is made. -/
def empty : Server I := ⟨fun _ => ⟨[], none, 0, false⟩, 0, [], []⟩

end Server

end Dumbnose.Com
