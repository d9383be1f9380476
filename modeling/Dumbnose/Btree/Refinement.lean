/-
  Dumbnose.Btree.Refinement — the tree is a map.

  `spec` is what the component is for: a finite map in which an insert of a key that
  is there is refused. While no allocation fails, on a file without a limit, every
  operation of the tree answers as `spec` does (`Good.exec`), so a whole run does
  (`run_rightAt`). An operation that only reads leaves the bytes as they were once every
  node points at the live `mmap_file`, and in one session every node does (`AllHeld`).
-/

import Dumbnose.Btree.Insert

namespace Dumbnose.Btree

open Lib.Exec Lib.Gaps

variable {K R : Type} {N : Nat} [LinearOrder K]

/-! ## The map -/

def spec (m : K → Option R) : Op K R → Res R × (K → Option R)
  | .insert key record =>
    match m key with
    | some _ => (.threw .nodeAlreadyExists, m)
    | none => (.inserted, Function.update m key (some record))
  | .find key => (.found (m key), m)

def specRun (m : K → Option R) : List (Op K R) → K → Option R
  | [] => m
  | op :: ops => specRun (spec m op).2 ops

def specResults (m : K → Option R) : List (Op K R) → List (Res R)
  | [] => []
  | op :: ops => (spec m op).1 :: specResults (spec m op).2 ops

/-- The record of the first insert of a key. -/
def firstInsert : List (Op K R) → K → Option R
  | [], _ => none
  | .insert key record :: ops, k => if k = key then some record else firstInsert ops k
  | .find _ :: ops, k => firstInsert ops k

theorem specRun_eq (m : K → Option R) (ops : List (Op K R)) (k : K) :
    specRun m ops k = (m k).or (firstInsert ops k) := by
  induction ops generalizing m with
  | nil => simp [specRun, firstInsert]
  | cons op ops ih =>
    rw [specRun, ih]
    cases op with
    | find key => rfl
    | insert key record =>
      simp only [spec, firstInsert]
      cases hm : m key with
      | some r =>
        by_cases e : k = key
        · subst e; simp [hm]
        · simp [e]
      | none =>
        by_cases e : k = key
        · subst e; simp [hm]
        · simp [e]

/-- A run from the empty map. -/
theorem specRun_empty (ops : List (Op K R)) : specRun (fun _ => none) ops = firstInsert ops := by
  funext key
  rw [specRun_eq]
  rfl

/-- The operation answers as the map `m` does: `find` reads it, a new key is inserted, and
    a key that is there is refused. What writes nothing leaves everything as it was. -/
def RightAt {L : Option Nat} (t : Tree K R N L) (m : K → Option R) : Op K R → Prop
  | .find key => (Op.find key).exec t = (.found (m key), t)
  | .insert key record =>
    (m key = none → ((Op.insert key record).exec t).1 = .inserted) ∧
    (m key ≠ none → (Op.insert key record).exec t = (.threw .nodeAlreadyExists, t))

/-! ## The tree as the map -/

/-- A tree that holds the map `m`. -/
structure Holds (t : Tree K R N) (G : Ghost K) (m : K → Option R) : Prop extends Whole t G where
  one : G.live 1
  map : ∀ k r, t.file.pages.Has G k r ↔ m k = some r

/-- A tree that holds the map `m`, whose allocations succeed. -/
structure Good (t : Tree K R N) (G : Ghost K) (m : K → Option R) : Prop extends Holds t G m where
  granted : t.file.os = []

omit [LinearOrder K] in
theorem not_refused {s t : File K R N} {n : Nat} {os : List Alloc} (hos : os = [])
    (h : s.os = os.drop n) : ¬ Refused s t := by
  intro h'
  obtain ⟨extended, rest, h', -⟩ := h'
  rw [h, hos, List.drop_nil] at h'
  cases h'

section Holds
variable {t : Tree K R N} {G : Ghost K} {m : K → Option R} (h : Holds t G m) {key : K} {record : R}
include h

theorem Holds.absent (hk : m key = none) (r : R) : ¬ t.file.pages.Has G key r := by
  rw [h.map, hk]; simp

theorem Holds.refreshed {f : File K R N} (hr : Refreshed t.file f) : Holds { t with file := f } G m :=
  ⟨⟨h.toSound.refreshed hr, h.root⟩, h.one, fun k r => by rw [hr.does.pages]; exact h.map k r⟩

theorem Holds.inserted {f : File K R N} {H : Ghost K} (hi : Inserts t.file G key record f H) (hk : m key = none) :
    Holds ⟨f, H.root⟩ H (Function.update m key (some record)) := by
  refine ⟨⟨hi.sound h.toSound, rfl⟩, hi.live h.one, fun k r => ?_⟩
  rw [hi.has h.toSound, h.map]
  by_cases e : k = key
  · subst e; simp [hk, eq_comm]
  · simp [e]

theorem Holds.find_eq (k : K) :
    ∃ f, Refreshed t.file f ∧ Tree.find k t = .ok (m k) { t with file := f } := by
  obtain ⟨o, u, hu, h1, h2, h3⟩ := (h.toWhole.find_returns k).run
  have ho : o = m k := Option.ext fun r => (h3 r).trans (h.map k r)
  subst ho
  refine ⟨u.file, h1, ?_⟩
  rw [hu, ← h2]

theorem Holds.insert_old (hN : 3 ≤ N) (record : R) {r : R} (hk : m key = some r) :
    ∃ f, Refreshed t.file f ∧ Tree.insert key record t = .error .nodeAlreadyExists { t with file := f } := by
  have hhas := (h.map key r).mpr hk
  rcases (h.toWhole.insert_wp hN key record).run with ⟨_, u, hu, H, hi, hr⟩ | ⟨e, u, hu, hroot, he⟩
  · exact absurd hhas (hi.absent r)
  · rcases he with ⟨rfl, -, href⟩ | ⟨-, h1, -⟩
    · exact ⟨u.file, href, by rw [hu, ← hroot]⟩
    · exact absurd hhas (h1 r)

end Holds

section Good
variable {t : Tree K R N} {G : Ghost K} {m : K → Option R} (h : Good t G m) {key : K} {record : R}
include h

theorem Good.refreshed {f : File K R N} (hr : Refreshed t.file f) : Good { t with file := f } G m :=
  ⟨h.toHolds.refreshed hr, hr.os.trans h.granted⟩

theorem Good.inserted {f : File K R N} {H : Ghost K} (hi : Inserts t.file G key record f H) (hk : m key = none) :
    Good ⟨f, H.root⟩ H (Function.update m key (some record)) := by
  refine ⟨h.toHolds.inserted hi hk, ?_⟩
  obtain ⟨n, hn⟩ := hi.os
  rw [hn, h.granted, List.drop_nil]

theorem Good.insert_new (hN : 3 ≤ N) (record : R) (hk : m key = none) :
    ∃ f H, Inserts t.file G key record f H ∧ Tree.insert key record t = .ok () ⟨f, H.root⟩ := by
  rcases (h.toWhole.insert_wp hN key record).run with ⟨_, u, hu, H, hi, hr⟩ | ⟨e, u, hu, -, he⟩
  · exact ⟨u.file, H, hi, by rw [hu, ← hr]⟩
  · rcases he with ⟨-, ⟨r, hr⟩, -⟩ | ⟨-, -, h1, h2⟩
    · exact absurd hr (h.absent hk r)
    · have hg : t.file.Grants := fun _ _ h' => by rw [h.granted] at h'; cases h'
      by_cases hs : Spare N t.file.pages G key 0
      · obtain ⟨v, H, hst, -, href⟩ := h1 (.inr hs)
        obtain ⟨n, hn⟩ := hst.os
        exact absurd href (not_refused h.granted hn)
      · rcases h2 hg hs with ⟨v, H, hst, -, href⟩ | ⟨s', v, as, mid, bs, hd, -, hm, href⟩
        · obtain ⟨n, hn⟩ := hst.os
          exact absurd href (not_refused h.granted hn)
        · exact absurd href (not_refused (h.granted ▸ hd.os) hm.os)

/-- One operation: it answers as the map does, and what it did is a read or an insert. -/
theorem Good.exec (hN : 3 ≤ N) (op : Op K R) :
    (op.exec t).1 = (spec m op).1 ∧ ∃ H, Good (op.exec t).2 H (spec m op).2 ∧
      (G = H ∧ Refreshed t.file (op.exec t).2.file ∧ (spec m op).2 = m ∨
        ∃ key record, op = .insert key record ∧ m key = none ∧ Inserts t.file G key record (op.exec t).2.file H) := by
  cases op with
  | find k =>
    obtain ⟨f, hf, he⟩ := h.find_eq k
    have hx : (Op.find k).exec t = (.found (m k), { t with file := f }) := by simp only [Op.exec, he]
    rw [hx]
    exact ⟨rfl, G, h.refreshed hf, .inl ⟨rfl, hf, rfl⟩⟩
  | insert key record =>
    simp only [Op.exec, spec]
    cases hk : m key with
    | some r =>
      obtain ⟨f, hf, he⟩ := h.insert_old hN record hk
      rw [he]
      exact ⟨rfl, G, h.refreshed hf, .inl ⟨rfl, hf, rfl⟩⟩
    | none =>
      obtain ⟨f, H, hi, he⟩ := h.insert_new hN record hk
      rw [he]
      exact ⟨rfl, H, h.inserted hi hk, .inr ⟨key, record, rfl, hk, hi⟩⟩

end Good

theorem fresh_good {raw : Nat → Node K R N} (addr : Nat) (hz : (raw 1).largerNode = 0) :
    Good (fresh raw addr) .single fun _ => none := by
  refine ⟨⟨fresh_whole addr hz, rfl, fun k r => ?_⟩, ?_⟩
  · exact ⟨fun hh => absurd hh (fresh_empty addr k r), fun hh => (by cases hh)⟩
  rw [(fresh_spec raw addr).2.os]; rfl

/-! ## Whole runs -/

/-- What a run keeps: any property that following links keeps and that an insert keeps. -/
theorem Good.run {P : Tree K R N → Ghost K → Prop} (hN : 3 ≤ N)
    (hread : ∀ {t u : Tree K R N} {G : Ghost K}, Whole t G → P t G → Refreshed t.file u.file → P u G)
    (hinsert : ∀ {t u : Tree K R N} {G H : Ghost K} {key : K} {record : R}, Whole t G → P t G →
      Inserts t.file G key record u.file H → P u H) {t : Tree K R N} {G : Ghost K} {m : K → Option R} (h : Good t G m)
    (hp : P t G) (ops : List (Op K R)) :
    results t ops = specResults m ops ∧ ∃ H, Good (run t ops) H (specRun m ops) ∧ P (run t ops) H := by
  induction ops generalizing t G m with
  | nil => exact ⟨rfl, G, h, hp⟩
  | cons op ops ih =>
    obtain ⟨h1, H, h2, h3⟩ := h.exec hN op
    have hp' : P (op.exec t).2 H := by
      rcases h3 with ⟨rfl, h3, -⟩ | ⟨key, record, -, -, h3⟩
      · exact hread h.toWhole hp h3
      · exact hinsert h.toWhole hp h3
    obtain ⟨h4, h5⟩ := ih h2 hp'
    exact ⟨by rw [results, specResults, h1, h4], h5⟩

theorem Good.results_eq (hN : 3 ≤ N) {t : Tree K R N} {G : Ghost K} {m : K → Option R} (h : Good t G m)
    (ops : List (Op K R)) : results t ops = specResults m ops :=
  (h.run (P := fun _ _ => True) hN (fun _ _ _ => trivial) (fun _ _ _ => trivial) trivial ops).1

theorem run_good (hN : 3 ≤ N) {raw : Nat → Node K R N} (hz : (raw 1).largerNode = 0) (addr : Nat)
    (ops : List (Op K R)) : ∃ G, Good (run (fresh raw addr) ops) G (firstInsert ops) := by
  obtain ⟨-, G, h, -⟩ := (fresh_good addr hz).run (P := fun _ _ => True) hN (fun _ _ _ => trivial)
    (fun _ _ _ => trivial) trivial ops
  rw [specRun_empty] at h
  exact ⟨G, h⟩

/-! ### Every node points at the live file -/

omit [LinearOrder K] in
theorem Does.allHeld {s t : File K R N} {P : Pages K R} (hd : Does s t P) (h : AllHeld s) : AllHeld t :=
    fun b h0 hb => by
  rw [hd.addr]
  exact hd.held b (h b h0 (hd.blockCount ▸ hb))

omit [LinearOrder K] in
theorem Makes.allHeld {n : Nat} {s t : File K R N} {P : Pages K R} (hm : Makes n s t P)
    (h : AllHeld s) : AllHeld t := by
  intro b h0 hb
  rw [hm.addr]
  by_cases e : b < s.blockCount
  · exact hm.held b (h b h0 e)
  · exact (hm.fresh b (by omega) (hm.blockCount ▸ hb)).1

theorem Inserts.allHeld {s t : File K R N} {G H : Ghost K} {key : K} {record : R} (hi : Inserts s G key record t H)
    (h : AllHeld s) : AllHeld t := by
  obtain ⟨u, l, ps, qs, hst, -, -, -, -, -, -, -, hd⟩ := hi.moves
  apply hd.allHeld
  clear hd hi
  induction hst with
  | refl => exact h
  | tail _ hs ih =>
    cases hs with
    | touch hd => exact hd.allHeld ih
    | up _ _ _ hm | root _ _ _ hm => exact hm.allHeld ih

omit [LinearOrder K] in
theorem fresh_allHeld (raw : Nat → Node K R N) (addr : Nat) : AllHeld (fresh raw addr).file :=
  (fresh_spec raw addr).2.allHeld fun b h0 hb => absurd hb (by simp [newFile]; omega)

/-- `find` reads the map, a new key is inserted, and a key that is there is refused with
    nothing written. -/
theorem run_rightAt (hN : 3 ≤ N) (raw : Nat → Node K R N) (hz : ZeroFilled raw) (addr : Nat) (ops : List (Op K R))
    (op : Op K R) : RightAt (run (fresh raw addr) ops) (firstInsert ops) op := by
  obtain ⟨-, G, h, ha⟩ := (fresh_good addr (hz 1).2.2.2.1).run (P := fun t _ => AllHeld t.file) hN
    (fun _ ha hr => hr.does.allHeld ha) (fun _ ha hi => hi.allHeld ha) (fresh_allHeld raw addr) ops
  rw [specRun_empty] at h
  cases op with
  | find key =>
    obtain ⟨f, hf, he⟩ := h.find_eq key
    simp only [RightAt, Op.exec, he, hf.eq ha]
  | insert key record =>
    refine ⟨fun hk => ?_, fun hk => ?_⟩
    · obtain ⟨f, H, -, he⟩ := h.insert_new hN record hk
      simp only [Op.exec, he]
    · obtain ⟨r, hr⟩ := Option.ne_none_iff_exists'.mp hk
      obtain ⟨f, hf, he⟩ := h.insert_old hN record hr
      simp only [Op.exec, he, hf.eq ha]

end Dumbnose.Btree
