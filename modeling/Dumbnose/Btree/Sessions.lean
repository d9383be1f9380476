/-
  Dumbnose.Btree.Sessions — closing the tree and opening it again.

  The root is not in the file. The constructor starts from block 1, which is in every
  tree from the first insert on and never leaves it, and follows parent links. A node
  keeps the address of the `mmap_file` that stored it, which is stale in the next
  session: nothing uses it before a link to the node has been followed, and following
  the link sets it. Only the root is reached without one, and the constructor sets
  its `file_`. So the invariant of a session asks it of the root alone (`Sound`).

  A file of 4 GiB cannot be opened again: the constructor counts its blocks. And the tree
  that filled it goes on with the root it has. So reopening is invisible exactly as long
  as the files have room (`reopen_invisible`).
-/

import Dumbnose.Btree.Room

namespace Dumbnose.Btree

open Lib.Exec Lib.Gaps

variable {K R : Type} {N : Nat} {L : Option Nat}

/-- What happens to a tree in its file: an operation, or the program ends and the next
    one finds its `mmap_file` at `addr`. -/
inductive Event (K R : Type) where
  | op (op : Op K R)
  | reopen (addr : Nat)

def Event.op? : Event K R → Option (Op K R)
  | .op o => some o
  | .reopen _ => none

section Play
variable [LinearOrder K]

def Event.step (t : Tree K R N L) : Event K R → Tree K R N L
  | .op o => (o.exec t).2
  | .reopen addr => Btree.reopen t addr

def play (t : Tree K R N L) : List (Event K R) → Tree K R N L
  | [] => t
  | ev :: evs => play (ev.step t) evs

def playResults (t : Tree K R N L) : List (Event K R) → List (Res R)
  | [] => []
  | .op op :: evs => (op.exec t).1 :: playResults (op.exec t).2 evs
  | .reopen addr :: evs => playResults (reopen t addr) evs

/-- What is to be seen of the reopenings: nothing in the answers, and the constructor
    finds the root. -/
structure Unseen (t : Tree K R N L) (evs : List (Event K R)) : Prop where
  answers : playResults t evs = results t (evs.filterMap Event.op?)
  root : ∀ addr, (reopen (play t evs) addr).root = (play t evs).root

end Play

variable [LinearOrder K]

theorem Good.reopen {t : Tree K R N} {G : Ghost K} {m : K → Option R} (h : Good t G m) (addr : Nat) :
    Good (reopen t addr) G m ∧ (reopen t addr).root = t.root ∧
      (reopen t addr).file.blockCount = t.file.blockCount := by
  -- the same bytes under an `mmap_file` object at another address
  obtain ⟨s, hs⟩ : ∃ s, s = ({ t.file with addr := addr } : File K R N) := ⟨_, rfl⟩
  have hl : Laid s G := by subst hs; exact ⟨h.shaped, h.bounded, h.alloc⟩
  have h1 := hl.alloc 1 h.one
  have href := refreshed_refresh Nat.one_ne_zero h1
  have hc : Returns create (fun b u => Refreshed s u ∧ b = G.root ∧ (u.blocks G.root).file = u.addr) s := by
    unfold Returns create
    rw [wp_bind, wp_get, wp_bind, wp_countBlocks, if_pos h1, wp_bind, wp_getReference rfl h1, wp_bind,
      wp_update Nat.one_ne_zero]
    apply ((hl.refreshed href).findRoot_returns h.one (by simp [File.refresh])).wp
    intro b u hu
    obtain ⟨hu, hb⟩ := hu
    exact ⟨href.trans hu, hb⟩
  obtain ⟨b, u, hu, hr, rfl, hh⟩ := hc.run
  unfold Btree.reopen openTree
  subst hs
  rw [hu]
  exact ⟨⟨⟨⟨⟨hl.refreshed hr, hh⟩, rfl⟩, h.one, fun k r => by rw [hr.does.pages]; exact h.map k r⟩,
    hr.os.trans h.granted⟩,
    h.root.symm, hr.blockCount⟩

omit [LinearOrder K] in
theorem Stuck.reopen {t : Tree K R N} {c : Nat} (h : Stuck t c) (addr : Nat) :
    Stuck (reopen t addr) c ∧ (reopen t addr).root = t.root := by
  obtain ⟨s, hs⟩ : ∃ s, s = ({ t.file with addr := addr } : File K R N) := ⟨_, rfl⟩
  have hb : s.blockCount = 2 := by subst hs; exact h.blockCount
  have hp : (s.blocks 1).parentNode = 0 := by subst hs; exact h.parent
  have hc : Returns create (fun b u => b = 1 ∧ u = s.refresh 1) s := by
    unfold Returns create
    rw [wp_bind, wp_get, wp_bind, wp_countBlocks, if_pos (by rw [hb]; omega), wp_bind,
      wp_getReference rfl (by rw [hb]; omega), wp_bind,
      wp_update Nat.one_ne_zero, findRoot, wp_bind, wp_get, File.modify_blockCount, hb]
    unfold findRootFrom
    rw [wp_bind, wp_node Nat.one_ne_zero, File.modify_self, if_pos hp]
    exact ⟨rfl, rfl⟩
  obtain ⟨b, u, hu, rfl, rfl⟩ := hc.run
  unfold Btree.reopen openTree
  subst hs
  rw [hu]
  exact ⟨⟨rfl, h.blockCount, by simp [File.refresh], by simpa using h.parent, by simpa [File.refresh] using h.count,
    by simpa [File.refresh] using h.larger, h.ne⟩, h.root.symm⟩

/-- The interrupted run and the other: the same map in both, or both stuck. -/
def Same (t u : Tree K R N) : Prop := (∃ G H m, Good t G m ∧ Good u H m) ∨ ∃ c, Stuck t c ∧ Stuck u c

theorem fresh_same (raw : Nat → Node K R N) (addr : Nat) : Same (fresh raw addr) (fresh raw addr) := by
  rcases fresh_attained raw addr with ⟨G, m, h⟩ | ⟨c, h⟩
  · exact .inl ⟨G, G, m, h, h⟩
  · exact .inr ⟨c, h, h⟩

section Same
variable {t u : Tree K R N} (h : Same t u)
include h

theorem Same.attained : Attained t ∧ Attained u := by
  rcases h with ⟨G, H, m, h1, h2⟩ | ⟨c, h1, h2⟩
  · exact ⟨.inl ⟨G, m, h1⟩, .inl ⟨H, m, h2⟩⟩
  · exact ⟨.inr ⟨c, h1⟩, .inr ⟨c, h2⟩⟩

theorem Same.exec (hN : 3 ≤ N) (op : Op K R) :
    (op.exec t).1 = (op.exec u).1 ∧ Same (op.exec t).2 (op.exec u).2 := by
  rcases h with ⟨G, H, m, h1, h2⟩ | ⟨c, h1, h2⟩
  · obtain ⟨he, G, h1, -⟩ := h1.exec hN op
    obtain ⟨he', H, h2, -⟩ := h2.exec hN op
    exact ⟨he.trans he'.symm, .inl ⟨G, H, _, h1, h2⟩⟩
  · rw [h1.exec op, h2.exec op]
    exact ⟨rfl, .inr ⟨c, h1, h2⟩⟩

theorem Same.reopen (addr : Nat) : Same (reopen t addr) u := by
  rcases h with ⟨G, H, m, h1, h2⟩ | ⟨c, h1, h2⟩
  · exact .inl ⟨G, H, m, (h1.reopen addr).1, h2⟩
  · exact .inr ⟨c, (h1.reopen addr).1, h2⟩

end Same

/-! ## At the limit -/

theorem Attained.reopen {t : Tree K R N} (h : Attained t) (addr : Nat) :
    1 < t.file.blockCount ∧ (reopen t addr).root = t.root ∧
      (reopen t addr).file.blockCount = t.file.blockCount := by
  rcases h with ⟨G, m, h⟩ | ⟨c, h⟩
  · exact ⟨h.alloc 1 h.one, (h.reopen addr).2⟩
  · obtain ⟨hr, hroot⟩ := h.reopen addr
    exact ⟨by rw [h.blockCount]; omega, hroot, hr.blockCount.trans h.blockCount.symm⟩

/-- The way from block 1 to the root. -/
def findOld (addr : Nat) : M K R N L Nat := do
  getReference addr 1
  update 1 fun n => { n with file := addr }
  findRoot 1

omit [LinearOrder K] in
/-- In a file of more than one block the constructor does what it does without the limit. -/
theorem create_of_unlimited (hL : Counts L 2) {s : File K R N L} (hs : Counts L s.blockCount) (h1 : 1 < s.blockCount)
    {b : Nat} {f : File K R N} (h : create s.unlimited = .ok b f) (hf : f.blockCount = s.blockCount) :
    ∃ g, create s = .ok b g ∧ g.unlimited = f := by
  have hbranch : ∀ {L : Option Nat} {s : File K R N L}, Counts L s.blockCount → 1 < s.blockCount →
      create s = findOld s.addr s := by
    intro L s hs h1
    refine (ok_bind (y := get) rfl).trans ((ok_bind (countBlocks_ok hs)).trans ?_)
    rw [if_pos h1]
    rfl
  have hc := limit_counted (K := K) (R := R) (N := N) hL
  have hmirrors : Mirrors (limit L) (findOld s.addr) (findOld s.addr) :=
    (mirrors_getReference hc _ _).bind fun _ => (mirrors_update hc _).bind fun _ => mirrors_findRoot hc
  rw [hbranch hs h1]
  rw [hbranch (counts_none _) h1] at h
  rcases hmirrors.returns hs h with ⟨g, hg, hfree, -⟩ | ⟨g, -, -, hn, -⟩
  · exact ⟨g, hg, hfree⟩
  · rw [hf] at hn
    exact absurd hs hn

omit [LinearOrder K] in
theorem openTree_ok {f g : File K R N L} {b : Nat} (h : create f = .ok b g) : openTree f = ⟨g, b⟩ := by
  rw [openTree, h]

theorem Below.reopen (hL : Counts L 2) {t : Tree K R N L} {u : Tree K R N} (hb : Below t u) (h : Attained u)
    (addr : Nat) : Below (reopen t addr) (reopen u addr) ∧ (reopen t addr).root = t.root := by
  obtain ⟨h1, hroot, hcount⟩ := h.reopen addr
  have h0 := h.root_ne
  obtain ⟨rfl, ht⟩ := hb
  cases hc : create { t.unlimited.file with addr := addr } with
  | error e f =>
    rw [Btree.reopen, openTree, hc] at hroot
    exact absurd hroot.symm h0
  | ok b f =>
    have hu : Btree.reopen t.unlimited addr = ⟨f, b⟩ := openTree_ok hc
    rw [hu] at hroot hcount
    obtain ⟨g, hg, rfl⟩ := create_of_unlimited (s := { t.file with addr := addr }) hL ht h1 hc hcount
    have ht' : Btree.reopen t addr = ⟨g, b⟩ := openTree_ok hg
    rw [hu, ht']
    exact ⟨⟨rfl, by rw [show g.blockCount = t.file.blockCount from hcount]; exact ht⟩, hroot⟩

omit [LinearOrder K] in
/-- Past the limit the constructor throws. -/
theorem reopen_past {t : Tree K R N L} (ht : ¬ Counts L t.file.blockCount) (addr : Nat) :
    (reopen t addr).root = 0 := by
  have hc : create { t.file with addr := addr } = .error .fileLength { t.file with addr := addr } :=
    (ok_bind (y := get) rfl).trans (error_bind (countBlocks_past ht))
  rw [reopen, openTree, hc]

/-! ## Interrupted runs -/

omit [LinearOrder K] in
theorem filterMap_op (p : List (Event K R)) (op : Op K R) :
    (p ++ [Event.op op]).filterMap Event.op? = p.filterMap Event.op? ++ [op] := by
  simp [Event.op?]

omit [LinearOrder K] in
theorem filterMap_reopen (p : List (Event K R)) (addr : Nat) :
    (p ++ [Event.reopen addr]).filterMap Event.op? = p.filterMap Event.op? := by
  simp [Event.op?]

theorem play_concat (t : Tree K R N L) (p : List (Event K R)) (ev : Event K R) :
    play t (p ++ [ev]) = ev.step (play t p) :=
  Lib.Splits.run_concat Event.step (fun _ => rfl) (fun _ _ _ => rfl) t p ev

theorem playResults_op (t : Tree K R N L) (p : List (Event K R)) (op : Op K R) :
    playResults t (p ++ [.op op]) = playResults t p ++ [(op.exec (play t p)).1] := by
  induction p generalizing t with
  | nil => rfl
  | cons ev p ih =>
    cases ev with
    | op o => simp only [List.cons_append, playResults, play, Event.step, ih]
    | reopen addr => simp only [List.cons_append, playResults, play, Event.step, ih]

theorem playResults_reopen (t : Tree K R N L) (p : List (Event K R)) (addr : Nat) :
    playResults t (p ++ [.reopen addr]) = playResults t p := by
  induction p generalizing t with
  | nil => rfl
  | cons ev p ih =>
    cases ev with
    | op o => simp only [List.cons_append, playResults, ih]
    | reopen addr => simp only [List.cons_append, playResults, ih]

/-- The interrupted run `p` beside the other one, both below the limit. -/
structure Alongside (raw : Nat → Node K R N) (addr : Nat) (L : Option Nat) (p : List (Event K R)) : Prop where
  played : Below (play (fresh raw addr L) p) (play (fresh raw addr) p)
  ran : Below (run (fresh raw addr L) (p.filterMap Event.op?)) (run (fresh raw addr) (p.filterMap Event.op?))
  same : Same (play (fresh raw addr) p) (run (fresh raw addr) (p.filterMap Event.op?))
  answers : playResults (fresh raw addr L) p = results (fresh raw addr L) (p.filterMap Event.op?)

/-- Both files have room for the operation. -/
def FitsBoth (raw : Nat → Node K R N) (addr : Nat) (L : Option Nat) (p : List (Event K R)) (op : Op K R) : Prop :=
  Fits (play (fresh raw addr L) p) op ∧ Fits (run (fresh raw addr L) (p.filterMap Event.op?)) op

section Alongside
variable {raw : Nat → Node K R N} {addr : Nat} {p : List (Event K R)} (hN : 3 ≤ N) (hL : Counts L 5)
  (h : Alongside raw addr L p)
include hL h

theorem Alongside.unseen : Unseen (fresh raw addr L) p :=
  ⟨h.answers, fun addr' => (h.played.reopen (hL.le (by omega)) h.same.attained.1 addr').2⟩

theorem Alongside.reopen (addr' : Nat) : Alongside raw addr L (p ++ [.reopen addr']) := by
  constructor
  · rw [play_concat, play_concat]
    exact (h.played.reopen (hL.le (by omega)) h.same.attained.1 addr').1
  · rw [filterMap_reopen]
    exact h.ran
  · rw [filterMap_reopen, play_concat]
    exact h.same.reopen addr'
  · rw [filterMap_reopen, playResults_reopen]
    exact h.answers

include hN

theorem Alongside.op {op : Op K R} (hf : FitsBoth raw addr L p op) : Alongside raw addr L (p ++ [.op op]) := by
  obtain ⟨h1, h2⟩ := h.same.attained
  obtain ⟨he1, hb1⟩ := h.played.exec hN hL h1 hf.1
  obtain ⟨he2, hb2⟩ := h.ran.exec hN hL h2 hf.2
  obtain ⟨he, hs⟩ := h.same.exec hN op
  constructor
  · rw [play_concat, play_concat]
    exact hb1
  · rw [filterMap_op, run_concat, run_concat]
    exact hb2
  · rw [filterMap_op, play_concat, run_concat]
    exact hs
  · rw [filterMap_op, playResults_op, results_concat, h.answers, ← he1, ← he2, he]

/-- An insert that finds no room in one of the files is seen. -/
theorem Alongside.seen {op : Op K R} (hf : ¬ FitsBoth raw addr L p op) :
    ¬ Unseen (fresh raw addr L) (p ++ [.op op]) := by
  intro hu
  obtain ⟨h1, h2⟩ := h.same.attained
  by_cases hf1 : Fits (play (fresh raw addr L) p) op
  · obtain ⟨he1, -⟩ := h.played.exec hN hL h1 hf1
    obtain ⟨he2, -, -⟩ := h.ran.exec_unfit hN hL h2 (fun hf2 => hf ⟨hf1, hf2⟩)
    have ha := hu.answers
    rw [filterMap_op, playResults_op, results_concat, h.answers, ← he1, he2] at ha
    exact h1.answer_ne hN op (List.singleton_inj.mp (List.append_cancel_left ha))
  · -- the constructor throws, but the object has a root
    obtain ⟨-, hs, hroot⟩ := h.played.exec_unfit hN hL h1 hf1
    have h0 := hu.root 0
    rw [play_concat, Event.step, reopen_past hs.uncounted, hroot] at h0
    exact h1.root_ne (h.played.root.trans h0.symm)

end Alongside

theorem unseen_iff (hN : 3 ≤ N) (hL : Counts L 5) (raw : Nat → Node K R N) (addr : Nat) (evs : List (Event K R)) :
    (∀ p, p <+: evs → Unseen (fresh raw addr L) p) ↔
      ∀ p op, p ++ [.op op] <+: evs → FitsBoth raw addr L p op := by
  have h0 : Alongside raw addr L [] := by
    have hb := fresh_below raw addr (hL.le (by omega : 2 ≤ 5))
    exact ⟨hb, hb, fresh_same raw addr, rfl⟩
  rw [Lib.Splits.forall_prefix_iff_of_inv (S := Alongside raw addr L) h0 (fun p h => h.unseen hL)
    (B := fun p ev => ∀ op, ev = .op op → FitsBoth raw addr L p op) (fun p ev h hf => ?_) (fun p ev h hf => ?_)]
  · exact ⟨fun h p op hp => h p _ hp op rfl, fun h p ev hp op he => h p op (he ▸ hp)⟩
  · cases ev with
    | op op => exact h.op hN hL (hf op rfl)
    | reopen addr' => exact h.reopen hL addr'
  · cases ev with
    | op op => exact h.seen hN hL fun h => hf fun _ he => Event.op.inj he ▸ h
    | reopen addr' => exact absurd (fun _ h => by cases h) hf

/-- Whatever the blocks of the new file held, reopening is invisible exactly as long as
    both files have room. -/
theorem reopen_invisible (hN : 3 ≤ N) (raw : Nat → Node K R N) (addr : Nat) (evs : List (Event K R)) :
    (∀ p, p <+: evs → Unseen (fresh raw addr (some blockLimit)) p) ↔
      ∀ p op, p ++ [.op op] <+: evs → FitsBoth raw addr (some blockLimit) p op :=
  unseen_iff hN (counts_limit (by decide)) raw addr evs

/-- Reopened twice, at other addresses, with the root split before the first. -/
theorem reopen_invisible_five :
    (∀ p, p <+: [.op (.insert 1 10), .op (.insert 2 20), .op (.insert 3 30), .op (.insert 4 40), .reopen 8,
        .op (.insert 5 50), .reopen 9, .op (.find 1)] →
      Unseen (fresh (zeroed 0 0 : Nat → Node Nat Nat 3) 7 (some blockLimit)) p) ↔
    ∀ p op, p ++ [.op op] <+: [.op (.insert 1 10), .op (.insert 2 20), .op (.insert 3 30), .op (.insert 4 40),
        .reopen 8, .op (.insert 5 50), .reopen 9, .op (.find 1)] →
      FitsBoth (zeroed 0 0 : Nat → Node Nat Nat 3) 7 (some blockLimit) p op :=
  reopen_invisible (by decide) _ 7 _

/-- Of keys in ascending order one fills the file, and the constructor finds no root in it. -/
theorem ascending_seen : ¬ ∀ p, p <+: (ascending (3 * blockLimit)).map .op →
    Unseen (fresh (zeroed 0 0 : Nat → Node Nat Nat 3) 7 (some blockLimit)) p := by
  intro h
  have hfit := (unseen_iff (Nat.le_refl 3) (counts_limit (by decide)) _ 7 _).mp h
  refine not_room fun p op hp => ?_
  have hmap : (p.map Event.op).filterMap Event.op? = p := by
    rw [List.filterMap_map]
    exact List.filterMap_some
  have := (hfit (p.map .op) op (by simpa using hp.map Event.op)).2
  rwa [hmap] at this

end Dumbnose.Btree
