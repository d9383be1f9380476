/-
  Dumbnose.Mmap.Lifetime — a view lives as long as somebody owns it, unless a block is
  unmapped.

  `Owned`: the views mapped are those some `ptr_t` points at, and each entry of the
  table points at the view of its block. A `ptr_t` in a local variable counts (`loose`).
  Mapping a block, handing out a copy, dropping one and clearing the table keep this,
  and at the end no view is left (`Owned.gone`). `unmap_block` does not: it unmaps the
  view and leaves the entry, so the table shows an address that is dead, and whose
  deleter will unmap whatever is there when the object goes. It is harmless only on a
  block it does not find (`tracked_iff`).
-/

import Mathlib.Data.List.Nodup
import Dumbnose.Lib.Splits
import Dumbnose.Mmap.Views

namespace Dumbnose.Mmap.Views

open Lib.Exec Lib.Ledger

/-- What the table and the callers rely on, and what becomes of each view. -/
structure Tracked (B : BlockSize) (s : Process) : Prop where
  table : ∀ i ptr, (i, ptr) ∈ s.mappedBlocks → s.shows ptr.addr = some (i * B.bytes)
  held : ∀ ptr ∈ s.held, ∃ v ∈ s.views, v.view = ptr.view ∧ v.addr = ptr.addr
  returned : ∀ r ∈ s.returns, r.shows = some (r.blockNum * B.bytes)
  same : s.returns.Pairwise fun r r' =>
    r.blockNum = r'.blockNum → (∃ v ∈ s.views, v.view = r.ptr.view) → r'.ptr.addr = r.ptr.addr
  unmaps : s.failed = []
  once : s.alive = false → s.held = [] → ∀ v, v < s.mapped → s.ledger.count (.closed v) = 1

/-- The call unmaps no block of the table. -/
def Keeps (s : Process) (c : Call) : Prop := ∀ i, c = .unmapBlock i → s.mappedBlocks.lookup i = none

structure Owned (B : BlockSize) (n : Nat) (loose : List Ptr) (s : Process) : Prop where
  file : Intact B n s.file
  ledger : Kept s.ledger (s.views.map View.view)
  opened : ∀ v, s.ledger.count (.opened v) = if v < s.mapped then 1 else 0
  addrs : (s.views.map View.addr).Nodup
  owned : ∀ v ∈ s.views, ⟨v.view, v.addr⟩ ∈ loose ++ s.ptrs
  points : ∀ ptr ∈ loose ++ s.ptrs, ∃ v ∈ s.views, v.view = ptr.view ∧ v.addr = ptr.addr
  placed : ∀ i ptr, (i, ptr) ∈ s.mappedBlocks → i < n ∧ ⟨ptr.view, ptr.addr, i * B.bytes⟩ ∈ s.views
  keys : (s.mappedBlocks.map Prod.fst).Nodup
  returned : ∀ r ∈ s.returns, r.shows = some (r.blockNum * B.bytes)
  same : ∀ r ∈ s.returns, ∀ r' ∈ s.returns, r.blockNum = r'.blockNum → r'.ptr = r.ptr
  unmaps : s.failed = []

structure Sound (B : BlockSize) (n : Nat) (s : Process) : Prop extends Owned B n [] s where
  table : s.alive = true → ∀ r ∈ s.returns, (r.blockNum, r.ptr) ∈ s.mappedBlocks
  gone : s.alive = false → s.mappedBlocks = []

/-- `t` has the object, the callers and the past of `s`. -/
structure Beside (s t : Process) : Prop where
  alive : t.alive = s.alive
  held : t.held = s.held
  returns : t.returns = s.returns

theorem find_of_nodup {α β : Type} [DecidableEq β] {f : α → β} {l : List α} (hn : (l.map f).Nodup) {a : α}
    (ha : a ∈ l) : l.find? (fun x => f x = f a) = some a := by
  cases hf : l.find? fun x => f x = f a with
  | none =>
    have := List.find?_eq_none.mp hf a ha
    simp at this
  | some b =>
    have hb := List.find?_some hf
    rw [List.inj_on_of_nodup_map hn (List.mem_of_find?_eq_some hf) ha (by simpa using hb)]

theorem mem_of_lookup {α β : Type} [DecidableEq α] {l : List (α × β)} {a : α} {b : β} (h : l.lookup a = some b) :
    (a, b) ∈ l := by
  obtain ⟨l₁, l₂, rfl, -⟩ := List.lookup_eq_some_iff.mp h
  simp

theorem lookup_of_mem {α β : Type} [DecidableEq α] {l : List (α × β)} (hn : (l.map Prod.fst).Nodup) {a : α} {b : β}
    (h : (a, b) ∈ l) : l.lookup a = some b := by
  cases hl : l.lookup a with
  | none => simpa using List.lookup_eq_none_iff.mp hl _ h
  | some c => rw [(Prod.mk.inj (List.inj_on_of_nodup_map hn (mem_of_lookup hl) h rfl)).2]

theorem notMem_of_lookup {α β : Type} [DecidableEq α] {l : List (α × β)} {a : α} (h : l.lookup a = none) :
    a ∉ l.map Prod.fst := by
  intro ha
  obtain ⟨x, hx, rfl⟩ := List.mem_map.mp ha
  simpa using List.lookup_eq_none_iff.mp h x hx

theorem wp_onFile {α : Type} {x : M α} {Q : α → Process → Prop} {E : Err → Process → Prop} {s : Process} :
    wp (onFile x) Q E s ↔
      wp x (fun a f => Q a { s with file := f }) (fun e f => E (.file e) { s with file := f }) s.file := by
  unfold wp onFile
  cases x s.file <;> rfl

/-! ## What is owned -/

section Owned
variable {B : BlockSize} {n : Nat} {loose : List Ptr} {s : Process} (h : Owned B n loose s)
include h

theorem Owned.views_nodup : (s.views.map View.view).Nodup := h.ledger.nodup

/-- A view is told by its number, and by its address. -/
theorem Owned.view_inj {v v' : View} (hv : v ∈ s.views) (hv' : v' ∈ s.views) (e : v.view = v'.view) : v = v' :=
  List.inj_on_of_nodup_map h.views_nodup hv hv' e

theorem Owned.find {v : View} (hv : v ∈ s.views) : (s.views.find? fun x => x.addr = v.addr) = some v :=
  find_of_nodup h.addrs hv

theorem Owned.shows_eq {i : Nat} {ptr : Ptr} (hi : (i, ptr) ∈ s.mappedBlocks) :
    s.shows ptr.addr = some (i * B.bytes) := by
  rw [Process.shows, h.find (h.placed i ptr hi).2]
  rfl

theorem Owned.lt_mapped {v : View} (hv : v ∈ s.views) : v.view < s.mapped := by
  by_contra hlt
  have h1 := h.ledger.balance v.view
  rw [h.opened, if_neg hlt] at h1
  have := List.count_pos_iff.mpr (List.mem_map_of_mem (f := View.view) hv)
  omega

/-- Nobody owns anything: every view was unmapped once. -/
theorem Owned.gone (hl : loose = []) (hp : s.ptrs = []) {v : Nat} (hv : v < s.mapped) :
    s.ledger.count (.closed v) = 1 := by
  have hnone : s.views = [] := by
    rw [List.eq_nil_iff_forall_not_mem]
    intro v hv
    have := h.owned v hv
    rw [hl, hp] at this
    cases this
  have hk := h.ledger
  rw [hnone] at hk
  rw [hk.settled, h.opened, if_pos hv]

end Owned

/-! ## What the calls do -/

section Calls
variable {S : System} {B : BlockSize} {n : Nat} {s : Process} {ptr : Ptr}

theorem Beside.refl : Beside s s := ⟨rfl, rfl, rfl⟩

/-- A view goes. -/
def Process.unmap (s : Process) (v : View) : Process :=
  { s with views := s.views.erase v, ledger := s.ledger ++ [.closed v.view] }

theorem unmapAddress_returns (h : Owned B n loose s) {v : View} (hv : v ∈ s.views) :
    Returns (unmapAddress v.addr) (fun _ t => t = s.unmap v) s := by
  have hf := h.find hv
  simp only [Returns, unmapAddress, unmapViewOfFile, wp_bind, wp_get, hf, wp_modify, wp_pure, if_true]
  rfl

/-- The last `ptr_t` of a view is gone. -/
theorem Owned.unmap (h : Owned B n [ptr] s) (hp : ptr ∉ s.ptrs) {v : View} (hv : v ∈ s.views)
    (hview : v.view = ptr.view) (haddr : v.addr = ptr.addr) : Owned B n [] (s.unmap v) := by
  have hnd : s.views.Nodup := List.Nodup.of_map _ h.views_nodup
  have hstay : ∀ p ∈ s.ptrs, ∀ w ∈ s.views, w.view = p.view → w.addr = p.addr → w ∈ (s.unmap v).views := by
    intro p hps w hw hwv hwa
    refine (List.mem_erase_of_ne fun e => hp ?_).mpr hw
    subst e
    rwa [Ptr.ext (hview.symm.trans hwv) (haddr.symm.trans hwa)]
  refine ⟨h.file, ?_, fun w => ?_, h.addrs.sublist (List.erase_sublist.map _), fun w hw => ?_, fun p hps => ?_,
    fun i p hi => ?_, h.keys, h.returned, h.same, h.unmaps⟩
  · apply (h.ledger.close (List.mem_map_of_mem hv)).perm
    have := ((List.perm_cons_erase hv).map View.view).erase v.view
    rwa [List.map_cons, List.erase_cons_head] at this
  · show (s.ledger ++ [Entry.closed v.view]).count (.opened w) = _
    rw [List.count_append, h.opened]
    simp only [List.count_cons, List.count_nil, Process.unmap]
    rfl
  · obtain ⟨hne, hw⟩ := (hnd.mem_erase_iff).mp hw
    rcases List.mem_cons.mp (h.owned w hw) with e | hin
    · exact absurd (h.view_inj hw hv (by rw [hview]; exact congrArg Ptr.view e)) hne
    · exact hin
  · obtain ⟨w, hw, hwv, hwa⟩ := h.points p (List.mem_cons_of_mem _ hps)
    exact ⟨w, hstay p hps w hw hwv hwa, hwv, hwa⟩
  · obtain ⟨hlt, hw⟩ := h.placed i p hi
    refine ⟨hlt, hstay p ?_ _ hw rfl rfl⟩
    exact List.mem_append_left _ (List.mem_map.mpr ⟨(i, p), hi, rfl⟩)

theorem release_returns (h : Owned B n [ptr] s) :
    Returns (release ptr) (fun _ t => Owned B n [] t ∧ t.mappedBlocks = s.mappedBlocks ∧ Beside s t) s := by
  unfold Returns release
  rw [wp_bind, wp_get, wp_ite]
  refine ⟨fun hp => ⟨?_, rfl, .refl⟩, fun hp => ?_⟩
  · -- another copy is left
    refine ⟨h.file, h.ledger, h.opened, h.addrs, fun v hv => ?_, fun p hps => h.points p (List.mem_cons_of_mem _ hps),
      h.placed, h.keys, h.returned, h.same, h.unmaps⟩
    rcases List.mem_cons.mp (h.owned v hv) with e | hin
    · rw [e]; exact hp
    · exact hin
  · obtain ⟨v, hv, hview, haddr⟩ := h.points ptr (List.mem_cons_self ..)
    rw [← haddr]
    refine (unmapAddress_returns h hv).mono fun _ t e => ?_
    subst e
    exact ⟨h.unmap hp hv hview haddr, rfl, rfl, rfl, rfl⟩

/-- A block gets its view, on a file that has it. -/
def Process.enter (s : Process) (file : MmapFile) (addr i offset : Nat) : Process :=
  { s with
    file := file
    mappedBlocks := s.mappedBlocks ++ [(i, ⟨s.mapped, addr⟩)]
    views := ⟨s.mapped, addr, offset⟩ :: s.views
    mapped := s.mapped + 1
    ledger := s.ledger ++ [.opened s.mapped] }

theorem Owned.enter (h : Owned B n [] s) {m i addr : Nat} {file : MmapFile} (hf : Intact B m file) (hn : n ≤ m)
    (hi : i < m) (hu : s.mappedBlocks.lookup i = none) (ha : ∀ v ∈ s.views, v.addr ≠ addr) :
    Owned B m [] (s.enter file addr i (i * B.bytes)) := by
  have hnew : s.mapped ∉ s.views.map View.view := by
    intro hm
    obtain ⟨v, hv, e⟩ := List.mem_map.mp hm
    exact absurd (h.lt_mapped hv) (by omega)
  have hptrs : ∀ p, p ∈ (s.enter file addr i (i * B.bytes)).ptrs ↔ p = ⟨s.mapped, addr⟩ ∨ p ∈ s.ptrs := by
    intro p
    simp only [Process.ptrs, Process.enter, List.map_append, List.mem_append, List.map_cons, List.map_nil,
      List.mem_singleton]
    tauto
  refine ⟨hf, h.ledger.open hnew, fun v => ?_, ?_, fun v hv => ?_, fun p hp => ?_, fun j p hj => ?_, ?_, h.returned,
    h.same, h.unmaps⟩
  · show (s.ledger ++ [Entry.opened s.mapped]).count (.opened v) = if v < s.mapped + 1 then 1 else 0
    rw [List.count_append, h.opened]
    by_cases e : v = s.mapped
    · subst e; simp
    · have : v < s.mapped + 1 ↔ v < s.mapped := by omega
      simp [this, Ne.symm e]
  · refine List.nodup_cons.mpr ⟨fun hm => ?_, h.addrs⟩
    obtain ⟨v, hv, e⟩ := List.mem_map.mp hm
    exact ha v hv e
  · rw [List.nil_append, hptrs]
    rcases List.mem_cons.mp hv with rfl | hv
    · exact .inl rfl
    · exact .inr (h.owned v hv)
  · rw [List.nil_append, hptrs] at hp
    rcases hp with rfl | hp
    · exact ⟨_, List.mem_cons_self .., rfl, rfl⟩
    · obtain ⟨v, hv, hvp⟩ := h.points p hp
      exact ⟨v, List.mem_cons_of_mem _ hv, hvp⟩
  · rcases List.mem_append.mp hj with hj | hj
    · obtain ⟨hlt, hv⟩ := h.placed j p hj
      exact ⟨by omega, List.mem_cons_of_mem _ hv⟩
    · obtain ⟨rfl, rfl⟩ := Prod.mk.inj (List.mem_singleton.mp hj)
      exact ⟨hi, List.mem_cons_self ..⟩
  · show ((s.mappedBlocks ++ [(i, (⟨s.mapped, addr⟩ : Ptr))]).map Prod.fst).Nodup
    rw [List.map_append, List.nodup_append]
    refine ⟨h.keys, by simp, fun j hj k hk e => ?_⟩
    obtain rfl : k = i := by simpa using hk
    exact notMem_of_lookup hu (e ▸ hj)

theorem mapView_returns (h : Owned B n [] s) {m i : Nat} {f : MmapFile} (hf : Intact B m f) (hn : n ≤ m) (hi : i < m)
    (hu : s.mappedBlocks.lookup i = none) :
    Returns (mapView S B i (i * B.bytes))
      (fun p t => (∃ m, Owned B m [] t) ∧ t.mappedBlocks = s.mappedBlocks ++ [(i, p)] ∧ Beside s t)
      { s with file := f } := by
  have hlen : i * B.bytes + B.bytes ≤ f.size := by
    rw [hf.size, ← Nat.succ_mul]
    exact Nat.mul_le_mul_right _ hi
  simp only [Returns, mapView, wp_bind, mapViewOfFile, wp_onFile, Mmap.mapViewOfFile, wp_get, hf.mapped, hf.good,
    Os.good, hlen, wp_pure, wp_modify, and_self, if_true, hu, Option.isSome_none, Bool.false_eq_true, if_false]
  exact ⟨⟨m, h.enter hf hn hi hu (S.free { s with file := f })⟩, trivial, rfl, rfl, rfl⟩

/-- Block `i` is one of the file's, or the next. -/
theorem mapBlock_returns (h : Owned B n [] s) (hs : s.file.size < 2 ^ 32) {i : Nat} (hi : i ≤ n)
    (hu : s.mappedBlocks.lookup i = none) :
    Returns (mapBlock S B i)
      (fun p t => (∃ m, Owned B m [] t) ∧ t.mappedBlocks = s.mappedBlocks ++ [(i, p)] ∧ Beside s t) s := by
  have hle : i * B.bytes ≤ s.file.size := by
    rw [h.file.size]
    exact Nat.mul_le_mul_right _ hi
  have hmod : i * B.bytes % 2 ^ 32 = i * B.bytes := Nat.mod_eq_of_lt (by omega)
  unfold Returns mapBlock
  rw [hmod, wp_bind, wp_get, wp_bind, wp_ite]
  refine ⟨fun hlong => ?_, fun hfits => ?_⟩
  · -- the next block
    obtain rfl : i = n := by
      by_contra hne
      have : (i + 1) * B.bytes ≤ n * B.bytes := Nat.mul_le_mul_right _ (by omega)
      rw [← h.file.size, Nat.succ_mul] at this
      omega
    rw [wp_onFile]
    refine (extendFile_wp _).mono ?_ ?_
    · intro _ f hf
      obtain ⟨rfl, -, -⟩ := hf
      rw [← Nat.succ_mul]
      exact mapView_returns h h.file.extend (Nat.le_succ i) (Nat.lt_succ_self i) hu
    · intro e f hf
      rw [h.file.good] at hf
      rcases hf with ⟨-, -, hf, -⟩ | ⟨-, hf, -⟩ <;> cases hf
  · have hlt : i < n := by
      by_contra hge
      obtain rfl : i = n := by omega
      rw [← h.file.size] at hfits
      have := B.pos
      omega
    exact mapView_returns h h.file (Nat.le_refl n) hlt hu

theorem Sound.giveOut (h : Sound B n s) (ha : s.alive = true) {i : Nat} (hi : (i, ptr) ∈ s.mappedBlocks) :
    Sound B n { s with held := ptr :: s.held, returns := s.returns ++ [⟨i, ptr, s.shows ptr.addr⟩] } := by
  have hptr : ptr ∈ s.ptrs := List.mem_append_left _ (List.mem_map.mpr ⟨(i, ptr), hi, rfl⟩)
  -- what was returned for a block before is what the table has for it
  have hold : ∀ r ∈ s.returns, r.blockNum = i → r.ptr = ptr := by
    intro r hr e
    have := lookup_of_mem h.keys (e ▸ h.table ha r hr)
    rw [lookup_of_mem h.keys hi] at this
    exact (Option.some.inj this).symm
  have hptrs : ∀ p, p ∈ s.mappedBlocks.map Prod.snd ++ ptr :: s.held ↔ p ∈ s.ptrs := by
    intro p
    simp only [Process.ptrs, List.mem_append, List.mem_cons] at hptr ⊢
    constructor
    · intro hp
      rcases hp with hp | rfl | hp
      · exact .inl hp
      · exact hptr
      · exact .inr hp
    · intro hp
      exact hp.imp_right .inr
  refine ⟨⟨h.file, h.ledger, h.opened, h.addrs, fun v hv => (hptrs _).mpr (h.owned v hv),
    fun p hp => h.points p ((hptrs p).mp hp), h.placed, h.keys, fun r hr => ?_, fun r hr r' hr' e => ?_, h.unmaps⟩,
    fun _ r hr => ?_, h.gone⟩
  · rcases List.mem_append.mp hr with hr | hr
    · exact h.returned r hr
    · rw [List.mem_singleton.mp hr]
      exact h.shows_eq hi
  · rcases List.mem_append.mp hr with hr | hr <;> rcases List.mem_append.mp hr' with hr' | hr'
    · exact h.same r hr r' hr' e
    · rw [List.mem_singleton.mp hr'] at e ⊢
      exact (hold r hr e).symm
    · rw [List.mem_singleton.mp hr] at e ⊢
      exact hold r' hr' e.symm
    · rw [List.mem_singleton.mp hr, List.mem_singleton.mp hr']
  · rcases List.mem_append.mp hr with hr | hr
    · exact h.table ha r hr
    · rw [List.mem_singleton.mp hr]
      exact hi

/-- The block's number is taken while the file is below 4 GiB, else the call throws. -/
theorem wp_count (h : Intact B n s.file) {Q : Nat → Process → Prop} {E : Err → Process → Prop}
    (hQ : s.file.size < 2 ^ 32 → Q n s) (hE : E (.file .assertion) s) : wp (onFile (blockCount B)) Q E s := by
  rw [wp_onFile]
  by_cases hs : s.file.size < 2 ^ 32
  · exact (wp_blockCount h.toBlocks hs).mpr (hQ hs)
  · exact (wp_blockCount_asserts (Nat.le_of_not_lt hs)).mpr hE

theorem mapAndGive_returns (h : Sound B n s) (ha : s.alive = true) (hs : s.file.size < 2 ^ 32) {i : Nat} (hi : i ≤ n)
    (hu : s.mappedBlocks.lookup i = none) :
    Returns (do giveOut i (← mapBlock S B i)) (fun _ t => ∃ m, Sound B m t) s := by
  unfold Returns
  rw [wp_bind]
  refine (mapBlock_returns h.toOwned hs hi hu).wp fun p t ht => ?_
  obtain ⟨⟨m, ht⟩, hmap, hb⟩ := ht
  have hta : t.alive = true := hb.alive.trans ha
  have hsound : Sound B m t := by
    refine ⟨ht, fun _ r hr => ?_, fun e => by rw [hta] at e; cases e⟩
    rw [hmap]
    exact List.mem_append_left _ (h.table ha r (hb.returns ▸ hr))
  exact ⟨m, hsound.giveOut hta (by rw [hmap]; simp)⟩

theorem allocateBlock_wp (h : Sound B n s) (ha : s.alive = true) :
    wp (allocateBlock S B) (fun _ t => ∃ m, Sound B m t) (fun _ t => t = s) s := by
  unfold allocateBlock
  rw [wp_bind]
  refine wp_count h.file (fun hs => ?_) rfl
  refine (mapAndGive_returns h ha hs (Nat.le_refl n) ?_).wp fun _ _ ht => ht
  cases hl : s.mappedBlocks.lookup n with
  | none => rfl
  | some p => exact absurd (h.placed n p (mem_of_lookup hl)).1 (Nat.lt_irrefl n)

theorem getReference_wp (h : Sound B n s) (ha : s.alive = true) (i : Nat) :
    wp (getReference S B i) (fun _ t => ∃ m, Sound B m t) (fun _ t => t = s) s := by
  unfold getReference
  rw [wp_bind]
  refine wp_count h.file (fun hs => ?_) rfl
  rw [wp_ite]
  refine ⟨fun _ => rfl, fun hi => ?_⟩
  rw [wp_bind, wp_get]
  cases hl : s.mappedBlocks.lookup i with
  | none => exact (mapAndGive_returns h ha hs (Nat.le_of_not_ge hi) hl).wp fun _ _ ht => ht
  | some p => exact ⟨n, h.giveOut ha (mem_of_lookup hl)⟩

theorem Owned.uncover (h : Owned B n [] s) {i : Nat} {rest : List (Nat × Ptr)}
    (hm : s.mappedBlocks = (i, ptr) :: rest) : Owned B n [ptr] { s with mappedBlocks := rest } := by
  have hptrs : s.ptrs = ptr :: (rest.map Prod.snd ++ s.held) := by rw [Process.ptrs, hm]; rfl
  have ho := h.owned
  have hp := h.points
  rw [List.nil_append, hptrs] at ho hp
  refine ⟨h.file, h.ledger, h.opened, h.addrs, ho, hp, fun j p hj => h.placed j p ?_, ?_, h.returned, h.same, h.unmaps⟩
  · rw [hm]
    exact List.mem_cons_of_mem _ hj
  · have := h.keys
    rw [hm] at this
    exact (List.nodup_cons.mp this).2

theorem clear_returns (l : List (Nat × Ptr)) : ∀ {s : Process}, Owned B n [] s → s.mappedBlocks = l →
    Returns (clear l) (fun _ t => Owned B n [] t ∧ t.mappedBlocks = [] ∧ Beside s t) s := by
  induction l with
  | nil => exact fun h hm => ⟨h, hm, .refl⟩
  | cons e rest ih =>
    intro s h hm
    obtain ⟨i, ptr⟩ := e
    unfold Returns clear
    rw [wp_bind, wp_modify, wp_bind]
    refine (release_returns (h.uncover hm)).wp fun _ t ht => ?_
    obtain ⟨ht, hmt, hb⟩ := ht
    refine (ih ht hmt).mono fun _ u hu => ?_
    obtain ⟨hu, hmu, hb'⟩ := hu
    exact ⟨hu, hmu, hb'.alive.trans hb.alive, hb'.held.trans hb.held, hb'.returns.trans hb.returns⟩

theorem destroy_returns (h : Sound B n s) : Returns destroy (fun _ t => Sound B n t) s := by
  unfold Returns destroy
  rw [wp_bind, wp_modify, wp_bind, wp_get]
  have hd : Owned B n [] { s with alive := false } :=
    ⟨h.file, h.ledger, h.opened, h.addrs, h.owned, h.points, h.placed, h.keys, h.returned, h.same, h.unmaps⟩
  refine (clear_returns _ hd rfl).wp fun _ t ht => ?_
  obtain ⟨ht, hm, hb⟩ := ht
  exact ⟨ht, fun e => (by rw [hb.alive] at e; cases e), fun _ => hm⟩

theorem drop_returns (h : Sound B n s) (ptr : Ptr) : Returns (drop ptr) (fun _ t => Sound B n t) s := by
  unfold Returns drop
  rw [wp_bind, wp_get, wp_ite]
  refine ⟨fun hp => ?_, fun _ => h⟩
  rw [wp_bind, wp_modify]
  have hperm : s.ptrs.Perm (ptr :: (s.mappedBlocks.map Prod.snd ++ s.held.erase ptr)) :=
    ((List.perm_cons_erase hp).append_left _).trans List.perm_middle
  have hd : Owned B n [ptr] { s with held := s.held.erase ptr } :=
    ⟨h.file, h.ledger, h.opened, h.addrs, fun v hv => hperm.mem_iff.mp (h.owned v hv),
      fun p hpp => h.points p (hperm.mem_iff.mpr hpp), h.placed, h.keys, h.returned, h.same, h.unmaps⟩
  refine (release_returns hd).wp fun _ t ht => ?_
  obtain ⟨ht, hm, hb⟩ := ht
  refine ⟨ht, fun e r hr => ?_, fun e => ?_⟩
  · rw [hm]
    exact h.table (hb.alive.symm.trans e) r (hb.returns ▸ hr)
  · rw [hm]
    exact h.gone (hb.alive.symm.trans e)

/-- An exception leaves what was written, so a call keeps what it keeps either way. -/
theorem exec_of_wp {P : Process → Prop} (c : Call) (h0 : P s)
    (hw : s.alive = true ∨ (∃ ptr ∈ s.held, c = .drop ptr) → wp (c.body S B) (fun _ t => P t) (fun _ t => P t) s) :
    P (c.exec S B s) := by
  unfold Call.exec
  by_cases hc : s.alive = true ∨ ∃ ptr ∈ s.held, c = .drop ptr
  · rw [if_pos hc]
    rcases (hw hc).run with ⟨_, t, ht, h⟩ | ⟨e, t, ht, h⟩
    · rw [ht]; exact h
    · rw [ht]; exact h
  · rw [if_neg hc]
    exact h0

theorem Sound.exec (S : System) (h : Sound B n s) {c : Call} (hk : Keeps s c) : ∃ m, Sound B m (c.exec S B s) := by
  have hsame : ∀ t : Process, t = s → ∃ m, Sound B m t := fun t e => ⟨n, e ▸ h⟩
  refine exec_of_wp (P := fun t => ∃ m, Sound B m t) c ⟨n, h⟩ fun hc => ?_
  have ha : (∀ ptr, c ≠ .drop ptr) → s.alive = true := fun hd => hc.resolve_right fun hp => by
    obtain ⟨ptr, -, e⟩ := hp
    exact hd ptr e
  cases c with
  | allocateBlock => exact (allocateBlock_wp h (ha (by simp))).mono (fun _ _ ht => ht) fun _ t => hsame t
  | getReference i => exact (getReference_wp h (ha (by simp)) i).mono (fun _ _ ht => ht) fun _ t => hsame t
  | destroy => exact (destroy_returns h).wp fun _ t ht => ⟨n, ht⟩
  | drop ptr => exact (drop_returns h ptr).wp fun _ t ht => ⟨n, ht⟩
  | unmapBlock i =>
    show wp (unmapBlock i) _ _ s
    unfold unmapBlock
    rw [wp_bind, wp_get, hk i rfl]
    exact hsame s rfl

/-- An entry whose view is unmapped stays in the table. -/
theorem Sound.unmapBlock (S : System) (h : Sound B n s) {c : Call} (hk : ¬ Keeps s c) : ¬ Tracked B (c.exec S B s) := by
  simp only [Keeps, not_forall] at hk
  obtain ⟨i, rfl, hl⟩ := hk
  obtain ⟨ptr, hl⟩ := Option.ne_none_iff_exists'.mp hl
  have hi := mem_of_lookup hl
  have hv := (h.placed i ptr hi).2
  have ha : s.alive = true := by
    by_contra ha
    rw [h.gone (by simpa using ha)] at hi
    cases hi
  have hdead : (s.unmap ⟨ptr.view, ptr.addr, i * B.bytes⟩).shows ptr.addr = none := by
    rw [Process.shows, Option.map_eq_none_iff, List.find?_eq_none]
    intro w hw
    obtain ⟨hne, hw⟩ := (List.Nodup.of_map _ h.views_nodup).mem_erase_iff.mp hw
    simpa using fun e => hne (List.inj_on_of_nodup_map h.addrs hw hv e)
  have hrun : Returns (Call.body S B (.unmapBlock i)) (fun _ t => t = s.unmap ⟨ptr.view, ptr.addr, i * B.bytes⟩) s := by
    show wp (Views.unmapBlock i) _ _ s
    unfold Views.unmapBlock
    rw [wp_bind, wp_get, hl]
    exact unmapAddress_returns h.toOwned hv
  obtain ⟨_, t, ht, rfl⟩ := hrun.run
  unfold Call.exec
  rw [if_pos (.inl ha), ht]
  intro htr
  have := htr.table i ptr hi
  rw [hdead] at this
  cases this

end Calls

theorem Sound.tracked {B : BlockSize} {n : Nat} {s : Process} (h : Sound B n s) : Tracked B s := by
  refine ⟨fun i ptr hi => h.shows_eq hi, fun ptr hp => h.points ptr (by simp [Process.ptrs, hp]), h.returned, ?_,
    h.unmaps, fun ha hh v hv => h.toOwned.gone rfl ?_ hv⟩
  · refine List.pairwise_of_forall_mem_list fun r hr r' hr' e _ => ?_
    rw [h.same r hr r' hr' e]
  · rw [Process.ptrs, h.gone ha, hh]
    rfl

theorem run_snoc (S : System) (B : BlockSize) (s : Process) (p : List Call) (c : Call) :
    run S B s (p ++ [c]) = c.exec S B (run S B s p) :=
  Lib.Splits.run_concat (Call.exec S B) (fun _ => rfl) (fun _ _ _ => rfl) s p c

theorem start_sound {B : BlockSize} {existing : Option Nat} {f : MmapFile}
    (ho : create B existing.isSome (onDisk existing .good) = .ok () f) :
    Sound B (existing.getD B.bytes / B.bytes) (start f) := by
  obtain ⟨-, h1, h2, h3, -, h4⟩ := (wp_ok ho).mp (create_wp (B := B) existing .good)
  refine ⟨⟨⟨h1, h2, h3, h4⟩, .nil, fun v => ?_, List.nodup_nil, ?_, ?_, ?_, List.nodup_nil, ?_, ?_, rfl⟩, ?_, ?_⟩
  · simp [start]
  all_goals simp [start, Process.ptrs]

/-- The table shows live views only, and each is unmapped once, in exactly the runs that
    unmap no block of the table. -/
theorem tracked_iff (S : System) (B : BlockSize) (existing : Option Nat) {f : MmapFile}
    (ho : create B existing.isSome (onDisk existing .good) = .ok () f) (calls : List Call) :
    (∀ p, p <+: calls → Tracked B (run S B (start f) p)) ↔
      ∀ p c, p ++ [c] <+: calls → Keeps (run S B (start f) p) c := by
  refine Lib.Splits.forall_run_iff (run S B (start f)) (Call.exec S B) (run_snoc S B (start f))
    (I := fun s => ∃ n, Sound B n s) ⟨_, start_sound ho⟩ ?_ ?_ ?_ calls
  · intro s h
    obtain ⟨n, h⟩ := h
    exact h.tracked
  · intro s c h hk
    obtain ⟨n, h⟩ := h
    exact h.exec S hk
  · intro s c h hk
    obtain ⟨n, h⟩ := h
    exact h.unmapBlock S hk

/-! ## A system -/

/-- A system that places each view above all others. -/
def above : System where
  place s := s.views.foldr (fun v n => max v.addr n) 0 + 1
  notNull s := Nat.succ_ne_zero _
  free s v hv := by
    refine Nat.ne_of_lt (Nat.lt_succ_of_le ?_)
    generalize s.views = vs at hv
    induction vs with
    | nil => cases hv
    | cons w vs ih =>
      rcases List.mem_cons.mp hv with rfl | hv
      · exact Nat.le_max_left _ _
      · exact (ih hv).trans (Nat.le_max_right _ _)

/-- Block 0 is unmapped and asked for again: the caller gets the old address, which shows
    nothing, and the last `ptr_t` unmaps it a second time. -/
theorem unmapped_twice : ∃ f, create blockSize false (onDisk none .good) = .ok () f ∧
    ((run above blockSize (start f) [.getReference 0, .unmapBlock 0, .getReference 0]).returns =
      [⟨0, ⟨0, 1⟩, some 0⟩, ⟨0, ⟨0, 1⟩, none⟩]) ∧
    ((run above blockSize (start f) [.getReference 0, .unmapBlock 0, .drop ⟨0, 1⟩, .destroy]).failed = [1]) ∧
    ¬ ∀ p, p <+: [Call.getReference 0, .unmapBlock 0, .getReference 0] →
      Tracked blockSize (run above blockSize (start f) p) := by
  refine ⟨⟨65536, 65536, some 65536, fun _ => none, .good⟩, rfl, by decide +kernel, by decide +kernel, fun h => ?_⟩
  have := (h _ (List.prefix_refl _)).returned ⟨0, ⟨0, 1⟩, none⟩ (by decide +kernel)
  cases this

/-- Two blocks, one of them twice, a block to unmap that is not there, and the end. -/
theorem tracked_iff_life : ∃ f, create blockSize false (onDisk none .good) = .ok () f ∧
    ((∀ p, p <+: [Call.allocateBlock, .getReference 0, .unmapBlock 7, .getReference 1, .destroy, .drop ⟨0, 1⟩] →
      Tracked blockSize (run above blockSize (start f) p)) ↔
    ∀ p c, p ++ [c] <+: [Call.allocateBlock, .getReference 0, .unmapBlock 7, .getReference 1, .destroy, .drop ⟨0, 1⟩] →
      Keeps (run above blockSize (start f) p) c) := by
  have h : Returns (create blockSize false) (fun _ _ => True) (onDisk none .good) := by decide +kernel
  obtain ⟨_, s, hs, -⟩ := h.run
  exact ⟨s, hs, tracked_iff above blockSize none hs _⟩

end Dumbnose.Mmap.Views
