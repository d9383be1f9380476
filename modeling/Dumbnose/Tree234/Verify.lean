/-
  Dumbnose.Tree234.Verify — what the tree's own test code checks (`chknode`, `verify`).

  The checks print what they find and go on. `verify` compares a tree with an array: it
  walks the nodes, then it lists the elements by index. What it prints is the list of
  `Report`s, in order; each has the arguments of its format.

  `verify_silent_iff`: it prints nothing exactly if the tree is a 2-3-4 tree whose counts
  and parent pointers are right, sorted if there is a comparison, with the elements of the
  array in their order. The tree may be any, built by the code or not.

  What is in `array` from `arraylen` on is whatever is there. A pointer to a node is never
  NULL, so no node of a tree is at address 0.

  No check compares two nodes. A node that is linked from two places is read at each of
  them. In a sorted tree the order finds it (`distinct_of_verify`); without a comparison
  nothing does, whatever the comment says of loops (`linkedTwice`).
-/

import Dumbnose.Tree234.Find

namespace Dumbnose.Tree234

open Node Lib.Compare

variable {α : Type}

inductive Report (α : Type) where
  | kidBeyond (node nkids i : Nat)
  | countBeyond (node i : Nat) (count : Int)
  | elemBeyond (node nelems i : Nat)
  | leafDepth (node : Nat) (level treedepth : Int)
  | kidCount (node nelems shouldkids nkids : Nat)
  | noElems (node nkids : Nat)
  | comparison (node : Nat) (i : Int) (lower higher : α)
  | kidParent (node i parent : Nat)
  | subtreeCount (node i : Nat) (count subcount : Int)
  | rootParent (parent : Nat)
  | moreElements (arraylen : Nat)
  | position (i : Nat) (array : Option α) (tree : α)
  | enumeration (elemcount i : Int)
  | fewerElements (i arraylen : Nat)
  | counted (elemcount count : Int)
  | added (realret retval : Option α)
  | deleted (ret elem : Option α)
  | found (p : α) (relation : Relation) (realret ret : Option α)
  | foundAt (p : α) (relation : Relation) (index mid : Int)
  | foundOther (p : α) (relation : Relation) (realret : α) (index : Int) (realret2 : Option α)
  | first (realret : Option α) (index : Int) (array : Option α)
  | firstNull (realret : α) (index : Int)
  | last (realret : Option α) (index : Int) (array : Option α)
  | lastNull (realret : α) (index : Int)

/-- The format `error` is called with. -/
def Report.format : Report α → String
  | kidBeyond .. => "node %p: nkids=%d but kids[%d] non-NULL"
  | countBeyond .. => "node %p: kids[%d] NULL but count[%d]=%d nonzero"
  | elemBeyond .. => "node %p: nelems=%d but elems[%d] non-NULL"
  | leafDepth .. => "node %p: leaf at depth %d, previously seen depth %d"
  | kidCount .. => "node %p: %d elems should mean %d kids but has %d"
  | noElems .. => "node %p: no elems"
  | comparison .. => "node %p: kid comparison [%d=%s,%d=%s] failed"
  | kidParent .. => "node %p kid %d: parent ptr is %p not %p"
  | subtreeCount .. => "node %p kid %d: count says %d, subtree really has %d"
  | rootParent .. => "root->parent is %p should be null"
  | moreElements .. => "tree contains more than %d elements"
  | position .. => "enum at position %d: array says %s, tree says %s"
  | enumeration .. => "tree really contains %d elements, enum gave %d"
  | fewerElements .. => "enum gave only %d elements, array has %d"
  | counted .. => "tree really contains %d elements, count234 gave %d"
  | added .. => "add: retval was %p expected %p"
  | deleted .. => "del returned %p, expected %p"
  | found .. => "find(\"%s\",%s) gave %s should be %s"
  | foundAt .. => "find(\"%s\",%s) gave %d should be %d"
  | foundOther .. => "find(\"%s\",%s) gave %s(%d) but %d -> %s"
  | first .. => "find(NULL,GT) gave %s(%d) should be %s(0)"
  | firstNull .. => "find(NULL,GT) gave %s(%d) should be NULL"
  | last .. => "find(NULL,LT) gave %s(%d) should be %s(0)"
  | lastNull .. => "find(NULL,LT) gave %s(%d) should be NULL"

/-! ## `chknode` -/

structure Chkctx where
  treedepth : Int
  elemcount : Int
  deriving DecidableEq, Repr

/-- What a call has printed, what it returned, and the context after it. -/
structure Checked (α : Type) where
  reports : List (Report α)
  count : Int
  ctx : Chkctx

/-- The first `i`, of so many, that is not as `p` says. -/
def leading (p : Nat → Bool) : Nat → Nat → Nat
  | 0, i => i
  | todo + 1, i => if p i then leading p todo (i + 1) else i

namespace Node

def nkids (n : Node α) : Nat := leading (fun i => !(n.kid i).isNull) 4 0

def nelems (n : Node α) : Nat := leading (fun i => (n.elem i).isSome) 3 0

def checkKids (n : Node α) : List (Report α) :=
  (List.range' n.nkids (4 - n.nkids)).flatMap fun i =>
    if (n.kid i).isNull = false then [.kidBeyond n.addr n.nkids i]
    else if n.count i ≠ 0 then [.countBeyond n.addr i (n.count i)]
    else []

def checkElems (n : Node α) : List (Report α) :=
  (List.range' n.nelems (3 - n.nelems)).flatMap fun i =>
    if (n.elem i).isSome then [.elemBeyond n.addr n.nelems i] else []

def checkArity (n : Node α) (level : Int) (ctx : Chkctx) : List (Report α) :=
  if n.nkids = 0 then
    if ctx.treedepth < 0 then []
    else if ctx.treedepth ≠ level then [.leafDepth n.addr level ctx.treedepth]
    else []
  else
    let shouldkids := if n.nelems ≠ 0 then n.nelems + 1 else 0
    if n.nkids ≠ shouldkids then [.kidCount n.addr n.nelems shouldkids n.nkids] else []

def checkEmpty (n : Node α) : List (Report α) := if n.nelems = 0 then [.noElems n.addr n.nkids] else []

/-- The bounds of kid `i`. -/
def lower (n : Node α) (lowbound : Option α) (i : Nat) : Option α := if i = 0 then lowbound else n.elem (i - 1)

def higher (n : Node α) (highbound : Option α) (i : Nat) : Option α :=
  if n.nelems ≤ i then highbound else n.elem i

/-- From `i = -1` on: here from 0. -/
def checkOrder (cmp : Option (α → α → Int)) (n : Node α) (lowbound highbound : Option α) : List (Report α) :=
  match cmp with
  | none => []
  | some c =>
    (List.range (n.nelems + 1)).flatMap fun i =>
      match n.lower lowbound i, n.higher highbound i with
      | some l, some h => if 0 ≤ c l h then [.comparison n.addr (i - 1) l h] else []
      | _, _ => []

def checkParents (n : Node α) : List (Report α) :=
  (List.range n.nkids).flatMap fun i =>
    if (n.kid i).parent ≠ n.addr then [.kidParent n.addr i (n.kid i).parent] else []

/-- All that comes before the recursion. -/
def checkNode (cmp : Option (α → α → Int)) (n : Node α) (level : Int) (lowbound highbound : Option α) (ctx : Chkctx) :
    Checked α where
  reports := n.checkKids ++ n.checkElems ++ n.checkArity level ctx ++ n.checkEmpty ++
    checkOrder cmp n lowbound highbound ++ n.checkParents
  count := n.nelems
  ctx := ⟨if n.nkids = 0 ∧ ctx.treedepth < 0 then level else ctx.treedepth, ctx.elemcount + n.nelems⟩

/-- One turn of the loop over the kids. -/
def checkKid (n : Node α) (lowbound highbound : Option α) (i : Nat)
    (chknode : Option α → Option α → Chkctx → Checked α) (r : Checked α) : Checked α :=
  if i < n.nkids then
    let s := chknode (n.lower lowbound i) (n.higher highbound i) r.ctx
    { reports := r.reports ++ s.reports ++
        (if n.count i ≠ s.count then [.subtreeCount n.addr i (n.count i) s.count] else [])
      count := r.count + s.count
      ctx := s.ctx }
  else r

end Node

/-- `chknode`. It is not called on NULL. -/
def chknode (cmp : Option (α → α → Int)) : Node α → Int → Option α → Option α → Chkctx → Checked α
  | null, _, _, _, ctx => ⟨[], 0, ctx⟩
  | mk a p k0 k1 k2 k3 c0 c1 c2 c3 e0 e1 e2, level, lowbound, highbound, ctx =>
    let n := mk a p k0 k1 k2 k3 c0 c1 c2 c3 e0 e1 e2
    n.checkKid lowbound highbound 3 (chknode cmp k3 (level + 1)) <|
      n.checkKid lowbound highbound 2 (chknode cmp k2 (level + 1)) <|
      n.checkKid lowbound highbound 1 (chknode cmp k1 (level + 1)) <|
      n.checkKid lowbound highbound 0 (chknode cmp k0 (level + 1)) <|
      checkNode cmp n level lowbound highbound ctx

/-- The loop over the kids, after so many turns. -/
def turns (cmp : Option (α → α → Int)) (n : Node α) (level : Int) (lowbound highbound : Option α) (ctx : Chkctx) :
    Nat → Checked α
  | 0 => checkNode cmp n level lowbound highbound ctx
  | i + 1 =>
    n.checkKid lowbound highbound i (chknode cmp (n.kid i) (level + 1)) (turns cmp n level lowbound highbound ctx i)

theorem chknode_eq (cmp : Option (α → α → Int)) {n : Node α} (hn : n.isNull = false) (level : Int)
    (lowbound highbound : Option α) (ctx : Chkctx) :
    chknode cmp n level lowbound highbound ctx = turns cmp n level lowbound highbound ctx 4 := by
  cases n with
  | null => cases hn
  | mk a p k0 k1 k2 k3 c0 c1 c2 c3 e0 e1 e2 => rfl

/-! ## One node -/

theorem leading_spec (p : Nat → Bool) (todo i : Nat) :
    i ≤ leading p todo i ∧ leading p todo i ≤ i + todo ∧ (∀ j, i ≤ j → j < leading p todo i → p j = true) ∧
      (leading p todo i < i + todo → p (leading p todo i) = false) := by
  induction todo generalizing i with
  | zero => exact ⟨le_rfl, le_rfl, fun j h1 h2 => absurd h1 (Nat.not_le.mpr h2), fun h => absurd h (Nat.lt_irrefl _)⟩
  | succ todo ih =>
    rw [leading]
    by_cases hp : p i = true
    · obtain ⟨h1, h2, h3, h4⟩ := ih (i + 1)
      rw [if_pos hp]
      refine ⟨by omega, by omega, fun j hj hlt => ?_, fun h => h4 (by omega)⟩
      rcases Nat.eq_or_lt_of_le hj with rfl | hj
      · exact hp
      · exact h3 j hj hlt
    · rw [if_neg hp]
      exact ⟨le_rfl, by omega, fun j h1 h2 => absurd h1 (Nat.not_le.mpr h2), fun _ => by simpa using hp⟩

theorem leading_eq {p : Nat → Bool} {m k : Nat} (hk : k ≤ m) (h : ∀ i, i < m → (p i = true ↔ i < k)) :
    leading p m 0 = k := by
  obtain ⟨-, h2, h3, h4⟩ := leading_spec p m 0
  rcases Nat.lt_trichotomy (leading p m 0) k with hlt | heq | hlt
  · have := (h _ (by omega)).mpr hlt
    rw [h4 (by omega)] at this
    cases this
  · exact heq
  · have := (h k (by omega)).mp (h3 k (Nat.zero_le _) hlt)
    omega

/-- In order, and within bounds. -/
def Ordered (cmp : Option (α → α → Int)) (lowbound : Option α) (l : List α) (highbound : Option α) : Prop :=
  ∀ c, cmp = some c → Sorted c (lowbound.toList ++ l ++ highbound.toList)

/-- What the checks of one node come to, but for its order and its depth. -/
structure Formed (n : Node α) : Prop where
  nelems_pos : 1 ≤ n.nelems
  elem_none : ∀ i, n.nelems ≤ i → i < 3 → n.elem i = none
  kid_null : ∀ i, n.nkids ≤ i → i < 4 → n.kid i = null ∧ n.count i = 0
  arity : n.nkids = 0 ∨ n.nkids = n.nelems + 1
  parents : ∀ i, i < n.nkids → (n.kid i).parent = n.addr

section Node
variable {p h : Nat} {n : Node α} {cmp : Option (α → α → Int)} {level : Int} {lowbound highbound : Option α}
  {ctx : Chkctx}

theorem nelems_le (n : Node α) : n.nelems ≤ 3 := by
  have := (leading_spec (fun i => (n.elem i).isSome) 3 0).2.1
  rw [nelems]
  omega

theorem nkids_le (n : Node α) : n.nkids ≤ 4 := by
  have := (leading_spec (fun i => !(n.kid i).isNull) 4 0).2.1
  rw [nkids]
  omega

theorem elem_isSome_of_lt {i : Nat} (hi : i < n.nelems) : (n.elem i).isSome = true :=
  (leading_spec (fun i => (n.elem i).isSome) 3 0).2.2.1 i (Nat.zero_le i) hi

theorem kid_isNull_of_lt {i : Nat} (hi : i < n.nkids) : (n.kid i).isNull = false := by
  have := (leading_spec (fun i => !(n.kid i).isNull) 4 0).2.2.1 i (Nat.zero_le i) hi
  simpa using this

theorem checkKids_eq_nil_iff :
    n.checkKids = [] ↔ ∀ i, n.nkids ≤ i → i < 4 → n.kid i = null ∧ n.count i = 0 := by
  have hle := nkids_le n
  rw [checkKids, List.flatMap_eq_nil_iff]
  constructor
  · intro h i h1 h2
    have := h i (List.mem_range'_1.mpr ⟨h1, by omega⟩)
    cases hk : (n.kid i).isNull with
    | false => simp [hk] at this
    | true => exact ⟨isNull_iff.mp hk, by simpa [hk] using this⟩
  · intro h i hi
    obtain ⟨h1, h2⟩ := List.mem_range'_1.mp hi
    obtain ⟨hk, hc⟩ := h i h1 (by omega)
    simp [hk, hc]

theorem checkElems_eq_nil_iff : n.checkElems = [] ↔ ∀ i, n.nelems ≤ i → i < 3 → n.elem i = none := by
  have hle := nelems_le n
  rw [checkElems, List.flatMap_eq_nil_iff]
  constructor
  · intro h i h1 h2
    simpa using h i (List.mem_range'_1.mpr ⟨h1, by omega⟩)
  · intro h i hi
    obtain ⟨h1, h2⟩ := List.mem_range'_1.mp hi
    simp [h i h1 (by omega)]

theorem checkOrder_eq_nil_iff : checkOrder cmp n lowbound highbound = [] ↔
    ∀ i, i ≤ n.nelems → Ordered cmp (n.lower lowbound i) [] (n.higher highbound i) := by
  cases cmp with
  | none => exact ⟨fun _ i _ c hc => (by cases hc), fun _ => rfl⟩
  | some c =>
    have hpair : ∀ i, Ordered (some c) (n.lower lowbound i) [] (n.higher highbound i) ↔
        (match n.lower lowbound i, n.higher highbound i with
          | some l, some h => if 0 ≤ c l h then [.comparison n.addr (i - 1) l h] else []
          | _, _ => ([] : List (Report α))) = [] := by
      intro i
      cases n.lower lowbound i <;> cases n.higher highbound i <;> simp [Ordered, Sorted]
    rw [checkOrder, List.flatMap_eq_nil_iff]
    constructor
    · intro h i hi
      exact (hpair i).mpr (h i (List.mem_range.mpr (by omega)))
    · intro h i hi
      exact (hpair i).mp (h i (by have := List.mem_range.mp hi; omega))

theorem checkParents_eq_nil_iff : n.checkParents = [] ↔ ∀ i, i < n.nkids → (n.kid i).parent = n.addr := by
  simp [checkParents, List.flatMap_eq_nil_iff]

theorem checkNode_silent_iff : (checkNode cmp n level lowbound highbound ctx).reports = [] ↔
    Formed n ∧ (n.nkids = 0 → ctx.treedepth < 0 ∨ ctx.treedepth = level) ∧
      ∀ i, i ≤ n.nelems → Ordered cmp (n.lower lowbound i) [] (n.higher highbound i) := by
  have hempty : n.checkEmpty = [] ↔ 1 ≤ n.nelems := by
    rw [checkEmpty]
    split <;> simp <;> omega
  have harity : 1 ≤ n.nelems → (n.checkArity level ctx = [] ↔ (n.nkids = 0 ∨ n.nkids = n.nelems + 1) ∧
      (n.nkids = 0 → ctx.treedepth < 0 ∨ ctx.treedepth = level)) := by
    intro h1
    rw [checkArity]
    dsimp only
    rw [if_pos (by omega : n.nelems ≠ 0)]
    by_cases h0 : n.nkids = 0
    · by_cases hd : ctx.treedepth < 0 <;> simp [h0, hd]
    · simp [h0]
  simp only [checkNode, List.append_eq_nil_iff, checkKids_eq_nil_iff, checkElems_eq_nil_iff, checkOrder_eq_nil_iff,
    checkParents_eq_nil_iff, hempty]
  constructor
  · rintro ⟨⟨⟨⟨⟨h1, h2⟩, h3⟩, h4⟩, h5⟩, h6⟩
    obtain ⟨h3, h7⟩ := (harity h4).mp h3
    exact ⟨⟨h4, h2, h1, h3, h6⟩, h7, h5⟩
  · rintro ⟨⟨h4, h2, h1, h3, h6⟩, h7, h5⟩
    exact ⟨⟨⟨⟨⟨h1, h2⟩, (harity h4).mpr ⟨h3, h7⟩⟩, h4⟩, h5⟩, h6⟩

theorem Good.count_eq (hg : Good p (h + 1) n) (i : Nat) : n.count i = (n.kid i).size := by
  by_cases hi : i ≤ n.numElems
  · exact hg.count hi
  · have hlt := Nat.lt_of_not_le hi
    rw [hg.kid_null hlt, size_null]
    cases hg with
    | two =>
      rw [numElems_two] at hlt
      rcases i with _ | _ | _ | _ | i <;> first | omega | rfl
    | three =>
      rw [numElems_three] at hlt
      rcases i with _ | _ | _ | _ | i <;> first | omega | rfl
    | four =>
      rw [numElems_four] at hlt
      rcases i with _ | _ | _ | _ | i <;> first | omega | rfl

theorem Good.nelems_eq (hg : Good p (h + 1) n) : n.nelems = n.numElems :=
  leading_eq hg.numElems_le fun i _ => hg.elem_isSome i

theorem Good.kid_isNull_iff (hg : Good p (h + 1) n) (i : Nat) :
    (n.kid i).isNull = true ↔ n.numElems < i ∨ h = 0 := by
  by_cases hi : i ≤ n.numElems
  · rw [(hg.kid hi).isNull_iff]
    omega
  · rw [hg.kid_null (Nat.lt_of_not_le hi), isNull_null]
    simp only [true_iff]
    omega

theorem Good.nkids_eq (hg : Good p (h + 1) n) : n.nkids = if h = 0 then 0 else n.numElems + 1 := by
  have hle := hg.numElems_le
  refine leading_eq (by split <;> omega) fun i _ => ?_
  have hnull := hg.kid_isNull_iff i
  have hb : (!(n.kid i).isNull) = true ↔ ¬ (n.kid i).isNull = true := by simp
  rw [hb, hnull]
  split <;> omega

theorem Good.formed (hg : Good p (h + 1) n) : Formed n := by
  have hk := hg.nkids_eq
  have he := hg.nelems_eq
  have hpos := hg.numElems_pos
  refine ⟨by omega, fun i hi _ => ?_, fun i hi _ => ?_, ?_, fun i hi => ?_⟩
  · have := hg.elem_isSome i
    cases hx : n.elem i with
    | none => rfl
    | some x =>
      rw [hx] at this
      have := this.mp rfl
      omega
  · have hnull : n.kid i = Node.null := Node.isNull_iff.mp ((hg.kid_isNull_iff i).mpr (by split at hk <;> omega))
    exact ⟨hnull, by rw [hg.count_eq, hnull, size_null]⟩
  · split at hk <;> omega
  · cases h with
    | zero => simp at hk; omega
    | succ h =>
      rw [if_neg (Nat.succ_ne_zero h)] at hk
      exact (hg.kid (by omega)).parent_eq

/-- A node that the checks pass has one of three forms. -/
theorem Formed.form (hf : Formed n) : ∃ a p k0 k1 k2 k3 c0 c1 c2 c3 x,
    (n = Node.mk a p k0 k1 Node.null Node.null c0 c1 0 0 (some x) none none ∧ n.nelems = 1) ∨
    (∃ y, n = Node.mk a p k0 k1 k2 Node.null c0 c1 c2 0 (some x) (some y) none ∧ n.nelems = 2) ∨
    ∃ y z, n = Node.mk a p k0 k1 k2 k3 c0 c1 c2 c3 (some x) (some y) (some z) ∧ n.nelems = 3 := by
  obtain ⟨hpos, helem, hkid, harity, -⟩ := hf
  have hle := nelems_le n
  have hsome := fun i => elem_isSome_of_lt (n := n) (i := i)
  cases n with
  | null => exact absurd hpos (by simp [nelems, leading, elem])
  | mk a p k0 k1 k2 k3 c0 c1 c2 c3 e0 e1 e2 =>
    generalize hn : Node.mk a p k0 k1 k2 k3 c0 c1 c2 c3 e0 e1 e2 = n at *
    obtain ⟨x, rfl⟩ : ∃ x, e0 = some x := by
      have := hsome 0 (by omega)
      rw [← hn] at this
      exact Option.isSome_iff_exists.mp this
    have h3 : n.nelems ≤ 2 → k3 = Node.null ∧ c3 = 0 ∧ e2 = none := by
      intro h
      have h1 := hkid 3 (by omega) (by omega)
      have h2 := helem 2 (by omega) (by omega)
      rw [← hn] at h1 h2
      exact ⟨h1.1, h1.2, h2⟩
    have h2 : n.nelems ≤ 1 → k2 = Node.null ∧ c2 = 0 ∧ e1 = none := by
      intro h
      have h1 := hkid 2 (by omega) (by omega)
      have h2 := helem 1 (by omega) (by omega)
      rw [← hn] at h1 h2
      exact ⟨h1.1, h1.2, h2⟩
    have hy : 2 ≤ n.nelems → ∃ y, e1 = some y := by
      intro h
      have := hsome 1 (by omega)
      rw [← hn] at this
      exact Option.isSome_iff_exists.mp this
    have hz : 3 ≤ n.nelems → ∃ z, e2 = some z := by
      intro h
      have := hsome 2 (by omega)
      rw [← hn] at this
      exact Option.isSome_iff_exists.mp this
    refine ⟨a, p, k0, k1, k2, k3, c0, c1, c2, c3, x, ?_⟩
    obtain h1 | h1 | h1 : n.nelems = 1 ∨ n.nelems = 2 ∨ n.nelems = 3 := by omega
    · obtain ⟨rfl, rfl, rfl⟩ := h2 (by omega)
      obtain ⟨rfl, rfl, rfl⟩ := h3 (by omega)
      exact .inl ⟨hn.symm, h1⟩
    · obtain ⟨rfl, rfl, rfl⟩ := h3 (by omega)
      obtain ⟨y, rfl⟩ := hy (by omega)
      exact .inr (.inl ⟨y, hn.symm, h1⟩)
    · obtain ⟨y, rfl⟩ := hy (by omega)
      obtain ⟨z, rfl⟩ := hz (by omega)
      exact .inr (.inr ⟨y, z, hn.symm, h1⟩)

theorem Formed.good (hf : Formed n) (ha : n.addr ≠ 0) (hk : ∀ i, i ≤ n.nelems → Good n.addr h (n.kid i))
    (hc : ∀ i, i ≤ n.nelems → n.count i = (n.kid i).size) : Good n.parent (h + 1) n := by
  obtain ⟨a, p, k0, k1, k2, k3, c0, c1, c2, c3, x, h1 | ⟨y, h1⟩ | ⟨y, z, h1⟩⟩ := hf.form
  · obtain ⟨hn, h1⟩ := h1
    rw [h1] at hk hc
    subst hn
    obtain rfl : c0 = k0.size := hc 0 (by omega)
    obtain rfl : c1 = k1.size := hc 1 (by omega)
    exact .two ha (hk 0 (by omega)) (hk 1 (by omega))
  · obtain ⟨hn, h1⟩ := h1
    rw [h1] at hk hc
    subst hn
    obtain rfl : c0 = k0.size := hc 0 (by omega)
    obtain rfl : c1 = k1.size := hc 1 (by omega)
    obtain rfl : c2 = k2.size := hc 2 (by omega)
    exact .three ha (hk 0 (by omega)) (hk 1 (by omega)) (hk 2 (by omega))
  · obtain ⟨hn, h1⟩ := h1
    rw [h1] at hk hc
    subst hn
    obtain rfl : c0 = k0.size := hc 0 (by omega)
    obtain rfl : c1 = k1.size := hc 1 (by omega)
    obtain rfl : c2 = k2.size := hc 2 (by omega)
    obtain rfl : c3 = k3.size := hc 3 (by omega)
    exact .four ha (hk 0 (by omega)) (hk 1 (by omega)) (hk 2 (by omega)) (hk 3 (by omega))

/-- The elements, kid by kid. -/
theorem Formed.size_eq (hf : Formed n) :
    n.size = n.nelems + (n.kid 0).size + (n.kid 1).size + (n.kid 2).size + (n.kid 3).size := by
  obtain ⟨a, p, k0, k1, k2, k3, c0, c1, c2, c3, x, h1 | ⟨y, h1⟩ | ⟨y, z, h1⟩⟩ := hf.form <;>
  · obtain ⟨hn, h1⟩ := h1
    rw [h1]
    subst hn
    simp [size, toList, kid]
    omega

variable (hlaw : ∀ c, cmp = some c → Lawful c)
include hlaw

theorem ordered_append_cons_iff {l r : List α} {x : α} : Ordered cmp lowbound (l ++ x :: r) highbound ↔
    Ordered cmp lowbound l (some x) ∧ Ordered cmp (some x) r highbound := by
  have h : ∀ c, cmp = some c → (Sorted c (lowbound.toList ++ (l ++ x :: r) ++ highbound.toList) ↔
      Sorted c (lowbound.toList ++ l ++ [x]) ∧ Sorted c ([x] ++ r ++ highbound.toList)) := by
    intro c hc
    have := sorted_append_cons_iff (hlaw c hc) (l := lowbound.toList ++ l) (r := r ++ highbound.toList) (x := x)
    simpa using this
  constructor
  · intro ho
    exact ⟨fun c hc => ((h c hc).mp (ho c hc)).1, fun c hc => ((h c hc).mp (ho c hc)).2⟩
  · intro ho c hc
    exact (h c hc).mpr ⟨ho.1 c hc, ho.2 c hc⟩

/-- A node is in order if each of its kids is between its bounds. -/
theorem Formed.ordered_iff (hf : Formed n) : Ordered cmp lowbound n.toList highbound ↔
    ∀ i, i ≤ n.nelems → Ordered cmp (n.lower lowbound i) (n.kid i).toList (n.higher highbound i) := by
  have hall : ∀ {P : Nat → Prop} {k : Nat}, (∀ i, i ≤ k + 1 → P i) ↔ (∀ i, i ≤ k → P i) ∧ P (k + 1) := by
    intro P k
    constructor
    · intro h
      exact ⟨fun i hi => h i (by omega), h (k + 1) le_rfl⟩
    · rintro ⟨h1, h2⟩ i hi
      rcases Nat.eq_or_lt_of_le hi with rfl | hi
      · exact h2
      · exact h1 i (by omega)
  obtain ⟨a, p, k0, k1, k2, k3, c0, c1, c2, c3, x, h1 | ⟨y, h1⟩ | ⟨y, z, h1⟩⟩ := hf.form
  · obtain ⟨hn, h1⟩ := h1
    simp only [h1, hall, Nat.le_zero, forall_eq, higher, lower]
    subst hn
    have hl : (Node.mk a p k0 k1 Node.null Node.null c0 c1 0 0 (some x) none none).toList =
        k0.toList ++ x :: k1.toList := by
      simp [toList]
    rw [hl, ordered_append_cons_iff hlaw]
    simp [kid, elem]
  · obtain ⟨hn, h1⟩ := h1
    simp only [h1, hall, Nat.le_zero, forall_eq, higher, lower]
    subst hn
    have hl : (Node.mk a p k0 k1 k2 Node.null c0 c1 c2 0 (some x) (some y) none).toList =
        k0.toList ++ x :: (k1.toList ++ y :: k2.toList) := by
      simp [toList]
    rw [hl, ordered_append_cons_iff hlaw, ordered_append_cons_iff hlaw]
    simp [kid, elem, and_assoc]
  · obtain ⟨hn, h1⟩ := h1
    simp only [h1, hall, Nat.le_zero, forall_eq, higher, lower]
    subst hn
    have hl : (Node.mk a p k0 k1 k2 k3 c0 c1 c2 c3 (some x) (some y) (some z)).toList =
        k0.toList ++ x :: (k1.toList ++ y :: (k2.toList ++ z :: k3.toList)) := by
      simp [toList]
    rw [hl, ordered_append_cons_iff hlaw, ordered_append_cons_iff hlaw, ordered_append_cons_iff hlaw]
    simp [kid, elem, and_assoc]

end Node

/-! ## Subtrees -/

/-- What holds of NULL, and of a node if it holds of its kids. -/
theorem kidInduction {P : Node α → Prop} (hnull : P null)
    (hnode : ∀ n : Node α, n.isNull = false → (∀ i, P (n.kid i)) → P n) (n : Node α) : P n := by
  induction n with
  | null => exact hnull
  | mk a p k0 k1 k2 k3 c0 c1 c2 c3 e0 e1 e2 h0 h1 h2 h3 =>
    refine hnode _ rfl fun i => ?_
    rcases i with _ | _ | _ | _ | i
    exacts [h0, h1, h2, h3, hnull]

theorem cells_kid {n : Node α} (hn : n.isNull = false) (hq : n.cells 0 = 0) :
    n.addr ≠ 0 ∧ ∀ i, (n.kid i).cells 0 = 0 := by
  cases n with
  | null => cases hn
  | mk a p k0 k1 k2 k3 c0 c1 c2 c3 e0 e1 e2 =>
    simp only [cells, Nat.add_eq_zero_iff] at hq
    obtain ⟨⟨⟨⟨ha, h0⟩, h1⟩, h2⟩, h3⟩ := hq
    refine ⟨fun e => by simp [addr] at e; simp [e] at ha, fun i => ?_⟩
    rcases i with _ | _ | _ | _ | i
    exacts [h0, h1, h2, h3, rfl]

section Subtree
variable {cmp : Option (α → α → Int)} {level : Int} {lowbound highbound : Option α} {ctx : Chkctx} {n : Node α}

/-- A turn that has printed nothing. -/
theorem checkKid_silent {i : Nat} (hi : i < n.nkids) {f : Option α → Option α → Chkctx → Checked α} {r : Checked α}
    (hs : (n.checkKid lowbound highbound i f r).reports = []) :
    r.reports = [] ∧ (f (n.lower lowbound i) (n.higher highbound i) r.ctx).reports = [] ∧
      n.count i = (f (n.lower lowbound i) (n.higher highbound i) r.ctx).count ∧
      (n.checkKid lowbound highbound i f r).ctx = (f (n.lower lowbound i) (n.higher highbound i) r.ctx).ctx := by
  rw [checkKid, if_pos hi] at hs ⊢
  obtain ⟨h1, h3⟩ := List.append_eq_nil_iff.mp hs
  obtain ⟨h1, h2⟩ := List.append_eq_nil_iff.mp h1
  refine ⟨h1, h2, ?_, rfl⟩
  by_contra hne
  rw [if_pos hne] at h3
  cases h3

theorem checkKid_done {i : Nat} (hi : n.nkids ≤ i) (f : Option α → Option α → Chkctx → Checked α) (r : Checked α) :
    n.checkKid lowbound highbound i f r = r := if_neg (Nat.not_lt.mpr hi)

/-- Where nothing is printed, nothing was printed on the way. -/
theorem turns_silent (hs : (turns cmp n level lowbound highbound ctx 4).reports = []) {i : Nat} (hi : i ≤ 4) :
    (turns cmp n level lowbound highbound ctx i).reports = [] := by
  induction hi using Nat.decreasingInduction with
  | self => exact hs
  | of_succ i _ ih =>
    rw [turns] at ih
    by_cases hlt : i < n.nkids
    · exact (checkKid_silent hlt ih).1
    · rwa [checkKid_done (by omega)] at ih

variable (hlaw : ∀ c, cmp = some c → Lawful c)
include hlaw

/-- A subtree as it should be passes. -/
theorem chknode_good {p h : Nat} (hg : Good p (h + 1) n) (ho : Ordered cmp lowbound n.toList highbound) (hl : 0 ≤ level)
    (hd : ctx.treedepth < 0 ∨ ctx.treedepth = level + h) :
    chknode cmp n level lowbound highbound ctx = ⟨[], n.size, ⟨level + h, ctx.elemcount + n.size⟩⟩ := by
  induction h generalizing p n level lowbound highbound ctx with
  | zero =>
    have hf := hg.formed
    have hk : n.nkids = 0 := hg.nkids_eq
    have hn : n.isNull = false := by cases hg <;> rfl
    have hsize := hf.size_eq
    have hnull : ∀ i, i < 4 → (n.kid i).size = 0 := fun i hi => by rw [(hf.kid_null i (by omega) hi).1, size_null]
    have hsilent : (checkNode cmp n level lowbound highbound ctx).reports = [] := by
      refine checkNode_silent_iff.mpr ⟨hf, fun _ => by simpa using hd, fun i hi => ?_⟩
      have := (hf.ordered_iff hlaw).mp ho i hi
      rwa [(hf.kid_null i (by omega) (by have := nelems_le n; omega)).1, toList_null] at this
    rw [chknode_eq cmp hn, turns, turns, turns, turns, turns, checkKid_done (by omega), checkKid_done (by omega),
      checkKid_done (by omega), checkKid_done (by omega)]
    have hcount : (n.nelems : Int) = n.size := by
      rw [hsize, hnull 0 (by omega), hnull 1 (by omega), hnull 2 (by omega), hnull 3 (by omega)]
      omega
    have hdepth : (if n.nkids = 0 ∧ ctx.treedepth < 0 then level else ctx.treedepth) = level := by
      split <;> omega
    simp only [checkNode] at hsilent ⊢
    rw [hsilent, hcount, hdepth]
    simp
  | succ h ih =>
    have hf := hg.formed
    have hk : n.nkids = n.nelems + 1 := by rw [hg.nelems_eq]; exact hg.nkids_eq
    have he := hg.nelems_eq
    have hn : n.isNull = false := by cases hg <;> rfl
    have hle := nelems_le n
    have hpos := hf.nelems_pos
    have hsize := hf.size_eq
    have hparts := (hf.ordered_iff hlaw).mp ho
    have hsilent : (checkNode cmp n level lowbound highbound ctx).reports = [] := by
      refine checkNode_silent_iff.mpr ⟨hf, fun h0 => by omega, fun i hi c hc => ?_⟩
      refine (hparts i hi c hc).sublist ?_
      simp
    -- each kid in its turn
    have hturn : ∀ i, i ≤ n.nelems → ∀ r : Checked α, r.reports = [] →
        (r.ctx.treedepth < 0 ∨ r.ctx.treedepth = level + (h + 1)) →
        n.checkKid lowbound highbound i (chknode cmp (n.kid i) (level + 1)) r =
          ⟨[], r.count + (n.kid i).size, ⟨level + (h + 1), r.ctx.elemcount + (n.kid i).size⟩⟩ := by
      intro i hi r hr hrd
      rw [checkKid, if_pos (by omega)]
      have hdepth : r.ctx.treedepth < 0 ∨ r.ctx.treedepth = level + 1 + h := by omega
      have hkid := ih (hg.kid (by omega)) (hparts i hi) (by omega : 0 ≤ level + 1) hdepth
      dsimp only
      rw [hkid, hr, if_neg (not_not_intro (hg.count_eq i))]
      simp only [List.append_nil, Checked.mk.injEq, Chkctx.mk.injEq, and_true, true_and]
      omega
    have hnull : ∀ i, n.nelems < i → i < 4 → (n.kid i).size = 0 := fun i h1 h2 => by
      rw [(hf.kid_null i (by omega) h2).1, size_null]
    have hstart : (checkNode cmp n level lowbound highbound ctx).ctx =
        ⟨ctx.treedepth, ctx.elemcount + n.nelems⟩ := by
      simp [checkNode, hk]
    rw [chknode_eq cmp hn, turns, turns, turns, turns, turns,
      hturn 0 (by omega) _ hsilent (by rw [hstart]; exact_mod_cast hd),
      hturn 1 (by omega) _ rfl (.inr rfl), hstart]
    obtain h1 | h1 | h1 : n.nelems = 1 ∨ n.nelems = 2 ∨ n.nelems = 3 := by omega
    · rw [checkKid_done (by omega), checkKid_done (by omega)]
      have h2 := hnull 2 (by omega) (by omega)
      have h3 := hnull 3 (by omega) (by omega)
      simp only [checkNode, Checked.mk.injEq, Chkctx.mk.injEq, true_and]
      push_cast
      omega
    · rw [checkKid_done (i := 3) (by omega), hturn 2 (by omega) _ rfl (.inr rfl)]
      have h3 := hnull 3 (by omega) (by omega)
      simp only [checkNode, Checked.mk.injEq, Chkctx.mk.injEq, true_and]
      push_cast
      omega
    · rw [hturn 2 (by omega) _ rfl (.inr rfl), hturn 3 (by omega) _ rfl (.inr rfl)]
      simp only [checkNode, Checked.mk.injEq, Chkctx.mk.injEq, true_and]
      push_cast
      omega

/-- What passes of the kids, if the subtrees that pass are as they should be. -/
theorem kids_good (hl : 0 ≤ level) (hs : (turns cmp n level lowbound highbound ctx 4).reports = [])
    (ih : ∀ i, i < n.nkids → ∀ {lowbound highbound : Option α} {ctx : Chkctx},
      (chknode cmp (n.kid i) (level + 1) lowbound highbound ctx).reports = [] →
      ∃ h : Nat, Good (n.kid i).parent (h + 1) (n.kid i) ∧ (ctx.treedepth < 0 ∨ ctx.treedepth = level + 1 + h) ∧
        Ordered cmp lowbound (n.kid i).toList highbound) (h0 : 0 < n.nkids) :
    ∃ h : Nat, (ctx.treedepth < 0 ∨ ctx.treedepth = level + 1 + h) ∧ ∀ i, i < n.nkids →
      Good (n.kid i).parent (h + 1) (n.kid i) ∧ n.count i = (n.kid i).size ∧
        Ordered cmp (n.lower lowbound i) (n.kid i).toList (n.higher highbound i) := by
  have hle := nkids_le n
  have hturn : ∀ i, i < n.nkids → ∃ h : Nat, Good (n.kid i).parent (h + 1) (n.kid i) ∧
      n.count i = (n.kid i).size ∧ Ordered cmp (n.lower lowbound i) (n.kid i).toList (n.higher highbound i) ∧
      ((turns cmp n level lowbound highbound ctx i).ctx.treedepth < 0 ∨
        (turns cmp n level lowbound highbound ctx i).ctx.treedepth = level + 1 + h) ∧
      (turns cmp n level lowbound highbound ctx (i + 1)).ctx.treedepth = level + 1 + h := by
    intro i hi
    obtain ⟨-, h2, h3, h4⟩ := checkKid_silent hi (turns_silent hs (by omega : i + 1 ≤ 4))
    obtain ⟨h, hg, hd, ho⟩ := ih i hi h2
    rw [chknode_good hlaw hg ho (by omega) hd] at h3 h4
    exact ⟨h, hg, h3, ho, hd, by rw [turns, h4]⟩
  obtain ⟨h, -, -, -, hd, hd'⟩ := hturn 0 h0
  have hdepth : ∀ i, i < n.nkids →
      (turns cmp n level lowbound highbound ctx (i + 1)).ctx.treedepth = level + 1 + h := by
    intro i hi
    induction i with
    | zero => exact hd'
    | succ i ihi =>
      obtain ⟨h', -, -, -, h1, h2⟩ := hturn (i + 1) hi
      have := ihi (by omega)
      omega
  have hstart : (turns cmp n level lowbound highbound ctx 0).ctx.treedepth = ctx.treedepth := by
    rw [turns, checkNode]
    exact if_neg (by omega)
  refine ⟨h, by omega, fun i hi => ?_⟩
  obtain ⟨h', hg, hc, ho, -, h2⟩ := hturn i hi
  have := hdepth i hi
  obtain rfl : h' = h := by omega
  exact ⟨hg, hc, ho⟩

/-- A subtree that passes is as it should be. -/
theorem good_of_chknode (hq : n.cells 0 = 0) (hn : n.isNull = false) (hl : 0 ≤ level)
    (hs : (chknode cmp n level lowbound highbound ctx).reports = []) :
    ∃ h : Nat, Good n.parent (h + 1) n ∧ (ctx.treedepth < 0 ∨ ctx.treedepth = level + h) ∧
      Ordered cmp lowbound n.toList highbound := by
  induction n using kidInduction generalizing level lowbound highbound ctx with
  | hnull => cases hn
  | hnode n _ ih =>
    obtain ⟨ha, hcells⟩ := cells_kid hn hq
    rw [chknode_eq cmp hn] at hs
    obtain ⟨hf, hdepth, horder⟩ := checkNode_silent_iff.mp (turns_silent hs (by omega : 0 ≤ 4))
    have hle := nelems_le n
    rcases hf.arity with hk | hk
    · -- a leaf
      have hnull : ∀ i, i ≤ n.nelems → n.kid i = null ∧ n.count i = 0 := fun i hi => hf.kid_null i (by omega) (by omega)
      refine ⟨0, hf.good ha (fun i hi => ?_) fun i hi => ?_, by simpa using hdepth hk,
        (hf.ordered_iff hlaw).mpr fun i hi => ?_⟩
      · rw [(hnull i hi).1]
        exact .null
      · rw [(hnull i hi).1, (hnull i hi).2, size_null]
      · rw [(hnull i hi).1]
        exact horder i hi
    · obtain ⟨h, hd, hkids⟩ := kids_good hlaw hl hs
        (fun i hi _ _ _ hs' => ih i (hcells i) (kid_isNull_of_lt hi) (by omega) hs') (by omega)
      refine ⟨h + 1, hf.good ha (fun i hi => ?_) fun i hi => (hkids i (by omega)).2.1, by push_cast; omega,
        (hf.ordered_iff hlaw).mpr fun i hi => (hkids i (by omega)).2.2⟩
      rw [← hf.parents i (by omega)]
      exact (hkids i (by omega)).1

end Subtree

/-! ## `verify` -/

theorem lt_count_of_index {t : Tree α} {i : Int} {x : α} (hx : t.index i = some x) : i < t.count := by
  unfold Tree.index at hx
  unfold Tree.count
  cases hr : t.root.isNull with
  | true => simp [hr] at hx
  | false =>
    by_contra hn
    rw [if_neg (by simp [hr]), if_pos (by simp at hn; omega)] at hx
    cases hx

/-- From a depth that is not known, and no elements seen. -/
def checkRoot (tree : Tree α) (cmp : Option (α → α → Int)) : Checked α :=
  if tree.root.isNull then ⟨[], 0, ⟨-1, 0⟩⟩ else chknode cmp tree.root 0 none none ⟨-1, 0⟩

section Root
variable {t : Tree α} {cmp : Option (α → α → Int)} (hlaw : ∀ c, cmp = some c → Lawful c)
include hlaw

/-- The walk over the nodes. -/
theorem checkRoot_silent_iff (hq : t.root.cells 0 = 0) :
    t.root.parent = 0 ∧ (checkRoot t cmp).reports = [] ↔
      (∃ h, Good 0 h t.root) ∧ ∀ c, cmp = some c → Sorted c t.root.toList := by
  have hordered : Ordered cmp none t.root.toList none ↔ ∀ c, cmp = some c → Sorted c t.root.toList := by
    simp [Ordered]
  rw [← hordered, checkRoot]
  cases hn : t.root.isNull with
  | true =>
    rw [if_pos rfl, Node.isNull_iff.mp hn]
    exact ⟨fun _ => ⟨⟨0, .null⟩, fun c _ => List.Pairwise.nil⟩, fun _ => ⟨rfl, rfl⟩⟩
  | false =>
    rw [if_neg Bool.false_ne_true]
    constructor
    · rintro ⟨hp, hs⟩
      obtain ⟨h, hg, -, ho⟩ := good_of_chknode hlaw hq hn le_rfl hs
      rw [hp] at hg
      exact ⟨⟨h + 1, hg⟩, ho⟩
    · rintro ⟨⟨h, hg⟩, ho⟩
      have hne : ¬ h = 0 := by
        rw [← hg.isNull_iff, hn]
        exact Bool.false_ne_true
      obtain ⟨h, rfl⟩ := Nat.exists_eq_succ_of_ne_zero hne
      exact ⟨hg.parent_eq, by rw [chknode_good hlaw hg ho le_rfl (.inl (by decide))]⟩

theorem checkRoot_elemcount {h : Nat} (hg : Good 0 h t.root) (hs : ∀ c, cmp = some c → Sorted c t.root.toList) :
    (checkRoot t cmp).ctx.elemcount = t.root.toList.length := by
  rw [checkRoot]
  cases hg' : t.root.isNull with
  | true =>
    rw [Node.isNull_iff.mp hg']
    rfl
  | false =>
    have hne : ¬ h = 0 := by
      rw [← hg.isNull_iff, hg']
      exact Bool.false_ne_true
    obtain ⟨h, rfl⟩ := Nat.exists_eq_succ_of_ne_zero hne
    rw [if_neg Bool.false_ne_true, chknode_good hlaw hg (by simpa [Ordered] using hs) le_rfl (.inl (by decide))]
    simp [size]

end Root

section Verify
variable [DecidableEq α]

/-- The loop over the indices: what it prints, and the index it ends at. -/
def enumerate (t : Tree α) (array : Nat → Option α) (arraylen i : Nat) : List (Report α) × Nat :=
  match hp : t.index i with
  | none => ([], i)
  | some p =>
    let r := enumerate t array arraylen (i + 1)
    ((if arraylen ≤ i then [.moreElements arraylen] else []) ++
      (if array i ≠ some p then [.position i (array i) p] else []) ++ r.1, r.2)
termination_by (t.count - i).toNat
decreasing_by
  have := lt_count_of_index hp
  omega

def verify (tree : Tree α) (cmp : Option (α → α → Int)) (array : Nat → Option α) (arraylen : Nat) : List (Report α) :=
  let r := checkRoot tree cmp
  let e := enumerate tree array arraylen 0
  (if tree.root.parent ≠ 0 then [.rootParent tree.root.parent] else []) ++ r.reports ++ e.1 ++
    (if r.ctx.elemcount ≠ e.2 then [.enumeration r.ctx.elemcount e.2] else []) ++
    (if e.2 < arraylen then [.fewerElements e.2 arraylen] else []) ++
    (if r.ctx.elemcount ≠ tree.count then [.counted r.ctx.elemcount tree.count] else [])

/-- The array has these elements. -/
def Shows (array : Nat → Option α) (arraylen : Nat) (l : List α) : Prop :=
  l.length = arraylen ∧ ∀ i, i < arraylen → array i = l[i]?

variable {t : Tree α} {l : List α} {array : Nat → Option α} {arraylen : Nat}

/-- Where the indices have the elements of a list. -/
theorem enumerate_spec (hl : ∀ i : Nat, t.index i = l[i]?) {i : Nat} (hi : i ≤ l.length) :
    (enumerate t array arraylen i).2 = l.length ∧
      ((enumerate t array arraylen i).1 = [] ↔ ∀ j, i ≤ j → j < l.length → j < arraylen ∧ array j = l[j]?) := by
  induction hi using Nat.decreasingInduction with
  | self =>
    have hnone : t.index l.length = none := by rw [hl, List.getElem?_eq_none le_rfl]
    rw [enumerate]
    split
    · exact ⟨rfl, fun _ j h1 h2 => absurd h1 (Nat.not_le.mpr h2), fun _ => rfl⟩
    · rename_i hp
      rw [hnone] at hp
      cases hp
  | of_succ i hi ih =>
    obtain ⟨ih1, ih2⟩ := ih
    have hsome : t.index i = some l[i] := by rw [hl, List.getElem?_eq_getElem hi]
    rw [enumerate]
    split
    · rename_i hp
      rw [hsome] at hp
      cases hp
    · rename_i p hp
      rw [hsome] at hp
      cases hp
      refine ⟨ih1, ?_⟩
      simp only [List.append_eq_nil_iff, ih2, ite_eq_right_iff, List.cons_ne_nil, imp_false, not_not, Nat.not_le]
      constructor
      · rintro ⟨⟨h1, h2⟩, h3⟩ j hj hlt
        rcases Nat.eq_or_lt_of_le hj with rfl | hj
        · exact ⟨h1, by rw [h2, List.getElem?_eq_getElem hi]⟩
        · exact h3 j hj hlt
      · intro h
        obtain ⟨h1, h2⟩ := h i le_rfl hi
        exact ⟨⟨h1, by rw [h2, List.getElem?_eq_getElem hi]⟩, fun j hj hlt => h j (by omega) hlt⟩

/-- So of a well-formed tree. -/
theorem Good.enumerate234 {h : Nat} (hg : Good 0 h t.root) (array : Nat → Option α) (arraylen : Nat) :
    (enumerate t array arraylen 0).2 = t.root.toList.length ∧ ((enumerate t array arraylen 0).1 = [] ↔
      ∀ j, 0 ≤ j → j < t.root.toList.length → j < arraylen ∧ array j = t.root.toList[j]?) :=
  enumerate_spec (fun i => by simpa using hg.index234 i) (Nat.zero_le _)

variable {cmp : Option (α → α → Int)} (hlaw : ∀ c, cmp = some c → Lawful c)
include hlaw

theorem verify_eq_nil_iff (hq : t.root.cells 0 = 0) : verify t cmp array arraylen = [] ↔
    (∃ h, Good 0 h t.root) ∧ (∀ c, cmp = some c → Sorted c t.root.toList) ∧ Shows array arraylen t.root.toList := by
  have hroot := checkRoot_silent_iff hlaw hq
  have hparent : (if t.root.parent ≠ 0 then [Report.rootParent t.root.parent] else ([] : List (Report α))) = [] ↔
      t.root.parent = 0 := by
    simp
  simp only [verify, List.append_eq_nil_iff, hparent, and_assoc]
  rw [← and_assoc, hroot, and_assoc]
  constructor
  · rintro ⟨⟨h, hg⟩, hs, henum, -, hfewer, -⟩
    obtain ⟨hend, hlist⟩ := hg.enumerate234 array arraylen
    have hall := hlist.mp henum
    have hlen : t.root.toList.length ≤ arraylen := by
      by_contra hn
      exact absurd (hall arraylen (Nat.zero_le _) (by omega)).1 (Nat.lt_irrefl _)
    have hge : arraylen ≤ t.root.toList.length := by
      rw [hend] at hfewer
      by_contra hn
      simp [show t.root.toList.length < arraylen by omega] at hfewer
    exact ⟨⟨h, hg⟩, hs, by omega, fun i hi => (hall i (Nat.zero_le _) (by omega)).2⟩
  · rintro ⟨⟨h, hg⟩, hs, hlen, hall⟩
    obtain ⟨hend, hlist⟩ := hg.enumerate234 array arraylen
    have hcount := checkRoot_elemcount hlaw hg hs
    refine ⟨⟨h, hg⟩, hs, hlist.mpr fun j _ hj => ⟨by omega, hall j (by omega)⟩, ?_, ?_, ?_⟩
    · rw [hend, hcount]
      simp
    · rw [hend]
      simp [hlen]
    · rw [hg.count234, hcount]
      simp

/-- `verify` prints nothing exactly if the tree is as it should be, with the elements of
    the array. -/
theorem verify_silent_iff (hq : t.root.cells 0 = 0) (hl : t.root.toList.length < 2 ^ 31) :
    verify t cmp array arraylen = [] ↔ (∃ h, Good 0 h t.root) ∧ t.root.Ints ∧
      (∀ c, cmp = some c → Sorted c t.root.toList) ∧ Shows array arraylen t.root.toList := by
  rw [verify_eq_nil_iff hlaw hq]
  constructor
  · rintro ⟨⟨h, hg⟩, hs, hshows⟩
    exact ⟨⟨h, hg⟩, hg.ints hl, hs, hshows⟩
  · rintro ⟨hg, -, hs, hshows⟩
    exact ⟨hg, hs, hshows⟩

end Verify

/-- Three numbers in two levels. -/
def threeInts : Node Int := two 1 0 (two 2 1 null 10 null) 20 (two 3 1 null 30 null)

theorem verify_silent_iff_three :
    verify ⟨some fun a b => a - b, threeInts, ⟨4, []⟩⟩ (some fun a b => a - b) (fun i => some (10 * (i + 1) : Int)) 3 =
      [] := by
  have hgood : Good 0 2 threeInts := .two (by decide) (.two (by decide) .null .null) (.two (by decide) .null .null)
  refine (verify_silent_iff (by rintro _ ⟨⟩; exact lawful_sub) (by decide) (by decide)).mpr
    ⟨⟨2, hgood⟩, hgood.ints (by decide), ?_, rfl, ?_⟩
  · rintro _ ⟨⟩
    unfold Sorted
    decide
  · intro i hi
    interval_cases i <;> rfl

/-! ## Distinct nodes -/

namespace Node

/-- The nodes from left to right, each once for every place it is linked from. -/
def nodes : Node α → List (Node α)
  | null => []
  | mk a p k0 k1 k2 k3 c0 c1 c2 c3 e0 e1 e2 =>
    k0.nodes ++ mk a p k0 k1 k2 k3 c0 c1 c2 c3 e0 e1 e2 :: (k1.nodes ++ (k2.nodes ++ k3.nodes))

/-- What is at an address is one node. -/
def OneAt (n : Node α) : Prop := ∀ x ∈ n.nodes, ∀ y ∈ n.nodes, x.addr = y.addr → x = y

theorem cells_eq_count (n : Node α) (a : Nat) : n.cells a = (n.nodes.map addr).count a := by
  induction n with
  | null => rfl
  | mk b p k0 k1 k2 k3 c0 c1 c2 c3 e0 e1 e2 h0 h1 h2 h3 =>
    simp only [cells, nodes, List.map_append, List.map_cons, List.count_append, List.count_cons, h0, h1, h2, h3,
      addr, beq_iff_eq]
    omega

/-- The first elements of the nodes stand in the order of the tree. -/
theorem firsts_sublist (n : Node α) : (n.nodes.filterMap fun x => x.elem 0).Sublist n.toList := by
  induction n with
  | null => exact .slnil
  | mk a p k0 k1 k2 k3 c0 c1 c2 c3 e0 e1 e2 h0 h1 h2 h3 =>
    have hrest := (h1.trans (List.sublist_append_left _ e1.toList)).append
      ((h2.trans (List.sublist_append_left _ e2.toList)).append h3)
    cases e0 with
    | none => simpa [nodes, toList, elem] using h0.append hrest
    | some e => simpa [nodes, toList, elem] using h0.append (hrest.cons_cons e)

end Node

theorem Good.nodes_elem {p h : Nat} {n : Node α} (hg : Good p h n) : ∀ x ∈ n.nodes, (x.elem 0).isSome := by
  induction hg with
  | null => simp [nodes]
  | two _ _ _ h1 h2 =>
    intro x hx
    simp only [Node.two, nodes, List.append_nil, List.mem_append, List.mem_cons] at hx
    rcases hx with hx | rfl | hx
    · exact h1 x hx
    · rfl
    · exact h2 x hx
  | three _ _ _ _ h1 h2 h3 =>
    intro x hx
    simp only [Node.three, nodes, List.append_nil, List.mem_append, List.mem_cons] at hx
    rcases hx with hx | rfl | hx | hx
    · exact h1 x hx
    · rfl
    · exact h2 x hx
    · exact h3 x hx
  | four _ _ _ _ _ h1 h2 h3 h4 =>
    intro x hx
    simp only [Node.four, nodes, List.mem_append, List.mem_cons] at hx
    rcases hx with hx | rfl | hx | hx | hx
    · exact h1 x hx
    · rfl
    · exact h2 x hx
    · exact h3 x hx
    · exact h4 x hx

/-- In a sorted tree no node is linked twice: its elements would come twice. -/
theorem Good.distinct {p h : Nat} {n : Node α} (hg : Good p h n) {c : α → α → Int} (hc : Lawful c)
    (hs : Sorted c n.toList) (hone : n.OneAt) (a : Nat) : n.cells a ≤ 1 := by
  have hfirsts : n.nodes.Pairwise fun x y => ∀ e, x.elem 0 = some e → ∀ e', y.elem 0 = some e' → c e e' < 0 :=
    List.pairwise_filterMap.mp (hs.sublist n.firsts_sublist)
  have hdistinct : (n.nodes.map addr).Nodup := by
    refine List.pairwise_map.mpr (hfirsts.imp_of_mem fun {x y} hx hy hxy haddr => ?_)
    obtain rfl := hone x hx y hy haddr
    obtain ⟨e, he⟩ := Option.isSome_iff_exists.mp (hg.nodes_elem x hx)
    exact absurd (hxy e he e he) (hc.refl e).not_lt
  rw [cells_eq_count]
  exact List.nodup_iff_count_le_one.mp hdistinct a

/-- So where there is a comparison a silent `verify` says it of every node. -/
theorem distinct_of_verify [DecidableEq α] {t : Tree α} {c : α → α → Int} {array : Nat → Option α} {arraylen : Nat}
    (hc : Lawful c) (hq : t.root.cells 0 = 0) (hone : t.root.OneAt) (hv : verify t (some c) array arraylen = [])
    (a : Nat) : t.root.cells a ≤ 1 := by
  obtain ⟨⟨h, hg⟩, hs, -⟩ := (verify_eq_nil_iff (fun c' h => by cases h; exact hc) hq).mp hv
  exact hg.distinct hc (hs c rfl) hone a

/-- A root whose two kids are one node. -/
def linkedTwice : Node Int := two 1 0 (two 2 1 null 10 null) 20 (two 2 1 null 10 null)

example : verify ⟨none, linkedTwice, ⟨3, []⟩⟩ none (fun i => [10, 20, 10][i]?) 3 = [] ∧ linkedTwice.cells 2 = 2 := by
  have hgood : Good 0 2 linkedTwice := .two (by decide) (.two (by decide) .null .null) (.two (by decide) .null .null)
  refine ⟨(verify_eq_nil_iff (fun c h => by cases h) (by decide)).mpr
    ⟨⟨2, hgood⟩, (fun c h => by cases h), rfl, ?_⟩, rfl⟩
  intro i hi
  interval_cases i <;> rfl

end Dumbnose.Tree234
