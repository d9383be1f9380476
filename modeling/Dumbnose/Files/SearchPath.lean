/-
  Dumbnose.Files.SearchPath — what a search of a directory finds of what is below it.

  `search_path` does not call itself on the directories it finds, only `find_files`: it
  reaches the entries of the directory and those of its subdirectories, and none deeper.
  And it takes `.` and `..` for subdirectories. So in every directory but the root of the
  volume it lists the directory a second time, and the one above it; and for `*.*` each
  listing has the two in it. `covers_iff`: what must not be there for that to do no harm
  (`Coverable`).
-/

import Mathlib.Tactic.Common
import Dumbnose.Files.FileHelper

namespace Dumbnose.Files

open Strings

variable {D : Disk}

/-- Where the path of a result leads. -/
def located (r : Path × FindData) : Location := resolve r.1

/-- Every entry below the directory whose name fits is found once, and nothing outside it. -/
structure Covers (S : System D) (root : Path) (searchPattern : WString) : Prop where
  once : ∀ e ∈ D.entries, resolve root <+: e.dir → S.fits searchPattern e.name = true →
    ((searchPath S root searchPattern).map located).count e.loc = 1
  within : ∀ r ∈ searchPath S root searchPattern, resolve root <+: located r

/-- For `*.*`: the root of a volume without directories. For another pattern: nothing that
    fits lies deeper than in a subdirectory; and, except in the root of a volume, nothing
    in the directory fits, nor anything beside it. -/
def Coverable (S : System D) (l : Location) (searchPattern : WString) : Prop :=
  if searchPattern = anyName then l = [] ∧ ∀ e ∈ D.entries, e.dir = [] → e.isDirectory = false
  else
    (∀ e ∈ D.entries, l <+: e.dir → S.fits searchPattern e.name = true → e.dir.length < l.length + 2) ∧
    (l ≠ [] → ∀ e ∈ D.entries, S.fits searchPattern e.name = true → e.dir ≠ l ∧ (e.dir = l.dropLast → e.loc = l))

/-! ## What is found, by where it is -/

/-- The entries of a directory that fit. -/
def hits (S : System D) (searchPattern : WString) (l : Location) : List Location :=
  (D.entries.filter fun e => e.dir = l ∧ S.fits searchPattern e.name = true).map Entry.loc

/-- `.` and `..`, of a directory that has them. -/
def dots (l : Location) : List Location := if l ≠ [] then [l, l.dropLast] else []

def subdirectories (D : Disk) (l : Location) : List Location :=
  (D.entries.filter fun e => e.dir = l ∧ e.isDirectory = true).map Entry.loc

def found (S : System D) (searchPattern : WString) (l : Location) : List Location :=
  (if searchPattern = anyName then dots l else []) ++ hits S searchPattern l

variable {S : System D} {root : Path} {searchPattern : WString} {l : Location}

theorem found_of_ne (hp : searchPattern ≠ anyName) : found S searchPattern = hits S searchPattern := by
  funext l
  rw [found, if_neg hp, List.nil_append]

theorem resolve_snoc (path : Path) (component : WString) :
    resolve (path ++ [component]) = move (resolve path) component := by
  unfold resolve
  rw [List.foldl_append]
  rfl

theorem move_name {e : Entry} (he : e ∈ D.entries) : move e.dir e.name = e.loc := by
  unfold move
  rw [if_neg (D.plain e he).1, if_neg (D.plain e he).2]
  rfl

theorem findFiles_located (h : D.IsDirectory (resolve root)) :
    ((findFiles S root searchPattern).map located).Perm (found S searchPattern (resolve root)) := by
  unfold findFiles
  rw [if_pos h, List.map_map]
  have hloc : (located ∘ fun fd : FindData => (root ++ [fd.cFileName], fd)) =
      fun fd => move (resolve root) fd.cFileName := by
    funext fd
    exact resolve_snoc root fd.cFileName
  rw [hloc]
  refine ((S.lists _ h searchPattern).map _).trans (List.Perm.of_eq ?_)
  unfold Disk.listing found hits dots
  rw [List.map_append, List.map_map]
  congr 1
  · by_cases h1 : searchPattern = anyName
    · by_cases h2 : resolve root = []
      · simp [h1, h2]
      · simp [h1, h2, move, show dotDot ≠ dot by decide]
    · simp [h1]
  · refine List.map_congr_left fun e he => ?_
    obtain ⟨he, hdir⟩ := List.mem_filter.mp he
    rw [← (of_decide_eq_true hdir).1]
    exact move_name he

theorem isDirectory_dropLast (h : D.IsDirectory l) : D.IsDirectory l.dropLast := by
  rcases h with rfl | ⟨d, hd, -, rfl⟩
  · exact .inl rfl
  · rw [Entry.loc, List.dropLast_concat]
    exact (D.closed d hd)

theorem isDirectory_of_mem (h : D.IsDirectory l) {c : Location} (hc : c ∈ dots l ++ subdirectories D l) :
    D.IsDirectory c := by
  rcases List.mem_append.mp hc with hc | hc
  · unfold dots at hc
    split at hc
    · rcases List.mem_cons.mp hc with rfl | hc
      · exact h
      · rw [List.mem_singleton.mp hc]
        exact isDirectory_dropLast h
    · cases hc
  · obtain ⟨e, he, rfl⟩ := List.mem_map.mp hc
    obtain ⟨he, hdir⟩ := List.mem_filter.mp he
    exact .inr ⟨e, he, (of_decide_eq_true hdir).2, rfl⟩

/-- What `find_files` gives as directories, by where they are. -/
theorem children_located (l : Location) :
    ((D.listing S.fits l anyName).filter fun fd => fd.isDirectory).map (fun fd => move l fd.cFileName) =
      dots l ++ subdirectories D l := by
  unfold Disk.listing dots subdirectories
  rw [List.filter_append, List.map_append, List.filter_map, List.map_map, List.filter_filter]
  congr 1
  · by_cases h : l = []
    · simp [h]
    · simp [h, move, show dotDot ≠ dot by decide]
  · have hfilter : (D.entries.filter fun e => ((fun fd : FindData => fd.isDirectory) ∘ fun e : Entry =>
        ⟨e.name, e.isDirectory⟩) e && decide (e.dir = l ∧ S.fits anyName e.name = true)) =
        D.entries.filter fun e => e.dir = l ∧ e.isDirectory = true := by
      refine List.filter_congr fun e _ => ?_
      simp [S.fits_any, and_comm]
    rw [hfilter]
    refine List.map_congr_left fun e he => ?_
    obtain ⟨he, hdir⟩ := List.mem_filter.mp he
    rw [← (of_decide_eq_true hdir).1]
    exact move_name he

theorem searchPath_located (h : D.IsDirectory (resolve root)) :
    ((searchPath S root searchPattern).map located).Perm
      (found S searchPattern (resolve root) ++
        (dots (resolve root) ++ subdirectories D (resolve root)).flatMap (found S searchPattern)) := by
  unfold searchPath
  rw [List.map_append, List.map_flatMap]
  refine (findFiles_located h).append ?_
  rw [findFiles, if_pos h, List.filter_map, List.flatMap_map]
  refine (((S.lists _ h anyName).filter _).flatMap_right _).trans ?_
  rw [← children_located (S := S), List.flatMap_map]
  refine List.Perm.flatMap_left _ fun fd hfd => ?_
  have hdir : D.IsDirectory (resolve (root ++ [fd.cFileName])) := by
    rw [resolve_snoc]
    refine isDirectory_of_mem h ?_
    rw [← children_located (S := S)]
    exact List.mem_map.mpr ⟨fd, hfd, rfl⟩
  rw [← resolve_snoc]
  exact findFiles_located hdir

/-! ## How often -/

theorem Disk.eq_of_loc {e e' : Entry} (he : e ∈ D.entries) (he' : e' ∈ D.entries) (h : e.loc = e'.loc) : e = e' :=
  List.inj_on_of_nodup_map D.nodup he he' h

theorem mem_hits {e : Entry} (he : e ∈ D.entries) :
    e.loc ∈ hits S searchPattern l ↔ e.dir = l ∧ S.fits searchPattern e.name = true := by
  unfold hits
  rw [List.mem_map]
  refine ⟨fun h => ?_, fun h => ⟨e, List.mem_filter.mpr ⟨he, decide_eq_true h⟩, rfl⟩⟩
  obtain ⟨e', he', hloc⟩ := h
  obtain ⟨he', hfit⟩ := List.mem_filter.mp he'
  rw [← D.eq_of_loc he' he hloc]
  exact of_decide_eq_true hfit

theorem nodup_hits (S : System D) (searchPattern : WString) (l : Location) : (hits S searchPattern l).Nodup :=
  D.nodup.sublist (List.filter_sublist.map _)

theorem count_hits {e : Entry} (he : e ∈ D.entries) (hf : S.fits searchPattern e.name = true) (l : Location) :
    (hits S searchPattern l).count e.loc = if e.dir = l then 1 else 0 := by
  by_cases h : e.dir = l
  · rw [if_pos h]
    exact List.count_eq_one_of_mem (nodup_hits S searchPattern l) ((mem_hits he).mpr ⟨h, hf⟩)
  · rw [if_neg h]
    exact List.count_eq_zero_of_not_mem fun hm => h ((mem_hits he).mp hm).1

/-- Listed directory by directory, an entry is found as often as its directory is listed. -/
theorem count_flatMap_hits {e : Entry} (he : e ∈ D.entries) (hf : S.fits searchPattern e.name = true)
    (ls : List Location) : (ls.flatMap (hits S searchPattern)).count e.loc = ls.count e.dir := by
  induction ls with
  | nil => rfl
  | cons l ls ih =>
    rw [List.flatMap_cons, List.count_append, count_hits he hf, ih]
    by_cases h : e.dir = l
    · rw [if_pos h, h, List.count_cons_self, Nat.add_comm]
    · rw [if_neg h, List.count_cons_of_ne (Ne.symm h), Nat.zero_add]

/-- A directory's subdirectories are listed once each. -/
theorem count_subdirectories {e : Entry} (he : e ∈ D.entries) (hl : l <+: e.dir) :
    (subdirectories D l).count e.dir = if e.dir.length = l.length + 1 then 1 else 0 := by
  have hnd : (subdirectories D l).Nodup := D.nodup.sublist (List.filter_sublist.map _)
  by_cases h : e.dir.length = l.length + 1
  · rw [if_pos h]
    refine List.count_eq_one_of_mem hnd ?_
    rcases D.closed e he with h0 | ⟨d, hd, hdir, hloc⟩
    · rw [h0] at h
      cases h
    · have hdl : d.dir = l := by
        rw [← hloc, Entry.loc] at hl h
        rw [List.length_append, List.length_singleton] at h
        exact ((List.prefix_concat_iff.mp hl).resolve_left fun e => (by
          have := congrArg List.length e
          rw [List.length_append, List.length_singleton] at this
          omega)).eq_of_length (by omega) |>.symm
      exact List.mem_map.mpr ⟨d, List.mem_filter.mpr ⟨hd, decide_eq_true ⟨hdl, hdir⟩⟩, hloc⟩
  · rw [if_neg h]
    refine List.count_eq_zero_of_not_mem fun hm => h ?_
    obtain ⟨d, hd, hloc⟩ := List.mem_map.mp hm
    obtain ⟨-, hd⟩ := List.mem_filter.mp hd
    rw [← hloc, Entry.loc, List.length_append, List.length_singleton, (of_decide_eq_true hd).1]

/-- For a pattern other than `*.*`: an entry of the directory is found once, and once more
    where there is a `.`; an entry of a subdirectory is found once, and none below. -/
theorem count_results (h : D.IsDirectory (resolve root)) (hp : searchPattern ≠ anyName) {e : Entry}
    (he : e ∈ D.entries) (hl : resolve root <+: e.dir) (hf : S.fits searchPattern e.name = true) :
    ((searchPath S root searchPattern).map located).count e.loc =
      if e.dir = resolve root then if resolve root = [] then 1 else 2
      else if e.dir.length = (resolve root).length + 1 then 1 else 0 := by
  have hup : resolve root ≠ [] → e.dir ≠ (resolve root).dropLast := by
    intro h0 hd
    have := hl.length_le
    rw [hd, List.length_dropLast] at this
    have := List.length_pos_iff.mpr h0
    omega
  have hdots : (dots (resolve root)).count e.dir = if e.dir = resolve root ∧ resolve root ≠ [] then 1 else 0 := by
    unfold dots
    by_cases h0 : resolve root = []
    · simp [h0]
    · rw [if_pos h0]
      by_cases hd : e.dir = resolve root
      · rw [if_pos ⟨hd, h0⟩, hd, List.count_cons_self, List.count_cons_of_ne (hd ▸ (hup h0).symm), List.count_nil]
      · rw [if_neg fun h => hd h.1, List.count_cons_of_ne (Ne.symm hd), List.count_cons_of_ne (hup h0).symm,
          List.count_nil]
  rw [(searchPath_located h).count_eq, List.count_append, found_of_ne hp, count_hits he hf, count_flatMap_hits he hf,
    List.count_append, count_subdirectories he hl, hdots]
  by_cases hd : e.dir = resolve root
  · have hlen : e.dir.length ≠ (resolve root).length + 1 := by
      rw [hd]
      omega
    by_cases h0 : resolve root = []
    · simp [hd, h0]
    · simp [hd, h0]
  · simp [hd]

/-- And for such a pattern the directory itself is found once if it fits: from `..`. -/
theorem count_root (h : D.IsDirectory (resolve root)) (hp : searchPattern ≠ anyName) {e : Entry}
    (he : e ∈ D.entries) (hl : e.loc = resolve root) (hf : S.fits searchPattern e.name = true) :
    ((searchPath S root searchPattern).map located).count e.loc = 1 := by
  have hne : resolve root ≠ e.dir := by
    intro hd
    have := congrArg List.length (hl.trans hd)
    rw [Entry.loc, List.length_append, List.length_singleton] at this
    omega
  have hup : dots (resolve root) = [resolve root, e.dir] := by
    rw [dots, ← hl, if_pos (by simp [Entry.loc]), Entry.loc, List.dropLast_concat]
  have hsub : (subdirectories D (resolve root)).count e.dir = 0 := by
    refine List.count_eq_zero_of_not_mem fun hm => ?_
    obtain ⟨d, hd, hloc⟩ := List.mem_map.mp hm
    have hdir := (of_decide_eq_true (List.mem_filter.mp hd).2).1
    have := congrArg List.length hloc
    rw [Entry.loc, hdir, ← hl, Entry.loc] at this
    simp only [List.length_append, List.length_singleton] at this
    omega
  rw [(searchPath_located h).count_eq, List.count_append, found_of_ne hp, count_hits he hf, count_flatMap_hits he hf,
    List.count_append, hsub, hup, if_neg hne.symm, List.count_cons_of_ne hne, List.count_singleton_self]

/-! ## What is covered -/

theorem within_iff (h : D.IsDirectory (resolve root)) :
    (∀ r ∈ searchPath S root searchPattern, resolve root <+: located r) ↔
      ∀ c ∈ resolve root :: (dots (resolve root) ++ subdirectories D (resolve root)),
        ∀ x ∈ found S searchPattern c, resolve root <+: x := by
  rw [← List.forall_mem_map (f := located) (P := fun x => resolve root <+: x)]
  simp only [(searchPath_located h).mem_iff, List.mem_append, List.mem_flatMap, List.forall_mem_cons, or_imp,
    forall_and, forall_exists_index, and_imp]
  tauto

theorem mem_found {c x : Location} (hp : searchPattern ≠ anyName) : x ∈ found S searchPattern c ↔
    ∃ e ∈ D.entries, S.fits searchPattern e.name = true ∧ e.dir = c ∧ e.loc = x := by
  rw [found_of_ne hp, hits, List.mem_map]
  refine exists_congr fun e => ?_
  rw [List.mem_filter, decide_eq_true_iff]
  tauto

/-- Below a directory. -/
theorem prefix_loc {e : Entry} (h : l <+: e.dir) : l <+: e.loc := h.trans (List.prefix_append _ _)

theorem subdirectories_below {c : Location} (hc : c ∈ subdirectories D l) : l <+: c := by
  obtain ⟨d, hd, rfl⟩ := List.mem_map.mp hc
  obtain ⟨-, hd⟩ := List.mem_filter.mp hd
  rw [Entry.loc, (of_decide_eq_true hd).1]
  exact List.prefix_append _ _

theorem covers_iff_of_ne (h : D.IsDirectory (resolve root)) (hp : searchPattern ≠ anyName) :
    Covers S root searchPattern ↔
      (∀ e ∈ D.entries, resolve root <+: e.dir → S.fits searchPattern e.name = true →
        e.dir.length < (resolve root).length + 2) ∧
      (resolve root ≠ [] → ∀ e ∈ D.entries, S.fits searchPattern e.name = true →
        e.dir ≠ resolve root ∧ (e.dir = (resolve root).dropLast → e.loc = resolve root)) := by
  constructor
  · intro hc
    refine ⟨fun e he hl hf => ?_, fun h0 e he hf => ⟨fun hd => ?_, fun hd => ?_⟩⟩
    · have h1 := hc.once e he hl hf
      rw [count_results h hp he hl hf] at h1
      by_contra hlen
      rw [if_neg (fun e => by rw [e] at hlen; omega), if_neg (by omega)] at h1
      cases h1
    · have h1 := hc.once e he (hd ▸ List.prefix_rfl) hf
      rw [count_results h hp he (hd ▸ List.prefix_rfl) hf, if_pos hd, if_neg h0] at h1
      cases h1
    · have hup : (resolve root).dropLast ∈
          resolve root :: (dots (resolve root) ++ subdirectories D (resolve root)) := by
        simp [dots, h0]
      have hpre := (within_iff h).mp hc.within _ hup e.loc ((mem_found hp).mpr ⟨e, he, hf, hd, rfl⟩)
      refine (hpre.eq_of_length ?_).symm
      have := List.length_pos_iff.mpr h0
      rw [Entry.loc, hd, List.length_append, List.length_dropLast, List.length_singleton]
      omega
  · intro hc
    obtain ⟨hdeep, hside⟩ := hc
    refine ⟨fun e he hl hf => ?_, (within_iff h).mpr fun c hc x hx => ?_⟩
    · have hlen := hdeep e he hl hf
      rw [count_results h hp he hl hf]
      by_cases hd : e.dir = resolve root
      · have h0 : resolve root = [] := by
          by_contra h0
          exact (hside h0 e he hf).1 hd
        rw [if_pos hd, if_pos h0]
      · have hlt : (resolve root).length < e.dir.length :=
          Nat.lt_of_le_of_ne hl.length_le fun e => hd (hl.eq_of_length e).symm
        rw [if_neg hd, if_pos (by omega)]
    · obtain ⟨e, he, hf, rfl, rfl⟩ := (mem_found hp).mp hx
      rcases List.mem_cons.mp hc with hd | hc
      · exact prefix_loc (hd ▸ List.prefix_rfl)
      · rcases List.mem_append.mp hc with hd | hsub
        · unfold dots at hd
          split at hd
          · rename_i h0
            rcases List.mem_cons.mp hd with hd | hd
            · exact prefix_loc (hd ▸ List.prefix_rfl)
            · have hself : resolve root = e.loc := ((hside h0 e he hf).2 (List.mem_singleton.mp hd)).symm
              exact hself ▸ List.prefix_rfl
          · cases hd
        · exact prefix_loc (subdirectories_below hsub)

/-- What is anywhere on the disk is below a directory in its root. -/
theorem exists_directory {e : Entry} (he : e ∈ D.entries) (h0 : e.dir ≠ []) :
    ∃ d ∈ D.entries, d.dir = [] ∧ d.isDirectory = true := by
  induction hn : e.dir.length using Nat.strong_induction_on generalizing e with
  | _ n ih =>
    obtain ⟨d, hd, hdir, hloc⟩ := (D.closed e he).resolve_left h0
    by_cases hd0 : d.dir = []
    · exact ⟨d, hd, hd0, hdir⟩
    · refine ih d.dir.length ?_ hd hd0 rfl
      rw [← hn, ← hloc, Entry.loc, List.length_append, List.length_singleton]
      omega

theorem covers_iff_any (h : D.IsDirectory (resolve root)) :
    Covers S root anyName ↔ resolve root = [] ∧ ∀ e ∈ D.entries, e.dir = [] → e.isDirectory = false := by
  constructor
  · intro hc
    have h0 : resolve root = [] := by
      by_contra h0
      -- the directory above is in the listing
      have hup : (resolve root).dropLast ∈ found S anyName (resolve root) := by simp [found, dots, h0]
      have := ((within_iff h).mp hc.within _ (List.mem_cons_self ..) _ hup).length_le
      rw [List.length_dropLast] at this
      have := List.length_pos_iff.mpr h0
      omega
    refine ⟨h0, fun e he hd => ?_⟩
    by_contra hdir
    have hdir : e.isDirectory = true := by simpa using hdir
    -- a directory is found in the root, and as its own `.`
    have h1 := hc.once e he (h0 ▸ List.nil_prefix) (S.fits_any _)
    rw [(searchPath_located h).count_eq, List.count_append, h0] at h1
    have hhere : 0 < (found S anyName []).count e.loc :=
      List.count_pos_iff.mpr (List.mem_append_right _ ((mem_hits he).mpr ⟨hd, S.fits_any _⟩))
    have hself : 0 < ((dots [] ++ subdirectories D []).flatMap (found S anyName)).count e.loc := by
      refine List.count_pos_iff.mpr (List.mem_flatMap.mpr ⟨e.loc, List.mem_append_right _ ?_, ?_⟩)
      · exact List.mem_map.mpr ⟨e, List.mem_filter.mpr ⟨he, decide_eq_true ⟨hd, hdir⟩⟩, rfl⟩
      · simp [found, dots, Entry.loc]
    omega
  · intro hc
    obtain ⟨h0, hnone⟩ := hc
    have hsub : subdirectories D [] = [] := by
      rw [subdirectories, List.map_eq_nil_iff, List.filter_eq_nil_iff]
      intro e he hd
      obtain ⟨hd, hdir⟩ := of_decide_eq_true hd
      rw [hnone e he hd] at hdir
      cases hdir
    refine ⟨fun e he hl hf => ?_, fun r _ => h0 ▸ List.nil_prefix⟩
    have hd : e.dir = [] := by
      by_contra hd
      obtain ⟨d, hdm, hd0, hdir⟩ := exists_directory he hd
      rw [hnone d hdm hd0] at hdir
      cases hdir
    rw [(searchPath_located h).count_eq, h0, hsub]
    simp only [found, dots, ne_eq, not_true, if_false, List.append_nil, List.flatMap_nil, if_true, List.nil_append]
    rw [count_hits he hf, if_pos hd]

/-- A search covers a directory exactly if nothing is in its way. -/
theorem covers_iff (S : System D) {root : Path} (h : D.IsDirectory (resolve root)) (searchPattern : WString) :
    Covers S root searchPattern ↔ Coverable S (resolve root) searchPattern := by
  unfold Coverable
  by_cases hp : searchPattern = anyName
  · rw [if_pos hp, hp]
    exact covers_iff_any h
  · rw [if_neg hp]
    exact covers_iff_of_ne h hp

/-- The directories a, a/b and a/b/c, and the file a/b/c/d. -/
def nested : Disk where
  entries := [⟨[], [97], true⟩, ⟨[[97]], [98], true⟩, ⟨[[97], [98]], [99], true⟩, ⟨[[97], [98], [99]], [100], false⟩]
  nodup := by decide
  closed := by decide
  plain := by decide

/-- A system that lists entries in the order of the disk; a pattern without wildcards
    fits that name alone. -/
def inOrder (D : Disk) : System D where
  fits pattern name := pattern = anyName ∨ pattern = name
  fits_any _ := by simp
  find := D.listing fun pattern name => pattern = anyName ∨ pattern = name
  lists _ _ _ := .refl _

/-- From a, the file d is too deep to be found; and `*.*` finds the root of the volume. -/
theorem nested_not_covered : ¬ Covers (inOrder nested) [[97]] [100] ∧
    ∃ r ∈ searchPath (inOrder nested) [[97]] anyName, located r = [] := by
  refine ⟨fun h => ?_, by decide +kernel⟩
  have := h.once ⟨[[97], [98], [99]], [100], false⟩ (by decide) (by decide) (by decide)
  revert this
  decide +kernel

/-- The directory c is where the search still reaches. -/
theorem covers_iff_nested : Covers (inOrder nested) [[97]] [99] := by
  refine (covers_iff (inOrder nested) (by decide) [99]).mpr ?_
  rw [Coverable, if_neg (by decide)]
  decide +kernel

end Dumbnose.Files
