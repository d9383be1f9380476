/-
  Dumbnose.Files.FileHelper — finding files by a pattern (`file_helper.hpp`).

  A disk has entries, each in a directory that is an entry too or the root of the volume.
  A path is its components, from the root of the volume on. The system takes `.` and `..`
  out of a path before it looks (`resolve`), and lists them itself: for the pattern `*.*`,
  in every directory but the root of the volume. In which order it lists a directory, and
  which names a pattern fits, is the system's (`System`).

  Of the data that comes with a name only the directory flag is kept.
-/

import Mathlib.Data.List.Nodup
import Mathlib.Data.List.Perm.Basic
import Dumbnose.Strings.Wide

namespace Dumbnose.Files

open Strings

/-- Where something is: the names of the directories on the way, and its own. -/
abbrev Location := List WString

abbrev Path := List WString

/-- The directory itself. -/
def dot : WString := [46]

/-- The directory above. -/
def dotDot : WString := [46, 46]

/-- `*.*`. -/
def anyName : WString := [42, 46, 42]

structure Entry where
  dir : Location
  name : WString
  isDirectory : Bool
  deriving DecidableEq, Repr

def Entry.loc (e : Entry) : Location := e.dir ++ [e.name]

structure Disk where
  entries : List Entry
  nodup : (entries.map Entry.loc).Nodup
  closed : ∀ e ∈ entries, e.dir = [] ∨ ∃ d ∈ entries, d.isDirectory = true ∧ d.loc = e.dir
  plain : ∀ e ∈ entries, e.name ≠ dot ∧ e.name ≠ dotDot

def Disk.IsDirectory (D : Disk) (l : Location) : Prop := l = [] ∨ ∃ d ∈ D.entries, d.isDirectory = true ∧ d.loc = l

instance (D : Disk) (l : Location) : Decidable (D.IsDirectory l) := inferInstanceAs (Decidable (_ ∨ _))

/-- From a location, by one component of a path. There is nothing above the root. -/
def move (l : Location) (component : WString) : Location :=
  if component = dot then l else if component = dotDot then l.dropLast else l ++ [component]

def resolve (path : Path) : Location := path.foldl move []

/-- `WIN32_FIND_DATAW`. -/
structure FindData where
  cFileName : WString
  isDirectory : Bool
  deriving DecidableEq, Repr

/-- What is found in a directory. -/
def Disk.listing (D : Disk) (fits : WString → WString → Bool) (l : Location) (pattern : WString) : List FindData :=
  (if pattern = anyName ∧ l ≠ [] then [⟨dot, true⟩, ⟨dotDot, true⟩] else []) ++
    (D.entries.filter fun e => e.dir = l ∧ fits pattern e.name = true).map fun e => ⟨e.name, e.isDirectory⟩

structure System (D : Disk) where
  fits : WString → WString → Bool
  fits_any : ∀ name, fits anyName name = true
  /-- `FindFirstFileW` and `FindNextFile` to the end. -/
  find : Location → WString → List FindData
  lists : ∀ l, D.IsDirectory l → ∀ pattern, (find l pattern).Perm (D.listing fits l pattern)

variable {D : Disk}

/-- The paths found, each with its data. A directory that is not there has nothing in it. -/
def findFiles (S : System D) (root : Path) (searchPattern : WString) : List (Path × FindData) :=
  if D.IsDirectory (resolve root) then
    (S.find (resolve root) searchPattern).map fun fd => (root ++ [fd.cFileName], fd)
  else []

def searchPath (S : System D) (root : Path) (searchPattern : WString) : List (Path × FindData) :=
  let results := findFiles S root searchPattern
  -- recurse subdirectories
  let children := findFiles S root anyName
  results ++ (children.filter fun it => it.2.isDirectory).flatMap fun it => findFiles S it.1 searchPattern

end Dumbnose.Files
