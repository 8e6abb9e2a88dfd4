import Storyworld.CommandLine.Path

namespace Storyworld.CommandLine

/-!
# Files and folders

A disk has files and folders, each at a place that the names of the folders around it
give. A path is followed part by part, and every part but the last has to lead to a
folder: a slash at the end asks for one too, and one cannot leave by two points what is
not there.

What was written can be read along the same path (`contentOf_write`).
-/

/-- What opening a path leads to. -/
inductive FileContent where
  | missing
  /-- The path can be opened, but reading fails for the reason given. -/
  | unreadable (reason : String)
  | bytes (content : ByteArray)

/-- A folder can be opened, but not read. -/
def FileContent.folder : FileContent := .unreadable "Is a directory (os error 21)"

/-- The names that lead from the root to a place, the last one first. -/
abbrev Place := List String

/-- Where one part of a path leads to from a place. The root is the folder around itself. -/
def Place.step (place : Place) (part : String) : Place :=
  if part = "" ∨ part = "." then place else if part = ".." then place.tail else part :: place

/-- The folders around a place, the nearest one first. -/
def Place.around : Place → List Place
  | [] => []
  | _ :: place => place :: Place.around place

/-- What a disk has at a place. -/
inductive Entry where
  | folder
  | file (content : ByteArray)

structure Disk where
  folders : List Place
  files : List (Place × ByteArray) := []
  /-- The folder that paths start from unless they begin with a slash. -/
  here : Place

namespace Disk

/-- The most bytes that a path may take. -/
def longestPath : Nat := 4095

/-- What there is at a place. A file is found before a folder. -/
def find? (d : Disk) (place : Place) : Option Entry :=
  match d.files.lookup place with
  | some content => some (.file content)
  | none => if place ∈ d.folders then some .folder else none

def start (d : Disk) (path : String) : Place :=
  if path.toList.head? = some '/' then [] else d.here

/-- The place that parts lead to from a place, if each sets out from a folder. -/
def follow? (d : Disk) (place : Place) : List String → Option Place
  | [] => some place
  | part :: rest =>
    match d.find? place with
    | some .folder => d.follow? (place.step part) rest
    | _ => none

/-- The place that a path leads to, whether or not there is something. -/
def place? (d : Disk) (path : String) : Option Place :=
  if path.isEmpty ∨ longestPath < path.utf8ByteSize then none
  else d.follow? (d.start path) (parts path)

/-- What opening a path leads to. -/
def contentOf (d : Disk) (path : String) : FileContent :=
  match (d.place? path).bind d.find? with
  | none => .missing
  | some .folder => .folder
  | some (.file content) => .bytes content

/-- Puts a file where a path leads to, and the folders around it. -/
def write (d : Disk) (path : String) (content : ByteArray) : Disk :=
  let place := (parts path).foldl Place.step (d.start path)
  { d with
    folders := place.around ++ d.folders
    files := (place, content) :: d.files }

/-! ### What was written can be read

Setting out from the same folders, a path leads to the same place before and after a file is
put at its end, since no part of it sets out from there. -/

theorem follow?_eq_some {d : Disk} {place target : Place} {rest : List String}
    (h : d.follow? place rest = some target) : target = rest.foldl Place.step place := by
  induction rest generalizing place with
  | nil => simpa [follow?, eq_comm] using h
  | cons part rest ih =>
    rw [follow?] at h
    split at h
    · exact ih h
    · simp at h

/-- A file of another place hides no folder. -/
theorem find?_write_folder {d : Disk} {path : String} {content : ByteArray} {place : Place}
    (h : d.find? place = some .folder)
    (ne : place ≠ (parts path).foldl Place.step (d.start path)) :
    (d.write path content).find? place = some .folder := by
  have other : (place == (parts path).foldl Place.step (d.start path)) = false := by simpa using ne
  rw [find?] at h
  split at h
  · simp at h
  · rename_i unlisted
    have inside : place ∈ d.folders := by
      by_cases inside : place ∈ d.folders
      · exact inside
      · simp [inside] at h
    simp [find?, write, List.lookup_cons, other, unlisted, inside]

theorem find?_write_self (d : Disk) (path : String) (content : ByteArray) :
    (d.write path content).find? ((parts path).foldl Place.step (d.start path)) =
      some (.file content) := by
  simp [find?, write]

theorem follow?_write {d : Disk} {path : String} {content : ByteArray} {place target : Place}
    {rest : List String} (h : d.follow? place rest = some target)
    (free : d.find? ((parts path).foldl Place.step (d.start path)) ≠ some .folder) :
    (d.write path content).follow? place rest = some target := by
  induction rest generalizing place with
  | nil => exact h
  | cons part rest ih =>
    rw [follow?] at h
    split at h
    · rename_i folder
      have ne : place ≠ (parts path).foldl Place.step (d.start path) := by
        rintro rfl
        exact free folder
      rw [follow?, find?_write_folder folder ne]
      exact ih h
    · simp at h

/-- A file that was put where a path leads to is read along that path, unless there was a
folder. -/
theorem contentOf_write {d : Disk} {path : String} {content : ByteArray} {place : Place}
    (leads : d.place? path = some place) (free : d.find? place ≠ some .folder) :
    (d.write path content).contentOf path = .bytes content := by
  rw [place?] at leads
  split at leads
  · simp at leads
  · rename_i short
    have same := follow?_eq_some leads
    have later : (d.write path content).place? path = some place := by
      rw [place?, if_neg short]
      exact follow?_write leads (same ▸ free)
    rw [contentOf, later, Option.bind_some, same, find?_write_self]

end Disk

end Storyworld.CommandLine
