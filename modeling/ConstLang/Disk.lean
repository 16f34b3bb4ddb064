/-
Files, as a command sees them from the folder it works in. A path leads from that folder or
from the root, part by part; a file is read and written whole; and what cannot be read or
written is refused with the system's words for it. Known are the folder itself, the folders
around it, which `..` leads to, and the root. None of them holds a folder that is known by its
name, so a path leads down to files only, and there is no file but the ones that were put there.

`Disk.read_of_write`: what is written at a path is what is read there.
-/
import ConstLang.Files
import ConstLang.Table

namespace ConstLang

/-- Why a file cannot be read or written. -/
inductive FileFault
  | notFound
  | notAFolder
  | isAFolder
  | nameTooLong
deriving DecidableEq

/-- The system's words for a fault, with its number. -/
def FileFault.text : FileFault → String
  | notFound => "No such file or directory (os error 2)"
  | notAFolder => "Not a directory (os error 20)"
  | isAFolder => "Is a directory (os error 21)"
  | nameTooLong => "File name too long (os error 36)"

namespace Disk

/-- A folder that a path can come to. -/
inductive Folder
  /-- The folder that is so many steps above the one in which a command works. -/
  | above (steps : Nat)
  | root
deriving DecidableEq

namespace Folder

/-- The folder in which a command works. -/
def work : Folder := above 0

/-- The folder around a folder; the root stands in itself. -/
def parent : Folder → Folder
  | above steps => above (steps + 1)
  | root => root

/-- The folder that a part of a path leads to from a folder by itself, whatever is there. -/
def via? (folder : Folder) (part : String) : Option Folder :=
  if part = "." then some folder
  else if part = ".." then some folder.parent
  else none

end Folder

/-- A path, taken apart at its slashes. -/
structure Path where
  start : Folder
  /-- What stands between the slashes, empty pieces left out. -/
  parts : List String
  endsInSlash : Bool

namespace Path

/-- The pieces of a text between slashes. -/
def pieces : List Char → List (List Char)
  | [] => [[]]
  | c :: cs =>
    if c = '/' then [] :: pieces cs
    else match pieces cs with
      | [] => [[c]]
      | piece :: rest => (c :: piece) :: rest

/-- A slash in front makes a path start at the root. -/
def ofString (text : String) : Path where
  start := if text.toList.head? = some '/' then .root else .work
  parts := ((pieces text.toList).filter (!·.isEmpty)).map String.ofList
  endsInSlash := text.toList.getLast? = some '/'

end Path

/-- What a path leads to. -/
inductive Place
  | folder (folder : Folder)
  /-- A name in a folder, taken or free. With a slash behind it, it is to name a folder. -/
  | entry (folder : Folder) (name : String) (endsInSlash : Bool)

/-- The most bytes that a path has. -/
def maxPathLength : Nat := 4095

/-- The most bytes that a name has. -/
def maxNameLength : Nat := 255

def isTooLong (name : String) : Bool := maxNameLength < name.utf8ByteSize

end Disk

/-- The files in each folder, by their names. -/
structure Disk where
  files : Disk.Folder → Table ByteArray := fun _ => {}

namespace Disk

/-- A disk with files in the folder in which a command works. -/
def ofFiles (files : List (String × ByteArray)) : Disk where
  files folder := if folder = .work then .ofList files else {}

/-- The disk with a file's whole content replaced, or with a new file. -/
def put (d : Disk) (folder : Folder) (name : String) (bytes : ByteArray) : Disk where
  files other :=
    if other = folder then (d.files folder).insert name bytes else d.files other

/-- Why a name in a folder leads no further: it is too long, a file has it, or nothing has it. -/
def obstacle (d : Disk) (folder : Folder) (name : String) : FileFault :=
  if isTooLong name then .nameTooLong
  else if (d.files folder).contains name then .notAFolder
  else .notFound

/-- Goes from a folder on to a part of a path that has to be a folder. -/
def enter (d : Disk) (folder : Folder) (part : String) : Except FileFault Folder :=
  match folder.via? part with
  | some next => .ok next
  | none => .error (d.obstacle folder part)

/-- Follows a path. A name at its end is not looked for yet. -/
def follow (d : Disk) (p : Path) : Except FileFault Place :=
  match p.parts.getLast? with
  | none => .ok (.folder p.start)
  | some last => do
    let folder ← p.parts.dropLast.foldlM d.enter p.start
    return match folder.via? last with
      | some next => .folder next
      | none => .entry folder last p.endsInSlash

/-- Follows a path given as a text, if it has a length that a path can have. -/
def locate (d : Disk) (path : String) : Except FileFault Place :=
  if path = "" then .error .notFound
  else if maxPathLength < path.utf8ByteSize then .error .nameTooLong
  else d.follow (.ofString path)

def read (d : Disk) (path : String) : Except FileFault ByteArray := do
  match ← d.locate path with
  | .folder _ => .error .isAFolder
  | .entry folder name true => .error (d.obstacle folder name)
  | .entry folder name false =>
    match (d.files folder).get? name with
    | some bytes => .ok bytes
    | none => .error (d.obstacle folder name)

/-- Puts a file at a path. With a slash at the end nothing is looked for: no file is named so. -/
def write (d : Disk) (path : String) (bytes : ByteArray) : Except FileFault Disk := do
  match ← d.locate path with
  | .folder _ | .entry _ _ true => .error .isAFolder
  | .entry folder name false =>
    if isTooLong name then .error .nameTooLong else .ok (d.put folder name bytes)

/-! ## What is written is read -/

/-- The way through folders does not depend on files. -/
theorem enter_of_enter {d : Disk} {folder next : Folder} {part : String}
    (h : d.enter folder part = .ok next) (d' : Disk) : d'.enter folder part = .ok next := by
  unfold enter at h ⊢
  split at h
  · exact h
  · cases h

theorem foldlM_enter_of_foldlM_enter {d : Disk} {parts : List String} {start last : Folder}
    (h : parts.foldlM d.enter start = .ok last) (d' : Disk) :
    parts.foldlM d'.enter start = .ok last := by
  induction parts generalizing start with
  | nil => exact h
  | cons part parts ih =>
    rw [List.foldlM_cons] at h ⊢
    cases he : d.enter start part with
    | error fault => rw [he] at h; cases h
    | ok next =>
      rw [he] at h
      rw [enter_of_enter he d']
      exact ih h

theorem follow_of_follow {d : Disk} {p : Path} {place : Place} (h : d.follow p = .ok place)
    (d' : Disk) : d'.follow p = .ok place := by
  unfold follow at h ⊢
  split at h
  · exact h
  · next last hs =>
    cases hf : p.parts.dropLast.foldlM d.enter p.start with
    | error fault => rw [hf] at h; cases h
    | ok folder =>
      rw [hf] at h
      rw [foldlM_enter_of_foldlM_enter hf d']
      exact h

theorem locate_of_locate {d : Disk} {path : String} {place : Place}
    (h : d.locate path = .ok place) (d' : Disk) : d'.locate path = .ok place := by
  unfold locate at h ⊢
  split at h
  · cases h
  · next hne =>
    split at h
    · cases h
    · next hle => rw [if_neg hne, if_neg hle]; exact follow_of_follow h d'

theorem read_of_write {d d' : Disk} {path : String} {bytes : ByteArray}
    (h : d.write path bytes = .ok d') : d'.read path = .ok bytes := by
  unfold write at h
  cases hl : d.locate path with
  | error fault => rw [hl] at h; cases h
  | ok place =>
    rw [hl] at h
    match place with
    | .folder _ | .entry _ _ true => cases h
    | .entry folder name false =>
      dsimp only [bind, Except.bind] at h
      split at h
      · cases h
      · cases h
        simp [read, locate_of_locate hl, bind, Except.bind, put, Table.get?_insert_self]

/-- A disk as the files of a command. -/
def fileSystem : FileSystem Disk where
  read d path := (d.read path).mapError FileFault.text
  write d path bytes := (d.write path bytes).mapError FileFault.text
  read_of_write {d d' path bytes} h := by
    cases hw : d.write path bytes with
    | error fault => rw [hw] at h; cases h
    | ok d₁ =>
      rw [hw] at h
      cases h
      rw [read_of_write hw]
      rfl

end Disk

end ConstLang
