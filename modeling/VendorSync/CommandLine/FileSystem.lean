import VendorSync.CommandLine.Report

/-! Files, and the program on them.

A path leads to a place, and at a place is a file or a folder. Where a path leads is up to the
`FileSystem`, so that links may make several paths lead to one place; a run of the program changes
what is at a place, and nothing about the ways to it. In a `tree` the places are the ways from the
root, and a path is followed name by name. -/
namespace VendorSync.CommandLine

/-- What becomes of an attempt to write a file. -/
inductive Access where
  | writable
  /-- The file cannot be opened for writing. -/
  | locked (fault : Fault)
  /-- There is room for so many bytes. A longer text breaks off behind them. -/
  | limited (room : Nat) (fault : Fault)
deriving DecidableEq, Repr

namespace Access

/-- Why a text cannot be written. -/
def fault? (text : Text) : Access → Option Fault
  | writable => none
  | locked fault => some fault
  | limited room fault => if text.byteLength ≤ room then none else some fault

/-- The content once a text has been written over another, or as much of it as can be. -/
def rewritten (content : Option Text) (text : Text) : Access → Option Text
  | writable => some text
  | locked _ => content
  | limited room _ =>
    if text.byteLength ≤ room then some text
    else if text.isBoundary room then some (text.takeBytes room)
    else none

/-- A text that can be written is the content afterwards. -/
theorem rewritten_of_fault? {access : Access} {text : Text} (h : access.fault? text = none)
    (content : Option Text) : access.rewritten content text = some text := by
  cases access with
  | writable => rfl
  | locked => cases h
  | limited room fault =>
    rw [fault?] at h
    split at h
    next hroom => rw [rewritten, if_pos hroom]
    next => cases h

end Access

inductive Entry where
  /-- A file and its text, if its content is one. -/
  | file (content : Option Text) (access : Access := .writable)
  | folder
deriving DecidableEq, Repr

structure FileSystem (ι : Type) where
  /-- Where a path leads. -/
  resolve : String → Except Fault ι
  entry : ι → Option Entry

namespace FileSystem

section Files
variable {ι : Type} (files : FileSystem ι)

def read (path : String) : Except Fault Text := do
  match files.entry (← files.resolve path) with
  | some (.file (some text) _) => .ok text
  | some (.file none _) => .error .notText
  | some .folder => .error .isADirectory
  | none => .error .notFound

/-- The path leads to a file with this content. -/
structure FileAt (path : String) (place : ι) (content : Text) (access : Access) : Prop where
  resolve_eq : files.resolve path = .ok place
  entry_eq : files.entry place = some (.file (some content) access)

/-- What can be read is the content of a file. -/
theorem read_eq_ok_iff {path : String} {content : Text} :
    files.read path = .ok content ↔ ∃ place access, files.FileAt path place content access := by
  constructor
  · intro h
    cases hplace : files.resolve path with
    | error fault => simp [read, hplace, bind, Except.bind] at h
    | ok place =>
      simp only [read, hplace, bind, Except.bind] at h
      split at h
      next text access hentry =>
        cases h
        exact ⟨place, access, hplace, hentry⟩
      all_goals cases h
  · rintro ⟨place, access, hplace, hentry⟩
    simp [read, hplace, hentry, bind, Except.bind]

variable [DecidableEq ι]

def put (place : ι) (entry : Entry) : FileSystem ι :=
  { files with entry := fun p => if p = place then some entry else files.entry p }

theorem put_of_entry {place : ι} {entry : Entry} (h : files.entry place = some entry) :
    files.put place entry = files := by
  have hentry : (fun p => if p = place then some entry else files.entry p) = files.entry := by
    funext p
    split
    · rw [‹p = place›, h]
    · rfl
  rw [put, hentry]

/-- Replaces the content of a file. The program reads its input first, so none is ever created. -/
def write (path : String) (text : Text) : Except Fault Unit × FileSystem ι :=
  match files.resolve path with
  | .error fault => (.error fault, files)
  | .ok place =>
    match files.entry place with
    | some (.file content access) =>
      ((access.fault? text).elim (.ok ()) .error,
        files.put place (.file (access.rewritten content text) access))
    | some .folder => (.error .isADirectory, files)
    | none => (.error .notFound, files)

theorem FileAt.write_eq {files : FileSystem ι} {path : String} {place : ι} {content : Text}
    {access : Access} (h : files.FileAt path place content access) (text : Text) :
    files.write path text = ((access.fault? text).elim (.ok ()) .error,
      files.put place (.file (access.rewritten (some content) text) access)) := by
  simp [write, h.resolve_eq, h.entry_eq]

/-- The files as the program sees them. -/
def storage : Storage (StateM (FileSystem ι)) where
  read path := do return (← get).read path
  write path text := modifyGet fun files => files.write path text

@[simp] theorem run_read (path : String) :
    (storage.read path).run files = (files.read path, files) := rfl

@[simp] theorem run_write (path : String) (text : Text) :
    (storage.write path text).run files = files.write path text := rfl

/-- Runs the program on the files. -/
def run (arguments : List String) : Report × FileSystem ι :=
  (CommandLine.run storage arguments).run files

end Files

/-! ### Trees -/

/-- The names on the way from the root to a file or a folder. -/
abbrev Place := List (List Char)

/-- Follows one segment of a path. Nothing can follow a file, not even an empty segment, and above
the root is the root. -/
def enter (entry : Place → Option Entry) (place : Place) (segment : List Char) :
    Except Fault Place :=
  match entry place with
  | some (.file ..) => .error .notADirectory
  | _ =>
    if segment == [] || segment == ['.'] then .ok place
    else if segment == ['.', '.'] then .ok place.dropLast
    else if (entry (place ++ [segment])).isSome then .ok (place ++ [segment])
    else .error .notFound

/-- The files of a tree. A path that does not begin with a slash starts at the current folder. -/
def tree (current : Place) (entry : Place → Option Entry) : FileSystem Place where
  resolve path :=
    if path.isEmpty then .error .notFound
    else
      let start := if path.toList.head? == some '/' then [] else current
      (Language.segments path.toList).foldlM (enter entry) start
  entry := entry

end FileSystem
end VendorSync.CommandLine
