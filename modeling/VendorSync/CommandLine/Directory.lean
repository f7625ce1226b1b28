import VendorSync.CommandLine.FileSystem

/-! A directory with at most one entry, as the place where the program runs.

Nothing is known of what is around it: its own name is one that no path can give, and the root has
no other entry. -/
namespace VendorSync.CommandLine

structure Directory where
  name : String
  entry : Option Entry
deriving DecidableEq, Repr

namespace Directory

/-- Where the directory is. -/
def here : FileSystem.Place := [[]]

def place (d : Directory) : FileSystem.Place := here ++ [d.name.toList]

def files (d : Directory) : FileSystem FileSystem.Place :=
  .tree here fun place =>
    if place = d.place then d.entry
    else if place = here ∨ place = [] then some .folder
    else none

/-- The text of the entry, if it is a file that has one. -/
def text? (d : Directory) : Option Text :=
  match d.entry with
  | some (.file content _) => content
  | _ => none

/-- Runs the program in the directory. -/
def run (d : Directory) (arguments : List String) : Report × Directory :=
  let (report, files) := d.files.run arguments
  (report, { d with entry := files.entry d.place })

end Directory
end VendorSync.CommandLine
