import VendorSync.CommandLine.EditList
import VendorSync.CommandLine.Options
import VendorSync.Command

/-! What a run of the program reads, writes, prints and returns.

The files are behind a `Storage`: the run asks it for the text of the input and, if that is to be
rewritten and there are edits, to take the text after them. Either may fail, and the report says
so. What is said about arguments that are refused, and about `--help`, belongs to the reader of the
arguments and is left out; only the status of such a run is told. -/
namespace VendorSync.CommandLine

/-- Why a file cannot be read or written. -/
inductive Fault where
  | notFound
  | denied
  | notADirectory
  | isADirectory
  | noSpace
  /-- The content is no UTF-8 text. -/
  | notText
  /-- Another reason that the system gives. -/
  | system (reason : String)
deriving DecidableEq, Repr

def Fault.message : Fault → String
  | notFound => "No such file or directory (os error 2)"
  | denied => "Permission denied (os error 13)"
  | notADirectory => "Not a directory (os error 20)"
  | isADirectory => "Is a directory (os error 21)"
  | noSpace => "No space left on device (os error 28)"
  | notText => "stream did not contain valid UTF-8"
  | system reason => reason

/-- The files as the program sees them, with effects in `m`. -/
structure Storage (m : Type → Type) where
  /-- The text of the file that a path leads to. -/
  read : String → m (Except Fault Text)
  /-- Replaces the content of the file that a path leads to. -/
  write : String → Text → m (Except Fault Unit)

structure Report where
  status : Nat
  stdout : Text
  stderr : Text
deriving DecidableEq, Repr

namespace Report

def line (s : String) : Text := s.toList ++ ['\n']

/-- The run ends with an error, after it has said something else. -/
def failure (said : Text) (reason : String) : Report := ⟨1, [], said ++ line ("Error: " ++ reason)⟩

def ofRefusal : Refusal → Report
  | .help => ⟨0, [], []⟩
  | _ => ⟨2, [], []⟩

end Report

/-- The language of the input: the one that is given, or that of its path. -/
def Options.languageId (o : Options) : String :=
  (o.language.or (Language.ofPath o.input)).getD "plaintext"

/-- The editor in which the command runs. -/
def Options.editor (o : Options) (content : Text) : Editor :=
  let e := Editor.opened content o.languageId
  match o.cursor with
  | .offset n => e.setCursorOffset n
  | .lineColumn line column => e.setCursor ⟨line - 1, column - 1⟩

/-- Why an outcome left the input alone. With no editor the host has said so already. -/
def note : Outcome → Option String
  | .unsupportedLanguage language => some ("Not a style sheet (" ++ language ++ "), nothing to do.")
  | .noPropertyAtCursor => some "No property at the cursor, nothing to do."
  | .noActiveEditor | .applied _ | .rejected => none

section Run
variable {m : Type → Type} [Monad m] (files : Storage m) (o : Options)

/-- Tells edits, the text after them and what has been said: prints the one or the other, or writes
the text if there are edits. -/
def Options.tell (edits : List Edit) (text said : Text) : m Report := do
  if o.json then return ⟨0, EditList.encode edits, said⟩
  else if !o.write then return ⟨0, text, said⟩
  else if edits.isEmpty then return ⟨0, [], said⟩
  else match ← files.write o.input text with
    | .ok () => return ⟨0, [], said⟩
    | .error fault =>
      return .failure said ("cannot write " ++ o.input ++ ": " ++ fault.message)

/-- The end of a run whose command ended with `outcome` in the editor `e`. -/
def Options.report (e : Editor) (outcome : Outcome) : m Report :=
  let said := (e.messages ++ (note outcome).toList).flatMap Report.line
  let text := (e.document.map Document.text).getD []
  match outcome with
  | .applied edits => o.tell files edits text said
  | .rejected => return .failure said (o.input ++ " changed while it was being edited")
  | _ => o.tell files [] text said

/-- The run on an input with the given content. -/
def Options.runOn (content : Text) : m Report :=
  match Command.run .editor (o.editor content) with
  | (.error fault, _) => return .failure [] fault.message
  | (.ok outcome, e) => o.report files e outcome

def Options.run : m Report := do
  match ← files.read o.input with
  | .error fault => return .failure [] ("cannot read " ++ o.input ++ ": " ++ fault.message)
  | .ok content => o.runOn files content

/-- The whole run, from the arguments. -/
def run (arguments : List String) : m Report :=
  match Options.ofArguments arguments with
  | .error refusal => return .ofRefusal refusal
  | .ok o => o.run files

end Run
end VendorSync.CommandLine
