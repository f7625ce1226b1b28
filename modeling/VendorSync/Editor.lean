import VendorSync.Text.Edit
import VendorSync.Text.Position

/-! An editor that holds at most one open document.

The version of the document grows by one with every change of its text, and a batch of edits
names the version that it was made for. A batch for another version is refused, and so is
one with a fault; both leave the editor as it is. -/
namespace VendorSync

structure Document where
  text : Text
  language : String
  version : Nat
  cursor : Position
deriving DecidableEq, Repr

/-- Edits made for one version of a document. -/
structure Batch where
  version : Nat
  edits : List Edit
deriving DecidableEq, Repr

structure Editor where
  document : Option Document
  /-- The messages shown so far, the oldest first. -/
  messages : List String
deriving DecidableEq, Repr

namespace Editor

/-- The editor with nothing open. -/
def closed : Editor := ⟨none, []⟩

/-- A fresh editor showing a text, at version 1 and with the cursor at its start. -/
def opened (text : Text) (language : String) : Editor := ⟨some ⟨text, language, 1, .origin⟩, []⟩

def modifyDocument (f : Document → Document) (e : Editor) : Editor :=
  { e with document := e.document.map f }

def setCursor (p : Position) : Editor → Editor := modifyDocument ({ · with cursor := p })

/-- Puts the cursor at an offset of the text. -/
def setCursorOffset (offset : Nat) : Editor → Editor :=
  modifyDocument fun d => { d with cursor := d.text.positionAt offset }

/-- Puts another text in place of the whole document, as if someone else had typed it. -/
def replaceText (text : Text) : Editor → Editor :=
  modifyDocument fun d => { d with text, version := d.version + 1 }

def showMessage (message : String) (e : Editor) : Editor :=
  { e with messages := e.messages ++ [message] }

/-- Applies a batch, and tells whether it was made for the open document as it is. -/
def applyBatch (b : Batch) (e : Editor) : Except EditFault Bool × Editor :=
  match e.document with
  | none => (.ok false, e)
  | some d =>
    if d.version ≠ b.version then (.ok false, e)
    else match d.text.applyEdits b.edits with
      | .error fault => (.error fault, e)
      | .ok text => (.ok true, { e with document := some { d with text, version := d.version + 1 } })

/-- A batch that is not applied changes nothing. -/
theorem applyBatch_eq_self {b : Batch} {e : Editor} (h : (e.applyBatch b).1 ≠ .ok true) :
    (e.applyBatch b).2 = e := by
  unfold applyBatch at h ⊢
  cases hd : e.document with
  | none => rfl
  | some d =>
    simp only [hd] at h ⊢
    by_cases hv : d.version = b.version
    · simp only [hv, ne_eq, not_true_eq_false, if_false] at h ⊢
      split at h <;> simp_all
    · simp [hv]

end Editor
end VendorSync
