import VendorSync.Editor

/-! What a command needs from the editor that it runs in.

A host is a state together with the four things that a command may ask of it. The editor of
this library is one; others stand between it and the command, and show what happens when
the document changes while the command runs, when the command sees another text than the
one it edits, and when there is no cursor. -/
namespace VendorSync

/-- The active document as a command sees it. -/
structure Snapshot where
  text : Text
  language : String
  version : Nat
deriving DecidableEq, Repr

structure Host (σ : Type) where
  activeDocument : σ → Option Snapshot
  cursor : σ → Option Position
  applyBatch : Batch → σ → Except EditFault Bool × σ
  showMessage : String → σ → σ

namespace Host

def editor : Host Editor where
  activeDocument e := e.document.map fun d => ⟨d.text, d.language, d.version⟩
  cursor e := e.document.map Document.cursor
  applyBatch b e := e.applyBatch b
  showMessage m e := e.showMessage m

/-- Someone else replaces the text just before a batch arrives. -/
def racing (text : Text) : Host Editor :=
  { editor with applyBatch := fun b e => (e.replaceText text).applyBatch b }

/-- The open document shows another text than it has. -/
def viewing (text : Text) : Host Editor :=
  { editor with activeDocument := fun e => (editor.activeDocument e).map ({ · with text }) }

def withoutCursor : Host Editor := { editor with cursor := fun _ => none }

end Host
end VendorSync
