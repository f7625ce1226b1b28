import VendorSync.Command

/-! Sessions: what can be done with an editor, step by step. -/
namespace VendorSync

inductive Step where
  | close
  | open (text : Text) (language : String)
  | openAt (text : Text) (language : String) (cursor : Position)
  | setCursor (p : Position)
  | setCursorOffset (offset : Nat)
  | replaceText (text : Text)
  | showMessage (message : String)
  | apply (batch : Batch)
  | run
  /-- Runs the command while someone else replaces the text. -/
  | runRacing (text : Text)
  /-- Runs the command on a view that shows another text. -/
  | runViewing (text : Text)
  | runWithoutCursor
deriving DecidableEq, Repr

/-- What a step answers. -/
inductive Reply where
  | nothing
  | batch (answer : Except EditFault Bool)
  | command (answer : Except EditFault Outcome)

namespace Step

/-- A step that answers nothing leads to this editor. -/
def silently (e : Editor) : Reply × Editor := (.nothing, e)

/-- Takes a step in an editor. -/
def take (e : Editor) : Step → Reply × Editor
  | close => silently .closed
  | .open text language => silently (.opened text language)
  | openAt text language cursor => silently ((Editor.opened text language).setCursor cursor)
  | setCursor p => silently (e.setCursor p)
  | setCursorOffset offset => silently (e.setCursorOffset offset)
  | replaceText text => silently (e.replaceText text)
  | showMessage message => silently (e.showMessage message)
  | apply batch => (e.applyBatch batch).map .batch id
  | run => (Command.run .editor e).map .command id
  | runRacing text => (Command.run (.racing text) e).map .command id
  | runViewing text => (Command.run (.viewing text) e).map .command id
  | runWithoutCursor => (Command.run .withoutCursor e).map .command id

end Step

/-- The answers of a list of steps, each with the editor after it. -/
def Editor.session (e : Editor) : List Step → List (Reply × Editor)
  | [] => []
  | step :: steps => step.take e :: (step.take e).2.session steps

end VendorSync
