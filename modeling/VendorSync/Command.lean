import VendorSync.Host
import VendorSync.Language
import VendorSync.Sync

/-! The command: carry the value of the declaration at the cursor over to its siblings. -/
namespace VendorSync

/-- How the command ended. -/
inductive Outcome where
  | noActiveEditor
  | unsupportedLanguage (language : String)
  | noPropertyAtCursor
  /-- The edits that were made, if there were any to make. -/
  | applied (edits : List Edit)
  /-- The document changed in the meantime, and the host refused the edits. -/
  | rejected
deriving DecidableEq, Repr

namespace Command

def noEditorMessage : String := "No editor is active."

/-- The edits for a document and its cursor, or else why there are none. -/
def plan (document : Snapshot) (cursor : Option Position) : Except Outcome (List Edit) :=
  if Language.isStyleSheet document.language then
    match cursor.bind fun p => Css.Sheet.syncEditsAt document.text (document.text.offsetAt p) with
    | some edits => .ok edits
    | none => .error .noPropertyAtCursor
  else .error (.unsupportedLanguage document.language)

/-- Runs the command in a host. An empty list of edits is not handed to the host. -/
def run {σ : Type} (host : Host σ) (s : σ) : Except EditFault Outcome × σ :=
  match host.activeDocument s with
  | none => (.ok .noActiveEditor, host.showMessage noEditorMessage s)
  | some document =>
    match plan document (host.cursor s) with
    | .error outcome => (.ok outcome, s)
    | .ok [] => (.ok (.applied []), s)
    | .ok edits =>
      let (answer, s) := host.applyBatch ⟨document.version, edits⟩ s
      (answer.map fun done => if done then .applied edits else .rejected, s)

end Command
end VendorSync
