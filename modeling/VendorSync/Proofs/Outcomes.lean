import VendorSync.Command
import VendorSync.Proofs.Siblings

/-! How the command ends in an editor.

`Ends` lists the ends with what each leaves in the editor. Every run comes to one of them
(`run_editor`): the edits of a sheet can always be applied to the text that it was read from, and
no one else touches the document in between. -/
namespace VendorSync
open Css

namespace Command

/-- The declaration around the cursor of a document is the node of this number. -/
def DeclaresAtCursor (d : Document) (n : Nat) : Prop :=
  (Sheet.ofText d.text).nodeAt (d.text.offsetAt d.cursor) true = some n ∧
    ∃ node declaration, (Sheet.ofText d.text).node? n = some node ∧
      node.kind = .declaration declaration

/-- How the command ends in an editor, and which editor it leaves. -/
inductive Ends (e : Editor) : Outcome → Editor → Prop
  | noActiveEditor : e.document = none →
      Ends e .noActiveEditor { e with messages := e.messages ++ [noEditorMessage] }
  | unsupportedLanguage {d} : e.document = some d → d.language ∉ Language.styleSheets →
      Ends e (.unsupportedLanguage d.language) e
  | noPropertyAtCursor {d} : e.document = some d → d.language ∈ Language.styleSheets →
      (∀ n, ¬ DeclaresAtCursor d n) → Ends e .noPropertyAtCursor e
  /-- All siblings have the value already. -/
  | nothingToDo {d n} : e.document = some d → d.language ∈ Language.styleSheets →
      DeclaresAtCursor d n → (Sheet.ofText d.text).syncEditsFrom n = some [] →
      Ends e (.applied []) e
  | applied {d n edits text} : e.document = some d → d.language ∈ Language.styleSheets →
      DeclaresAtCursor d n → (Sheet.ofText d.text).syncEditsFrom n = some edits → edits ≠ [] →
      d.text.applyEdits edits = .ok text →
      Ends e (.applied edits)
        { e with document := some { d with text, version := d.version + 1 } }

theorem isStyleSheet_iff {language : String} :
    Language.isStyleSheet language = true ↔ language ∈ Language.styleSheets :=
  List.contains_iff_mem

/-! ### The plan -/

section Plan
variable {d : Document}

/-- The document as the command sees it. -/
def seen (d : Document) : Snapshot := ⟨d.text, d.language, d.version⟩

theorem plan_of_unsupported (h : d.language ∉ Language.styleSheets) (cursor : Option Position) :
    plan (seen d) cursor = .error (.unsupportedLanguage d.language) := by
  have : Language.isStyleSheet d.language = false := by
    rwa [← Bool.not_eq_true, isStyleSheet_iff]
  simp [plan, seen, this]

/-- The edits at the cursor are those of the declaration around it. -/
theorem syncEditsAt_eq_some_iff {t : Text} {offset : Nat} {edits : List Edit} :
    Sheet.syncEditsAt t offset = some edits ↔ ∃ n, (Sheet.ofText t).nodeAt offset true = some n ∧
      (Sheet.ofText t).syncEditsFrom n = some edits := by
  simp [Sheet.syncEditsAt, Option.bind_eq_some_iff]

theorem plan_of_edits {n : Nat} {edits : List Edit} (h : d.language ∈ Language.styleSheets)
    (hn : DeclaresAtCursor d n) (hedits : (Sheet.ofText d.text).syncEditsFrom n = some edits) :
    plan (seen d) (some d.cursor) = .ok edits := by
  have hat := syncEditsAt_eq_some_iff.mpr ⟨n, hn.1, hedits⟩
  simp only [plan, seen, isStyleSheet_iff.mpr h, if_true, Option.bind_some, hat]

theorem plan_of_no_declaration (h : d.language ∈ Language.styleSheets)
    (hno : ∀ n, ¬ DeclaresAtCursor d n) :
    plan (seen d) (some d.cursor) = .error .noPropertyAtCursor := by
  have hat : Sheet.syncEditsAt d.text (d.text.offsetAt d.cursor) = none := by
    rw [Option.eq_none_iff_forall_ne_some]
    intro edits hedits
    obtain ⟨n, hn, hfrom⟩ := syncEditsAt_eq_some_iff.mp hedits
    exact hno n ⟨hn, (Sheet.isSome_syncEditsFrom n).mp (by rw [hfrom]; rfl)⟩
  simp only [plan, seen, isStyleSheet_iff.mpr h, if_true, Option.bind_some, hat]

end Plan

/-! ### The run -/

theorem run_of_none {e : Editor} (h : e.document = none) :
    run .editor e = (.ok .noActiveEditor, { e with messages := e.messages ++ [noEditorMessage] }) := by
  simp [run, Host.editor, h, Editor.showMessage]

section Shown
variable {σ : Type} {host : Host σ} {s : σ} {document : Snapshot}
  (h : host.activeDocument s = some document)
include h

theorem run_of_error {outcome : Outcome} (hplan : plan document (host.cursor s) = .error outcome) :
    run host s = (.ok outcome, s) := by
  simp only [run, h, hplan]

theorem run_of_nil (hplan : plan document (host.cursor s) = .ok []) :
    run host s = (.ok (.applied []), s) := by
  simp only [run, h, hplan]

/-- A run that has edits ends as the host answers their batch. -/
theorem run_of_edits {edits : List Edit} {answer : Except EditFault Bool} {s' : σ}
    (hplan : plan document (host.cursor s) = .ok edits) (hne : edits ≠ [])
    (hbatch : host.applyBatch ⟨document.version, edits⟩ s = (answer, s')) :
    run host s = (answer.map fun done => if done then .applied edits else .rejected, s') := by
  obtain ⟨edit, rest, rfl⟩ := List.exists_cons_of_ne_nil hne
  simp only [run, h, hplan, hbatch]

end Shown

section Open
variable {e : Editor} {d : Document} (h : e.document = some d)
include h

theorem activeDocument_editor : Host.editor.activeDocument e = some (seen d) := by
  simp [Host.editor, h, seen]

theorem cursor_editor : Host.editor.cursor e = some d.cursor := by
  simp [Host.editor, h]

theorem applyBatch_of_text {edits : List Edit} {text : Text} (htext : d.text.applyEdits edits = .ok text) :
    e.applyBatch ⟨d.version, edits⟩ =
      (.ok true, { e with document := some { d with text, version := d.version + 1 } }) := by
  simp [Editor.applyBatch, h, htext]

theorem applyBatch_of_fault {edits : List Edit} {fault : EditFault}
    (hfault : d.text.applyEdits edits = .error fault) :
    e.applyBatch ⟨d.version, edits⟩ = (.error fault, e) := by
  simp [Editor.applyBatch, h, hfault]

end Open

/-- What is left behind is what the run leaves. -/
theorem Ends.run_eq {e e' : Editor} {outcome : Outcome} (h : Ends e outcome e') :
    run .editor e = (.ok outcome, e') := by
  cases h with
  | noActiveEditor hnone => exact run_of_none hnone
  | unsupportedLanguage hd hlanguage =>
    exact run_of_error (activeDocument_editor hd) (plan_of_unsupported hlanguage _)
  | noPropertyAtCursor hd hlanguage hno =>
    exact run_of_error (activeDocument_editor hd)
      (cursor_editor hd ▸ plan_of_no_declaration hlanguage hno)
  | nothingToDo hd hlanguage hn hedits =>
    exact run_of_nil (activeDocument_editor hd) (cursor_editor hd ▸ plan_of_edits hlanguage hn hedits)
  | applied hd hlanguage hn hedits hne htext =>
    exact run_of_edits (activeDocument_editor hd) (cursor_editor hd ▸ plan_of_edits hlanguage hn hedits)
      hne (applyBatch_of_text hd htext)

/-- The edits for a declaration can be applied to the text that it was read from. -/
theorem applyEdits_syncEditsFrom {t : Text} {n : Nat} {edits : List Edit}
    (h : (Sheet.ofText t).syncEditsFrom n = some edits) : ∃ t', t.applyEdits edits = .ok t' := by
  obtain ⟨node, d, hnode, hd⟩ := (Sheet.isSome_syncEditsFrom n).mp (by rw [h]; rfl)
  obtain ⟨block, -, hfrom⟩ := Sheet.syncEditsFrom_of_node? hnode hd
  obtain rfl := Option.some.inj (h.symm.trans hfrom)
  exact ⟨_, Edit.applyEdits_of_applicable (Sheet.applicable_syncEdits t block d.name d.value)⟩

theorem exists_ends (e : Editor) : ∃ outcome e', Ends e outcome e' := by
  cases hd : e.document with
  | none => exact ⟨_, _, .noActiveEditor hd⟩
  | some d =>
    by_cases hlanguage : d.language ∈ Language.styleSheets
    · by_cases hn : ∃ n, DeclaresAtCursor d n
      · obtain ⟨n, hn⟩ := hn
        obtain ⟨edits, hedits⟩ := Option.isSome_iff_exists.mp ((Sheet.isSome_syncEditsFrom n).mpr hn.2)
        by_cases hnil : edits = []
        · subst hnil
          exact ⟨_, _, .nothingToDo hd hlanguage hn hedits⟩
        · obtain ⟨text, htext⟩ := applyEdits_syncEditsFrom hedits
          exact ⟨_, _, .applied hd hlanguage hn hedits hnil htext⟩
      · exact ⟨_, _, .noPropertyAtCursor hd hlanguage (not_exists.mp hn)⟩
    · exact ⟨_, _, .unsupportedLanguage hd hlanguage⟩

/-- **The command comes to an end of its own in every editor**, never with a fault and never
refused, and leaves what goes with this end. -/
theorem run_editor (e : Editor) :
    (∃ outcome e', run .editor e = (.ok outcome, e') ∧ outcome ≠ .rejected) ∧
      ∀ outcome e', run .editor e = (.ok outcome, e') ↔ Ends e outcome e' := by
  obtain ⟨outcome, e', hends⟩ := exists_ends e
  have hrun := hends.run_eq
  refine ⟨⟨outcome, e', hrun, ?_⟩, fun outcome₂ e₂ => ⟨fun h => ?_, Ends.run_eq⟩⟩
  · intro heq
    subst heq
    cases hends
  · rw [hrun, Prod.mk.injEq, Except.ok.injEq] at h
    rwa [← h.1, ← h.2]

end Command
end VendorSync
