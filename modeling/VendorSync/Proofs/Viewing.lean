import VendorSync.Proofs.Outcomes

/-! How the command ends when it is shown another text than the one it edits.

The edits then fit the text that is shown, and nothing can be said of how they fit the one that is there.
`EndsShowing` lists the ends: the batch is applied as a whole or the fault is handed on, and whatever
has no edits to apply leaves the editor as it is (`run_viewing`). -/
namespace VendorSync.Command
open Css

/-- How the command ends in an editor with the document `d` open that shows the text `shown` instead,
and which editor it leaves. -/
inductive EndsShowing (e : Editor) (d : Document) (shown : Text) :
    Except EditFault Outcome → Editor → Prop
  | noPropertyAtCursor : (∀ n, ¬ DeclaresAtCursor { d with text := shown } n) →
      EndsShowing e d shown (.ok .noPropertyAtCursor) e
  /-- All siblings in the text that is shown have the value already. -/
  | nothingToDo {n} : DeclaresAtCursor { d with text := shown } n →
      (Sheet.ofText shown).syncEditsFrom n = some [] → EndsShowing e d shown (.ok (.applied [])) e
  /-- The edits do not fit the text that is there. -/
  | refused {n edits fault} : DeclaresAtCursor { d with text := shown } n →
      (Sheet.ofText shown).syncEditsFrom n = some edits → edits ≠ [] →
      d.text.applyEdits edits = .error fault → EndsShowing e d shown (.error fault) e
  | applied {n edits text} : DeclaresAtCursor { d with text := shown } n →
      (Sheet.ofText shown).syncEditsFrom n = some edits → edits ≠ [] →
      d.text.applyEdits edits = .ok text → EndsShowing e d shown (.ok (.applied edits))
        { e with document := some { d with text, version := d.version + 1 } }

section Viewing
variable {e : Editor} {d : Document} (hd : e.document = some d)
include hd

theorem activeDocument_viewing (shown : Text) :
    (Host.viewing shown).activeDocument e = some (seen { d with text := shown }) := by
  simp [Host.viewing, Host.editor, hd, seen]

theorem cursor_viewing (shown : Text) : (Host.viewing shown).cursor e = some d.cursor := cursor_editor hd

variable {shown : Text} (hlanguage : d.language ∈ Language.styleSheets)
include hlanguage

/-- What is left behind is what the run leaves. -/
theorem EndsShowing.run_eq {answer : Except EditFault Outcome} {e' : Editor}
    (h : EndsShowing e d shown answer e') : run (.viewing shown) e = (answer, e') := by
  have hdocument := activeDocument_viewing hd shown
  have hcursor := cursor_viewing hd shown
  cases h with
  | noPropertyAtCursor hno =>
    exact run_of_error hdocument (hcursor ▸ plan_of_no_declaration hlanguage hno)
  | nothingToDo hn hedits => exact run_of_nil hdocument (hcursor ▸ plan_of_edits hlanguage hn hedits)
  | refused hn hedits hne hfault =>
    exact run_of_edits hdocument (hcursor ▸ plan_of_edits hlanguage hn hedits) hne
      (applyBatch_of_fault hd hfault)
  | applied hn hedits hne htext =>
    exact run_of_edits hdocument (hcursor ▸ plan_of_edits hlanguage hn hedits) hne
      (applyBatch_of_text hd htext)

end Viewing

theorem exists_endsShowing (e : Editor) (d : Document) (shown : Text) :
    ∃ answer e', EndsShowing e d shown answer e' := by
  by_cases hn : ∃ n, DeclaresAtCursor { d with text := shown } n
  · obtain ⟨n, hn⟩ := hn
    obtain ⟨edits, hedits⟩ := Option.isSome_iff_exists.mp ((Sheet.isSome_syncEditsFrom n).mpr hn.2)
    by_cases hnil : edits = []
    · subst hnil
      exact ⟨_, _, .nothingToDo hn hedits⟩
    · cases hanswer : d.text.applyEdits edits with
      | error fault => exact ⟨_, _, .refused hn hedits hnil hanswer⟩
      | ok text => exact ⟨_, _, .applied hn hedits hnil hanswer⟩
  · exact ⟨_, _, .noPropertyAtCursor (not_exists.mp hn)⟩

/-- **A run that fails leaves no trace.** On a view of another text the command comes to one of the ends
listed above, which change the document only together with `applied`; and no batch changes an
editor but one that is answered with `true`. -/
theorem run_viewing {e : Editor} {d : Document} (hd : e.document = some d)
    (hlanguage : d.language ∈ Language.styleSheets) (shown : Text) :
    (∀ answer e', run (.viewing shown) e = (answer, e') ↔ EndsShowing e d shown answer e') ∧
      ∀ (editor : Editor) b, (editor.applyBatch b).2 ≠ editor → (editor.applyBatch b).1 = .ok true := by
  refine ⟨fun answer e' => ⟨fun h => ?_, EndsShowing.run_eq hd hlanguage⟩, fun editor b hne => ?_⟩
  · obtain ⟨answer₁, e₁, hends⟩ := exists_endsShowing e d shown
    rw [hends.run_eq hd hlanguage, Prod.mk.injEq] at h
    rwa [← h.1, ← h.2]
  · by_contra hno
    exact hne (Editor.applyBatch_eq_self hno)

/-- The edits are made for a longer text than the one that is there. The first of them fits, and the
other one, for the second line, does not. -/
theorem run_viewing_of_shorter :
    let d : Document := ⟨"a\x7b-moz-x:1;\x7d".toList, "css", 1, ⟨1, 10⟩⟩
    let e : Editor := ⟨some d, []⟩
    let shown := "a\x7b-moz-x:1;\n-o-x:2;x:333\x7d".toList
    d.language ∈ Language.styleSheets ∧
      (Sheet.ofText shown).syncEditsFrom 4 =
        some [⟨⟨9, 10⟩, "333".toList⟩, ⟨⟨17, 18⟩, "333".toList⟩] ∧
      run (.viewing shown) e = (.error (.outOfBounds ⟨17, 18⟩ 12), e) := by
  intro d e shown
  have hlanguage : d.language ∈ Language.styleSheets := by decide
  have hedits : (Sheet.ofText shown).syncEditsFrom 4 =
      some [⟨⟨9, 10⟩, "333".toList⟩, ⟨⟨17, 18⟩, "333".toList⟩] := by decide +kernel
  have hn : DeclaresAtCursor { d with text := shown } 4 :=
    ⟨by decide +kernel, (Sheet.isSome_syncEditsFrom 4).mp (by rw [hedits]; rfl)⟩
  have hends : EndsShowing e d shown (.error (.outOfBounds ⟨17, 18⟩ 12)) e :=
    .refused hn hedits (by simp) (by decide +kernel)
  exact ⟨hlanguage, hedits, ((run_viewing rfl hlanguage shown).1 _ _).mpr hends⟩

end VendorSync.Command
