import VendorSync.Proofs.Finding
import VendorSync.Proofs.Lines
import VendorSync.Proofs.Outcomes

/-! Running the command again.

A run that edits nothing leaves the editor to the next one as it was. After one that edits, the
cursor is still at its line and column, while the text around it may have moved, so that the next
run can meet another declaration and edit that (`run_again_of_other_declaration`). It has nothing to
do if the values are read as they were in their new places and the cursor still leads to its place in
the text, or else to another declaration that now has the value (`run_again`). The cursor does so if
the edits before it stand on lines above and leave as many (`Edit.offsetAt_moved`). -/
namespace VendorSync
open Css LineComment Token

namespace Css.Sheet
variable {t t' : Text}

/-- Declaration `m` of a new sheet has the value of declaration `n` of the old one, and stands in the
same block under the same base name. If its mark is another, then the first declaration by the name
of `n` had that value too. -/
def InLine (old new : Sheet) (n m : Nat) : Prop :=
  ∃ a d b d', old.node? n = some a ∧ a.kind = .declaration d ∧
    new.node? m = some b ∧ b.kind = .declaration d' ∧ b.parent = a.parent ∧
    Vendor.baseName d'.name = Vendor.baseName d.name ∧ d'.value = d.value ∧
    (d'.name = d.name ∨ ∀ block first, a.parent = some block →
      FirstDeclares (old.children block) d.name first → first.value = d.value)

/-- A declaration that is in line calls for no edits. -/
theorem syncEditsFrom_of_inLine {n m : Nat} {edits : List Edit}
    (hedits : (ofText t).syncEditsFrom n = some edits) (hne : edits ≠ [])
    (htransfers : ∀ node d, (ofText t).node? n = some node → node.kind = .declaration d →
      ∀ e ∈ edits, Transfers t d.valueSpan e.span)
    (happly : t.applyEdits edits = .ok t') (hline : InLine (ofText t) (ofText t') n m) :
    (ofText t').syncEditsFrom m = some [] := by
  obtain ⟨a, d, b, d', ha, hd, hb, hd', hparent, hbase, hvalue, hfirst⟩ := hline
  obtain ⟨block, hblock, hfrom⟩ := syncEditsFrom_of_node? ha hd
  obtain rfl := Option.some.inj (hedits.symm.trans hfrom)
  obtain ⟨t₁, happly₁, hbecomes⟩ := becomes_of_transfers ha hd hne (htransfers a d ha hd)
  obtain rfl := Except.ok.inj (happly.symm.trans happly₁)
  obtain ⟨block', hblock', hfrom'⟩ := syncEditsFrom_of_node? hb hd'
  obtain rfl := Option.some.inj (hblock'.symm.trans (hparent.trans hblock))
  rw [hfrom', Option.some.injEq, hvalue]
  refine List.filterMap_eq_nil_iff.mpr fun v hv => syncEdit_eq_none.mpr fun d₂ hd₂ => ?_
  rw [hbase] at hd₂
  obtain ⟨d₁, hd₁, hchanged, hkept⟩ := firstDeclares_of_becomes (hbecomes.children block') hd₂
  by_cases hedited : ∃ e ∈ (ofText t).syncEdits block' d.name d.value, e.span = d₁.valueSpan
  · exact hchanged hedited
  · -- a value that was not written is that of `d` already, or goes by the mark of `d`
    rw [hkept hedited]
    by_contra hother
    by_cases hmark : v = Vendor.ofName d.name
    · subst hmark
      rw [Vendor.mark_append_base] at hd₁
      rcases hfirst with hname | hfirst
      · simp [hname] at hv
      · exact hother (hfirst block' d₁ hblock hd₁)
    · refine hedited ⟨⟨d₁.valueSpan, d.value⟩, List.mem_filterMap.mpr ⟨v, ?_, ?_⟩, rfl⟩
      · simpa [Vendor.mem_all] using hmark
      · exact syncEdit_eq_some.mpr ⟨d₁, hd₁, hother, rfl⟩

/-- The offset 11 was in the second declaration before the value of the first one grew. -/
example : let sheet := ofText "a\x7b-ms-x:f(2222222);x:f(2222222)\x7d".toList
    sheet.nodeAt 11 true = some 2 ∧ sheet.syncEditsFrom 2 = some [] := by
  decide +kernel

/-- The declaration that the value comes from is in line with itself. -/
theorem inLine_self {n block : Nat} {node : Node} {d : Declaration}
    (hnode : (ofText t).node? n = some node) (hd : node.kind = .declaration d)
    (hne : (ofText t).syncEdits block d.name d.value ≠ [])
    (htransfers : ∀ e ∈ (ofText t).syncEdits block d.name d.value, Transfers t d.valueSpan e.span)
    (happly : t.applyEdits ((ofText t).syncEdits block d.name d.value) = .ok t') :
    (ofText t).InLine (ofText t') n n := by
  obtain ⟨t₁, happly₁, hbecomes⟩ := becomes_of_transfers hnode hd hne htransfers
  obtain rfl := Except.ok.inj (happly.symm.trans happly₁)
  obtain ⟨node', hnode', hkind, hparent⟩ := hbecomes.node? hnode
  rw [hd] at hkind
  obtain ⟨d', hd', hname, hchanged, hkept⟩ := hkind.exists_right
  refine ⟨node, d, node', d', hnode, hd, hnode', hd', hparent.symm, hname ▸ rfl, ?_, .inl hname⟩
  by_cases hP : ∃ e ∈ (ofText t).syncEdits block d.name d.value, e.span = d.valueSpan
  · exact hchanged hP
  · exact hkept hP

end Css.Sheet

/-- How a run ends that finds everything as a run with this outcome left it. -/
def Outcome.again : Outcome → Outcome
  | applied _ => applied []
  | outcome => outcome

namespace Command

/-- The edits for the declaration at the cursor of a document are settled by the text after them: the
value is read in each of its new places as where it stands, and the cursor, which is not moved, leads
to the place to which the edits have moved the text there, or else to a declaration that is in line
with the one it came from. -/
def Settles (d : Document) (edits : List Edit) (t' : Text) : Prop :=
  ∃ n, DeclaresAtCursor d n ∧
    (∀ node declaration, (Sheet.ofText d.text).node? n = some node →
      node.kind = .declaration declaration →
        ∀ e ∈ edits, Transfers d.text declaration.valueSpan e.span) ∧
    ((t'.offsetAt d.cursor : Int) = Edit.moved edits (d.text.offsetAt d.cursor) ∨
      ∃ m, (Sheet.ofText t').nodeAt (t'.offsetAt d.cursor) true = some m ∧
        (Sheet.ofText d.text).InLine (Sheet.ofText t') n m)

/-- Then the cursor leads to a declaration that is in line in any case. -/
theorem Settles.exists_inLine {d : Document} {n : Nat} {edits : List Edit} {t' : Text}
    (h : Settles d edits t') (hn : DeclaresAtCursor d n)
    (hedits : (Sheet.ofText d.text).syncEditsFrom n = some edits) (hne : edits ≠ [])
    (happly : d.text.applyEdits edits = .ok t') :
    (∀ node declaration, (Sheet.ofText d.text).node? n = some node →
      node.kind = .declaration declaration →
        ∀ e ∈ edits, Transfers d.text declaration.valueSpan e.span) ∧
    ∃ m, (Sheet.ofText t').nodeAt (t'.offsetAt d.cursor) true = some m ∧
      (Sheet.ofText d.text).InLine (Sheet.ofText t') n m := by
  obtain ⟨n', hn', htransfers, hcursor⟩ := h
  obtain rfl : n = n' := Option.some.inj (hn.1.symm.trans hn'.1)
  refine ⟨htransfers, hcursor.elim (fun hmoved => ⟨n, ?_⟩) id⟩
  obtain ⟨hat, node, declaration, hnode, hdeclaration⟩ := hn
  obtain ⟨block, hblock, hfrom⟩ := Sheet.syncEditsFrom_of_node? hnode hdeclaration
  obtain rfl := Option.some.inj (hedits.symm.trans hfrom)
  have htransfers := htransfers node declaration hnode hdeclaration
  exact ⟨Sheet.nodeAt_of_transfers hat hnode hblock hdeclaration hne htransfers happly hmoved,
    Sheet.inLine_self hnode hdeclaration hne htransfers happly⟩

/-- **A second run changes nothing more**, and ends as the first one did but for its edits: after a
first run without edits always, and after one with edits if these are settled. -/
theorem run_again {e : Editor} {d : Document} (hopen : e.document = some d)
    (hsettles : ∀ edits t', (run .editor e).1 = .ok (.applied edits) → edits ≠ [] →
      d.text.applyEdits edits = .ok t' → Settles d edits t') :
    ∃ outcome, (run .editor e).1 = .ok outcome ∧
      run .editor (run .editor e).2 = (.ok outcome.again, (run .editor e).2) := by
  obtain ⟨outcome, e₁, hends⟩ := exists_ends e
  have hrun := hends.run_eq
  rw [hrun] at hsettles ⊢
  refine ⟨outcome, rfl, ?_⟩
  have hsame : ∀ {d' : Document}, e.document = some d' → d' = d := fun h =>
    Option.some.inj (h.symm.trans hopen)
  cases hends with
  | noActiveEditor hnone => rw [hopen] at hnone; cases hnone
  | unsupportedLanguage hd hother => exact hrun
  | noPropertyAtCursor hd hlanguage hno => exact hrun
  | nothingToDo hd hlanguage hn hedits => exact hrun
  | @applied d' n edits text hd hlanguage hn hedits hne htext =>
    obtain rfl := hsame hd
    obtain ⟨htransfers, m, hm, hline⟩ :=
      (hsettles edits text rfl hne htext).exists_inLine hn hedits hne htext
    have hnothing := Sheet.syncEditsFrom_of_inLine hedits hne htransfers htext hline
    obtain ⟨_, _, node, declaration, _, _, hnode, hdeclaration, -⟩ := hline
    exact run_of_nil rfl (plan_of_edits hlanguage ⟨hm, node, declaration, hnode, hdeclaration⟩ hnothing)

/-- The sibling stands on a line above, so that the cursor leads to its place. -/
theorem run_again_of_lines :
    let e := (Editor.opened "a\x7b-ms-x:1;\nx:f(2)\x7d".toList "css").setCursorOffset 11
    (run .editor e).1 = .ok (.applied [⟨⟨8, 9⟩, "f(2)".toList⟩]) ∧
      run .editor (run .editor e).2 = (.ok (.applied []), (run .editor e).2) := by
  intro e
  have hopen : e.document = some ⟨"a\x7b-ms-x:1;\nx:f(2)\x7d".toList, "css", 1, ⟨1, 0⟩⟩ := by
    decide +kernel
  have hfirst : (run .editor e).1 = .ok (.applied [⟨⟨8, 9⟩, "f(2)".toList⟩]) := by
    decide +kernel
  have hx : (Sheet.ofText "a\x7b-ms-x:1;\nx:f(2)\x7d".toList).node? 3 =
      some ⟨⟨.declaration ⟨['x'], ⟨11, 12⟩, "f(2)".toList, ⟨13, 17⟩⟩, ⟨11, 17⟩⟩, some 1⟩ := by
    decide +kernel
  have hsettles : ∀ edits t', (run .editor e).1 = .ok (.applied edits) → edits ≠ [] →
      Text.applyEdits "a\x7b-ms-x:1;\nx:f(2)\x7d".toList edits = .ok t' →
      Settles ⟨"a\x7b-ms-x:1;\nx:f(2)\x7d".toList, "css", 1, ⟨1, 0⟩⟩ edits t' := by
    intro edits t' hedits _ happly
    obtain rfl := Outcome.applied.inj (Except.ok.inj (hfirst.symm.trans hedits))
    refine ⟨3, ⟨by decide +kernel, _, _, hx, rfl⟩, fun node declaration hnode hdeclaration e he => ?_,
      .inl (Edit.offsetAt_moved ?_ happly ?_)⟩
    · obtain rfl := Option.some.inj (hx.symm.trans hnode)
      cases hdeclaration
      obtain rfl := List.mem_singleton.mp he
      refine ⟨cells "a\x7b-ms-x:1;\nx:".toList, cells "f(2)".toList, cells ['\x7d'],
        cells "a\x7b-ms-x:".toList, cells ['1'], cells ";\nx:f(2)\x7d".toList, ?_, ?_, ?_,
        lex "f(2)".toList, ?_⟩
      · exact ⟨by decide +kernel, by decide +kernel, by decide +kernel⟩
      · exact ⟨by decide +kernel, by decide +kernel, by decide +kernel⟩
      · exact ⟨by decide +kernel, by decide +kernel⟩
      · decide +kernel
    · exact ⟨by decide +kernel, by decide +kernel, List.pairwise_singleton ..⟩
    · exact List.forall_mem_singleton.mpr (.inr ⟨by decide +kernel, by decide +kernel⟩)
  obtain ⟨outcome, houtcome, hagain⟩ := run_again hopen hsettles
  obtain rfl := Except.ok.inj (hfirst.symm.trans houtcome)
  exact ⟨hfirst, hagain⟩

/-- Without such a declaration the second run may write again. In the first text the value before the
declaration grows, and the cursor meets a declaration of another name, whose value is then put over
that of its sibling. In the second the value is an escape, which takes in the blank behind its new
place. -/
theorem run_again_of_other_declaration :
    let moved := (Editor.opened "a\x7b-moz-x:1;-moz-y:1;y:2;x:33333333333333\x7d".toList
      "css").setCursorOffset 26
    let escaped := (Editor.opened "a\x7bx:\\31;-moz-x:2 ;\x7d".toList "css").setCursorOffset 2
    ((run .editor moved).1 = .ok (.applied [⟨⟨9, 10⟩, "33333333333333".toList⟩]) ∧
      (run .editor (run .editor moved).2).1 = .ok (.applied [⟨⟨35, 36⟩, ['1']⟩])) ∧
    (run .editor escaped).1 = .ok (.applied [⟨⟨15, 16⟩, "\\31".toList⟩]) ∧
      (run .editor (run .editor escaped).2).1 = .ok (.applied [⟨⟨15, 19⟩, "\\31".toList⟩]) := by
  refine ⟨⟨?_, ?_⟩, ?_, ?_⟩
  all_goals decide +kernel

end Command
end VendorSync
