import VendorSync.Proofs.Applying
import VendorSync.Proofs.Positions
import VendorSync.Proofs.Transfer

/-! Edits that do not lead a cursor away.

A cursor keeps its line and its character, while the text moves. Edits behind the cursor, and edits on
lines above it that leave as many lines as there were, move the offset of the cursor just as they
move the text there (`Edit.offsetAt_moved`). -/
namespace VendorSync

namespace Text

/-- A position is found in what stands before it, up to the next character: this may end a line that
a carriage return has begun to end. -/
theorem offsetAt_congr {p : Position} {u : Text} {c : Char} (hc : c ≠ '\r') {v : Text}
    (h : offsetAt p (u ++ c :: v) < u.byteLength + c.utf8Size) (v' : Text) :
    offsetAt p (u ++ c :: v') = offsetAt p (u ++ c :: v) := by
  have hone : ('\n' : Char).utf8Size = 1 := by decide
  induction u generalizing p with
  | nil =>
    have hpos := c.utf8Size_pos
    simp only [List.nil_append, offsetAt_cons, byteLength_nil, hc, false_and, or_false] at h ⊢
    by_cases hline : p.line = 0
    · by_cases hbreak : c = '\n'
      · simp [hbreak, hline]
      · by_cases hcharacter : p.character = 0
        · simp [hbreak, hline, hcharacter]
        · simp only [hbreak, hline, hcharacter, ne_eq, not_true_eq_false, if_false] at h
          omega
    · by_cases hbreak : c = '\n'
      · simp only [hbreak, hline, if_true, if_false, hone] at h
        omega
      · simp only [hbreak, hline, ne_eq, not_false_eq_true, if_true, if_false] at h
        omega
  | cons d u ih =>
    have hhead : (u ++ c :: v').head? = (u ++ c :: v).head? := by cases u <;> rfl
    simp only [List.cons_append, offsetAt_cons, byteLength_cons, hhead] at h ⊢
    by_cases hbreak : d = '\n'
    · by_cases hline : p.line = 0
      · simp only [hbreak, hline, if_true]
      · simp only [hbreak, hline, if_true, if_false, hone] at h ⊢
        rw [ih (by omega)]
    · by_cases hline : p.line = 0
      · by_cases hstop : p.character = 0 ∨ d = '\r' ∧ (u ++ c :: v).head? = some '\n'
        · simp only [hstop, hbreak, hline, ne_eq, not_true_eq_false, if_true, if_false]
        · simp only [hstop, hbreak, hline, ne_eq, not_true_eq_false, if_false] at h ⊢
          rw [ih (by omega)]
      · simp only [hbreak, hline, ne_eq, not_false_eq_true, if_true, if_false] at h ⊢
        rw [ih (by omega)]

end Text

namespace Edit

/-- An edit that leaves a position at its place in the text: it stands behind the position and not
directly behind a carriage return, or it stands on lines above and leaves as many. -/
def Keeps (t : Text) (p : Position) (e : Edit) : Prop :=
  t.offsetAt p < e.span.start ∧ (t.takeBytes e.span.start).getLast? ≠ some '\r' ∨
    (t.takeBytes e.span.stop).count '\n' < p.line ∧
      e.replacement.count '\n' = (t.slice e.span).count '\n'

/-- The offset of a position behind a beginning `pre` of the text moves with the text. -/
theorem offsetAt_splice {whole pre t : Text} {edits : List Edit} {p₀ p : Position}
    (h : Laid pre t edits) (hwhole : whole = pre ++ t) (hline : p₀.line = pre.count '\n' + p.line)
    (hoffset : whole.offsetAt p₀ = pre.byteLength + t.offsetAt p)
    (hkeeps : ∀ e ∈ edits, e.Keeps whole p₀) :
    ((splice pre.byteLength t edits).offsetAt p : Int) =
      t.offsetAt p + growth (whole.offsetAt p₀) edits := by
  induction h generalizing p with
  | nil => simp [splice, growth]
  | @cons pre u old c e edits hstart hstop hlaid ih =>
    obtain ⟨hkeep, hkeeps⟩ := List.forall_mem_cons.mp hkeeps
    have hcut : whole = (pre ++ u) ++ (old ++ c) := by rw [hwhole, List.append_assoc]
    have hold : whole.slice e.span = old := by rw [hcut, Text.slice_eq hstart hstop]
    rw [splice_cons hstart hstop]
    rcases hkeep with ⟨hbehind, hreturn⟩ | ⟨habove, hlines⟩
    · -- nothing changes up to a character behind the position
      rw [hcut, hstart, Text.takeBytes_byteLength_append] at hreturn
      have hle := ((Laid.cons hstart hstop hlaid).behind e (List.mem_cons_self ..)).2
      have hgrowth : growth (whole.offsetAt p₀) (e :: edits) = 0 := by
        refine growth_eq_zero (List.forall_mem_cons.mpr ⟨by omega, fun f hf => ?_⟩)
        have := hlaid.behind f hf
        omega
      have hlt : Text.offsetAt p (u ++ (old ++ c)) < u.byteLength := by
        rw [hstart, Text.byteLength_append] at hbehind
        omega
      obtain ⟨u', last, rfl⟩ := (List.eq_nil_or_concat' u).resolve_left (by rintro rfl; simp at hlt)
      rw [hgrowth, Int.add_zero]
      simp only [List.append_assoc, List.singleton_append] at hlt ⊢
      rw [Text.offsetAt_congr _ (by simpa using hlt)]
      rintro rfl
      exact hreturn (by simp)
    · -- the lines down to the end of the edit are passed over, and the other edits stand behind
      have hwhole' : whole = pre ++ u ++ old ++ c := by rw [hcut, List.append_assoc (pre ++ u)]
      rw [hold] at hlines
      rw [hwhole', hstop, Text.takeBytes_byteLength_append] at habove
      simp only [List.count_append] at habove
      have hold_lines : (u ++ old).count '\n' < p.line := by
        rw [List.count_append]
        omega
      have hnew_lines : (u ++ e.replacement).count '\n' = (u ++ old).count '\n' := by
        rw [List.count_append, List.count_append, hlines]
      have hbefore := Text.offsetAt_append hold_lines c
      have hafter := Text.offsetAt_append (hnew_lines ▸ hold_lines)
        (splice (pre ++ u ++ old).byteLength c edits)
      rw [hnew_lines] at hafter
      rw [List.append_assoc] at hbefore hafter
      rw [hbefore] at hoffset ⊢
      rw [hafter]
      have hrest := @ih ⟨p.line - (u ++ old).count '\n', p.character⟩ hwhole'
        (by simp only [List.count_append] at hold_lines ⊢; omega)
        (by rw [hoffset]; simp only [Text.byteLength_append]; omega) hkeeps
      rw [Text.byteLength_append] at hstart
      simp only [Text.byteLength_append] at hstop hoffset hrest ⊢
      rw [growth, if_pos (by omega)]
      omega

/-- **A position leads to its old place in the new text**, if each of the edits leaves it there. -/
theorem offsetAt_moved {t t' : Text} {edits : List Edit} (h : Applicable t edits)
    (happly : t.applyEdits edits = .ok t') {p : Position} (hkeeps : ∀ e ∈ edits, e.Keeps t p) :
    (t'.offsetAt p : Int) = moved edits (t.offsetAt p) := by
  rw [applyEdits_of_applicable h] at happly
  obtain rfl := Except.ok.inj happly
  rw [moved, ← growth_perm (inOrder_perm edits)]
  exact @offsetAt_splice t [] t (inOrder edits) p p h.laid rfl (by simp) (by simp)
    fun e he => hkeeps e (mem_inOrder.mp he)

end Edit
end VendorSync
