import VendorSync.Proofs.Fence
import VendorSync.Proofs.Gaps
import VendorSync.Proofs.Masking
import VendorSync.Text.Edit

/-! Texts in which some values give way to another.

`Swapped` relates the characters and tokens of a text with those of the text in which the values
at some spans are replaced. The new characters are what the edits of these spans write
(`Swapped.splice_eq`). The new tokens are those that are read from them (`Swapped.lex_eq`), as
long as the new value is read as the same tokens in each of the places. -/
namespace VendorSync

/-! ### Writing behind what stays -/

namespace Text

theorem takeBytes_append (a b : Text) (n : Nat) :
    takeBytes (byteLength a + n) (a ++ b) = a ++ takeBytes n b := by
  induction a with
  | nil => rw [byteLength_nil, Nat.zero_add, List.nil_append, List.nil_append]
  | cons c a ih =>
    obtain ⟨k, hk⟩ : ∃ k, byteLength (c :: a) + n = k + 1 :=
      ⟨byteLength (c :: a) + n - 1, by have := c.utf8Size_pos; simp only [byteLength_cons]; omega⟩
    have hrest : k + 1 - c.utf8Size = byteLength a + n := by
      rw [← hk, byteLength_cons]
      omega
    rw [hk, List.cons_append, takeBytes, hrest, ih, List.cons_append]

theorem dropBytes_append (a b : Text) (n : Nat) :
    dropBytes (byteLength a + n) (a ++ b) = dropBytes n b := by
  have h := takeBytes_append_dropBytes (byteLength a + n) (a ++ b)
  rw [takeBytes_append, List.append_assoc] at h
  have h := List.append_cancel_left h
  conv_rhs at h => rw [← takeBytes_append_dropBytes n b]
  exact List.append_cancel_left h

end Text

namespace Edit

/-- Edits behind a beginning of the text leave it as it is. -/
theorem splice_append {pos : Nat} {a b : Text} {edits : List Edit}
    (h : ∀ e ∈ edits, pos + a.byteLength ≤ e.span.start ∧ e.span.start ≤ e.span.stop) :
    splice pos (a ++ b) edits = a ++ splice (pos + a.byteLength) b edits := by
  cases edits with
  | nil => rfl
  | cons e edits =>
    obtain ⟨hstart, hle⟩ := h e (List.mem_cons_self ..)
    have htake : e.span.start - pos = a.byteLength + (e.span.start - (pos + a.byteLength)) := by omega
    have hdrop : e.span.stop - pos = a.byteLength + (e.span.stop - (pos + a.byteLength)) := by omega
    rw [splice, splice, htake, hdrop, Text.takeBytes_append, Text.dropBytes_append]
    simp only [List.append_assoc]

end Edit

namespace Css
open LineComment Token

/-! ### Swapped values -/

/-- The characters and tokens of a text from the offset `pos` on, and those of a text in which
values are replaced by one with the characters `vc` and the tokens `new`: the values at the spans
in the list. Each stands behind a colon, and nothing but white space and comments lies between. -/
inductive Swapped (vc : List Cell) (new : List Token) :
    Nat → List Cell → List Token → List Span → List Cell → List Token → Prop
  | nil {pos} : Swapped vc new pos [] [] [] [] []
  | token {pos x token cs tokens spans cs' tokens'} : blanked x = token.lexeme →
      Swapped vc new (pos + (chars x).byteLength) cs tokens spans cs' tokens' →
      Swapped vc new pos (x ++ cs) (token :: tokens) spans (x ++ cs') (token :: tokens')
  | value {pos cg co ct gap old tail gap' tail' cs tokens spans cs' tokens'} :
      Covers cg gap → Covers co old → Covers ct tail → Regaps gap new tail gap' tail' →
      (∀ token ∈ tokens.head?, token.kind ≠ .whitespace) →
      Swapped vc new (pos + (chars (⟨':', false⟩ :: (cg ++ (co ++ ct)))).byteLength) cs tokens spans
        cs' tokens' →
      Swapped vc new pos (⟨':', false⟩ :: (cg ++ (co ++ (ct ++ cs))))
        (colon :: (gap ++ (old ++ (tail ++ tokens))))
        (⟨pos + (chars (⟨':', false⟩ :: cg)).byteLength,
          pos + (chars (⟨':', false⟩ :: (cg ++ co))).byteLength⟩ :: spans)
        (⟨':', false⟩ :: (cg ++ (vc ++ (ct ++ cs')))) (colon :: (gap' ++ (new ++ (tail' ++ tokens'))))

namespace Swapped
variable {vc : List Cell} {new : List Token} {pos : Nat} {cs cs' : List Cell}
  {tokens tokens' : List Token} {spans : List Span}

/-- Tokens before a text stay as they are. -/
theorem behind {c : List Cell} {a : List Token} (hc : Covers c a)
    (h : Swapped vc new (pos + (chars c).byteLength) cs tokens spans cs' tokens') :
    Swapped vc new pos (c ++ cs) (a ++ tokens) spans (c ++ cs') (a ++ tokens') := by
  induction hc generalizing pos with
  | nil => exact h
  | cons hx _ ih =>
    rw [chars_append, Text.byteLength_append, ← Nat.add_assoc] at h
    rw [List.append_assoc, List.append_assoc]
    exact .token hx (ih h)

theorem refl (pos : Nat) (hcs : Covers cs tokens) : Swapped vc new pos cs tokens [] cs tokens := by
  have hnil : Swapped vc new (pos + (chars cs).byteLength) [] [] [] [] [] := .nil
  simpa using behind hcs hnil

theorem eq_nil (h : Swapped vc new pos cs [] spans cs' tokens') : cs' = [] ∧ tokens' = [] := by
  cases h
  exact ⟨rfl, rfl⟩

theorem append (h : Swapped vc new pos cs tokens spans cs' tokens') {ds ds' : List Cell}
    {us us' : List Token} {spans₂ : List Span}
    (h₂ : Swapped vc new (pos + (chars cs).byteLength) ds us spans₂ ds' us')
    (hus : ∀ token ∈ us.head?, token.kind ≠ .whitespace) :
    Swapped vc new pos (cs ++ ds) (tokens ++ us) (spans ++ spans₂) (cs' ++ ds') (tokens' ++ us') := by
  induction h with
  | nil => exact h₂
  | token hx _ ih =>
    rw [chars_append, Text.byteLength_append, ← Nat.add_assoc] at h₂
    simp only [List.append_assoc, List.cons_append]
    exact .token hx (ih h₂)
  | @value pos cg co ct gap old tail gap' tail' cs tokens spans cs' tokens' hg ho ht hgaps hnext _ ih =>
    have hpos : pos + (chars (⟨':', false⟩ :: (cg ++ (co ++ (ct ++ cs))))).byteLength =
        pos + (chars (⟨':', false⟩ :: (cg ++ (co ++ ct)))).byteLength + (chars cs).byteLength := by
      simp [Nat.add_assoc]
    rw [hpos] at h₂
    simp only [List.append_assoc, List.cons_append]
    refine .value hg ho ht hgaps ?_ (ih h₂)
    cases tokens with
    | nil => exact hus
    | cons token tokens => exact hnext

/-- The new cells are those of the old text and of the value. -/
theorem mem_cells (h : Swapped vc new pos cs tokens spans cs' tokens') :
    ∀ cell ∈ cs', cell ∈ cs ∨ cell ∈ vc := by
  induction h with
  | nil => simp
  | token _ _ ih =>
    intro cell hcell
    rcases List.mem_append.mp hcell with hcell | hcell
    · exact .inl (List.mem_append_left _ hcell)
    · exact (ih cell hcell).imp_left (List.mem_append_right _)
  | value _ _ _ _ _ _ ih =>
    intro cell hcell
    simp only [List.mem_cons, List.mem_append] at hcell ⊢
    rcases hcell with hcell | hcell | hcell | hcell | hcell
    · exact .inl (.inl hcell)
    · exact .inl (.inr (.inl hcell))
    · exact .inr hcell
    · exact .inl (.inr (.inr (.inr (.inl hcell))))
    · exact (ih cell hcell).imp_left fun h => .inr (.inr (.inr (.inr h)))

/-- The texts begin with the same character. -/
theorem head?_eq (h : Swapped vc new pos cs tokens spans cs' tokens') : cs.head? = cs'.head? := by
  induction h with
  | nil => rfl
  | value => rfl
  | @token pos x _ _ _ _ _ _ _ _ ih =>
    cases x with
    | nil => exact ih
    | cons c x => rfl

/-- The spans stand in order, with a character before each. -/
theorem ordered (h : Swapped vc new pos cs tokens spans cs' tokens') :
    (∀ s ∈ spans, pos < s.start ∧ s.start ≤ s.stop) ∧
      spans.Pairwise fun a b => a.stop < b.start := by
  induction h with
  | nil => simp
  | token _ _ ih =>
    refine ⟨fun s hs => ?_, ih.2⟩
    have := ih.1 s hs
    omega
  | @value pos cg co ct _ _ _ _ _ _ _ _ _ _ _ _ _ _ _ _ ih =>
    have hone : (':' : Char).utf8Size = 1 := by decide
    refine ⟨List.forall_mem_cons.mpr ⟨?_, fun s hs => ?_⟩, List.pairwise_cons.mpr ⟨fun s hs => ?_, ih.2⟩⟩
    · simp only [chars_cons, chars_append, Text.byteLength_cons, Text.byteLength_append, hone]
      omega
    · have := ih.1 s hs
      omega
    · have := ih.1 s hs
      simp only [chars_cons, chars_append, Text.byteLength_cons, Text.byteLength_append] at this ⊢
      omega

/-- **The new characters are what the edits write.** -/
theorem splice_eq (h : Swapped vc new pos cs tokens spans cs' tokens') :
    Edit.splice pos (chars cs) (spans.map (⟨·, chars vc⟩)) = chars cs' := by
  induction h with
  | nil => rfl
  | @token pos x _ cs _ spans cs' _ _ hrest ih =>
    rw [chars_append, chars_append, Edit.splice_append, ih]
    intro e he
    obtain ⟨s, hs, rfl⟩ := List.mem_map.mp he
    have := hrest.ordered.1 s hs
    exact ⟨Nat.le_of_lt this.1, this.2⟩
  | @value pos cg co ct _ _ _ _ _ cs _ spans cs' _ _ _ _ _ _ hrest ih =>
    have htail : Edit.splice (pos + (chars (⟨':', false⟩ :: (cg ++ co))).byteLength) (chars (ct ++ cs))
        (spans.map (⟨·, chars vc⟩)) = chars (ct ++ cs') := by
      have hpos : pos + (chars (⟨':', false⟩ :: (cg ++ (co ++ ct)))).byteLength =
          pos + (chars (⟨':', false⟩ :: (cg ++ co))).byteLength + (chars ct).byteLength := by
        simp [Nat.add_assoc]
      rw [hpos] at ih hrest
      rw [chars_append, chars_append, Edit.splice_append, ih]
      intro e he
      obtain ⟨s, hs, rfl⟩ := List.mem_map.mp he
      have := hrest.ordered.1 s hs
      exact ⟨Nat.le_of_lt this.1, this.2⟩
    have htake : Text.takeBytes (chars (⟨':', false⟩ :: cg)).byteLength
        (chars (⟨':', false⟩ :: (cg ++ (co ++ (ct ++ cs))))) = chars (⟨':', false⟩ :: cg) := by
      rw [← List.cons_append, chars_append, Text.takeBytes_byteLength_append]
    have hdrop : Text.dropBytes (chars (⟨':', false⟩ :: (cg ++ co))).byteLength
        (chars (⟨':', false⟩ :: (cg ++ (co ++ (ct ++ cs))))) = chars (ct ++ cs) := by
      have : (⟨':', false⟩ : Cell) :: (cg ++ (co ++ (ct ++ cs))) =
          (⟨':', false⟩ :: (cg ++ co)) ++ (ct ++ cs) := by simp
      rw [this, chars_append, Text.dropBytes_byteLength_append]
    rw [List.map_cons, Edit.splice]
    simp only [Nat.add_sub_cancel_left, htake, hdrop, htail]
    simp

/-! ### Tokens -/

theorem blanked_eq (h : Swapped vc new pos cs tokens spans cs' tokens') (hvc : blanked vc = source new) :
    blanked cs' = source tokens' := by
  induction h with
  | nil => rfl
  | token hx _ ih => rw [blanked_append, hx, ih, source_cons]
  | value hg _ ht hgaps _ _ ih =>
    have hsource := hgaps.source_eq
    simp only [← List.append_assoc] at hsource
    rw [blanked_cons]
    simp only [blanked_append, source_cons, source_append, hg.blanked_eq, ht.blanked_eq, hvc, ih,
      ← List.append_assoc]
    simp only [List.append_assoc, ← hsource]
    rfl

theorem blanked_colon (cs : List Cell) : blanked (⟨':', false⟩ :: cs) = ':' :: blanked cs := rfl

/-- A new value is read in the new text with what stands around it. -/
theorem lex_value {gap old tail gap' tail' : List Token} {t t' : Text}
    (hgaps : Regaps gap new tail gap' tail')
    (hlex : lex (source gap ++ (source old ++ (source tail ++ t))) = gap ++ (old ++ (tail ++ tokens)))
    (hnew : lex (source new ++ (source tail ++ t)) = new ++ lex (source tail ++ t))
    (hnext : ∀ token ∈ tokens.head?, token.kind ≠ .whitespace) (hsame : SameToColon t t')
    (ht' : lex t' = tokens') :
    lex (source gap ++ (source new ++ (source tail ++ t'))) =
      gap' ++ (new ++ (tail' ++ tokens')) := by
  have hbehind : lex (source tail ++ t) = tail ++ tokens := (lex_behind (lex_behind hlex).2).2
  have ht : lex t = tokens := (lex_behind hbehind).2
  have hold : lex (source (new ++ tail) ++ t) = (new ++ tail) ++ lex t := by
    rw [source_append, List.append_assoc, hnew, hbehind, ht, List.append_assoc]
  have hnew' := hsame.lex_append hold
  rw [source_append, List.append_assoc, List.append_assoc] at hnew'
  have hhead : ∀ c ∈ t'.head?, isSpace c = false := by
    rw [← hsame.head?_eq]
    exact head?_not_space ht hnext
  rw [hgaps.lex_eq _ hhead hnew', ht']

/-- **The new tokens are those of the new text**, which is the same up to the first colon behind
which something is replaced. -/
theorem lex_eq (h : Swapped vc new pos cs tokens spans cs' tokens') (hvc : blanked vc = source new)
    (hlex : lex (blanked cs) = tokens)
    (hsite : ∀ s ∈ spans, ∀ a r, blanked cs = a ++ r → pos + a.byteLength = s.stop →
      lex (source new ++ r) = new ++ lex r) :
    lex (blanked cs') = tokens' ∧ SameToColon (blanked cs) (blanked cs') := by
  induction h with
  | nil => exact ⟨hlex, .inl rfl⟩
  | @token pos x token cs tokens spans cs' tokens' hx hrest ih =>
    have hsource : token.lexeme = source [token] := by simp
    rw [blanked_append, hx, hsource] at hlex
    have hcs := (lex_behind hlex).2
    obtain ⟨hcs', hsame⟩ := ih hcs (by
      intro s hs a r hr hstop
      refine hsite s hs (token.lexeme ++ a) r ?_ ?_
      · rw [blanked_append, hx, hr, List.append_assoc]
      · rw [← hstop, ← byteLength_blanked, hx, Text.byteLength_append, Nat.add_assoc])
    have hone : lex (source [token] ++ blanked cs) = [token] ++ lex (blanked cs) := by
      rw [hcs]
      exact hlex
    rw [blanked_append, blanked_append, hx, ← hcs', hsource]
    exact ⟨hsame.lex_append hone, hsame.append hone⟩
  | @value pos cg co ct gap old tail gap' tail' cs tokens spans cs' tokens' hg ho ht hgaps hnext hrest
      ih =>
    have hcells : ∀ {c t}, Covers c t → ∀ r, blanked (⟨':', false⟩ :: (cg ++ (c ++ (ct ++ r)))) =
        ':' :: (source gap ++ (source t ++ (source tail ++ blanked r))) := by
      intro c t hc r
      rw [blanked_colon, blanked_append, blanked_append, blanked_append, hg.blanked_eq,
        hc.blanked_eq, ht.blanked_eq]
    rw [hcells ho, lex_colon, List.cons.injEq] at hlex
    obtain ⟨hcs', hsame⟩ := ih (lex_behind (lex_behind (lex_behind hlex.2).2).2).2 (by
      intro s hs a r hr hstop
      refine hsite s (List.mem_cons_of_mem _ hs)
        (':' :: (source gap ++ (source old ++ (source tail ++ a)))) r ?_ ?_
      · rw [hcells ho, hr]
        simp
      · rw [← hstop]
        simp only [chars_cons, chars_append, Text.byteLength_cons, Text.byteLength_append,
          hg.byteLength_eq, ho.byteLength_eq, ht.byteLength_eq]
        omega)
    have hnew := hsite _ (List.mem_cons_self ..) (':' :: (source gap ++ source old))
      (source tail ++ blanked cs) (by rw [hcells ho]; simp)
      (by simp [hg.byteLength_eq, ho.byteLength_eq])
    refine ⟨?_, .inr ⟨[], _, _, rfl, rfl, rfl⟩⟩
    rw [blanked_colon, lex_colon, blanked_append, blanked_append, blanked_append, hg.blanked_eq, hvc,
      ht.blanked_eq, lex_value hgaps hlex.2 hnew hnext hsame hcs']

end Swapped
end Css
end VendorSync
