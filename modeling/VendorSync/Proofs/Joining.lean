import VendorSync.Proofs.Locality
import VendorSync.Proofs.Sealing

/-! Two texts one behind the other.

If the first text ends with a statement and no line comment goes from the one into the other, then
the sheet of both texts together has the nodes of the first and behind them those of the second,
moved to where the second now stands (`forest_append`). The tokens are those of both texts
(`lex_append_of_last`), they make up the units of both (`ofTokens_append`), and no unit is read
differently in another place (`Reads.shift`). -/
namespace VendorSync.Css
open LineComment Token

/-! ### Moving nodes -/

def Item.shift (k : Nat) (item : Item) : Item := ⟨item.kind.shift k, item.span.shift k⟩

/-- Nodes moved to the right, with all spans in them. -/
def Forest.shift (k : Nat) : Forest → Forest
  | nil => nil
  | cons item children rest => cons (item.shift k) (children.shift k) (rest.shift k)

@[simp] theorem Kind.shift_zero (kind : Kind) : kind.shift 0 = kind := by
  cases kind <;> rfl

namespace Forest

@[simp] theorem shift_zero (f : Forest) : f.shift 0 = f := by
  induction f with
  | nil => rfl
  | cons item children rest ih₁ ih₂ =>
    rw [shift, ih₁, ih₂, Item.shift, Kind.shift_zero]
    rfl

theorem shift_append (k : Nat) (f g : Forest) :
    (f.append g).shift k = (f.shift k).append (g.shift k) := by
  induction f with
  | nil => rfl
  | cons item children rest _ ih => simp only [append, shift, ih]

theorem shift_comments (k : Nat) (spans : List Span) :
    (comments spans).shift k = comments (spans.map (Span.shift k)) := by
  induction spans with
  | nil => rfl
  | cons s spans ih => exact congrArg (cons _ .nil) ih

end Forest

/-! ### The end of a statement -/

namespace Units

/-- The last of the units ends a statement: it is a semicolon, or a block that is closed. -/
inductive EndsStatement : Units → Prop
  | semicolon {token} : token.kind = .semicolon → EndsStatement (leaf token nil)
  | closed {opener inside closer} : EndsStatement (block opener inside (some closer) nil)
  | leaf {token rest} : EndsStatement rest → EndsStatement (leaf token rest)
  | group {opener inside closer rest} : EndsStatement rest →
      EndsStatement (group opener inside closer rest)
  | block {opener inside closer rest} : EndsStatement rest →
      EndsStatement (block opener inside closer rest)

theorem EndsStatement.ne_nil {u : Units} (h : EndsStatement u) : u ≠ nil := by
  cases h <;> simp

theorem toTokens_append (u v : Units) : (u.append v).toTokens = u.toTokens ++ v.toTokens := by
  induction u with
  | nil => rfl
  | leaf t rest ih => rw [append, toTokens, toTokens, ih, List.cons_append]
  | group opener inside closer rest _ ih | block opener inside closer rest _ ih =>
    simp only [append, toTokens, ih, List.cons_append, List.append_assoc]

/-- What ends a bracket before some units ends it before more of them. -/
theorem EndsStatement.ends {bracket : Bracket} {inside rest : Units} {closer : Option Token}
    (h : EndsStatement rest) (hends : Ends bracket inside closer rest) (v : Units) :
    Ends bracket inside closer (rest.append v) := by
  cases closer with
  | none => exact absurd hends h.ne_nil
  | some c => exact hends

/-- Behind the end of a statement everything may stand that may stand at the start. -/
theorem EndsStatement.nested_append {u v : Units} {around : Option Bracket} {marked : Bool}
    (h : EndsStatement u) (hu : Nested around marked u) (hv : Nested around false v) :
    Nested around marked (u.append v) := by
  induction h generalizing around marked with
  | @semicolon token hkind =>
    cases hu with
    | leaf hopens hcloses _ =>
      have hmark : token.marksInterpolation = false := by simp [marksInterpolation, hkind]
      exact .leaf hopens hcloses (hmark ▸ hv)
  | closed =>
    cases hu with
    | block hopens hinside hends _ => exact .block hopens hinside hends hv
  | leaf _ ih =>
    cases hu with
    | leaf hopens hcloses hrest => exact .leaf hopens hcloses (ih hrest hv)
  | group hends ih =>
    cases hu with
    | group hopens hmarked hinside hcloser hrest =>
      exact .group hopens hmarked hinside (hends.ends hcloser v) (ih hrest hv)
  | block hends ih =>
    cases hu with
    | block hopens hinside hcloser hrest =>
      exact .block hopens hinside (hends.ends hcloser v) (ih hrest hv)

/-- Units that end a statement before the units of further tokens. -/
theorem ofTokens_append {a : List Token} (h : (ofTokens a).EndsStatement) (b : List Token) :
    ofTokens (a ++ b) = (ofTokens a).append (ofTokens b) := by
  rw [ofTokens_eq_iff, toTokens_append, toTokens_ofTokens, toTokens_ofTokens]
  exact ⟨rfl, h.nested_append (nested_ofTokens a) (nested_ofTokens b)⟩

/-- The last token of units that end a statement. -/
theorem EndsStatement.exists_last {u : Units} {around : Option Bracket} {marked : Bool}
    (h : EndsStatement u) (hu : Nested around marked u) : ∃ init last,
      u.toTokens = init ++ [last] ∧ (last.kind = .semicolon ∨ last.kind = .closer .curly) := by
  induction h generalizing around marked with
  | @semicolon token hkind => exact ⟨[], token, rfl, .inl hkind⟩
  | @closed opener inside closer =>
    cases hu with
    | block _ _ hends _ =>
      exact ⟨opener :: inside.toTokens, closer, by simp [toTokens], .inr (kind_of_closes hends.1)⟩
  | @leaf token rest _ ih =>
    cases hu with
    | leaf _ _ hrest =>
      obtain ⟨init, last, htokens, hlast⟩ := ih hrest
      exact ⟨token :: init, last, by rw [toTokens, htokens, List.cons_append], hlast⟩
  | @group opener inside closer rest _ ih =>
    cases hu with
    | group _ _ _ _ hrest =>
      obtain ⟨init, last, htokens, hlast⟩ := ih hrest
      exact ⟨opener :: (inside.toTokens ++ (closer.toList ++ init)), last,
        by simp [toTokens, htokens], hlast⟩
  | @block opener inside closer rest _ ih =>
    cases hu with
    | block _ _ _ hrest =>
      obtain ⟨init, last, htokens, hlast⟩ := ih hrest
      exact ⟨opener :: (inside.toTokens ++ (closer.toList ++ init)), last,
        by simp [toTokens, htokens], hlast⟩

end Units

namespace Forest
variable {source : Source}

/-- Behind the end of a statement the nodes are read as at the start of a level. -/
theorem ofUnits_append {u : Units} (h : u.EndsStatement) (v : Units) (pos : Nat)
    (parts : List Part) :
    ofUnits source pos parts (u.append v) =
      (ofUnits source pos parts u).append (ofUnits source (pos + u.byteLength) [] v) := by
  induction h generalizing pos parts with
  | @semicolon token hkind =>
    simp only [Units.append, ofUnits, hkind, Role.ofKind, Units.byteLength, Nat.add_zero]
    exact Statement.conclude_append ..
  | @closed opener inside closer =>
    simp only [Units.append, ofUnits, append]
    rfl
  | @leaf token rest _ ih =>
    rw [Units.append, Units.byteLength, ← Nat.add_assoc]
    simp only [ofUnits]
    cases Role.ofKind token.kind with
    | space =>
      simp only [ih]
      split
      · rw [lineComments_eq, lineComments_eq, append_assoc]
      · rfl
    | comment =>
      simp only [ih]
      split <;> rfl
    | semicolon | strayBrace =>
      simp only [ih]
      rw [Statement.conclude_append, Statement.conclude_append _ _ _ (ofUnits ..), append_assoc]
    | part isColon => exact ih _ _
  | @group opener inside closer rest _ ih =>
    simp only [Units.append, ofUnits, ih]
    simp [Units.byteLength, Nat.add_assoc]
  | @block opener inside closer rest _ ih =>
    simp only [Units.append, ofUnits, append, ih]
    rw [Units.byteLength_block _ _ _ rest, Nat.add_assoc]

end Forest

/-! ### Reading in another place -/

section Shift
variable {c x y : Text}

theorem Source.Fits.placed {source : Source} {pos : Nat} {body : List Segment}
    (h : source.Fits pos (body.flatMap Segment.toTokens)) :
    Statement.Placed source.text (partsOf pos body) where
  ordered := by
    obtain ⟨a, b, htext, hlen⟩ := Text.isBoundary_iff.mp h.stop
    refine (ordered_parts h).mono (Nat.zero_le _) ?_
    rw [htext, Text.byteLength_append, ← hlen, byteLength_body]
    exact Nat.le_add_right ..
  sound := sound_parts h

theorem Statement.Concludes.shift {cut : Option Nat} {parts : List Part} {own : Forest}
    (h : Concludes c cut parts own) (hplaced : Placed c parts) :
    Concludes (x ++ (c ++ y)) (cut.map (· + x.byteLength)) (parts.map (Part.shift x.byteLength))
      (own.shift x.byteLength) := by
  rw [concludes_iff] at h ⊢
  subst h
  cases parts with
  | nil => rfl
  | cons first others =>
    have hkind := kind_shift (x := x) (y := y) hplaced
    have hstop := stop_shift x.byteLength first others
    simp only [List.map_cons, conclude, Forest.shift, Item.shift, hkind, hstop]
    cases cut <;> rfl

theorem Statement.Heads.shift {parts : List Part} {brace : Nat} {kind : Kind}
    (h : Heads c (headerSpan parts brace) kind) (hplaced : Placed c parts) :
    Heads (x ++ (c ++ y)) (headerSpan (parts.map (Part.shift x.byteLength)) (brace + x.byteLength))
      (kind.shift x.byteLength) := by
  rw [heads_iff] at h ⊢
  rw [h, headerSpan_shift, blockKind_shift hplaced]

end Shift

/-- A text between others, with its comments between theirs. -/
def Source.inside (x : Text) (before : List Span) (source : Source) (y : Text) (behind : List Span) :
    Source :=
  ⟨x ++ (source.text ++ y), before ++ (source.comments.map (Span.shift x.byteLength) ++ behind)⟩

section Inside
variable {source : Source} {x y : Text} {before behind : List Span}
  (hbefore : ∀ s ∈ before, s.start < x.byteLength)
  (hbehind : ∀ s ∈ behind, x.byteLength + source.text.byteLength ≤ s.start)
include hbefore hbehind

theorem leadingComments_inside {pos : Nat} {body : List Segment}
    (hfits : source.Fits pos (body.flatMap Segment.toTokens)) :
    leadingComments (source.inside x before y behind) (pos + x.byteLength) body =
      (leadingComments source pos body).map (Span.shift x.byteLength) := by
  refine leadingComments_window hbefore fun s hs => ?_
  obtain ⟨a, b, htext, hlen⟩ := Text.isBoundary_iff.mp hfits.stop
  have := hbehind s hs
  rw [htext, Text.byteLength_append, ← hlen, byteLength_body] at this
  omega

/-- **Units are read in the same way between other texts**, as nodes that are moved. -/
theorem Reads.shift {pos : Nat} {u : Units} {f : Forest} (h : Reads source pos u f)
    (hfits : source.Fits pos u.toTokens) :
    Reads (source.inside x before y behind) (pos + x.byteLength) u (f.shift x.byteLength) := by
  induction h with
  | @finish pos body own hbody hown =>
    have hpiece := hfits.piece.1
    have hown := hown.shift (x := x) (y := y) hpiece.placed
    rw [← partsOf_shift] at hown
    rw [Forest.shift_append, Forest.shift_comments,
      ← leadingComments_inside (y := y) hbefore hbehind hpiece]
    exact .finish hbody hown
  | @semicolon pos body own token rest after hbody hkind hown _ ih =>
    obtain ⟨hpiece, hrest⟩ := hfits.piece
    have hown := hown.shift (x := x) (y := y) hpiece.placed
    have hafter := ih hrest.behind_leaf
    have hpos : pos + bodyLength body + token.byteLength + x.byteLength =
        pos + x.byteLength + bodyLength body + token.byteLength := by omega
    rw [← partsOf_shift, Option.map_some, hpos] at hown
    rw [hpos] at hafter
    rw [Forest.shift_append, Forest.shift_append, Forest.shift_comments,
      ← leadingComments_inside (y := y) hbefore hbehind hpiece]
    exact .semicolon hbody hkind hown hafter
  | @strayBrace pos body own token rest after hbody hkind hown _ ih =>
    obtain ⟨hpiece, hrest⟩ := hfits.piece
    have hown := hown.shift (x := x) (y := y) hpiece.placed
    have hafter := ih hrest.behind_leaf
    have hpos : pos + bodyLength body + token.byteLength + x.byteLength =
        pos + x.byteLength + bodyLength body + token.byteLength := by omega
    rw [← partsOf_shift] at hown
    rw [hpos] at hafter
    rw [Forest.shift_append, Forest.shift_append, Forest.shift_comments,
      ← leadingComments_inside (y := y) hbefore hbehind hpiece]
    exact .strayBrace hbody hkind hown hafter
  | @block pos body kind opener inside closer rest children after hbody hhead _ _ ih₁ ih₂ =>
    obtain ⟨hpiece, hrest⟩ := hfits.piece
    have hhead := hhead.shift (x := x) (y := y) hpiece.placed
    have hchildren := ih₁ hrest.inside_block
    have hafter := ih₂ hrest.behind_block
    have hbrace : pos + bodyLength body + x.byteLength = pos + x.byteLength + bodyLength body := by
      omega
    have hstop : pos + bodyLength body + (Units.block opener inside closer .nil).byteLength +
        x.byteLength =
          pos + x.byteLength + bodyLength body + (Units.block opener inside closer .nil).byteLength := by
      omega
    have hheader := Statement.headerSpan_shift x.byteLength (pos + bodyLength body) (partsOf pos body)
    rw [← partsOf_shift, hbrace] at hhead hheader
    rw [Nat.add_right_comm, hbrace] at hchildren
    rw [hstop] at hafter
    have hread : Reads _ _ (.prepend body (.block opener inside closer rest)) _ :=
      .block hbody hhead hchildren hafter
    rw [hheader, ← hstop] at hread
    rw [Forest.shift_append, Forest.shift_comments,
      ← leadingComments_inside (y := y) hbefore hbehind hpiece]
    exact hread

end Inside

/-! ### Both texts -/

namespace Token

theorem fence_semicolon : Fence ';' where
  toHalts := halts_semicolon
  space := by decide
  newline := by decide
  hex := by decide
  quotes := by decide

theorem fence_brace : Fence '\x7d' where
  toHalts := halts_brace
  space := by decide
  newline := by decide
  hex := by decide
  quotes := by decide

theorem lex_append_of_fence {f : Char} (hf : Fence f)
    (hplain : f ∉ ['/', '<', '#', '@', '~', '|', '^', '$']) {a : Text} {init : List Token}
    {last : Token} (h : lex a = init ++ [last]) (hlast : last.kind = single f) (b : Text) :
    lex (a ++ b) = lex a ++ lex b := by
  have hlexeme : last.lexeme = [f] := lexeme_of_mem_lex (t := a) (by rw [h]; simp) hlast
  have heq : last = ⟨single f, [f]⟩ := by rw [← hlast, ← hlexeme]
  have htext : a = source init ++ [f] := by
    rw [source_of_lex h, source_cons, source_nil, List.append_nil, hlexeme]
  have halone : lex (source init ++ f :: []) = init ++ lex (f :: []) := by
    rw [← htext, h, lex_single hf hplain, lex_nil, heq]
  have := lex_fence hf halone b
  rw [lex_single hf hplain, ← heq] at this
  rw [h, htext, List.append_assoc, List.singleton_append, this, List.append_assoc,
    List.singleton_append]

/-- No token looks past a semicolon or a brace. -/
theorem lex_append_of_last {a : Text} {init : List Token} {last : Token} (h : lex a = init ++ [last])
    (hlast : last.kind = .semicolon ∨ last.kind = .closer .curly) (b : Text) :
    lex (a ++ b) = lex a ++ lex b := by
  rcases hlast with hlast | hlast
  · exact lex_append_of_fence fence_semicolon (by decide) h hlast b
  · exact lex_append_of_fence fence_brace (by decide) h hlast b

end Token

namespace Sheet
variable {a b : Text}

/-- The units of two texts, the first of which ends with a statement. -/
theorem ofTokens_masked_append (hend : (Units.ofTokens (lex (masked a))).EndsStatement)
    (hmasked : masked (a ++ b) = masked a ++ masked b) :
    Units.ofTokens (lex (masked (a ++ b))) =
      (Units.ofTokens (lex (masked a))).append (Units.ofTokens (lex (masked b))) := by
  obtain ⟨init, last, htokens, hlast⟩ := hend.exists_last (Units.nested_ofTokens _)
  rw [Units.toTokens_ofTokens] at htokens
  rw [hmasked, lex_append_of_last htokens hlast, Units.ofTokens_append hend]

/-- The nodes of a text between others. -/
theorem ofUnits_inside_ofText {t x y : Text} {before behind : List Span}
    (hbefore : ∀ s ∈ before, s.start < x.byteLength)
    (hbehind : ∀ s ∈ behind, x.byteLength + t.byteLength ≤ s.start) :
    Forest.ofUnits ((Source.ofText t).inside x before y behind) x.byteLength []
        (Units.ofTokens (lex (masked t))) = (ofText t).forest.shift x.byteLength := by
  have hreads := reads_ofUnits (.ofText t) 0 (.ofTokens (lex (masked t)))
  have hfits := fits_ofText t
  rw [← Units.toTokens_ofTokens (lex (masked t))] at hfits
  have hshift := hreads.shift (y := y) hbefore hbehind hfits
  rw [Nat.zero_add] at hshift
  exact (eq_ofUnits_of_reads hshift).symm

/-- **The nodes of two texts, one behind the other,** are those of the first and behind them those of
the second, moved by the length of the first: if the first ends with a statement and the line
comments are those of both. -/
theorem forest_append (hend : a = [] ∨ (Units.ofTokens (lex (masked a))).EndsStatement)
    (hmasked : masked (a ++ b) = masked a ++ masked b)
    (hspans : spans (a ++ b) = spans a ++ (spans b).map (Span.shift a.byteLength)) :
    (ofText (a ++ b)).forest =
      (ofText a).forest.append ((ofText b).forest.shift a.byteLength) := by
  rcases hend with rfl | hend
  · rw [List.nil_append, Text.byteLength_nil, Forest.shift_zero]
    rfl
  have hfirst : Source.ofText (a ++ b) =
      (Source.ofText a).inside [] [] b ((spans b).map (Span.shift a.byteLength)) := by
    have hzero : (spans a).map (Span.shift 0) = spans a := List.map_id _
    simp [Source.ofText, Source.inside, hspans, hzero]
  have hsecond : Source.ofText (a ++ b) = (Source.ofText b).inside a (spans a) [] [] := by
    simp [Source.ofText, Source.inside, hspans]
  have hunits := ofTokens_masked_append hend hmasked
  have hlength : (Units.ofTokens (lex (masked a))).byteLength = a.byteLength := by
    rw [← Units.byteLength_toTokens, Units.toTokens_ofTokens, source_lex, byteLength_masked]
  show Forest.ofUnits (.ofText (a ++ b)) 0 [] (Units.ofTokens (lex (masked (a ++ b)))) = _
  rw [hunits, Forest.ofUnits_append hend, Nat.zero_add, hlength]
  congr 1
  · rw [hfirst]
    have := @ofUnits_inside_ofText a [] b [] ((spans b).map (Span.shift a.byteLength)) (by simp) (by
        intro s hs
        obtain ⟨s, -, rfl⟩ := List.mem_map.mp hs
        simp)
    rw [Text.byteLength_nil, Forest.shift_zero] at this
    exact this
  · rw [hsecond]
    exact ofUnits_inside_ofText (fun s hs => by
      have := (runs_spans a).ordered.of_mem hs
      rw [chars_cells] at this
      omega) (by simp)

/-- The first text ends with a block that holds an interpolation, and the second begins with a line
comment. -/
theorem forest_append_of_block :
    (ofText ("a\x7b-moz-#\x7bx\x7d:1 // b\n\x7d".toList ++ "//\x7d\n@x é;".toList)).forest =
      (ofText "a\x7b-moz-#\x7bx\x7d:1 // b\n\x7d".toList).forest.append
        (.cons ⟨.comment, ⟨20, 23⟩⟩ .nil
          (.cons ⟨.atRule ['x'] ['é'] false, ⟨24, 30⟩⟩ .nil .nil)) := by
  have hsecond : (ofText "//\x7d\n@x é;".toList).forest = .cons ⟨.comment, ⟨0, 3⟩⟩ .nil
      (.cons ⟨.atRule ['x'] ['é'] false, ⟨4, 10⟩⟩ .nil .nil) := by decide +kernel
  rw [forest_append (.inr ?_) (by decide +kernel) (by decide +kernel), hsecond]
  · rfl
  · have hunits : Units.ofTokens (lex (masked "a\x7b-moz-#\x7bx\x7d:1 // b\n\x7d".toList)) =
        .leaf ⟨.ident, ['a']⟩ (.block ⟨.opener .curly, ['\x7b']⟩
          (.leaf ⟨.ident, "-moz-".toList⟩ (.leaf ⟨.delim '#', ['#']⟩
            (.group ⟨.opener .curly, ['\x7b']⟩ (.leaf ⟨.ident, ['x']⟩ .nil)
              (some ⟨.closer .curly, ['\x7d']⟩)
              (.leaf colon (.leaf ⟨.number, ['1']⟩ (.leaf ⟨.whitespace, "     \n".toList⟩ .nil))))))
          (some ⟨.closer .curly, ['\x7d']⟩) .nil) := by decide +kernel
    rw [hunits]
    exact .leaf .closed

end Sheet
end VendorSync.Css
