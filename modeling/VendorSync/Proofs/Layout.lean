import VendorSync.Proofs.Grammar
import VendorSync.Proofs.Masking

/-! Where the nodes of a sheet stand.

Siblings stand one behind another and children inside of their parent, in whatever way the
statements around them end (`within_ofText`). This is seen piece by piece: the leading comments
of a piece come before its parts (`ordered_piece`), since a line comment that begins in white
space ends in it. -/
namespace VendorSync

/-! ### Spans in order -/

/-- The spans stand one behind another between two offsets, and none is empty. -/
def Span.Ordered (lo hi : Nat) : List Span → Prop
  | [] => True
  | s :: rest => lo ≤ s.start ∧ s.start < s.stop ∧ s.stop ≤ hi ∧ Ordered s.stop hi rest

theorem Span.Ordered.mono {lo lo' hi hi' : Nat} {spans : List Span} (h : Ordered lo hi spans)
    (hlo : lo' ≤ lo) (hhi : hi ≤ hi') : Ordered lo' hi' spans := by
  induction spans generalizing lo lo' with
  | nil => trivial
  | cons s rest ih =>
    obtain ⟨hstart, hne, hstop, hrest⟩ := h
    exact ⟨by omega, hne, by omega, ih hrest (Nat.le_refl _)⟩

theorem Span.Ordered.append {lo mid hi : Nat} {a b : List Span} (ha : Ordered lo mid a)
    (hb : Ordered mid hi b) (hlo : lo ≤ mid) (hhi : mid ≤ hi) : Ordered lo hi (a ++ b) := by
  induction a generalizing lo with
  | nil => exact hb.mono hlo (Nat.le_refl _)
  | cons s rest ih =>
    obtain ⟨hstart, hne, hstop, hrest⟩ := ha
    exact ⟨hstart, hne, by omega, ih hrest hstop⟩

theorem Span.Ordered.of_mem {lo hi : Nat} {spans : List Span} (h : Ordered lo hi spans) {s : Span}
    (hs : s ∈ spans) : lo ≤ s.start ∧ s.start < s.stop ∧ s.stop ≤ hi := by
  induction spans generalizing lo with
  | nil => cases hs
  | cons s' rest ih =>
    obtain ⟨hstart, hne, hstop, hrest⟩ := h
    rcases List.mem_cons.mp hs with rfl | hs
    · exact ⟨hstart, hne, hstop⟩
    · have := ih hrest hs
      omega

/-- Some of the spans, all of which fit between two further offsets. -/
theorem Span.Ordered.filter {lo hi lo' hi' : Nat} {spans : List Span} (h : Ordered lo hi spans)
    (p : Span → Bool) (hp : ∀ s ∈ spans, p s = true → lo' ≤ s.start ∧ s.stop ≤ hi') :
    Ordered lo' hi' (spans.filter p) := by
  induction spans generalizing lo lo' with
  | nil => trivial
  | cons s rest ih =>
    obtain ⟨hstart, hne, hstop, hrest⟩ := h
    obtain ⟨hs, hp⟩ := List.forall_mem_cons.mp hp
    by_cases hps : p s = true
    · rw [List.filter_cons_of_pos hps]
      exact ⟨(hs hps).1, hne, (hs hps).2, ih hrest fun s' hs' hps' =>
        ⟨(hrest.of_mem hs').1, (hp s' hs' hps').2⟩⟩
    · rw [List.filter_cons_of_neg hps]
      exact ih hrest hp

namespace Css

theorem LineComment.Runs.ordered {pos : Nat} {cs : List Cell} {spans : List Span}
    (h : Runs pos cs spans) : Span.Ordered pos (pos + (chars cs).byteLength) spans := by
  induction h with
  | nil => trivial
  | plain _ _ ih => exact ih.mono (by omega) (by simp; omega)
  | @hidden pos run rest spans hne _ _ _ ih =>
    have hpos : 0 < (chars run).byteLength := by
      cases run with
      | nil => exact absurd rfl hne
      | cons cell run => have := cell.char.utf8Size_pos; simp; omega
    refine ⟨Nat.le_refl _, ?_, ?_, ih.mono (Nat.le_refl _) ?_⟩
    · show pos < pos + (chars run).byteLength
      omega
    · show pos + (chars run).byteLength ≤ _
      simp
    · simp only [chars_append, Text.byteLength_append]
      omega

/-- The siblings stand one behind another between two offsets and their children inside of
them, each behind its parent's start; only containers have children. -/
def Forest.Within (lo hi : Nat) : Forest → Prop
  | nil => True
  | cons item children rest =>
    lo ≤ item.span.start ∧ item.span.start < item.span.stop ∧ item.span.stop ≤ hi ∧
      (children ≠ nil → item.kind.isContainer = true) ∧
      children.Within (item.span.start + 1) item.span.stop ∧ rest.Within item.span.stop hi

namespace Forest

theorem Within.mono {lo lo' hi hi' : Nat} {f : Forest} (h : f.Within lo hi) (hlo : lo' ≤ lo)
    (hhi : hi ≤ hi') : f.Within lo' hi' := by
  induction f generalizing lo lo' hi hi' with
  | nil => trivial
  | cons item children rest _ ih =>
    obtain ⟨hstart, hne, hstop, hkind, hchildren, hrest⟩ := h
    exact ⟨by omega, hne, by omega, hkind, hchildren, ih hrest (Nat.le_refl _) hhi⟩

theorem Within.append {lo mid hi : Nat} {f g : Forest} (hf : f.Within lo mid) (hg : g.Within mid hi)
    (hlo : lo ≤ mid) (hhi : mid ≤ hi) : (f.append g).Within lo hi := by
  induction f generalizing lo with
  | nil => exact hg.mono hlo (Nat.le_refl _)
  | cons item children rest _ ih =>
    obtain ⟨hstart, hne, hstop, hkind, hchildren, hrest⟩ := hf
    exact ⟨hstart, hne, by omega, hkind, hchildren, ih hrest hstop⟩

theorem within_comments {lo hi : Nat} {spans : List Span} (h : Span.Ordered lo hi spans) :
    (comments spans).Within lo hi := by
  induction spans generalizing lo with
  | nil => trivial
  | cons s rest ih =>
    obtain ⟨hstart, hne, hstop, hrest⟩ := h
    exact ⟨hstart, hne, hstop, fun h => absurd rfl h, trivial, ih hrest⟩

end Forest

/-! ### The units of a piece -/

/-- The tokens of a unit. -/
def Segment.toTokens : Segment → List Token
  | leaf t => [t]
  | group opener inside closer => opener :: (inside.toTokens ++ closer.toList)

theorem Segment.byteLength_toTokens (s : Segment) :
    (Token.source s.toTokens).byteLength = s.byteLength := by
  cases s with
  | leaf t => simp [toTokens, byteLength, Token.byteLength]
  | group opener inside closer =>
    have := Units.byteLength_toTokens (.group opener inside closer .nil)
    simpa [Units.toTokens, toTokens, byteLength] using this

theorem Units.toTokens_prepend (body : List Segment) (u : Units) :
    (prepend body u).toTokens = body.flatMap Segment.toTokens ++ u.toTokens := by
  induction body with
  | nil => rfl
  | cons s body ih =>
    cases s <;> simp [prepend, toTokens, Segment.toTokens, ih]

theorem byteLength_body (body : List Segment) :
    (Token.source (body.flatMap Segment.toTokens)).byteLength = bodyLength body := by
  induction body with
  | nil => rfl
  | cons s body ih => simp [← Segment.byteLength_toTokens, ih]

/-! ### Tokens and comments that fit -/

/-- What tokens and line comments keep to, when the tokens begin at an offset: they begin and end
between characters of the text, none is empty, no comment crosses the end of white space, and no
other token begins in a comment. -/
structure Source.Fits (source : Source) (pos : Nat) (tokens : List Token) : Prop where
  nonempty : ∀ token ∈ tokens, token.lexeme ≠ []
  colon : ∀ token ∈ tokens, token.kind = .colon → token.byteLength = 1
  boundary : ∀ a b, tokens = a ++ b →
    source.text.isBoundary (pos + (Token.source a).byteLength) = true
  ordered : Span.Ordered 0 source.text.byteLength source.comments
  comment_boundary : ∀ c ∈ source.comments,
    source.text.isBoundary c.start = true ∧ source.text.isBoundary c.stop = true
  inside : ∀ a token b, tokens = a ++ token :: b → token.kind = .whitespace →
    ∀ c ∈ source.comments, c.start < pos + (Token.source a).byteLength + token.byteLength →
      c.stop ≤ pos + (Token.source a).byteLength + token.byteLength
  visible : ∀ a token b, tokens = a ++ token :: b → token.kind ≠ .whitespace →
    ∀ c ∈ source.comments, pos + (Token.source a).byteLength < c.start ∨
      c.stop ≤ pos + (Token.source a).byteLength

namespace Source.Fits
variable {source : Source} {pos : Nat}

theorem left {a b : List Token} (h : source.Fits pos (a ++ b)) : source.Fits pos a where
  nonempty token ht := h.nonempty token (List.mem_append_left b ht)
  colon token ht := h.colon token (List.mem_append_left b ht)
  boundary x y hxy := h.boundary x (y ++ b) (by rw [hxy]; simp)
  ordered := h.ordered
  comment_boundary := h.comment_boundary
  inside x token y hxy := h.inside x token (y ++ b) (by rw [hxy]; simp)
  visible x token y hxy := h.visible x token (y ++ b) (by rw [hxy]; simp)

theorem right {a b : List Token} (h : source.Fits pos (a ++ b)) :
    source.Fits (pos + (Token.source a).byteLength) b where
  nonempty token ht := h.nonempty token (List.mem_append_right a ht)
  colon token ht := h.colon token (List.mem_append_right a ht)
  boundary x y hxy := by
    have := h.boundary (a ++ x) y (by rw [hxy]; simp)
    simpa [Nat.add_assoc] using this
  ordered := h.ordered
  comment_boundary := h.comment_boundary
  inside x token y hxy := by
    have := h.inside (a ++ x) token y (by rw [hxy]; simp)
    simpa [Nat.add_assoc] using this
  visible x token y hxy := by
    have := h.visible (a ++ x) token y (by rw [hxy]; simp)
    simpa [Nat.add_assoc] using this

theorem piece {body : List Segment} {u : Units}
    (h : source.Fits pos (Units.prepend body u).toTokens) :
    source.Fits pos (body.flatMap Segment.toTokens) ∧
      source.Fits (pos + bodyLength body) u.toTokens := by
  rw [Units.toTokens_prepend] at h
  exact ⟨h.left, byteLength_body body ▸ h.right⟩

theorem behind_leaf {token : Token} {rest : Units}
    (h : source.Fits pos (Units.leaf token rest).toTokens) :
    source.Fits (pos + token.byteLength) rest.toTokens := by
  simpa [Units.toTokens, Token.byteLength] using h.right (a := [token])

theorem behind_group {opener : Token} {inside : Units} {closer : Option Token} {rest : Units}
    (h : source.Fits pos (Units.group opener inside closer rest).toTokens) :
    source.Fits (pos + (Units.group opener inside closer .nil).byteLength) rest.toTokens := by
  have := (@piece source pos [.group opener inside closer] rest h).2
  rwa [bodyLength_cons, bodyLength_nil, Nat.add_zero] at this

theorem inside_block {opener : Token} {inside : Units} {closer : Option Token} {rest : Units}
    (h : source.Fits pos (Units.block opener inside closer rest).toTokens) :
    source.Fits (pos + opener.byteLength) inside.toTokens := by
  have : source.Fits (pos + (Token.source [opener]).byteLength) (inside.toTokens ++ _) :=
    right (a := [opener]) h
  simpa [Token.byteLength] using this.left

theorem behind_block {opener : Token} {inside : Units} {closer : Option Token} {rest : Units}
    (h : source.Fits pos (Units.block opener inside closer rest).toTokens) :
    source.Fits (pos + (Units.block opener inside closer .nil).byteLength) rest.toTokens := by
  have htokens : (Units.block opener inside closer rest).toTokens =
      (Units.block opener inside closer .nil).toTokens ++ rest.toTokens := by
    simp [Units.toTokens]
  rw [htokens] at h
  exact Units.byteLength_toTokens _ ▸ h.right

end Source.Fits

theorem byteLength_pos {t : Text} (h : t ≠ []) : 0 < t.byteLength :=
  Nat.pos_of_ne_zero fun h0 => h (Text.byteLength_eq_zero.mp h0)

theorem Source.Fits.segment_pos {source : Source} {pos : Nat} {s : Segment}
    (h : source.Fits pos s.toTokens) : 0 < s.byteLength := by
  rw [← Segment.byteLength_toTokens]
  have hfirst : ∀ token tokens, s.toTokens = token :: tokens →
      0 < (Token.source s.toTokens).byteLength := by
    intro token tokens hs
    have := byteLength_pos (h.nonempty token (by rw [hs]; simp))
    rw [hs]
    simp only [Token.source_cons, Text.byteLength_append]
    omega
  cases s with
  | leaf t => exact hfirst t [] rfl
  | group opener inside closer => exact hfirst opener _ rfl

section Pieces
variable {source : Source}

theorem ordered_parts {pos : Nat} {body : List Segment}
    (h : source.Fits pos (body.flatMap Segment.toTokens)) :
    Span.Ordered pos (pos + bodyLength body) ((partsOf pos body).map Part.span) := by
  induction body generalizing pos with
  | nil => trivial
  | cons s body ih =>
    rw [List.flatMap_cons] at h
    have hpos := h.left.segment_pos
    have hrest := ih (Segment.byteLength_toTokens s ▸ h.right)
    rw [bodyLength_cons, ← Nat.add_assoc]
    unfold partsOf
    split
    · refine ⟨Nat.le_refl _, ?_, ?_, hrest⟩
      · show pos < pos + s.byteLength
        omega
      · show pos + s.byteLength ≤ _
        omega
    · exact hrest.mono (by omega) (Nat.le_refl _)

/-- The leading comments of a piece stand in order before its parts. -/
theorem ordered_piece {pos : Nat} {body : List Segment}
    (h : source.Fits pos (body.flatMap Segment.toTokens)) :
    ∃ mid, pos ≤ mid ∧ mid ≤ pos + bodyLength body ∧
      Span.Ordered pos mid (leadingComments source pos body) ∧
      Span.Ordered mid (pos + bodyLength body) ((partsOf pos body).map Part.span) := by
  induction body generalizing pos with
  | nil => exact ⟨pos, Nat.le_refl _, by simp, trivial, trivial⟩
  | cons s body ih =>
    have hparts := ordered_parts h
    rw [List.flatMap_cons] at h
    have hpos := h.left.segment_pos
    obtain ⟨mid, hlo, hhi, hleading, hrest⟩ := ih (Segment.byteLength_toTokens s ▸ h.right)
    rw [bodyLength_cons, ← Nat.add_assoc] at hparts ⊢
    by_cases hpart : ∃ isColon, s.role = .part isColon
    · obtain ⟨isColon, hrole⟩ := hpart
      exact ⟨pos, Nat.le_refl _, by omega, by simp [leadingComments, hrole, Span.Ordered], hparts⟩
    · have hpartsOf : partsOf pos (s :: body) = partsOf (pos + s.byteLength) body := by
        cases hrole : s.role <;> simp_all [partsOf]
      rw [hpartsOf]
      refine ⟨mid, by omega, hhi, ?_, hrest⟩
      cases hrole : s.role with
      | space =>
        obtain ⟨t, rfl⟩ : ∃ t, s = .leaf t := by
          cases s with
          | leaf t => exact ⟨t, rfl⟩
          | group => cases hrole
        have hkind : t.kind = .whitespace := Role.kind_of_space hrole
        simp only [leadingComments, hrole]
        refine Span.Ordered.append (h.ordered.filter _ fun c hc hin => ?_) hleading (by omega) hlo
        simp only [Bool.and_eq_true, decide_eq_true_eq] at hin
        have := h.left.inside [] t [] rfl hkind c hc
        simp only [Token.source_nil, Text.byteLength_nil, Nat.add_zero] at this
        exact ⟨hin.1, this hin.2⟩
      | comment =>
        simp only [leadingComments, hrole]
        exact ⟨Nat.le_refl _, by show pos < pos + s.byteLength; omega, hlo, hleading⟩
      | semicolon | strayBrace => simp [leadingComments, hrole, Span.Ordered]
      | part isColon => exact absurd ⟨isColon, hrole⟩ hpart

end Pieces

/-! ### Nodes -/

theorem Units.byteLength_prepend (body : List Segment) (u : Units) :
    (prepend body u).byteLength = bodyLength body + u.byteLength := by
  rw [← byteLength_toTokens, toTokens_prepend, Token.source_append, Text.byteLength_append,
    byteLength_body, byteLength_toTokens]

namespace Statement

/-- A statement ends behind its start and not behind its parts. -/
theorem stop_bounds {lo hi : Nat} {first : Part} {others : List Part}
    (h : Span.Ordered lo hi ((first :: others).map Part.span)) :
    first.span.start < stop first others ∧ stop first others ≤ hi := by
  induction others generalizing lo first with
  | nil => exact ⟨h.2.1, h.2.2.1⟩
  | cons p ps ih =>
    obtain ⟨-, hne, -, hrest⟩ := h
    have := ih hrest
    have hlo := hrest.1
    have hcons : stop first (p :: ps) = stop p ps := by rw [stop, List.getLastD_cons, stop]
    omega

theorem Concludes.within {text : Text} {cut : Option Nat} {parts : List Part} {own : Forest}
    {lo hi : Nat} (h : Concludes text cut parts own)
    (hparts : Span.Ordered lo hi (parts.map Part.span)) (hcut : ∀ n ∈ cut, hi ≤ n) :
    own.Within lo (cut.getD hi) := by
  cases h with
  | nothing => trivial
  | @node first others kind _ =>
    obtain ⟨hstart, hstop⟩ := stop_bounds hparts
    refine ⟨hparts.1, ?_, ?_, fun h => absurd rfl h, trivial, trivial⟩
    · show first.span.start < cut.getD (stop first others)
      cases cut with
      | none => exact hstart
      | some n => exact Nat.lt_of_lt_of_le hstart (Nat.le_trans hstop (hcut n rfl))
    · show cut.getD (stop first others) ≤ cut.getD hi
      cases cut with
      | none => exact hstop
      | some n => exact Nat.le_refl n

theorem Heads.isContainer {text : Text} {header : Span} {kind : Kind} (h : Heads text header kind) :
    kind.isContainer = true := by
  cases h <;> rfl

end Statement

theorem Units.byteLength_block (opener : Token) (inside : Units) (closer : Option Token)
    (rest : Units) : (block opener inside closer rest).byteLength =
      (block opener inside closer .nil).byteLength + rest.byteLength := by
  simp [byteLength]

/-- The header of a block starts behind the comments before it. -/
theorem Statement.headerSpan_start_bounds {mid hi : Nat} {parts : List Part} (hmid : mid ≤ hi)
    (h : Span.Ordered mid hi (parts.map Part.span)) :
    mid ≤ (headerSpan parts hi).start ∧ (headerSpan parts hi).start ≤ hi := by
  cases parts with
  | nil => exact ⟨hmid, Nat.le_refl _⟩
  | cons first others =>
    have := h.2.1
    have := h.2.2.1
    exact ⟨h.1, by show first.span.start ≤ _; omega⟩

/-- A piece that is cut, and what stands behind it. -/
theorem within_cut {source : Source} {pos : Nat} {body : List Segment} {token : Token}
    {rest : Units} {cut : Option Nat} {own after : Forest}
    (hfits : source.Fits pos (Units.prepend body (.leaf token rest)).toTokens)
    (hown : Statement.Concludes source.text cut (partsOf pos body) own)
    (hcut : ∀ n ∈ cut, n = pos + bodyLength body + token.byteLength)
    (hafter : after.Within (pos + bodyLength body + token.byteLength)
      (pos + bodyLength body + token.byteLength + rest.byteLength)) :
    ((Forest.comments (leadingComments source pos body)).append (own.append after)).Within pos
      (pos + (Units.prepend body (.leaf token rest)).byteLength) := by
  obtain ⟨mid, hlo, hhi, hleading, hparts⟩ := ordered_piece hfits.piece.1
  have hend : pos + (Units.prepend body (.leaf token rest)).byteLength =
      pos + bodyLength body + token.byteLength + rest.byteLength := by
    simp [Units.byteLength_prepend, Units.byteLength, Nat.add_assoc]
  have hwithin : own.Within mid (pos + bodyLength body + token.byteLength) := by
    refine (hown.within hparts fun n hn => ?_).mono (Nat.le_refl _) ?_
    · rw [hcut n hn]
      exact Nat.le_add_right ..
    · cases cut with
      | none => exact Nat.le_add_right ..
      | some n => exact Nat.le_of_eq (hcut n rfl)
  rw [hend]
  refine (Forest.within_comments hleading).append (hwithin.append hafter ?_ ?_) hlo ?_
  · exact Nat.le_trans hhi (Nat.le_add_right ..)
  · exact Nat.le_add_right ..
  · omega

/-- **Nodes stand one behind another and inside of each other**, however statements end. -/
theorem Reads.within {source : Source} {pos : Nat} {u : Units} {f : Forest}
    (h : Reads source pos u f) (hfits : source.Fits pos u.toTokens) :
    f.Within pos (pos + u.byteLength) := by
  induction h with
  | finish _ hown =>
    rw [Units.byteLength_prepend]
    obtain ⟨mid, hlo, hhi, hleading, hparts⟩ := ordered_piece hfits.piece.1
    exact (Forest.within_comments hleading).append (hown.within hparts (by simp)) hlo hhi
  | semicolon _ _ hown _ ih =>
    exact within_cut hfits hown (by simp) (ih hfits.piece.2.behind_leaf)
  | strayBrace _ _ hown _ ih =>
    exact within_cut hfits hown (by simp) (ih hfits.piece.2.behind_leaf)
  | @block pos body kind opener inside closer rest children after _ hhead _ _ ih₁ ih₂ =>
    obtain ⟨hbody, hrest⟩ := hfits.piece
    obtain ⟨mid, hlo, hhi, hleading, hparts⟩ := ordered_piece hbody
    have hopener : 0 < opener.byteLength :=
      byteLength_pos (hrest.nonempty opener (by simp [Units.toTokens]))
    have hblock : opener.byteLength + inside.byteLength ≤
        (Units.block opener inside closer .nil).byteLength := by
      simp only [Units.byteLength]
      omega
    have hchildren := ih₁ hrest.inside_block
    have hafter := ih₂ hrest.behind_block
    have hend : pos + (Units.prepend body (.block opener inside closer rest)).byteLength =
        pos + bodyLength body + (Units.block opener inside closer .nil).byteLength +
          rest.byteLength := by
      rw [Units.byteLength_prepend, Units.byteLength_block]
      omega
    rw [hend]
    obtain ⟨hstart, hstop⟩ := Statement.headerSpan_start_bounds hhi hparts
    generalize (Statement.headerSpan (partsOf pos body) _).start = start at hstart hstop
    refine (Forest.within_comments hleading).append ⟨hstart, ?_, ?_, fun _ => hhead.isContainer,
      hchildren.mono ?_ ?_, hafter⟩ hlo (by omega)
    · show start < pos + bodyLength body + _
      omega
    · exact Nat.le_add_right ..
    · show start + 1 ≤ pos + bodyLength body + opener.byteLength
      omega
    · show pos + bodyLength body + opener.byteLength + inside.byteLength ≤
        pos + bodyLength body + (Units.block opener inside closer .nil).byteLength
      omega

/-! ### The tokens of a text -/

theorem fits_ofText (t : Text) : (Source.ofText t).Fits 0 (Token.lex (LineComment.masked t)) where
  nonempty _ ht := Token.lexeme_ne_nil ht
  colon token ht hkind := by
    have := Token.lexeme_of_mem_lex (d := ':') ht hkind
    rw [Token.byteLength, this]
    decide
  boundary a b h := by
    obtain ⟨x, y, hcells, hx, -⟩ := LineComment.exists_cells_of_lex h
    refine Text.isBoundary_iff.mpr ⟨LineComment.chars x, LineComment.chars y, ?_, ?_⟩
    · show t = _
      rw [← LineComment.chars_append, ← hcells, LineComment.chars_cells]
    · rw [Nat.zero_add, ← hx, LineComment.byteLength_blanked]
  ordered := by
    show Span.Ordered 0 t.byteLength (LineComment.spans t)
    simpa using (LineComment.runs_spans t).ordered
  comment_boundary c hc := by
    obtain ⟨x, run, y, hat⟩ := LineComment.exists_cells_of_mem_spans hc
    have hstart := hat.start
    have hstop := hat.stop
    rw [Nat.zero_add] at hstart hstop
    have ht : t = LineComment.chars x ++ (LineComment.chars run ++ LineComment.chars y) := by
      rw [← LineComment.chars_append, ← LineComment.chars_append, ← hat.cells_eq,
        LineComment.chars_cells]
    refine ⟨Text.isBoundary_iff.mpr ⟨_, _, ht, hstart⟩,
      Text.isBoundary_iff.mpr ⟨LineComment.chars (x ++ run), LineComment.chars y, ?_, hstop⟩⟩
    show t = _
    rw [LineComment.chars_append, List.append_assoc]
    exact ht
  inside a token b h hkind c hc hstarts := by
    have := LineComment.stop_le_of_whitespace h hkind hc
    simp only [Token.source_append, Token.source_cons, Token.source_nil, List.append_nil,
      Text.byteLength_append] at this
    simp only [Nat.zero_add, Token.byteLength] at hstarts ⊢
    exact this hstarts
  visible a token b h hkind c hc := by
    rw [Nat.zero_add]
    exact LineComment.starts_outside h hkind hc

/-- The sheet of a text is read from tokens that fit. -/
theorem reads_ofText (t : Text) : ∃ u, Reads (.ofText t) 0 u (Sheet.ofText t).forest ∧
    (Source.ofText t).Fits 0 u.toTokens ∧ u.byteLength = t.byteLength := by
  have htokens := Units.toTokens_ofTokens (Token.lex (LineComment.masked t))
  refine ⟨_, reads_ofUnits (.ofText t) 0 (.ofTokens (Token.lex (LineComment.masked t))), ?_, ?_⟩
  · rw [htokens]
    exact fits_ofText t
  · rw [← Units.byteLength_toTokens, htokens, Token.source_lex, LineComment.byteLength_masked]

theorem within_ofText (t : Text) : (Sheet.ofText t).forest.Within 0 t.byteLength := by
  obtain ⟨u, hreads, hfits, hlen⟩ := reads_ofText t
  have := hreads.within hfits
  rwa [Nat.zero_add, hlen] at this

end Css
end VendorSync
