import VendorSync.Proofs.Layout

/-! Where the values of declarations stand.

A declaration's value lies in the declaration behind its start, between characters of the text,
and reads as the declaration says (`sound_ofText`): its span runs from its first part to its last,
and an empty value stands directly behind the colon. -/
namespace VendorSync

/-- A span that stands behind another leaves the rest in order. -/
theorem Span.Ordered.split {lo hi : Nat} {a b : List Span} {s : Span}
    (h : Ordered lo hi (a ++ s :: b)) : (∀ x ∈ a, x.stop ≤ s.start) ∧ lo ≤ s.start ∧
      s.start < s.stop ∧ s.stop ≤ hi ∧ Ordered s.stop hi b := by
  induction a generalizing lo with
  | nil => exact ⟨by simp, h⟩
  | cons x a ih =>
    obtain ⟨hstart, hne, -, hrest⟩ := h
    obtain ⟨hbefore, hlo, hs⟩ := ih hrest
    exact ⟨List.forall_mem_cons.mpr ⟨hlo, hbefore⟩, by omega, hs⟩

namespace Css

/-- What holds of a node's spans in its text. -/
structure Item.Sound (text : Text) (item : Item) : Prop where
  start : text.isBoundary item.span.start = true
  stop : text.isBoundary item.span.stop = true
  value : ∀ d, item.kind = .declaration d →
    item.span.start < d.valueSpan.start ∧ d.valueSpan.start ≤ d.valueSpan.stop ∧
      d.valueSpan.stop ≤ item.span.stop ∧ text.isBoundary d.valueSpan.start = true ∧
      text.isBoundary d.valueSpan.stop = true ∧ Text.slice d.valueSpan text = d.value

namespace Forest

/-- Every node, at every level. -/
def All (P : Item → Prop) : Forest → Prop
  | nil => True
  | cons item children rest => P item ∧ children.All P ∧ rest.All P

variable {P : Item → Prop}

theorem All.append {f g : Forest} (hf : f.All P) (hg : g.All P) : (f.append g).All P := by
  induction f with
  | nil => exact hg
  | cons item children rest _ ih => exact ⟨hf.1, hf.2.1, ih hf.2.2⟩

theorem All.imp {Q : Item → Prop} {f : Forest} (hf : f.All P) (h : ∀ item, P item → Q item) :
    f.All Q := by
  induction f with
  | nil => trivial
  | cons item children rest ih₁ ih₂ => exact ⟨h item hf.1, ih₁ hf.2.1, ih₂ hf.2.2⟩

theorem all_comments {spans : List Span} (h : ∀ s ∈ spans, P ⟨.comment, s⟩) :
    (comments spans).All P := by
  induction spans with
  | nil => trivial
  | cons s rest ih =>
    obtain ⟨hs, hrest⟩ := List.forall_mem_cons.mp h
    exact ⟨hs, trivial, ih hrest⟩

theorem All.of_mem_nodes {f : Forest} (h : f.All P) {parent first : Nat} {node : Node}
    (hnode : node ∈ f.nodes parent first) : P node.toItem := by
  induction f generalizing parent first with
  | nil => cases hnode
  | cons item children rest ih₁ ih₂ =>
    obtain ⟨hitem, hchildren, hrest⟩ := h
    rw [nodes, List.mem_cons, List.mem_append] at hnode
    rcases hnode with rfl | hnode | hnode
    · exact hitem
    · exact ih₁ hchildren hnode
    · exact ih₂ hrest hnode

end Forest

/-! ### Parts -/

/-- What holds of a part's span in its text. -/
structure Part.Sound (text : Text) (p : Part) : Prop where
  start : text.isBoundary p.span.start = true
  stop : text.isBoundary p.span.stop = true
  colon : p.isColon = true → p.span.stop = p.span.start + 1

section Pieces
variable {source : Source}

theorem Source.Fits.start {pos : Nat} {tokens : List Token} (h : source.Fits pos tokens) :
    source.text.isBoundary pos = true := by
  simpa using h.boundary [] tokens rfl

theorem Source.Fits.stop {pos : Nat} {tokens : List Token} (h : source.Fits pos tokens) :
    source.text.isBoundary (pos + (Token.source tokens).byteLength) = true :=
  h.boundary tokens [] (List.append_nil _).symm

theorem sound_parts {pos : Nat} {body : List Segment}
    (h : source.Fits pos (body.flatMap Segment.toTokens)) :
    ∀ p ∈ partsOf pos body, p.Sound source.text := by
  induction body generalizing pos with
  | nil => simp [partsOf]
  | cons s body ih =>
    rw [List.flatMap_cons] at h
    have hrest := ih (Segment.byteLength_toTokens s ▸ h.right)
    cases hrole : s.role with
    | part isColon =>
      simp only [partsOf, hrole, List.forall_mem_cons]
      refine ⟨⟨h.start, Segment.byteLength_toTokens s ▸ h.left.stop, ?_⟩, hrest⟩
      intro heq
      subst heq
      show pos + s.byteLength = pos + 1
      cases s with
      | group => cases hrole
      | leaf t =>
        have hkind : t.kind = .colon := Role.kind_of_colon hrole
        rw [Segment.byteLength, h.colon t (by simp [Segment.toTokens]) hkind]
    | _ => simpa only [partsOf, hrole] using hrest

theorem sound_leadingComments {pos : Nat} {body : List Segment}
    (h : source.Fits pos (body.flatMap Segment.toTokens)) :
    ∀ c ∈ leadingComments source pos body, Item.Sound source.text ⟨.comment, c⟩ := by
  induction body generalizing pos with
  | nil => simp [leadingComments]
  | cons s body ih =>
    rw [List.flatMap_cons] at h
    have hrest := ih (Segment.byteLength_toTokens s ▸ h.right)
    cases hrole : s.role with
    | space =>
      simp only [leadingComments, hrole, List.mem_append]
      intro c h
      rcases h with hc | hc
      · obtain ⟨hstart, hstop⟩ := h.comment_boundary c (List.mem_of_mem_filter hc)
        exact ⟨hstart, hstop, fun d hd => by cases hd⟩
      · exact hrest c hc
    | comment =>
      simp only [leadingComments, hrole, List.forall_mem_cons]
      exact ⟨⟨h.start, Segment.byteLength_toTokens s ▸ h.left.stop, fun d hd => by cases hd⟩, hrest⟩
    | _ => simp [leadingComments, hrole]

end Pieces

namespace Statement
variable {text : Text} {lo hi : Nat} {first : Part} {others : List Part}

/-- The parts end where the statement ends. -/
theorem ordered_stop (h : Span.Ordered lo hi ((first :: others).map Part.span)) :
    Span.Ordered lo (stop first others) ((first :: others).map Part.span) := by
  induction others generalizing lo first with
  | nil => exact ⟨h.1, h.2.1, Nat.le_refl _, trivial⟩
  | cons p ps ih =>
    have hcons : stop first (p :: ps) = stop p ps := by rw [stop, List.getLastD_cons, stop]
    have hrest := ih h.2.2.2
    have := (stop_bounds hrest).1
    have := hrest.1
    rw [hcons]
    exact ⟨h.1, h.2.1, by omega, hrest⟩

theorem stop_sound (h : ∀ p ∈ first :: others, p.Sound text) :
    text.isBoundary (stop first others) = true := by
  induction others generalizing first with
  | nil => exact (h first (List.mem_cons_self ..)).stop
  | cons p ps ih =>
    have hcons : stop first (p :: ps) = stop p ps := by rw [stop, List.getLastD_cons, stop]
    rw [hcons]
    exact ih (List.forall_mem_cons.mp h).2

/-- The span of a value is between the colon and the end of the statement. -/
theorem valueSpan_bounds {value : List Part} {colon : Part} (hcolon : colon.Sound text)
    (his : colon.isColon = true) (h : Span.Ordered colon.span.stop hi (value.map Part.span))
    (hhi : colon.span.stop ≤ hi) (hsound : ∀ p ∈ value, p.Sound text) :
    colon.span.stop ≤ (headerSpan value (colon.span.start + 1)).start ∧
      (headerSpan value (colon.span.start + 1)).start ≤
        (headerSpan value (colon.span.start + 1)).stop ∧
      (headerSpan value (colon.span.start + 1)).stop ≤ hi ∧
      text.isBoundary (headerSpan value (colon.span.start + 1)).start = true ∧
      text.isBoundary (headerSpan value (colon.span.start + 1)).stop = true := by
  cases value with
  | nil =>
    show colon.span.stop ≤ colon.span.start + 1 ∧ _ ≤ colon.span.start + 1 ∧
      colon.span.start + 1 ≤ hi ∧ text.isBoundary (colon.span.start + 1) = true ∧
      text.isBoundary (colon.span.start + 1) = true
    rw [← hcolon.colon his]
    exact ⟨Nat.le_refl _, Nat.le_refl _, hhi, hcolon.stop, hcolon.stop⟩
  | cons v vs =>
    obtain ⟨hstart, hstop⟩ := stop_bounds h
    exact ⟨h.1, Nat.le_of_lt hstart, hstop, (hsound v (List.mem_cons_self ..)).start,
      stop_sound hsound⟩

theorem Means.sound {kind : Kind} (h : Means text (first :: others) kind)
    (hparts : Span.Ordered lo hi ((first :: others).map Part.span))
    (hsound : ∀ p ∈ first :: others, p.Sound text) {d : Declaration}
    (hd : kind = .declaration d) : first.span.start < d.valueSpan.start ∧
      d.valueSpan.start ≤ d.valueSpan.stop ∧ d.valueSpan.stop ≤ stop first others ∧
      text.isBoundary d.valueSpan.start = true ∧ text.isBoundary d.valueSpan.stop = true ∧
      Text.slice d.valueSpan text = d.value := by
  subst hd
  cases h with
  | @declaration _ before colon value name _ his _ _ =>
    have horder := ordered_stop hparts
    have hmap : (first :: (before ++ colon :: value)).map Part.span =
        (first.span :: before.map Part.span) ++ colon.span :: value.map Part.span := by simp
    rw [hmap] at horder
    obtain ⟨hbefore, -, hne, hstop, hvalue⟩ := horder.split
    have hfirst := hbefore first.span (List.mem_cons_self ..)
    have hcolon := hsound colon (by simp)
    have hspan := valueSpan_bounds hcolon his hvalue hstop (fun p hp => hsound p (by simp [hp]))
    obtain ⟨hstart, hle, hhi, hbstart, hbstop⟩ := hspan
    have := hparts.2.1
    refine ⟨?_, hle, hhi, hbstart, hbstop, rfl⟩
    show first.span.start < (headerSpan value (colon.span.start + 1)).start
    omega

theorem Concludes.sound {cut : Option Nat} {parts : List Part} {own : Forest}
    (h : Concludes text cut parts own) (hparts : Span.Ordered lo hi (parts.map Part.span))
    (hsound : ∀ p ∈ parts, p.Sound text)
    (hcut : ∀ n ∈ cut, hi ≤ n ∧ text.isBoundary n = true) : own.All (Item.Sound text) := by
  cases h with
  | nothing => trivial
  | @node first others kind hmeans =>
    obtain ⟨-, hstop⟩ := stop_bounds hparts
    have hend : stop first others ≤ cut.getD (stop first others) ∧
        text.isBoundary (cut.getD (stop first others)) = true := by
      cases cut with
      | none => exact ⟨Nat.le_refl _, stop_sound hsound⟩
      | some n => exact ⟨Nat.le_trans hstop (hcut n rfl).1, (hcut n rfl).2⟩
    refine ⟨⟨(hsound first (List.mem_cons_self ..)).start, hend.2, fun d hd => ?_⟩, trivial, trivial⟩
    obtain ⟨h₁, h₂, h₃, h₄⟩ := hmeans.sound hparts hsound hd
    exact ⟨h₁, h₂, Nat.le_trans h₃ hend.1, h₄⟩

theorem Heads.ne_declaration {header : Span} {kind : Kind} (h : Heads text header kind)
    (d : Declaration) : kind ≠ .declaration d := by
  cases h <;> simp

end Statement

/-! ### Nodes -/

theorem Reads.sound {source : Source} {pos : Nat} {u : Units} {f : Forest}
    (h : Reads source pos u f) (hfits : source.Fits pos u.toTokens) :
    f.All (Item.Sound source.text) := by
  induction h with
  | @finish pos body own _ hown =>
    have hbody := hfits.piece.1
    exact (Forest.all_comments (sound_leadingComments hbody)).append
      (hown.sound (ordered_parts hbody) (sound_parts hbody) (by simp))
  | @semicolon pos body own token rest after _ _ hown _ ih =>
    obtain ⟨hbody, hrest⟩ := hfits.piece
    have hown := hown.sound (ordered_parts hbody) (sound_parts hbody) (by
      intro n heq
      cases heq
      exact ⟨Nat.le_add_right .., hrest.behind_leaf.start⟩)
    exact (Forest.all_comments (sound_leadingComments hbody)).append
      (hown.append (ih hrest.behind_leaf))
  | @strayBrace pos body own token rest after _ _ hown _ ih =>
    obtain ⟨hbody, hrest⟩ := hfits.piece
    have hown := hown.sound (ordered_parts hbody) (sound_parts hbody) (by simp)
    exact (Forest.all_comments (sound_leadingComments hbody)).append
      (hown.append (ih hrest.behind_leaf))
  | @block pos body kind opener inside closer rest children after _ hhead _ _ ih₁ ih₂ =>
    obtain ⟨hbody, hrest⟩ := hfits.piece
    refine (Forest.all_comments (sound_leadingComments hbody)).append
      ⟨⟨?_, hrest.behind_block.start, fun d hd => absurd hd (hhead.ne_declaration d)⟩,
        ih₁ hrest.inside_block, ih₂ hrest.behind_block⟩
    show source.text.isBoundary
      (Statement.headerSpan (partsOf pos body) (pos + bodyLength body)).start = true
    have hparts := sound_parts hbody
    cases hp : partsOf pos body with
    | nil => exact hrest.start
    | cons first others =>
      rw [hp] at hparts
      exact (hparts first (List.mem_cons_self ..)).start

/-- **Every declaration's value is the text at its span**, which lies in the declaration. -/
theorem sound_ofText (t : Text) : (Sheet.ofText t).forest.All (Item.Sound t) := by
  obtain ⟨u, hreads, hfits, -⟩ := reads_ofText t
  exact hreads.sound hfits

end Css
end VendorSync
