import VendorSync.Proofs.CommentBodies
import VendorSync.Proofs.Spelling

/-! Where the spans of nodes end, against tokens and line comments.

Every end of a span is a seam between two tokens of the masked text, except for the end of a name
(`Spelled.seams`). A seam stands in a line comment only behind its first slash, when an escape before
the comment takes in the blank there (`Seam.cases`). So a span keeps the comments whole that no escape
stands before (`span_keeps_comment`). A name is trimmed as a text instead, by blanks, and ends with its
last significant unit only if no comment follows this and it does not end with a blank itself
(`name_stop_iff`). -/
namespace VendorSync

/-- Whether the span covers another as a whole or has no byte in common with it. -/
def Span.Keeps (s c : Span) : Prop := s.start ≤ c.start ∧ c.stop ≤ s.stop ∨ ¬ s.Meets c

theorem Span.keeps_of_outside {s c : Span} (hstart : s.start ≤ c.start ∨ c.stop ≤ s.start)
    (hstop : s.stop ≤ c.start ∨ c.stop ≤ s.stop) : s.Keeps c := by
  by_cases h : s.start ≤ c.start ∧ c.stop ≤ s.stop
  · exact .inl h
  · refine .inr fun ⟨offset, h₁, h₂, h₃, h₄⟩ => ?_
    omega

theorem Span.Ordered.keeps {lo hi : Nat} {spans : List Span} (h : Ordered lo hi spans) {s c : Span}
    (hs : s ∈ spans) (hc : c ∈ spans) : s.Keeps c := by
  induction spans generalizing lo with
  | nil => cases hs
  | cons first rest ih =>
    obtain ⟨-, hne, -, hrest⟩ := h
    rcases List.mem_cons.mp hs with heq | hs' <;> rcases List.mem_cons.mp hc with heq' | hc'
    · subst heq heq'
      exact .inl ⟨Nat.le_refl _, Nat.le_refl _⟩
    · subst heq
      have := hrest.of_mem hc'
      exact Span.keeps_of_outside (by omega) (by omega)
    · subst heq'
      have := hrest.of_mem hs'
      exact Span.keeps_of_outside (by omega) (by omega)
    · exact ih hrest hs' hc'

namespace Css

open LineComment

namespace LineComment

/-! ### Seams -/

/-- A token of the masked text begins or ends at the offset. -/
def Seam (t : Text) (n : Nat) : Prop :=
  ∃ a b, Token.lex (masked t) = a ++ b ∧ n = (Token.source a).byteLength

/-- What is shown without blanks is not hidden. -/
theorem exists_reveal_of_blanked {x : List Cell} {l s : Text} (h : blanked x = l ++ s)
    (hs : ∀ d ∈ s, d ≠ ' ') : ∃ u, x = u ++ reveal s ∧ blanked u = l := by
  induction x generalizing l s with
  | nil =>
    obtain ⟨rfl, rfl⟩ := List.append_eq_nil_iff.mp h.symm
    exact ⟨[], rfl, rfl⟩
  | cons cell x ih =>
    rw [blanked_cons] at h
    by_cases hcut : ∃ z, l = cell.shown ++ z ∧ blanked x = z ++ s
    · obtain ⟨z, rfl, hx⟩ := hcut
      obtain ⟨u, rfl, rfl⟩ := ih hx hs
      exact ⟨cell :: u, rfl, rfl⟩
    · obtain ⟨z, hshown, rfl⟩ := (List.append_eq_append_iff.mp h).resolve_left hcut
      obtain ⟨hz, hx⟩ := List.forall_mem_append.mp hs
      obtain ⟨u, hu, hnil⟩ := ih (List.nil_append _).symm hx
      obtain rfl := blanked_eq_nil hnil
      have hne : z ≠ [] := fun hnil => hcut ⟨[], by simpa [hnil] using hshown.symm, by simp [hnil]⟩
      have hhidden : cell.hidden = false := by
        by_contra hhidden
        rw [Bool.not_eq_false] at hhidden
        obtain ⟨d, hd⟩ := List.exists_mem_of_ne_nil z hne
        have hmem : d ∈ cell.shown := by rw [hshown]; exact List.mem_append_right l hd
        rw [Cell.shown_of_hidden hhidden] at hmem
        exact hz d hd (List.eq_of_mem_replicate hmem)
      rw [Cell.shown_of_not_hidden hhidden] at hshown
      obtain ⟨rfl, rfl⟩ := (List.append_eq_singleton_iff.mp hshown.symm).resolve_right
        fun ⟨_, hz⟩ => hne hz
      refine ⟨[], ?_, rfl⟩
      obtain ⟨char, hidden⟩ := cell
      subst hhidden
      conv_lhs => rw [hu]
      rfl

theorem endsWithEscape_of_blanked {x : List Cell} (h : Token.EndsWithEscape (blanked x)) :
    Token.EndsWithEscape (chars x) := by
  obtain ⟨l, digits, heq, hdigits, hlen⟩ := h
  obtain ⟨u, rfl, -⟩ := exists_reveal_of_blanked heq fun d hd hspace => by
    subst hspace
    rcases List.mem_cons.mp hd with hd | hd
    · exact absurd hd (by decide)
    · exact absurd (hdigits _ hd) (by decide)
  exact ⟨chars u, digits, by rw [chars_append, chars_reveal], hdigits, hlen⟩

/-- **A seam stands in a comment only behind its first slash**, if an escape is before it. -/
theorem Seam.cases {t : Text} {n : Nat} (h : Seam t n) {c : Span} (hc : c ∈ spans t) :
    n ≤ c.start ∨ c.stop ≤ n ∨
      n = c.start + 1 ∧ Token.EndsWithEscape (Text.takeBytes c.start t) := by
  obtain ⟨a, b, hlex, rfl⟩ := h
  by_cases hlo : (Token.source a).byteLength ≤ c.start
  · exact .inl hlo
  by_cases hhi : c.stop ≤ (Token.source a).byteLength
  · exact .inr (.inl hhi)
  refine .inr (.inr ?_)
  obtain ⟨x, run, y, hat⟩ := exists_cells_of_mem_spans hc
  have hstart : c.start = (chars x).byteLength := by rw [hat.start, Nat.zero_add]
  have hmasked : blanked x ++ (blanked run ++ blanked y) = Token.source a ++ Token.source b := by
    rw [← blanked_append, ← blanked_append, ← hat.cells_eq, ← masked_eq_blanked, Token.source_of_lex hlex]
  -- before the seam stands a part of the blanks, and the first blank of the rest behind it
  obtain ⟨p, ha, hrest⟩ := Text.exists_append_of_le hmasked (by rw [byteLength_blanked]; omega)
  have hblank := head?_of_inside (Token.source_of_lex hlex) hc (by omega) (by omega)
  obtain ⟨b', hb⟩ := Token.eq_cons_of_head? hblank
  have hp : ∀ d ∈ p, d = ' ' := by
    have hle : p.byteLength ≤ (blanked run).byteLength := by
      have hstop := hat.stop
      rw [Nat.zero_add, chars_append, Text.byteLength_append] at hstop
      rw [ha, Text.byteLength_append, byteLength_blanked] at hhi
      rw [byteLength_blanked]
      omega
    obtain ⟨q, hrun, -⟩ := Text.exists_append_of_le hrest.symm hle
    exact fun d hd => eq_space_of_mem_blanked hat.hidden d (by rw [hrun]; exact List.mem_append_left q hd)
  obtain ⟨p, d, rfl⟩ := (List.eq_nil_or_concat' p).resolve_left fun hnil => by
    rw [ha, hnil, List.append_nil, byteLength_blanked] at hlo
    omega
  obtain ⟨hp, hd⟩ := List.forall_mem_append.mp hp
  obtain rfl := hd d (List.mem_singleton_self d)
  have hescape := Token.endsWithEscape_of_blank (l := blanked x ++ p) hlex (by rw [ha]; simp) hb
  have hnil : p = [] := by
    by_contra hne
    obtain ⟨p, d, rfl⟩ := (List.eq_nil_or_concat' p).resolve_left hne
    refine hescape.getLast?_ne ?_
    rw [← List.append_assoc, List.getLast?_concat, hp d (by simp)]
  subst hnil
  rw [List.append_nil] at hescape
  have hone : (' ' : Char).utf8Size = 1 := by decide
  refine ⟨by rw [ha, hstart]; simp [hone], ?_⟩
  have htext : t = chars x ++ chars (run ++ y) := by
    rw [← chars_append, ← hat.cells_eq, chars_cells]
  rw [htext, hstart, Text.takeBytes_byteLength_append]
  exact endsWithEscape_of_blanked hescape

end LineComment

/-! ### The seams of a sentence -/

/-- The units where a statement begins are among all units, at that offset. -/
theorem Units.Begins.exists_tokens {whole u : Units} {pos : Nat} (h : whole.Begins pos u) :
    ∃ a b, whole.toTokens = a ++ (u.toTokens ++ b) ∧ (Token.source a).byteLength = pos := by
  induction h with
  | whole => exact ⟨[], [], by simp, rfl⟩
  | @behindCut pos body token rest _ _ _ ih =>
    obtain ⟨a, b, htokens, hpos⟩ := ih
    refine ⟨a ++ (body.flatMap Segment.toTokens ++ [token]), b, ?_, ?_⟩
    · rw [htokens, toTokens_prepend]
      simp [toTokens]
    · simp [byteLength_body, hpos, Token.byteLength, Nat.add_assoc]
  | @inside pos body opener inside closer rest _ _ ih =>
    obtain ⟨a, b, htokens, hpos⟩ := ih
    refine ⟨a ++ (body.flatMap Segment.toTokens ++ [opener]),
      closer.toList ++ (rest.toTokens ++ b), ?_, ?_⟩
    · rw [htokens, toTokens_prepend]
      simp [toTokens]
    · simp [byteLength_body, hpos, Token.byteLength, Nat.add_assoc]
  | @behindBlock pos body opener inside closer rest _ _ ih =>
    obtain ⟨a, b, htokens, hpos⟩ := ih
    refine ⟨a ++ (body.flatMap Segment.toTokens ++ (Units.block opener inside closer .nil).toTokens), b,
      ?_, ?_⟩
    · rw [htokens, toTokens_prepend]
      simp [toTokens]
    · simp [byteLength_body, byteLength_toTokens, hpos, Nat.add_assoc]

theorem Units.Begins.seam {t : Text} {u : Units} {pos : Nat} (h : (Units.ofText t).Begins pos u)
    {v w : List Token} (hu : u.toTokens = v ++ w) : Seam t (pos + (Token.source v).byteLength) := by
  obtain ⟨a, b, htokens, hpos⟩ := h.exists_tokens
  refine ⟨a ++ v, w ++ b, ?_, by simp [hpos]⟩
  rw [Units.ofText, Units.toTokens_ofTokens] at htokens
  rw [htokens, hu]
  simp

namespace Sentence
variable {t : Text} {s : Sentence (LineComment.cells t) (Units.ofText t)}

theorem seam {v w : List Token} (h : s.body.flatMap Segment.toTokens ++ s.after.toTokens = v ++ w) :
    Seam t (s.start + (Token.source v).byteLength) := by
  obtain ⟨pos, hbegins, hpos⟩ := s.begins
  have := hbegins.seam (v := s.leading ++ v) (w := w) (by
    rw [Units.toTokens_prepend, Units.toTokens_prepend, flatMap_toTokens_leaves, h, List.append_assoc])
  rwa [Token.source_append, Text.byteLength_append, ← Nat.add_assoc, ← hpos] at this

theorem seam_start : Seam t s.start := by
  simpa using s.seam (v := []) rfl

theorem seam_cells {c y : List Cell} {v w : List Token} (hc : Stands c y v)
    (h : s.body.flatMap Segment.toTokens ++ s.after.toTokens = v ++ w) :
    Seam t (chars (s.before ++ c)).byteLength := by
  rw [chars_append, Text.byteLength_append, hc.byteLength_eq]
  exact s.seam h

theorem Header.seam_stop (h : s.Header) : Seam t h.span.stop := by
  have hbody := congrArg (List.flatMap Segment.toTokens) h.body_eq
  rw [List.flatMap_append, flatMap_toTokens_leaves] at hbody
  exact seam_cells h.stands (by rw [hbody, List.append_assoc])

theorem Ends.seam {last stop : Nat} (h : s.Ends last stop) (hlast : Seam t last) : Seam t stop := by
  cases h with
  | last => exact hlast
  | @semicolon token rest r hafter _ hbehind hstands =>
    have hall := Stands.append (y := r) (hbehind ▸ s.stands) hstands
    exact seam_cells hall (w := rest.toTokens) (by rw [hafter]; simp [Units.toTokens])

theorem Opens.seam {stop : Nat} (h : s.Opens stop) : Seam t stop := by
  cases h with
  | @block opener inside closer rest i e r hafter hbehind hstands _ =>
    have hblock : s.behind = (⟨'{', false⟩ :: (i ++ e)) ++ r := by rw [hbehind]; simp
    have hall := Stands.append (y := r) (hblock ▸ s.stands) hstands
    exact seam_cells hall (w := rest.toTokens) (by rw [hafter]; simp [Units.toTokens])

/-- The colon of a declaration and the ends of its value are seams. -/
theorem Declares.seams {d : Declaration} (h : s.Declares d) :
    Seam t (chars (s.before ++ h.cells.front)).byteLength ∧ Seam t d.valueSpan.start ∧
      Seam t d.valueSpan.stop := by
  have hbody : s.body.flatMap Segment.toTokens ++ s.after.toTokens =
      h.clause.front.flatMap Segment.toTokens ++ (Token.colon :: (h.clause.gap ++
        (h.clause.value.flatMap Segment.toTokens ++ (h.clause.tail ++ s.after.toTokens)))) := by
    rw [← h.body_eq, h.clause.toTokens_body]
    simp
  have hcolon : ∀ z, (chars (s.before ++ (h.cells.front ++ ⟨':', false⟩ :: z))).byteLength =
      s.start + (Token.source (h.clause.front.flatMap Segment.toTokens ++ [Token.colon])).byteLength +
        (chars z).byteLength := by
    intro z
    simp [start, h.cells.front_stands.byteLength_eq, Token.colon, Nat.add_assoc]
  refine ⟨seam_cells h.cells.front_stands hbody, ?_, ?_⟩
  · rw [h.valueSpan]
    show Seam t (chars _).byteLength
    rw [hcolon, h.cells.gap_stands.byteLength_eq, Nat.add_assoc, ← Text.byteLength_append,
      ← Token.source_append]
    exact s.seam (by rw [hbody]; simp; rfl)
  · rw [h.valueSpan]
    show Seam t (chars _).byteLength
    rw [hcolon, chars_append, Text.byteLength_append, h.cells.gap_stands.byteLength_eq,
      h.cells.value_stands.byteLength_eq, Nat.add_assoc, ← Text.byteLength_append,
      ← Token.source_append, ← Text.byteLength_append, ← Token.source_append]
    exact s.seam (by rw [hbody]; simp; rfl)

end Sentence

/-! ### The seams of an item -/

/-- **The ends of a span are seams**, apart from those of a line comment and the end of a name. -/
theorem Item.Spelled.seams {t : Text} {item : Item} (h : item.Spelled (cells t) (Units.ofText t))
    {r : Span} (hr : r ∈ item.spans) : Seam t r.start ∧ Seam t r.stop ∨ r ∈ LineComment.spans t ∨
      ∃ d, item.kind = .declaration d ∧ r = d.nameSpan := by
  cases h with
  | @declaration d stop s spelling hends =>
    obtain ⟨-, hstart, hstop⟩ := spelling.seams
    simp only [spans, List.mem_cons, List.not_mem_nil, or_false] at hr
    rcases hr with rfl | rfl | rfl
    · exact .inl ⟨s.seam_start, hends.seam hstop⟩
    · exact .inr (.inr ⟨d, rfl, rfl⟩)
    · exact .inl ⟨hstart, hstop⟩
  | rule s header hopens =>
    simp only [spans, List.mem_cons, List.not_mem_nil, or_false] at hr
    rcases hr with rfl | rfl
    · exact .inl ⟨s.seam_start, hopens.seam⟩
    · exact .inl ⟨s.seam_start, header.seam_stop⟩
  | @atRule _ _ _ _ hasBlock _ s header _ hends =>
    obtain rfl := List.mem_singleton.mp hr
    refine .inl ⟨s.seam_start, ?_⟩
    cases hasBlock with
    | true => exact hends.seam
    | false => exact Sentence.Ends.seam hends header.seam_stop
  | other s header hends =>
    obtain rfl := List.mem_singleton.mp hr
    exact .inl ⟨s.seam_start, hends.seam header.seam_stop⟩
  | @comment pos leading token u hbegins =>
    obtain rfl := List.mem_singleton.mp hr
    have htokens : (Units.prepend (leading.map .leaf) (.leaf token u)).toTokens =
        (leading ++ [token]) ++ u.toTokens := by
      rw [Units.toTokens_prepend, flatMap_toTokens_leaves]
      simp [Units.toTokens]
    have hstop := hbegins.seam htokens
    rw [Token.source_append, Text.byteLength_append, ← Nat.add_assoc] at hstop
    refine .inl ⟨hbegins.seam (htokens.trans (List.append_assoc ..)), ?_⟩
    simpa [Token.byteLength] using hstop
  | lineComment hspan =>
    obtain rfl := List.mem_singleton.mp hr
    exact .inr (.inl hspan)
  | root =>
    obtain rfl := List.mem_singleton.mp hr
    have hstop := Units.Begins.seam (t := t) .whole (List.append_nil _).symm
    rw [Units.byteLength_toTokens] at hstop
    refine .inl ⟨⟨[], _, rfl, rfl⟩, ⟨_, [], (List.append_nil _).symm, ?_⟩⟩
    rw [Token.source_lex, byteLength_masked, chars_cells]

/-! ### Names and comments -/

/-- A name is cut in the blanks behind it, and so in no comment that ends with something else. -/
theorem Sentence.Declares.name_keeps {t : Text}
    {s : Sentence (LineComment.cells t) (Units.ofText t)} {d : Declaration} (h : s.Declares d) {c : Span}
    (hc : c ∈ LineComment.spans t) (houtside : ∀ n, Seam t n → n ≤ c.start ∨ c.stop ≤ n)
    (hlast : ∀ ch ∈ (Text.slice c t).getLast?, Text.isBlank ch = false) : d.nameSpan.Keeps c := by
  obtain ⟨blanks, hfront, hblanks, -⟩ := h.name
  have hstart := houtside _ s.seam_start
  have hcolon := houtside _ h.seams.1
  rw [chars_append, Text.byteLength_append, hfront, Text.byteLength_append] at hcolon
  rw [h.nameSpan]
  refine Span.keeps_of_outside hstart ?_
  show s.start + d.name.byteLength ≤ c.start ∨ c.stop ≤ s.start + d.name.byteLength
  by_contra hin
  simp only [not_or, Nat.not_le] at hin
  rw [start] at hin
  -- the comment ends in the blanks behind the name
  obtain ⟨bf, body, behind, hat⟩ := exists_commentAt hc
  have hslice : Text.slice c t = '/' :: '/' :: body := by
    have := Text.slice_eq (b := '/' :: '/' :: body) (c := behind) hat.start
      (by rw [hat.stop, Text.byteLength_append, byteLength_slashes])
    rwa [← hat.text_eq] at this
  obtain ⟨z, htext⟩ := h.text_eq
  rw [chars_cells, hfront] at htext
  have hcut : (chars s.before ++ d.name) ++ (blanks ++ z) = (bf ++ '/' :: '/' :: body) ++ behind := by
    have := htext.symm.trans hat.text_eq
    simpa using this
  have hstop : c.stop = (bf ++ '/' :: '/' :: body : Text).byteLength := by
    rw [hat.stop, Text.byteLength_append, byteLength_slashes]
  obtain ⟨w, hw, hrest⟩ := Text.exists_append_of_le hcut (by rw [← hstop, Text.byteLength_append]; omega)
  have hwlen : c.stop = (chars s.before).byteLength + d.name.byteLength + w.byteLength := by
    rw [hstop, hw, Text.byteLength_append, Text.byteLength_append]
  obtain ⟨w', hblanks_eq, -⟩ := Text.exists_append_of_le hrest.symm (by omega)
  obtain ⟨w, ch, rfl⟩ := (List.eq_nil_or_concat' w).resolve_left fun hnil => by
    rw [hnil, Text.byteLength_nil] at hwlen
    omega
  have hlast_eq : (Text.slice c t).getLast? = some ch := by
    rw [hslice, ← List.getLast?_append_of_ne_nil bf (by simp), hw, ← List.append_assoc,
      List.getLast?_concat]
  have hblank := hblanks ch (by rw [hblanks_eq]; simp)
  rw [hlast ch hlast_eq] at hblank
  cases hblank

/-- **A span keeps the comments that no escape stands before**, and the span of a name those of them
that do not end with a blank. -/
theorem span_keeps_comment {t : Text} {c : Span} (hc : c ∈ LineComment.spans t)
    (hescape : ¬ Token.EndsWithEscape (Text.takeBytes c.start t)) {node : Node}
    (hnode : node ∈ (Sheet.ofText t).nodes) {r : Span} (hr : r ∈ node.spans)
    (hname : (∃ d, node.kind = .declaration d ∧ r = d.nameSpan) →
      ∀ ch ∈ (Text.slice c t).getLast?, Text.isBlank ch = false) : r.Keeps c := by
  have houtside : ∀ n, Seam t n → n ≤ c.start ∨ c.stop ≤ n := fun n hn =>
    (hn.cases hc).imp_right fun h => h.resolve_right fun h => hescape h.2
  have hspelled := spelled_of_mem_nodes hnode
  rcases hspelled.seams hr with ⟨hstart, hstop⟩ | hcomment | ⟨d, hd, rfl⟩
  · exact Span.keeps_of_outside (houtside _ hstart) (houtside _ hstop)
  · exact (runs_spans t).ordered.keeps hcomment hc
  · obtain ⟨s, -, ⟨spelling⟩⟩ := hspelled.exists_declares hd
    exact spelling.name_keeps hc houtside (hname ⟨d, hd, rfl⟩)

/-- A value that ends behind an escape keeps the comment behind it. -/
theorem span_keeps_comment_of_value :
    let t : Text := "a\x7bx:\\31 z//c\n;\x7d".toList
    let node : Node := ⟨⟨.declaration ⟨['x'], ⟨2, 3⟩, "\\31 z".toList, ⟨4, 9⟩⟩, ⟨2, 14⟩⟩, some 1⟩
    (⟨9, 12⟩ : Span) ∈ LineComment.spans t ∧ ¬ Token.EndsWithEscape (Text.takeBytes 9 t) ∧
      node ∈ (Sheet.ofText t).nodes ∧ (⟨4, 9⟩ : Span) ∈ node.spans ∧ (⟨4, 9⟩ : Span).Keeps ⟨9, 12⟩ := by
  intro t node
  have hc : (⟨9, 12⟩ : Span) ∈ LineComment.spans t := by decide +kernel
  have hescape : ¬ Token.EndsWithEscape (Text.takeBytes 9 t) := fun h =>
    absurd (h.last 'z' (by decide)) (by decide)
  have hnode : node ∈ (Sheet.ofText t).nodes := by decide +kernel
  have hr : (⟨4, 9⟩ : Span) ∈ node.spans := by decide
  refine ⟨hc, hescape, hnode, hr, span_keeps_comment hc hescape hnode hr fun ⟨d, hd, hname⟩ => ?_⟩
  cases hd
  exact absurd hname (by decide)

/-- The value of an escape goes on into the comment behind it. -/
theorem not_keeps_of_escape :
    let t : Text := "a\x7bx:\\31//c\n\x7d".toList
    let node : Node := ⟨⟨.declaration ⟨['x'], ⟨2, 3⟩, "\\31/".toList, ⟨4, 8⟩⟩, ⟨2, 8⟩⟩, some 1⟩
    (⟨7, 10⟩ : Span) ∈ LineComment.spans t ∧ node ∈ (Sheet.ofText t).nodes ∧
      (⟨4, 8⟩ : Span) ∈ node.spans ∧ ¬ (⟨4, 8⟩ : Span).Keeps ⟨7, 10⟩ := by
  intro t node
  refine ⟨by decide +kernel, by decide +kernel, by decide, ?_⟩
  intro h
  rcases h with h | h
  · exact absurd h.2 (by decide)
  · exact h ⟨7, by decide, by decide, by decide, by decide⟩

/-! ### Names and their last units -/

/-- Of the hidden cells behind a seam one is a slash, the first of its comment or the second. -/
theorem LineComment.slash_of_hidden {t : Text} {before gap behind : List Cell}
    (hcells : cells t = before ++ (gap ++ behind)) (hseam : Seam t (chars before).byteLength)
    {cell : Cell} (hcell : cell ∈ gap) (hhidden : cell.hidden = true) : '/' ∈ chars gap := by
  obtain ⟨g, g', rfl⟩ := List.append_of_mem hcell
  have hsplit : cells t = (before ++ g) ++ cell :: (g' ++ behind) := by rw [hcells]; simp
  obtain ⟨c, hc, hstart, hstop⟩ := (runs_spans t).exists_of_hidden hsplit hhidden
  obtain ⟨bf, body, y, hat⟩ := exists_commentAt hc
  have htext : chars before ++ (chars (g ++ cell :: g') ++ chars behind) =
      bf ++ '/' :: '/' :: (body ++ y) := by
    rw [← chars_append, ← chars_append, ← hcells, chars_cells, hat.text_eq]
    simp
  have hsize := cell.char.utf8Size_pos
  have hone : ('/' : Char).utf8Size = 1 := by decide
  have hbf := hat.start
  simp only [Nat.zero_add, chars_append, Text.byteLength_append] at hstart hstop
  rcases hseam.cases hc with hbefore | hbehind | ⟨hinside, -⟩
  · refine Text.mem_of_between htext (by omega) ?_
    simp only [chars_append, chars_cons, Text.byteLength_append, Text.byteLength_cons]
    omega
  · omega
  · have hsecond : chars before ++ (chars (g ++ cell :: g') ++ chars behind) =
        (bf ++ ['/']) ++ '/' :: (body ++ y) := by
      rw [htext]
      simp
    refine Text.mem_of_between hsecond ?_ ?_
    · simp only [Text.byteLength_append, Text.byteLength_cons, Text.byteLength_nil]
      omega
    · simp only [chars_append, chars_cons, Text.byteLength_append, Text.byteLength_cons,
        Text.byteLength_nil]
      omega

/-- Whether only white space is in the gap, no comment of either kind. -/
def Trimmed.Blank {cs y : List Cell} {body : List Segment} (h : Trimmed cs y body) : Prop :=
  (∀ token ∈ h.trailing, token.kind = .whitespace) ∧ ∀ cell ∈ h.gap, cell.hidden = false

theorem isBlank_of_isSpace {c : Char} (h : Token.isSpace c = true) : Text.isBlank c = true := by
  rcases Token.eq_of_isSpace h with rfl | rfl | rfl | rfl | rfl <;> decide

/-- A comment begins with a slash. -/
theorem Token.slash_of_comment {t : Text} {token : Token} (h : token ∈ lex t)
    (hk : token.kind = .comment) : '/' ∈ token.lexeme := by
  obtain ⟨a, b, hab⟩ := List.append_of_mem h
  obtain ⟨c, cs, n, -, hs, hlexeme, -⟩ := lex_eq_cons (lex_source_of_append hab)
  obtain ⟨-, rfl, -⟩ := hs.comment_eq hk
  rw [hlexeme]
  exact List.mem_cons_self ..

/-- The characters of a gap are blanks exactly if no comment is among them. -/
theorem Trimmed.blank_iff {t : Text} {before cs y : List Cell} {body : List Segment}
    (h : Trimmed cs y body) (hcells : LineComment.cells t = before ++ (cs ++ y))
    (hseam : Seam t (chars (before ++ h.cells)).byteLength) :
    h.Blank ↔ ∀ c ∈ chars h.gap, Text.isBlank c = true := by
  have hlex : ∀ token ∈ h.trailing, token ∈ Token.lex (blanked (h.gap ++ y)) := fun token htoken => by
    rw [h.gap_stands.lex]
    exact List.mem_append_left _ htoken
  constructor
  · rintro ⟨hkinds, hshown⟩ c hc
    have hmem : c ∈ Token.source h.trailing := by
      rw [← h.gap_stands.covers.blanked_eq, ← reveal_chars hshown, blanked_reveal]
      exact hc
    obtain ⟨token, htoken, hc⟩ := List.mem_flatMap.mp hmem
    apply isBlank_of_isSpace
    obtain ⟨a, b, hab⟩ := List.append_of_mem (hlex token htoken)
    exact (Token.whitespace_maximal (Token.lex_source_of_append hab) (hkinds token htoken)).1 c hc
  · intro hblank
    have hslash : '/' ∉ chars h.gap := fun hmem => absurd (hblank _ hmem) (by decide)
    refine ⟨fun token htoken => (h.gaps token htoken).resolve_right fun hkind => hslash ?_,
      fun cell hcell => ?_⟩
    · have hmem : '/' ∈ blanked h.gap := by
        rw [h.gap_stands.covers.blanked_eq]
        exact List.mem_flatMap.mpr ⟨token, htoken, Token.slash_of_comment (hlex token htoken) hkind⟩
      obtain ⟨cell, hcell, hshown⟩ := List.mem_flatMap.mp hmem
      cases hhidden : cell.hidden with
      | true =>
        rw [Cell.shown_of_hidden hhidden] at hshown
        exact absurd (List.eq_of_mem_replicate hshown) (by decide)
      | false =>
        rw [Cell.shown_of_not_hidden hhidden, List.mem_singleton] at hshown
        rw [hshown]
        exact List.mem_map_of_mem hcell
    · by_contra hhidden
      rw [Bool.not_eq_false] at hhidden
      have hgap : LineComment.cells t = (before ++ h.cells) ++ (h.gap ++ y) := by
        refine hcells.trans ?_
        conv_lhs => rw [h.eq]
        simp
      exact hslash (slash_of_hidden hgap hseam hcell hhidden)

/-- The units before the colon of a declaration. -/
structure Sentence.Declares.Front {all : List Cell} {whole : Units} {s : Sentence all whole}
    {d : Declaration} (h : s.Declares d) extends
    Trimmed h.cells.front (⟨':', false⟩ :: (h.cells.gap ++ (h.cells.value ++ (h.cells.tail ++ s.behind))))
      h.clause.front

theorem Statement.isName_append_iff {a b : Text} : IsName (a ++ b) a ↔
    (∀ c ∈ b, Text.isBlank c = true) ∧ ∀ c ∈ a.getLast?, Text.isBlank c = false := by
  constructor
  · rintro ⟨blanks, heq, hblanks, hlast⟩
    obtain rfl := List.append_cancel_left heq
    exact ⟨hblanks, hlast⟩
  · rintro ⟨hblanks, hlast⟩
    exact ⟨b, rfl, hblanks, hlast⟩

theorem Statement.IsName.eq_iff {a b name : Text} (h : IsName (a ++ b) name) :
    name.byteLength = a.byteLength ↔ IsName (a ++ b) a := by
  constructor
  · intro hlen
    obtain ⟨blanks, heq, -⟩ := id h
    obtain ⟨rfl, -⟩ := Text.append_inj_of_byteLength heq hlen.symm
    exact h
  · intro ha
    rw [trimEnd_eq_iff.mpr h |>.symm, trimEnd_eq_iff.mpr ha]

/-- Where the name of a statement ends. -/
theorem Sentence.Declares.nameSpan_stop_iff {t : Text}
    {s : Sentence (LineComment.cells t) (Units.ofText t)} {d : Declaration} (h : s.Declares d) (front : h.Front) :
    d.nameSpan.stop = (chars (s.before ++ front.cells)).byteLength ↔
      front.Blank ∧ ∀ c ∈ (chars front.cells).getLast?, Text.isBlank c = false := by
  have hstop : d.nameSpan.stop = (chars (s.before ++ front.cells)).byteLength ↔
      d.name.byteLength = (chars front.cells).byteLength := by
    rw [h.nameSpan, chars_append, Text.byteLength_append]
    exact Nat.add_left_cancel_iff
  have hname := h.name
  rw [front.chars_eq] at hname
  have hcells : LineComment.cells t = s.before ++ (h.cells.front ++
      ⟨':', false⟩ :: (h.cells.gap ++ (h.cells.value ++ (h.cells.tail ++ s.behind)))) := by
    refine s.eq.trans ?_
    conv_lhs => rw [h.cells.eq]
    simp
  have hseam : Seam t (chars (s.before ++ front.cells)).byteLength := by
    have hunits := congrArg (List.flatMap Segment.toTokens) front.body_eq
    rw [List.flatMap_append, flatMap_toTokens_leaves] at hunits
    refine s.seam_cells front.stands (w := front.trailing ++ Token.colon :: (h.clause.gap ++
      (h.clause.value.flatMap Segment.toTokens ++ (h.clause.tail ++ s.after.toTokens)))) ?_
    rw [← h.body_eq, h.clause.toTokens_body, hunits]
    simp
  rw [hstop, hname.eq_iff, Statement.isName_append_iff, ← front.blank_iff hcells hseam]

/-- **A name ends with its last unit** exactly if no comment is behind this before the colon and the
unit does not end with a blank. A declaration is spelled by a statement at its start whose units
before the colon have an end, and this holds of every such statement and end. -/
theorem name_stop_iff {t : Text} {node : Node} (hnode : node ∈ (Sheet.ofText t).nodes)
    {d : Declaration} (hd : node.kind = .declaration d) :
    (∃ (s : Sentence (cells t) (Units.ofText t)) (h : s.Declares d), Nonempty h.Front) ∧
      ∀ (s : Sentence (cells t) (Units.ofText t)) (h : s.Declares d) (front : h.Front),
        node.span.start = s.start ∧
          (d.nameSpan.stop = (chars (s.before ++ front.cells)).byteLength ↔
            front.Blank ∧ ∀ c ∈ (chars front.cells).getLast?, Text.isBlank c = false) := by
  obtain ⟨s, hstart, ⟨h⟩⟩ := (spelled_of_mem_nodes hnode).exists_declares hd
  obtain ⟨front⟩ := exists_trimmed h.declares.front h.cells.front_stands
  refine ⟨⟨s, h, ⟨⟨front⟩⟩⟩, fun s' h' front' => ⟨?_, h'.nameSpan_stop_iff front'⟩⟩
  have hsame := congrArg Span.start (h.nameSpan.symm.trans h'.nameSpan)
  exact hstart.trans hsame

/-- The blank behind an escape is part of the name's unit, but not of the name. -/
theorem name_stop_iff_of_escape :
    let t : Text := "a\x7b\\31 :1\x7d".toList
    let d : Declaration := ⟨"\\31".toList, ⟨2, 5⟩, ['1'], ⟨7, 8⟩⟩
    let node : Node := ⟨⟨.declaration d, ⟨2, 8⟩⟩, some 1⟩
    node ∈ (Sheet.ofText t).nodes ∧ node.kind = .declaration d ∧
      (∃ (s : Sentence (cells t) (Units.ofText t)) (h : s.Declares d), Nonempty h.Front) ∧
      ∀ (s : Sentence (cells t) (Units.ofText t)) (h : s.Declares d) (front : h.Front),
        node.span.start = s.start ∧
          (d.nameSpan.stop = (chars (s.before ++ front.cells)).byteLength ↔
            front.Blank ∧ ∀ c ∈ (chars front.cells).getLast?, Text.isBlank c = false) := by
  intro t d node
  have hnode : node ∈ (Sheet.ofText t).nodes := by decide +kernel
  exact ⟨hnode, rfl, name_stop_iff hnode rfl⟩

/-- A comment between a name and its colon is part of the name, and hides the siblings. -/
theorem name_takes_in_comment :
    let t : Text := "a\x7bx/**/:1;-moz-x:2\x7d".toList
    let node : Node := ⟨⟨.declaration ⟨"x/**/".toList, ⟨2, 7⟩, ['1'], ⟨8, 9⟩⟩, ⟨2, 10⟩⟩, some 1⟩
    node ∈ (Sheet.ofText t).nodes ∧
      ((Token.lex (masked t)).drop 2).take 2 = [⟨.ident, ['x']⟩, ⟨.comment, "/**/".toList⟩] ∧
      (Sheet.ofText t).syncEditsFrom 2 = some [] ∧
      (Sheet.ofText "a\x7bx:1;-moz-x:2\x7d".toList).syncEditsFrom 2 = some [⟨⟨13, 14⟩, ['1']⟩] := by
  decide +kernel

end Css
end VendorSync
