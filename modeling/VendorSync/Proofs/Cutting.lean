import VendorSync.Proofs.Locality
import VendorSync.Proofs.Spelling
import VendorSync.Proofs.Turns

/-! Reading a style sheet with every cut checked.

`Sheet.checked` reads a text like `Sheet.ofText`, from the masked text that the scan over bytes puts
together, and fails where it would cut the text inside of a character or cut a span that ends before
it begins. The parts of a statement stand in order between characters (`Gathered`), so it never fails
(`checked_ofText`): neither is a statement cut in a wrong place, nor a header, a name or a value. -/
namespace VendorSync.Css

namespace Statement

/-! ### Statements -/

/-- As `atRule?`: the name of an at-rule is cut off behind its last character. -/
def checkedAtRule (header : Text) : Option (Option (Text × Text)) :=
  match header with
  | '@' :: rest => do
    let stop := (Text.offsetOf? endsAtRuleName rest).getD (Text.byteLength rest)
    let name ← Text.slice? ⟨0, stop⟩ rest
    let behind ← Text.rest? stop rest
    return some (name, Text.trim behind)
  | _ => some none

/-- As `kind`. -/
def checkedKind (text : Text) (first : Part) (others : List Part) : Option Kind :=
  match others.dropWhile (!·.isColon) with
  | colon :: value => do
    let before ← text.slice? ⟨first.span.start, colon.span.start⟩
    let name := Text.trimEnd before
    if name.isEmpty then return .other
    let valueSpan := headerSpan value (colon.span.start + 1)
    let value ← text.slice? valueSpan
    return .declaration
      ⟨name, ⟨first.span.start, first.span.start + Text.byteLength name⟩, value, valueSpan⟩
  | [] => do
    let header ← text.slice? ⟨first.span.start, stop first others⟩
    match ← checkedAtRule header with
    | some (name, prelude) => return .atRule name prelude false
    | none => return .other

/-- As `blockKind`. -/
def checkedBlockKind (text : Text) (span : Span) : Option Kind := do
  let header ← text.slice? span
  match ← checkedAtRule header with
  | some (name, prelude) => return .atRule name prelude true
  | none => return .rule header span

/-- As `conclude`. -/
def checkedConclude (text : Text) (parts : List Part) (cut : Option Nat) (after : Forest) :
    Option Forest :=
  match parts with
  | [] => some after
  | first :: others => do
    let kind ← checkedKind text first others
    return .cons ⟨kind, ⟨first.span.start, cut.getD (stop first others)⟩⟩ .nil after

theorem checkedAtRule_eq (header : Text) : checkedAtRule header = some (atRule? header) := by
  cases hat : atRule? header with
  | none =>
    have hhead := atRule?_eq_none_iff.mp hat
    unfold checkedAtRule
    split
    · exact absurd rfl hhead
    · rfl
  | some parts =>
    obtain ⟨rest, rfl, hname, hends, hprelude⟩ := atRule?_eq_some_iff.mp hat
    have hstop : (Text.offsetOf? endsAtRuleName (parts.1 ++ rest)).getD
        (Text.byteLength (parts.1 ++ rest)) = Text.byteLength parts.1 := by
      rw [Text.offsetOf?_eq hname hends]
      cases rest <;> simp
    have hslice : Text.slice? ⟨0, Text.byteLength parts.1⟩ (parts.1 ++ rest) = some parts.1 :=
      @Text.slice?_append _ [] parts.1 rest rfl rfl
    simp only [checkedAtRule, hstop, hslice, Text.rest?_append]
    show some (some (parts.1, Text.trim rest)) = some (some parts)
    rw [← hprelude]

section Kinds
variable {text : Text} {parts : List Part} {first : Part} {others : List Part}

theorem Placed.cuts_headerSpan (h : Placed text parts) {brace : Nat}
    (hbrace : text.isBoundary brace = true) : (headerSpan parts brace).Cuts text := by
  cases parts with
  | nil => exact ⟨Nat.le_refl _, hbrace, hbrace⟩
  | cons first others =>
    exact ⟨Nat.le_of_lt (stop_bounds h.ordered).1, (h.sound first (List.mem_cons_self ..)).start,
      stop_sound h.sound⟩

theorem checkedBlockKind_eq (h : Placed text parts) {brace : Nat}
    (hbrace : text.isBoundary brace = true) :
    checkedBlockKind text (headerSpan parts brace) = some (blockKind text (headerSpan parts brace)) := by
  have hheader := Text.slice?_of_cuts (h.cuts_headerSpan hbrace)
  simp only [checkedBlockKind, blockKind, hheader, checkedAtRule_eq, Option.bind_eq_bind,
    Option.bind_some]
  cases atRule? (Text.slice (headerSpan parts brace) text) <;> rfl

/-- A name is cut between the start of the statement and its colon. -/
theorem Placed.cuts_name {before value : List Part} {colon : Part}
    (h : Placed text (first :: (before ++ colon :: value))) :
    (⟨first.span.start, colon.span.start⟩ : Span).Cuts text where
  ordered := by
    have hordered : Span.Ordered 0 text.byteLength
        ((first.span :: before.map Part.span) ++ colon.span :: value.map Part.span) := by
      simpa using h.ordered
    have hcolon := hordered.split.1 first.span (List.mem_cons_self ..)
    have hfirst := h.ordered.2.1
    show first.span.start ≤ colon.span.start
    omega
  start := (h.sound first (List.mem_cons_self ..)).start
  stop := (h.sound colon (by simp)).start

theorem checkedKind_eq (h : Placed text (first :: others)) :
    checkedKind text first others = some (kind text first others) := by
  rcases colon_or_none others with hno | ⟨before, colon, value, rfl, hbefore, hcolon⟩
  · have hdrop : others.dropWhile (!·.isColon) = [] := by
      rw [List.dropWhile_eq_nil_iff]
      simpa using hno
    have hheader := Text.slice?_of_cuts (h.cuts_headerSpan (Text.isBoundary_zero text))
    rw [headerSpan] at hheader
    rw [kind_of_no_colon hno]
    simp only [checkedKind, hdrop, hheader, checkedAtRule_eq, Option.bind_eq_bind, Option.bind_some]
    cases atRule? (Text.slice ⟨first.span.start, stop first others⟩ text) <;> rfl
  · have hdrop : (before ++ colon :: value).dropWhile (!·.isColon) = colon :: value := by
      rw [List.dropWhile_append_of_pos (by simpa using hbefore),
        List.dropWhile_cons_of_neg (by simp [hcolon])]
    have hsound := h.sound colon (by simp)
    have hplaced := @Placed.right _ (first :: (before ++ [colon])) value (by simpa using h)
    have hvalue := hplaced.cuts_headerSpan (hsound.colon hcolon ▸ hsound.stop)
    rw [kind_of_colon hbefore hcolon, declaration?_eq]
    simp only [checkedKind, hdrop, Text.slice?_of_cuts h.cuts_name, Text.slice?_of_cuts hvalue,
      Option.bind_eq_bind, Option.bind_some]
    by_cases hnil : Text.trimEnd (Text.slice ⟨first.span.start, colon.span.start⟩ text) = [] <;>
      simp [hnil]

theorem checkedConclude_eq (h : Placed text parts) (cut : Option Nat) (after : Forest) :
    checkedConclude text parts cut after = some (conclude text parts cut after) := by
  cases parts with
  | nil => rfl
  | cons first others =>
    rw [checkedConclude, checkedKind_eq h]
    rfl

end Kinds

/-! ### The parts of a statement -/

/-- The parts that a statement has up to an offset: in order, and between characters. -/
structure Gathered (text : Text) (pos : Nat) (parts : List Part) : Prop where
  ordered : Span.Ordered 0 pos (parts.map Part.span)
  sound : ∀ p ∈ parts, p.Sound text

theorem gathered_nil (text : Text) (pos : Nat) : Gathered text pos [] := ⟨trivial, by simp⟩

namespace Gathered
variable {text : Text} {pos : Nat} {parts : List Part}

theorem mono (h : Gathered text pos parts) {pos' : Nat} (hle : pos ≤ pos') : Gathered text pos' parts :=
  ⟨h.ordered.mono (Nat.le_refl _) hle, h.sound⟩

theorem placed (h : Gathered text pos parts) (hpos : text.isBoundary pos = true) : Placed text parts := by
  obtain ⟨a, b, rfl, rfl⟩ := Text.isBoundary_iff.mp hpos
  exact ⟨h.ordered.mono (Nat.le_refl _) (by simp), h.sound⟩

theorem concat (h : Gathered text pos parts) {stop : Nat} {isColon : Bool}
    (hpos : text.isBoundary pos = true) (hstop : text.isBoundary stop = true) (hne : pos < stop)
    (hcolon : isColon = true → stop = pos + 1) :
    Gathered text stop (parts ++ [⟨⟨pos, stop⟩, isColon⟩]) where
  ordered := by
    rw [List.map_append]
    exact h.ordered.append ⟨Nat.le_refl _, hne, Nat.le_refl _, trivial⟩ (Nat.zero_le _) (Nat.le_of_lt hne)
  sound := List.forall_mem_append.mpr ⟨h.sound, by simpa using Part.Sound.mk hpos hstop hcolon⟩

end Gathered

end Statement

/-! ### Levels -/

/-- As `Forest.ofUnits`. -/
def Forest.checked (source : Source) (pos : Nat) (parts : List Part) : Units → Option Forest
  | .nil => Statement.checkedConclude source.text parts none .nil
  | .leaf token rest =>
    let span : Span := ⟨pos, pos + token.byteLength⟩
    match Role.ofKind token.kind with
    | .space => do
      let after ← checked source span.stop parts rest
      return if parts.isEmpty then source.lineComments span after else after
    | .comment => do
      let after ← checked source span.stop parts rest
      return if parts.isEmpty then .cons ⟨.comment, span⟩ .nil after else after
    | .semicolon => do
      let after ← checked source span.stop [] rest
      Statement.checkedConclude source.text parts (some span.stop) after
    | .strayBrace => do
      let after ← checked source span.stop [] rest
      Statement.checkedConclude source.text parts none after
    | .part isColon => checked source span.stop (parts ++ [⟨span, isColon⟩]) rest
  | .group opener inside closer rest =>
    let span : Span := ⟨pos, pos + (Units.group opener inside closer .nil).byteLength⟩
    checked source span.stop (parts ++ [⟨span, false⟩]) rest
  | .block opener inside closer rest => do
    let stop := pos + (Units.block opener inside closer .nil).byteLength
    let header := Statement.headerSpan parts pos
    let kind ← Statement.checkedBlockKind source.text header
    let children ← checked source (pos + opener.byteLength) [] inside
    let after ← checked source stop [] rest
    return .cons ⟨kind, ⟨header.start, stop⟩⟩ children after

/-- As `Sheet.ofText`. -/
def Sheet.checked (t : Text) : Option Sheet := do
  let (shown, comments) ← LineComment.mask? t
  let forest ← Forest.checked ⟨t, comments⟩ 0 [] (.ofTokens (Token.lex shown))
  return { length := t.byteLength, forest }

section Levels
variable {source : Source} {pos : Nat} {parts : List Part}

/-- **No statement of a level is cut inside of a character.** The parts of the statement that has begun
are carried along, as they are where it is cut. -/
theorem Forest.checked_eq {u : Units} (hfits : source.Fits pos u.toTokens)
    (hparts : Statement.Gathered source.text pos parts) :
    Forest.checked source pos parts u = some (Forest.ofUnits source pos parts u) := by
  induction u generalizing pos parts with
  | nil => exact Statement.checkedConclude_eq (hparts.placed hfits.start) none .nil
  | leaf token rest ih =>
    have hrest := hfits.behind_leaf
    have hpos : 0 < token.byteLength := byteLength_pos (hfits.nonempty token (by simp [Units.toTokens]))
    have hmono := hparts.mono (Nat.le_add_right pos token.byteLength)
    cases hrole : Role.ofKind token.kind with
    | space | comment =>
      simp only [checked, ofUnits, hrole, ih hrest hmono]
      rfl
    | semicolon | strayBrace =>
      simp only [checked, ofUnits, hrole, ih hrest (Statement.gathered_nil _ _)]
      exact Statement.checkedConclude_eq (hparts.placed hfits.start) _ _
    | part isColon =>
      simp only [checked, ofUnits, hrole]
      refine ih hrest (hparts.concat hfits.start hrest.start (Nat.lt_add_of_pos_right hpos)
        fun hcolon => ?_)
      subst hcolon
      rw [hfits.colon token (by simp [Units.toTokens]) (Role.kind_of_colon hrole)]
  | group opener inside closer rest _ ih =>
    have hpos : 0 < opener.byteLength := byteLength_pos (hfits.nonempty opener (by simp [Units.toTokens]))
    have hlen : opener.byteLength ≤ (Units.group opener inside closer .nil).byteLength := by
      simp only [Units.byteLength]
      omega
    have hrest := hfits.behind_group
    exact ih hrest (hparts.concat hfits.start hrest.start
      (Nat.lt_add_of_pos_right (Nat.lt_of_lt_of_le hpos hlen)) (by simp))
  | block opener inside closer rest ih₁ ih₂ =>
    have hkind := Statement.checkedBlockKind_eq (hparts.placed hfits.start) hfits.start
    simp only [checked, ofUnits, hkind, ih₁ hfits.inside_block (Statement.gathered_nil _ _),
      ih₂ hfits.behind_block (Statement.gathered_nil _ _)]
    rfl

end Levels

/-! ### Nodes -/

open LineComment

theorem cuts_of_cells {t : Text} {x y z : List Cell} (h : cells t = x ++ (y ++ z)) :
    (⟨(chars x).byteLength, (chars (x ++ y)).byteLength⟩ : Span).Cuts t := by
  have htext : t = chars x ++ (chars y ++ chars z) := by
    rw [← chars_append, ← chars_append, ← h, chars_cells]
  have := @Span.cuts_of_append ⟨(chars x).byteLength, (chars (x ++ y)).byteLength⟩ (chars x) (chars y)
    (chars z) rfl (by rw [chars_append])
  rwa [← htext] at this

theorem Sentence.Header.cuts_span {t : Text} {s : Sentence (LineComment.cells t) (Units.ofText t)}
    (h : s.Header) : h.span.Cuts t := by
  have hcells : LineComment.cells t = s.before ++ (h.cells ++ (h.gap ++ s.behind)) := by
    refine s.eq.trans ?_
    conv_lhs => rw [h.eq]
    simp
  exact cuts_of_cells hcells

theorem Sentence.Declares.cuts_nameSpan {t : Text} {s : Sentence (LineComment.cells t) (Units.ofText t)}
    {d : Declaration} (h : s.Declares d) : d.nameSpan.Cuts t := by
  obtain ⟨blanks, hfront, -⟩ := h.name
  obtain ⟨z, htext⟩ := h.text_eq
  rw [chars_cells, hfront, List.append_assoc] at htext
  rw [htext]
  refine Span.cuts_of_append ?_ ?_
  · rw [h.nameSpan, start]
  · rw [h.nameSpan, start, Text.byteLength_append]

/-- Every span of a node begins and ends between characters. -/
theorem Sheet.cuts_of_mem_spans {t : Text} {node : Node} (hnode : node ∈ (Sheet.ofText t).nodes)
    {s : Span} (hs : s ∈ node.spans) : s.Cuts t := by
  have hspelled := spelled_of_mem_nodes hnode
  rw [nodes_eq, List.mem_cons] at hnode
  rcases hnode with rfl | hnode
  · obtain rfl := List.mem_singleton.mp hs
    exact ⟨Nat.zero_le _, Text.isBoundary_zero t, Text.isBoundary_iff.mpr ⟨t, [], by simp, rfl⟩⟩
  have hsound := (sound_ofText t).of_mem_nodes hnode
  obtain ⟨-, hne, -⟩ := (starts_of_within (within_ofText t) 0 1).2 node hnode
  rcases List.mem_cons.mp hs with rfl | hs
  · exact ⟨Nat.le_of_lt hne, hsound.start, hsound.stop⟩
  cases hkind : node.kind with
  | declaration d =>
    simp only [hkind, List.mem_cons, List.not_mem_nil, or_false] at hs
    rcases hs with rfl | rfl
    · obtain ⟨_, -, ⟨spelling⟩⟩ := hspelled.exists_declares hkind
      exact spelling.cuts_nameSpan
    · obtain ⟨-, hle, -, hstart, hstop, -⟩ := hsound.value d hkind
      exact ⟨hle, hstart, hstop⟩
  | rule selector span =>
    simp only [hkind, List.mem_singleton] at hs
    subst hs
    obtain ⟨_, header, rfl⟩ := hspelled.exists_header hkind
    exact header.cuts_span
  | root | atRule | comment | other => simp [hkind] at hs

/-! ### Sheets -/

/-- **Reading cuts no text inside of a character**, and every text has a sheet, all spans of which begin
and end between characters. -/
theorem Sheet.checked_ofText (t : Text) : Sheet.checked t = some (Sheet.ofText t) ∧
    ∀ node ∈ (Sheet.ofText t).nodes, ∀ s ∈ node.spans, s.Cuts t ∧ s.stop ≤ t.byteLength := by
  refine ⟨?_, fun node hnode s hs => ?_⟩
  · have hfits := fits_ofText t
    rw [← Units.toTokens_ofTokens (Token.lex (LineComment.masked t))] at hfits
    rw [checked, LineComment.mask?_eq]
    show (Forest.checked (.ofText t) 0 [] _).bind _ = _
    rw [Forest.checked_eq hfits (Statement.gathered_nil _ _)]
    rfl
  · have hcuts := cuts_of_mem_spans hnode hs
    exact ⟨hcuts, hcuts.stop_le⟩

/-- A wide character behind a backslash, in a comment behind an escape, and before a colon. -/
theorem Sheet.checked_of_wide :
    let t : Text := "a\x7b\u00e9\u00a0:\"\\\u20ac\"\\31//\u00e9\n\x7d".toList
    let d : Declaration := ⟨['\u00e9'], ⟨2, 4⟩, "\"\\\u20ac\"\\31/".toList, ⟨7, 17⟩⟩
    let node : Node := ⟨⟨.declaration d, ⟨2, 17⟩⟩, some 1⟩
    Sheet.checked t = some (Sheet.ofText t) ∧ node ∈ (Sheet.ofText t).nodes ∧
      (⟨7, 17⟩ : Span) ∈ node.spans ∧ (⟨7, 17⟩ : Span).Cuts t ∧ 17 ≤ t.byteLength := by
  intro t d node
  have hnode : node ∈ (Sheet.ofText t).nodes := by decide +kernel
  have hs : (⟨7, 17⟩ : Span) ∈ node.spans := by decide
  obtain ⟨hchecked, hcuts⟩ := Sheet.checked_ofText t
  exact ⟨hchecked, hnode, hs, hcuts node hnode ⟨7, 17⟩ hs⟩

end VendorSync.Css
