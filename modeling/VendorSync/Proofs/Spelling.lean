import VendorSync.Proofs.Transfer

/-! What the source reads where a node stands.

A statement begins where its level does, behind a cut or behind a block (`Begins`). A `Sentence` is
one such statement among the cells of a text, from its first significant unit on. `Spelled` says of
an item that a sentence spells it: the spans of the item are those of the name, the value or the
header of the sentence, its texts are the characters there, and between them stand only a colon,
blanks, and white space and comments. `spelled_of_mem_nodes`: every node of a sheet is spelled so. -/
namespace VendorSync.Css

open LineComment

/-- The units of a text. -/
def Units.ofText (t : Text) : Units := .ofTokens (Token.lex (masked t))

/-! ### Where statements begin -/

/-- A statement begins at the offset, and these are the units from there to the end of its level. -/
inductive Units.Begins (whole : Units) : Nat → Units → Prop
  | whole : Begins whole 0 whole
  | behindCut {pos body token rest} : Begins whole pos (.prepend body (.leaf token rest)) →
      (∀ s ∈ body, s.Plain) → token.kind = .semicolon ∨ token.kind = .closer .curly →
      Begins whole (pos + bodyLength body + token.byteLength) rest
  | inside {pos body opener inside closer rest} :
      Begins whole pos (.prepend body (.block opener inside closer rest)) → (∀ s ∈ body, s.Plain) →
      Begins whole (pos + bodyLength body + opener.byteLength) inside
  | behindBlock {pos body opener inside closer rest} :
      Begins whole pos (.prepend body (.block opener inside closer rest)) → (∀ s ∈ body, s.Plain) →
      Begins whole (pos + bodyLength body + (Units.block opener inside closer .nil).byteLength) rest

/-- Units and their cells, divided into those up to the last significant unit, and the white space
and comments behind it. -/
structure Trimmed (cs y : List Cell) (body : List Segment) where
  cells : List Cell
  gap : List Cell
  units : List Segment
  trailing : List Token
  eq : cs = cells ++ gap
  body_eq : body = units ++ trailing.map .leaf
  last : ∀ s ∈ units.getLast?, s.IsPart
  gaps : ∀ token ∈ trailing, token.Gap
  stands : Stands cells (gap ++ y) (units.flatMap Segment.toTokens)
  gap_stands : Stands gap y trailing

/-- A statement among the cells of a text that is made up of the units `whole`. Its cells are those
of `body`, the units from the first significant one up to what ends the statement. -/
structure Sentence (all : List Cell) (whole : Units) where
  before : List Cell
  cells : List Cell
  behind : List Cell
  leading : List Token
  body : List Segment
  after : Units
  eq : all = before ++ (cells ++ behind)
  begins : ∃ pos, whole.Begins pos (.prepend (leading.map .leaf) (.prepend body after)) ∧
    (chars before).byteLength = pos + (Token.source leading).byteLength
  leading_gaps : ∀ token ∈ leading, token.Gap
  plain : ∀ s ∈ body, s.Plain
  head : ∀ s ∈ body.head?, s.IsPart
  stands : Stands cells behind (body.flatMap Segment.toTokens)

namespace Sentence
variable {all : List Cell} {whole : Units}

/-- Where the first significant unit begins. -/
def start (s : Sentence all whole) : Nat := (chars s.before).byteLength

/-- Where the statement ends if its last significant unit ends at `last` and no block follows: with
its semicolon, or else at `last`. -/
inductive Ends (s : Sentence all whole) (last : Nat) : Nat → Prop
  | last : (s.after = .nil ∨ ∃ token rest, s.after = .leaf token rest ∧ token.kind = .closer .curly) →
      Ends s last last
  | semicolon {token rest r} : s.after = .leaf token rest → token.kind = .semicolon →
      s.behind = ⟨';', false⟩ :: r → Stands [⟨';', false⟩] r [token] →
      Ends s last (chars (s.before ++ (s.cells ++ [⟨';', false⟩]))).byteLength

/-- The statement is the header of a block with this end. -/
inductive Opens (s : Sentence all whole) : Nat → Prop
  | block {opener inside closer rest i e r} : s.after = .block opener inside closer rest →
      s.behind = ⟨'{', false⟩ :: (i ++ (e ++ r)) →
      Stands (⟨'{', false⟩ :: (i ++ e)) r (Units.block opener inside closer .nil).toTokens →
      (closer.isSome = true ∧ e = [⟨'}', false⟩] ∨ closer = none ∧ e = []) →
      Opens s (chars (s.before ++ (s.cells ++ ⟨'{', false⟩ :: (i ++ e)))).byteLength

/-- The statement as a header. -/
structure Header (s : Sentence all whole) extends Trimmed s.cells s.behind s.body

def Header.span {s : Sentence all whole} (h : s.Header) : Span :=
  ⟨s.start, (chars (s.before ++ h.cells)).byteLength⟩

/-- The statement spells a declaration: its cells are the name with blanks behind it, the colon and
the value with white space and comments around it. An empty value has all of these behind it. -/
structure Declares (s : Sentence all whole) (d : Declaration) where
  clause : Clause
  cells : clause.Cells s.behind s.cells
  body_eq : clause.body = s.body
  declares : clause.Declares
  name : Statement.IsName (chars cells.front) d.name
  named : d.name ≠ []
  nameSpan : d.nameSpan = ⟨s.start, s.start + d.name.byteLength⟩
  value : d.value = chars cells.value
  valueSpan : d.valueSpan =
    ⟨(chars (s.before ++ (cells.front ++ ⟨':', false⟩ :: cells.gap))).byteLength,
      (chars (s.before ++ (cells.front ++ ⟨':', false⟩ :: (cells.gap ++ cells.value)))).byteLength⟩
  close : d.value = [] → cells.gap = []

end Sentence

/-- The text is an at sign with a name and then a prelude, which has blanks around it only. -/
structure Statement.SpellsAtRule (text name prelude before behind : Text) : Prop where
  eq : text = '@' :: (name ++ (before ++ (prelude ++ behind)))
  name : ∀ c ∈ name, endsAtRuleName c = false
  ends : ∀ c ∈ (before ++ (prelude ++ behind)).head?, endsAtRuleName c = true
  blanks : ∀ c ∈ before ++ behind, Text.isBlank c = true
  head : ∀ c ∈ prelude.head?, Text.isBlank c = false
  last : ∀ c ∈ prelude.getLast?, Text.isBlank c = false

/-- A statement of the text spells the item, or the item is a comment before the first significant
unit of a statement. -/
inductive Item.Spelled (all : List Cell) (whole : Units) : Item → Prop
  | declaration {d stop} (s : Sentence all whole) (spelling : s.Declares d) :
      s.Ends d.valueSpan.stop stop → Spelled all whole ⟨.declaration d, ⟨s.start, stop⟩⟩
  | rule {stop} (s : Sentence all whole) (header : s.Header) : s.Opens stop →
      Spelled all whole ⟨.rule (chars header.cells) header.span, ⟨s.start, stop⟩⟩
  | atRule {name prelude before behind hasBlock stop} (s : Sentence all whole) (header : s.Header) :
      Statement.SpellsAtRule (chars header.cells) name prelude before behind →
      (if hasBlock then s.Opens stop else s.Ends header.span.stop stop) →
      Spelled all whole ⟨.atRule name prelude hasBlock, ⟨s.start, stop⟩⟩
  | other {stop} (s : Sentence all whole) (header : s.Header) : s.Ends header.span.stop stop →
      Spelled all whole ⟨.other, ⟨s.start, stop⟩⟩
  | comment {pos leading token u} : whole.Begins pos (.prepend (leading.map .leaf) (.leaf token u)) →
      (∀ gap ∈ leading, gap.Gap) → token.kind = .comment →
      Spelled all whole ⟨.comment, ⟨pos + (Token.source leading).byteLength,
        pos + (Token.source leading).byteLength + token.byteLength⟩⟩
  | lineComment {span} : span ∈ runs none 0 all → Spelled all whole ⟨.comment, span⟩
  | root : Spelled all whole ⟨.root, ⟨0, (chars all).byteLength⟩⟩

/-- The spans that an item holds: its own, and those of its selector or of its name and value. -/
def Item.spans (item : Item) : List Span :=
  item.span :: match item.kind with
    | .rule _ selectorSpan => [selectorSpan]
    | .declaration d => [d.nameSpan, d.valueSpan]
    | _ => []

theorem Item.Spelled.exists_declares {all : List Cell} {whole : Units} {item : Item}
    (h : item.Spelled all whole) {d : Declaration} (hd : item.kind = .declaration d) :
    ∃ s : Sentence all whole, item.span.start = s.start ∧ Nonempty (s.Declares d) := by
  cases h with
  | declaration s spelling =>
    obtain rfl := Kind.declaration.inj hd
    exact ⟨s, rfl, ⟨spelling⟩⟩
  | _ => cases hd

theorem Item.Spelled.exists_header {all : List Cell} {whole : Units} {item : Item}
    (h : item.Spelled all whole) {selector : Text} {span : Span} (hk : item.kind = .rule selector span) :
    ∃ (s : Sentence all whole) (header : s.Header), header.span = span := by
  cases h with
  | rule s header => exact ⟨s, header, (Kind.rule.inj hk).2⟩
  | _ => cases hk

/-! ### Cells of single tokens and of blocks -/

namespace Stands
variable {cs y : List Cell}

theorem append {a b : List Cell} {s t : List Token} (ha : Stands a (b ++ y) s) (hb : Stands b y t) :
    Stands (a ++ b) y (s ++ t) where
  covers := ha.covers.append hb.covers
  lex := by rw [List.append_assoc, ha.lex, hb.lex, List.append_assoc]

/-- The cell of a token that is a single character, before the cells of other tokens. -/
theorem first {token : Token} {tokens : List Token} {d : Char} (h : Stands cs y (token :: tokens))
    (hlexeme : token.lexeme = [d]) (hd : d ≠ ' ') :
    ∃ r, cs = ⟨d, false⟩ :: r ∧ Stands [⟨d, false⟩] (r ++ y) [token] ∧ Stands r y tokens := by
  obtain ⟨c, r, rfl, hc, hr⟩ := h.split (a := [token])
  obtain ⟨c', rfl, hc'⟩ := hc.single hlexeme hd
  cases hc'.covers
  exact ⟨r, rfl, hc, hr⟩

/-- The cells of a block, and those behind it. -/
theorem block_first {opener : Token} {inside : Units} {closer : Option Token} {rest : Units}
    (h : Stands cs y (Units.block opener inside closer rest).toTokens) (ho : opener.lexeme = ['{']) :
    ∃ i e r, cs = ⟨'{', false⟩ :: (i ++ (e ++ r)) ∧
      Stands (⟨'{', false⟩ :: (i ++ e)) (r ++ y) (Units.block opener inside closer .nil).toTokens ∧
      Stands i (e ++ (r ++ y)) inside.toTokens ∧ Stands e (r ++ y) closer.toList ∧
      Stands r y rest.toTokens := by
  have htokens : (Units.block opener inside closer rest).toTokens =
      (Units.block opener inside closer .nil).toTokens ++ rest.toTokens := by
    simp [Units.toTokens]
  rw [htokens] at h
  obtain ⟨b, r, rfl, hb, hr⟩ := h.split
  have hopener : Stands b (r ++ y) (opener :: (inside.toTokens ++ closer.toList)) := by
    simpa [Units.toTokens] using hb
  obtain ⟨b', rfl, hb'⟩ := hopener.single ho (by decide)
  obtain ⟨i, e, rfl, hi, he⟩ := hb'.split
  exact ⟨i, e, r, by simp, hb, hi, he, hr⟩

end Stands

/-! ### Names of at-rules -/

theorem Statement.IsAtRule.spells {header name prelude : Text} (h : IsAtRule header name prelude) :
    ∃ before behind, SpellsAtRule header name prelude before behind := by
  obtain ⟨rest, rfl, hname, hends, rfl⟩ := h
  have hrest : rest.takeWhile Text.isBlank ++ Text.trimStart rest = rest :=
    List.takeWhile_append_dropWhile
  obtain ⟨blanks, hblanks, hall, hlast⟩ := trimEnd_eq_iff.mp (Eq.refl (Text.trim rest))
  have heq : rest = rest.takeWhile Text.isBlank ++ (Text.trim rest ++ blanks) := by
    rw [← hblanks, hrest]
  refine ⟨rest.takeWhile Text.isBlank, blanks, ?_, hname, heq ▸ hends, ?_, ?_, hlast⟩
  · rw [← heq]
  · exact List.forall_mem_append.mpr ⟨fun c hc => List.mem_takeWhile_imp hc, hall⟩
  · -- the prelude begins as what is behind the blanks does
    intro c hc
    have hhead := List.head?_dropWhile_not Text.isBlank rest
    rw [show rest.dropWhile Text.isBlank = _ from hblanks, List.head?_append, hc] at hhead
    simpa using hhead

/-! ### Pieces -/

theorem exists_trimmed {cs y : List Cell} {body : List Segment} (hplain : ∀ s ∈ body, s.Plain)
    (h : Stands cs y (body.flatMap Segment.toTokens)) : Nonempty (Trimmed cs y body) := by
  obtain ⟨units, trailing, rfl, hgaps, hlast⟩ := exists_gap_behind hplain
  rw [List.flatMap_append, flatMap_toTokens_leaves] at h
  obtain ⟨cells, gap, rfl, hcells, hgap⟩ := h.split
  exact ⟨⟨cells, gap, units, trailing, rfl, rfl, hlast, hgaps, hcells, hgap⟩⟩

namespace Trimmed
variable {cs y : List Cell} {body : List Segment}

theorem chars_eq (h : Trimmed cs y body) : chars cs = chars h.cells ++ chars h.gap :=
  (congrArg chars h.eq).trans (chars_append ..)

theorem partsOf_eq (h : Trimmed cs y body) (pos : Nat) : partsOf pos body = partsOf pos h.units :=
  (congrArg (partsOf pos) h.body_eq).trans (by rw [partsOf_append, partsOf_gaps h.gaps, List.append_nil])

end Trimmed

namespace Sentence
variable {all : List Cell} {whole : Units}

theorem exists_header (s : Sentence all whole) : Nonempty s.Header := by
  obtain ⟨header⟩ := exists_trimmed s.plain s.stands
  exact ⟨⟨header⟩⟩

theorem Header.tight {s : Sentence all whole} (h : s.Header) : Tight h.units where
  head u hu := by
    apply s.head
    rw [h.body_eq, List.head?_append, hu]
    rfl
  last := h.last

theorem Header.units_eq_nil {s : Sentence all whole} (h : s.Header) (hnil : h.units = []) :
    s.body = [] := by
  cases htrailing : h.trailing with
  | nil => rw [h.body_eq, hnil, htrailing]; rfl
  | cons token trailing =>
    have hhead := s.head (.leaf token) (by rw [h.body_eq, hnil, htrailing]; rfl)
    obtain ⟨isColon, hhead⟩ := hhead
    have := (h.gaps token (by rw [htrailing]; exact List.mem_cons_self ..)).role
    simp [hhead] at this

/-- The parts of a statement run over its header. -/
theorem Header.headerSpan_eq {s : Sentence all whole} (h : s.Header) :
    Statement.headerSpan (partsOf s.start s.body) (s.start + bodyLength s.body) = h.span := by
  have hspan : h.span = ⟨s.start, s.start + bodyLength h.units⟩ := by
    rw [Header.span, chars_append, Text.byteLength_append, h.stands.bodyLength_eq, start]
  by_cases hnil : h.units = []
  · rw [hspan, hnil, h.units_eq_nil hnil]
    rfl
  · rw [hspan, h.partsOf_eq]
    exact h.tight.headerSpan_eq hnil _ _

theorem text_eq (s : Sentence all whole) :
    chars all = chars (s.before ++ (s.cells ++ s.behind)) := congrArg chars s.eq

theorem Declares.text_eq {s : Sentence all whole} {d : Declaration} (h : s.Declares d) :
    ∃ z, chars all = chars s.before ++ (chars h.cells.front ++ z) := by
  refine ⟨chars (⟨':', false⟩ :: (h.cells.gap ++ (h.cells.value ++ (h.cells.tail ++ s.behind)))), ?_⟩
  rw [s.text_eq, chars_append, chars_append, congrArg chars h.cells.eq]
  simp

theorem Header.slice_eq {s : Sentence all whole} (h : s.Header) :
    Text.slice h.span (chars all) = chars h.cells := by
  rw [s.text_eq, chars_append, chars_append, h.chars_eq, List.append_assoc]
  exact Text.slice_eq rfl (by rw [Header.span, chars_append])

theorem Header.parts {s : Sentence all whole} (h : s.Header) {first : Part} {others : List Part}
    (hparts : partsOf s.start s.body = first :: others) :
    (⟨first.span.start, Statement.stop first others⟩ : Span) = h.span := by
  rw [← h.headerSpan_eq, hparts]
  rfl

end Sentence

/-- The statement of a piece. -/
theorem exists_sentence {all x cs y : List Cell} {whole after : Units} {body : List Segment}
    (hall : all = x ++ (cs ++ y)) (hplain : ∀ s ∈ body, s.Plain)
    (hstands : Stands cs y (body.flatMap Segment.toTokens))
    (hbegins : whole.Begins (chars x).byteLength (.prepend body after)) :
    ∃ s : Sentence all whole, s.after = after ∧ s.behind = y ∧ s.before ++ s.cells = x ++ cs ∧
      (∃ leading, body = leading ++ s.body) ∧
      partsOf (chars x).byteLength body = partsOf s.start s.body ∧
      (chars x).byteLength + bodyLength body = s.start + bodyLength s.body := by
  obtain ⟨leading, rest, rfl, hgaps, hhead⟩ := exists_gap_before hplain
  rw [List.flatMap_append, flatMap_toTokens_leaves] at hstands
  obtain ⟨cl, cr, rfl, hl, hr⟩ := hstands.split
  rw [Units.prepend_append] at hbegins
  have hlen : (chars (x ++ cl)).byteLength = (chars x).byteLength + (Token.source leading).byteLength := by
    rw [chars_append, Text.byteLength_append, hl.byteLength_eq]
  have hparts : partsOf (chars x).byteLength (leading.map .leaf ++ rest) =
      partsOf (chars (x ++ cl)).byteLength rest := by
    rw [hlen, partsOf_append, partsOf_gaps hgaps, List.nil_append, bodyLength_leaves]
  have hstop : (chars x).byteLength + bodyLength (leading.map .leaf ++ rest) =
      (chars (x ++ cl)).byteLength + bodyLength rest := by
    rw [hlen, bodyLength_append, bodyLength_leaves, Nat.add_assoc]
  exact ⟨⟨x ++ cl, cr, y, leading, rest, after, by rw [hall]; simp, ⟨_, hbegins, hlen⟩, hgaps,
    fun s hs => hplain s (List.mem_append_right _ hs), hhead, hr⟩, rfl, rfl, by simp, ⟨_, rfl⟩, hparts,
    hstop⟩

namespace Sentence
variable {all : List Cell} {whole : Units} {s : Sentence all whole} {first : Part}
  {others : List Part}

/-- The name is read from all that stands before the colon. -/
theorem nameOf_front {c : Clause} (hbody : c.body = s.body) (hc : c.Declares)
    (cells : c.Cells s.behind s.cells) :
    Clause.nameOf c.front (chars cells.front) = Text.trimEnd (chars cells.front) := by
  obtain ⟨p, before, hparts, -⟩ := hc.first
  have hstart : (Statement.headerSpan (partsOf 0 c.front) 0).start = 0 := by
    cases hfront : c.front with
    | nil => rw [hfront] at hparts; cases hparts
    | cons u front =>
      obtain ⟨isColon, hu⟩ := s.head u (by rw [← hbody, Clause.body, hfront]; rfl)
      simp only [partsOf, hu, Statement.headerSpan]
  have hslice := Text.slice_eq (a := []) (b := chars cells.front) (c := [])
    (s := ⟨0, bodyLength c.front⟩) rfl (by rw [cells.front_stands.bodyLength_eq]; rfl)
  rw [Clause.nameOf, hstart]
  simpa using congrArg Text.trimEnd hslice

theorem exists_declares {u : Units} {around : Option Bracket} {marked : Bool} {d : Declaration}
    (hnested : Units.Nested around marked (Units.prepend s.body u))
    (hparts : partsOf s.start s.body = first :: others)
    (hmeans : Statement.Means (chars all) (first :: others) (.declaration d)) :
    Nonempty (s.Declares d) ∧ Statement.stop first others = d.valueSpan.stop := by
  obtain ⟨h⟩ := s.exists_header
  obtain ⟨hstart, -⟩ := Span.mk.inj (h.parts hparts)
  obtain ⟨hname, hvalue⟩ :
      d.nameSpan = ⟨first.span.start, first.span.start + d.name.byteLength⟩ ∧
        d.value = Text.slice d.valueSpan (chars all) := by
    cases hmeans with
    | declaration => exact ⟨rfl, rfl⟩
  rw [s.text_eq] at hmeans hvalue
  obtain ⟨c, cells, hc, hbody, hportable, hread, hne, hspan⟩ :=
    exists_clause_of_means s.plain s.stands hnested hparts hmeans
  rw [nameOf_front hbody hc cells] at hread
  obtain ⟨-, -, -, -, hstop⟩ := hc.exists_first (hbody ▸ hparts)
  have hcells : d.valueSpan =
      ⟨(chars (s.before ++ (cells.front ++ ⟨':', false⟩ :: cells.gap))).byteLength,
        (chars (s.before ++ (cells.front ++ ⟨':', false⟩ :: (cells.gap ++ cells.value)))).byteLength⟩ := by
    rw [hspan, cells.valueSpan_eq]
    simp
  have hread_value : d.value = chars cells.value := by
    have htext : chars (s.before ++ (s.cells ++ s.behind)) =
        chars (s.before ++ (cells.front ++ ⟨':', false⟩ :: cells.gap)) ++
          (chars cells.value ++ chars (cells.tail ++ s.behind)) := by
      conv_lhs => rw [cells.eq]
      simp
    rw [hvalue, htext, hcells]
    exact Text.slice_eq rfl (by simp)
  have hclose : d.value = [] → cells.gap = [] := by
    intro hnil
    have hvalue_nil : cells.value = [] := by
      rw [hread_value] at hnil
      exact List.map_eq_nil_iff.mp hnil
    have hunits : c.value = [] := hportable.solid.resolve_right fun ⟨_, _, hshown, _⟩ => by
      rw [hvalue_nil] at hshown
      cases hshown
    have hgap := cells.gap_stands.covers
    rw [hc.close hunits] at hgap
    generalize cells.gap = gap at hgap
    cases hgap
    rfl
  exact ⟨⟨⟨c, cells, hbody, hc, Statement.trimEnd_eq_iff.mp hread.symm, hne, by rw [hname, hstart],
    hread_value, hcells, hclose⟩⟩, by rw [hstop, hspan, start]⟩

theorem concludes_spelled {u : Units} {around : Option Bracket} {marked : Bool} {cut : Option Nat}
    {own : Forest} (hnested : Units.Nested around marked (Units.prepend s.body u))
    (hends : ∀ last, s.Ends last (cut.getD last))
    (h : Statement.Concludes (chars all) cut (partsOf s.start s.body) own) :
    own.All (Item.Spelled all whole) := by
  generalize hparts : partsOf s.start s.body = parts at h
  cases h with
  | nothing => trivial
  | @node first others kind hmeans =>
    refine ⟨?_, trivial, trivial⟩
    obtain ⟨header⟩ := s.exists_header
    have hspan := header.parts hparts
    rw [show first.span.start = s.start from congrArg Span.start hspan]
    cases hkind : kind with
    | declaration d =>
      subst hkind
      obtain ⟨⟨spelling⟩, hstop⟩ := exists_declares hnested hparts hmeans
      rw [hstop]
      exact .declaration s spelling (hends _)
    | atRule name prelude hasBlock =>
      subst hkind
      cases hmeans with
      | atRule _ hat =>
        rw [hspan, header.slice_eq] at hat
        obtain ⟨before, behind, hat⟩ := hat.spells
        exact .atRule s header hat (congrArg Span.stop hspan ▸ hends _)
    | other => exact .other s header (congrArg Span.stop hspan ▸ hends _)
    | rule | comment | root => subst hkind; cases hmeans

theorem heads_spelled {kind : Kind} {stop : Nat} (hopens : s.Opens stop)
    (h : Statement.Heads (chars all)
      (Statement.headerSpan (partsOf s.start s.body) (s.start + bodyLength s.body)) kind) :
    Item.Spelled all whole ⟨kind,
      ⟨(Statement.headerSpan (partsOf s.start s.body) (s.start + bodyLength s.body)).start, stop⟩⟩ := by
  obtain ⟨header⟩ := s.exists_header
  rw [header.headerSpan_eq] at h ⊢
  cases h with
  | atRule hat =>
    rw [header.slice_eq] at hat
    obtain ⟨before, behind, hat⟩ := hat.spells
    exact .atRule s header hat hopens
  | rule =>
    rw [header.slice_eq]
    exact .rule s header hopens

end Sentence

/-! ### Levels -/

/-- The comments before the first part of a piece, some units of which are gone through. -/
theorem spelled_leading {all : List Cell} {whole u : Units} {pos : Nat} {leading : List Token}
    {body : List Segment} (hgaps : ∀ token ∈ leading, token.Gap)
    (hbegins : whole.Begins pos (.prepend (leading.map .leaf) (.prepend body u))) :
    ∀ c ∈ leadingComments (.ofCells all) (pos + (Token.source leading).byteLength) body,
      Item.Spelled all whole ⟨.comment, c⟩ := by
  induction body generalizing leading with
  | nil => simp [leadingComments]
  | cons unit body ih =>
    cases unit with
    | group opener inside closer => simp [leadingComments, Segment.role]
    | leaf token =>
      have hnext : token.Gap → ∀ c ∈ leadingComments (.ofCells all)
          (pos + (Token.source leading).byteLength + token.byteLength) body,
          Item.Spelled all whole ⟨.comment, c⟩ := by
        intro hgap
        have := @ih (leading ++ [token]) (List.forall_mem_append.mpr ⟨hgaps, by simpa using hgap⟩)
          (by simpa [Units.prepend_append, Units.prepend] using hbegins)
        simpa [Token.byteLength, Nat.add_assoc] using this
      cases hrole : (Segment.leaf token).role with
      | space =>
        simp only [leadingComments, hrole]
        exact List.forall_mem_append.mpr ⟨fun c hc => .lineComment (List.mem_of_mem_filter hc),
          hnext (.inl (Role.kind_of_space hrole))⟩
      | comment =>
        simp only [leadingComments, hrole, List.forall_mem_cons]
        have hkind := Role.kind_of_comment hrole
        exact ⟨.comment hbegins hgaps hkind, hnext (.inr hkind)⟩
      | _ => simp [leadingComments, hrole]

theorem spelled_comments {all : List Cell} {whole u : Units} {pos : Nat} {body : List Segment}
    (hbegins : whole.Begins pos (.prepend body u)) :
    (Forest.comments (leadingComments (.ofCells all) pos body)).All (Item.Spelled all whole) :=
  Forest.all_comments (by simpa using @spelled_leading all whole u pos [] body (by simp) hbegins)

/-- A piece that is cut, and what stands behind it. -/
theorem spelled_cut {all x cs y : List Cell} {body : List Segment} {token : Token}
    {rest whole : Units} {own after : Forest} {around : Option Bracket} {marked : Bool}
    {cut : Option Nat} (hall : all = x ++ (cs ++ y)) (hplain : ∀ s ∈ body, s.Plain)
    (hkind : token.kind = .semicolon ∧
        cut = some ((chars x).byteLength + bodyLength body + token.byteLength) ∨
      token.kind = .closer .curly ∧ cut = none)
    (hown : Statement.Concludes (chars all) cut (partsOf (chars x).byteLength body) own)
    (hstands : Stands cs y (Units.prepend body (.leaf token rest)).toTokens)
    (hnested : Units.Nested around marked (Units.prepend body (.leaf token rest)))
    (hbegins : whole.Begins (chars x).byteLength (.prepend body (.leaf token rest)))
    (hafter : ∀ {z r : List Cell}, all = z ++ (r ++ y) →
      (chars x).byteLength + bodyLength body + token.byteLength = (chars z).byteLength →
      Stands r y rest.toTokens → Units.Nested around token.marksInterpolation rest →
      after.All (Item.Spelled all whole)) :
    (own.append after).All (Item.Spelled all whole) := by
  obtain ⟨c, d, rfl, hc, hd⟩ := hstands.piece
  have htoken := hd.proper token (List.mem_cons_self ..)
  obtain ⟨ch, hlexeme, hch⟩ := exists_of_cut htoken (hkind.imp And.left And.left)
  obtain ⟨r, rfl, hcell, hr⟩ := hd.first hlexeme hch
  have hall' : all = x ++ (c ++ ⟨ch, false⟩ :: (r ++ y)) := by rw [hall]; simp
  have hpos : (chars x).byteLength + bodyLength body + token.byteLength =
      (chars (x ++ (c ++ [⟨ch, false⟩]))).byteLength := by
    rw [hc.bodyLength_eq, Token.byteLength, hlexeme]
    simp [Nat.add_assoc]
  obtain ⟨s, hsafter, hsbehind, hscells, ⟨leading, hbody⟩, hparts, -⟩ :=
    exists_sentence hall' hplain hc hbegins
  have hends : ∀ last, s.Ends last (cut.getD last) := by
    intro last
    rcases hkind with ⟨hkind, rfl⟩ | ⟨hkind, rfl⟩
    · obtain rfl : ch = ';' := by simpa [hlexeme] using htoken.single ';' hkind
      rw [hpos, ← List.append_assoc, ← hscells, List.append_assoc]
      exact .semicolon hsafter hkind hsbehind hcell
    · exact .last (.inr ⟨token, rest, hsafter, hkind⟩)
  obtain ⟨m, hleaf, -⟩ := hnested.behind
  rw [hbody, Units.prepend_append] at hnested
  obtain ⟨m', hown_nested, -⟩ := hnested.behind
  refine (Sentence.concludes_spelled hown_nested hends (hparts ▸ hown)).append ?_
  cases hleaf with
  | leaf _ _ hrest => exact hafter (by rw [hall']; simp) hpos hr hrest

/-- **A statement spells each item of a level**, whatever stands around the level. -/
theorem Reads.spelled {all : List Cell} {pos : Nat} {u whole : Units} {f : Forest}
    (h : Reads (.ofCells all) pos u f) {x cs y : List Cell} {around : Option Bracket} {marked : Bool}
    (hall : all = x ++ (cs ++ y)) (hpos : pos = (chars x).byteLength)
    (hstands : Stands cs y u.toTokens) (hnested : Units.Nested around marked u)
    (hbegins : whole.Begins pos u) : f.All (Item.Spelled all whole) := by
  induction h generalizing x cs y around marked with
  | finish hbody hown =>
    subst hpos
    obtain ⟨c, d, rfl, hc, hd⟩ := hstands.piece
    cases hd.covers
    rw [List.append_nil] at hall
    obtain ⟨s, hsafter, -, -, ⟨leading, hbody'⟩, hparts, -⟩ :=
      exists_sentence hall hbody hc hbegins
    rw [hbody', Units.prepend_append] at hnested
    obtain ⟨m, hnested, -⟩ := hnested.behind
    exact (spelled_comments hbegins).append
      (Sentence.concludes_spelled hnested (fun last => .last (.inl hsafter)) (hparts ▸ hown))
  | semicolon hbody hkind hown _ ih =>
    subst hpos
    exact (spelled_comments hbegins).append
      (spelled_cut hall hbody (.inl ⟨hkind, rfl⟩) hown hstands hnested hbegins
        fun hall hpos hr hrest => ih hall hpos hr hrest (.behindCut hbegins hbody (.inl hkind)))
  | strayBrace hbody hkind hown _ ih =>
    subst hpos
    exact (spelled_comments hbegins).append
      (spelled_cut hall hbody (.inr ⟨hkind, rfl⟩) hown hstands hnested hbegins
        fun hall hpos hr hrest => ih hall hpos hr hrest (.behindCut hbegins hbody (.inr hkind)))
  | @block pos body kind opener inside closer rest children after hbody hhead _ _ ih₁ ih₂ =>
    subst hpos
    obtain ⟨m, hblock, -⟩ := hnested.behind
    cases hblock with
    | block ho hnested_inside hends hnested_rest =>
      obtain ⟨c, d, rfl, hc, hd⟩ := hstands.piece
      have hlexeme := (hd.proper opener (List.mem_cons_self ..)).single '{' (kind_of_opens_curly ho)
      obtain ⟨i, e, r, rfl, hcells, hi, he, hr⟩ := hd.block_first hlexeme
      have hall' : all = x ++ (c ++ ⟨'{', false⟩ :: (i ++ (e ++ (r ++ y)))) := by rw [hall]; simp
      have hlen : (Units.block opener inside closer .nil).byteLength =
          (chars (⟨'{', false⟩ :: (i ++ e))).byteLength := by
        rw [hcells.byteLength_eq, Units.byteLength_toTokens]
      have hopener : (chars x).byteLength + bodyLength body + opener.byteLength =
          (chars (x ++ (c ++ [⟨'{', false⟩]))).byteLength := by
        rw [hc.bodyLength_eq, Token.byteLength, hlexeme]
        simp [Nat.add_assoc]
      have hpos : (chars x).byteLength + bodyLength body +
          (Units.block opener inside closer .nil).byteLength =
            (chars (x ++ (c ++ ⟨'{', false⟩ :: (i ++ e)))).byteLength := by
        rw [hc.bodyLength_eq, hlen]
        simp [Nat.add_assoc]
      obtain ⟨s, hsafter, hsbehind, hscells, -, hparts, hstop⟩ :=
        exists_sentence (y := ⟨'{', false⟩ :: (i ++ (e ++ (r ++ y)))) hall' hbody (by simpa using hc) hbegins
      have hcloser : closer.isSome = true ∧ e = [⟨'}', false⟩] ∨ closer = none ∧ e = [] := by
        rcases closer_cases hends he with ⟨token, rfl, rfl, -⟩ | ⟨rfl, rfl, -⟩
        · exact .inl ⟨rfl, rfl⟩
        · exact .inr ⟨rfl, rfl⟩
      have hopens : s.Opens ((chars x).byteLength + bodyLength body +
          (Units.block opener inside closer .nil).byteLength) := by
        rw [hpos, ← List.append_assoc, ← hscells, List.append_assoc]
        exact .block hsafter hsbehind hcells hcloser
      have hchildren := ih₁ (x := x ++ (c ++ [⟨'{', false⟩])) (by rw [hall']; simp) hopener hi
        hnested_inside (.inside hbegins hbody)
      have hafter := ih₂ (x := x ++ (c ++ ⟨'{', false⟩ :: (i ++ e))) (by rw [hall']; simp) hpos hr
        hnested_rest (.behindBlock hbegins hbody)
      rw [hparts, hstop] at hhead ⊢
      exact (spelled_comments hbegins).append
        ⟨Sentence.heads_spelled (hstop ▸ hopens) hhead, hchildren, hafter⟩

theorem spelled_ofText (t : Text) : (Sheet.ofText t).forest.All
    (Item.Spelled (cells t) (Units.ofText t)) :=
  (reads_cells t).spelled (x := []) (y := []) (by simp) rfl (stands_ofText t)
    (Units.nested_ofTokens _) .whole

/-- **Every node is spelled in the text where its spans say.** -/
theorem spelled_of_mem_nodes {t : Text} {node : Node} (h : node ∈ (Sheet.ofText t).nodes) :
    node.toItem.Spelled (cells t) (Units.ofText t) := by
  rw [Sheet.nodes_eq, List.mem_cons] at h
  rcases h with rfl | h
  · have := @Item.Spelled.root (cells t) (Units.ofText t)
    rwa [chars_cells] at this
  · exact (spelled_ofText t).of_mem_nodes h

/-- A declaration whose name has a no-break space behind it, and whose value stands between a comment
and a line comment. -/
theorem spelled_of_blanks :
    let t : Text := "a\x7bx\u00a0:/**/1//c\n;\x7d".toList
    let node : Node := ⟨⟨.declaration ⟨['x'], ⟨2, 3⟩, ['1'], ⟨10, 11⟩⟩, ⟨2, 16⟩⟩, some 1⟩
    node ∈ (Sheet.ofText t).nodes ∧
      node.toItem.Spelled (cells t) (Units.ofText t) :=
  have hnode : (⟨⟨.declaration ⟨['x'], ⟨2, 3⟩, ['1'], ⟨10, 11⟩⟩, ⟨2, 16⟩⟩, some 1⟩ : Node) ∈
      (Sheet.ofText "a\x7bx\u00a0:/**/1//c\n;\x7d".toList).nodes := by decide +kernel
  ⟨hnode, spelled_of_mem_nodes hnode⟩

end VendorSync.Css
