import VendorSync.Proofs.Clauses
import VendorSync.Proofs.Sealing

/-! Pieces of a text on their own.

A piece has its own cells, tokens and brackets: `Stands` says of some cells that certain tokens
are read from them where they stand, and `Nested.behind` that the brackets before a cut do not
matter behind it. A value whose brackets are closed has its place wherever a value may stand
(`nested_value`), and `Reads.hasValue` finds the cells and units of each value of a sheet. -/
namespace VendorSync.Css

/-! ### Brackets -/

/-- Whether the unit is a bracket without a closer. -/
def Segment.isOpen : Segment → Bool
  | leaf _ => false
  | group _ _ closer => closer.isNone

/-- Whether every string, address and bracket of the unit has its end. -/
def Segment.isClosed : Segment → Bool
  | leaf token => token.isClosed
  | group _ inside closer => inside.isClosed && closer.isSome

theorem isOpen_of_isClosed {value : List Segment} (h : value.all Segment.isClosed = true) :
    value.any Segment.isOpen = false := by
  rw [List.all_eq_true] at h
  refine List.any_eq_false.mpr fun s hs => ?_
  cases s with
  | leaf token => simp [Segment.isOpen]
  | group opener inside closer =>
    have := h _ hs
    cases closer <;> simp_all [Segment.isClosed, Segment.isOpen]

namespace Units
variable {around : Option Bracket} {marked : Bool} {body value : List Segment} {u : Units}

theorem prepend_eq_nil : prepend body u = nil ↔ body = [] ∧ u = nil := by
  cases body with
  | nil => simp [prepend]
  | cons s body => cases s <;> simp [prepend]

theorem isOpen_prepend (body : List Segment) (u : Units) :
    (prepend body u).isOpen = (body.any Segment.isOpen || u.isOpen) := by
  induction body with
  | nil => rfl
  | cons s body ih => cases s <;> simp [prepend, isOpen, Segment.isOpen, ih, Bool.or_assoc]

theorem isClosed_prepend (body : List Segment) (u : Units) :
    (prepend body u).isClosed = (body.all Segment.isClosed && u.isClosed) := by
  induction body with
  | nil => rfl
  | cons s body ih => cases s <;> simp [prepend, isClosed, Segment.isClosed, ih, Bool.and_assoc]

/-- What stands behind a piece may give way to anything that nests there, unless the text ends
with the piece. -/
theorem Nested.behind (h : Nested around marked (prepend body u)) : ∃ m, Nested around m u ∧
    ∀ u' : Units, (u = .nil → u' = .nil) → Nested around m u' →
      Nested around marked (prepend body u') := by
  induction body generalizing marked with
  | nil => exact ⟨marked, h, fun _ _ h' => h'⟩
  | cons s body ih =>
    cases s with
    | leaf token =>
      cases h with
      | leaf ho hc hrest =>
        obtain ⟨m, hu, hback⟩ := ih hrest
        exact ⟨m, hu, fun u' hnil hu' => .leaf ho hc (hback u' hnil hu')⟩
    | group opener inside closer =>
      cases h with
      | group ho hm hinside he hrest =>
        obtain ⟨m, hu, hback⟩ := ih hrest
        refine ⟨m, hu, fun u' hnil hu' => .group ho hm hinside ?_ (hback u' hnil hu')⟩
        cases closer with
        | some c => exact he
        | none =>
          obtain ⟨hbody, hend⟩ := prepend_eq_nil.mp he
          exact prepend_eq_nil.mpr ⟨hbody, hnil hend⟩

/-- A piece nests by itself, outside of all brackets. -/
theorem Nested.alone (h : Nested around marked (prepend body u)) :
    Nested none marked (prepend body .nil) := by
  induction body generalizing marked with
  | nil => exact .nil
  | cons s body ih =>
    cases s with
    | leaf token =>
      cases h with
      | leaf ho _ hrest => exact .leaf ho (fun b _ => by simp) (ih hrest)
    | group opener inside closer =>
      cases h with
      | group ho hm hinside he hrest =>
        refine .group ho hm hinside ?_ (ih hrest)
        cases closer with
        | some c => exact he
        | none => exact prepend_eq_nil.mpr ⟨(prepend_eq_nil.mp he).1, rfl⟩

/-- **Units without an open bracket nest in every block**, and what stands behind them nests as if
they were not there. -/
theorem nested_value (h : Nested none marked (prepend value nil))
    (hopen : value.any Segment.isOpen = false) (hplain : ∀ s ∈ value, s.Plain)
    (haround : ∀ b ∈ around, b = .curly) (hu : ∀ m, Nested around m u) :
    Nested around marked (prepend value u) := by
  induction value generalizing marked with
  | nil => exact hu marked
  | cons s value ih =>
    obtain ⟨hs, hvalue⟩ := List.forall_mem_cons.mp hplain
    rw [List.any_cons, Bool.or_eq_false_iff] at hopen
    cases s with
    | leaf token =>
      cases h with
      | leaf ho _ hrest =>
        refine .leaf ho (fun b hb hab => ?_) (ih hrest hopen.2 hvalue)
        obtain rfl := haround b hab
        apply hs.2
        rw [Segment.role, kind_of_closes hb]
        rfl
    | group opener inside closer =>
      cases h with
      | group ho hm hinside he hrest =>
        refine .group ho hm hinside ?_ (ih hrest hopen.2 hvalue)
        cases closer with
        | some c => exact he
        | none => simp [Segment.isOpen] at hopen

theorem marksInterpolation_gap {token : Token} (h : token.Gap) : token.marksInterpolation = false := by
  rcases h with h | h <;> simp [Token.marksInterpolation, h]

theorem nested_gaps {gaps : List Token} (h : ∀ token ∈ gaps, token.Gap)
    (hu : Nested around false u) (hnil : gaps = [] → Nested around marked u) :
    Nested around marked (prepend (gaps.map .leaf) u) := by
  induction gaps generalizing marked with
  | nil => exact hnil rfl
  | cons token gaps ih =>
    obtain ⟨htoken, hgaps⟩ := List.forall_mem_cons.mp h
    refine .leaf ?_ (fun b hb => ?_) (marksInterpolation_gap htoken ▸ ih hgaps fun _ => hu)
    · rcases htoken with h | h <;> simp [Token.opens, h]
    · rcases htoken with h | h <;> simp [kind_of_closes hb] at h

theorem Nested.behind_gaps {gaps : List Token} (hgaps : ∀ token ∈ gaps, token.Gap)
    (h : Nested around false (prepend (gaps.map .leaf) u)) : Nested around false u := by
  induction gaps with
  | nil => exact h
  | cons token gaps ih =>
    obtain ⟨htoken, hgaps⟩ := List.forall_mem_cons.mp hgaps
    cases h with
    | leaf _ _ hrest =>
      rw [marksInterpolation_gap htoken] at hrest
      exact ih hgaps hrest

end Units

/-! ### Cells and tokens -/

open LineComment

/-- Certain tokens are read from the cells where these stand before the cells `y`. -/
structure Stands (cs y : List Cell) (tokens : List Token) : Prop where
  covers : Covers cs tokens
  lex : Token.lex (blanked (cs ++ y)) = tokens ++ Token.lex (blanked y)

namespace Stands
variable {cs y : List Cell} {tokens : List Token}

theorem proper (h : Stands cs y tokens) : ∀ token ∈ tokens, token.Proper := by
  intro token htoken
  apply Token.proper_of_mem_lex (t := blanked (cs ++ y))
  rw [h.lex]
  exact List.mem_append_left _ htoken

theorem split {a b : List Token} (h : Stands cs y (a ++ b)) :
    ∃ c d, cs = c ++ d ∧ Stands c (d ++ y) a ∧ Stands d y b := by
  obtain ⟨c, d, rfl, hc, hd⟩ := h.covers.exists_append
  have hlex : Token.lex (Token.source a ++ blanked (d ++ y)) = a ++ (b ++ Token.lex (blanked y)) := by
    rw [← hc.blanked_eq, ← blanked_append, ← List.append_assoc, h.lex, List.append_assoc]
  have hdy := (Token.lex_behind hlex).2
  refine ⟨c, d, rfl, ⟨hc, ?_⟩, hd, hdy⟩
  rw [blanked_append, hc.blanked_eq, hlex, hdy]

theorem byteLength_eq (h : Stands cs y tokens) :
    (chars cs).byteLength = (Token.source tokens).byteLength := h.covers.byteLength_eq

/-- The cell of a token that is a single character. -/
theorem single {token : Token} {d : Char} (h : Stands cs y (token :: tokens))
    (hlexeme : token.lexeme = [d]) (hd : d ≠ ' ') :
    ∃ r, cs = ⟨d, false⟩ :: r ∧ Stands r y tokens := by
  obtain ⟨c, r, rfl, hc, hr⟩ := h.split (a := [token])
  have hshown : blanked c = [d] := by
    rw [hc.covers.blanked_eq, Token.source_cons, Token.source_nil, List.append_nil, hlexeme]
  refine ⟨r, ?_, hr⟩
  cases c with
  | nil => cases hshown
  | cons cell c =>
    rw [blanked_cons] at hshown
    cases hhidden : cell.hidden with
    | true =>
      obtain ⟨n, hn⟩ := Nat.exists_eq_succ_of_ne_zero cell.char.utf8Size_pos.ne'
      rw [Cell.shown_of_hidden hhidden, hn, List.replicate_succ, List.cons_append] at hshown
      exact absurd (List.cons.inj hshown).1.symm hd
    | false =>
      rw [Cell.shown_of_not_hidden hhidden, List.singleton_append, List.cons.injEq] at hshown
      obtain rfl := blanked_eq_nil hshown.2
      obtain ⟨char, hidden⟩ := cell
      subst hhidden
      rw [← hshown.1]
      rfl

/-- The cells of the units of a piece. -/
theorem piece {body : List Segment} {u : Units} (h : Stands cs y (Units.prepend body u).toTokens) :
    ∃ c d, cs = c ++ d ∧ Stands c (d ++ y) (body.flatMap Segment.toTokens) ∧
      Stands d y u.toTokens := by
  rw [Units.toTokens_prepend] at h
  exact h.split

theorem bodyLength_eq {body : List Segment} (h : Stands cs y (body.flatMap Segment.toTokens)) :
    bodyLength body = (chars cs).byteLength := by
  rw [h.byteLength_eq, byteLength_body]

end Stands

/-! ### The cells of a declaration -/

/-- The cells of a clause, part by part. -/
structure Clause.Cells (c : Clause) (y cs : List Cell) where
  front : List Cell
  gap : List Cell
  value : List Cell
  tail : List Cell
  eq : cs = front ++ ⟨':', false⟩ :: (gap ++ (value ++ tail))
  front_stands : Stands front (⟨':', false⟩ :: (gap ++ (value ++ (tail ++ y))))
    (c.front.flatMap Segment.toTokens)
  gap_stands : Stands gap (value ++ (tail ++ y)) c.gap
  value_stands : Stands value (tail ++ y) (c.value.flatMap Segment.toTokens)
  tail_stands : Stands tail y c.tail

theorem Clause.toTokens_body (c : Clause) : c.body.flatMap Segment.toTokens =
    c.front.flatMap Segment.toTokens ++ Token.colon ::
      (c.gap ++ (c.value.flatMap Segment.toTokens ++ c.tail)) := by
  simp only [body, List.flatMap_append, List.flatMap_cons, flatMap_toTokens_leaves]
  rfl

theorem Clause.exists_cells {c : Clause} {y cs : List Cell}
    (h : Stands cs y (c.body.flatMap Segment.toTokens)) : Nonempty (c.Cells y cs) := by
  rw [c.toTokens_body] at h
  obtain ⟨cf, r, rfl, hf, hr⟩ := h.split
  obtain ⟨r₁, rfl, hr₁⟩ := hr.single (d := ':') rfl (by decide)
  obtain ⟨cg, r₂, rfl, hg, hr₂⟩ := hr₁.split
  obtain ⟨cv, ct, rfl, hv, ht⟩ := hr₂.split
  simp only [List.append_assoc, List.cons_append] at hf hg hv
  exact ⟨⟨cf, cg, cv, ct, rfl, hf, hg, hv, ht⟩⟩

/-- Where the value of a clause stands. -/
theorem Clause.Cells.valueSpan_eq {c : Clause} {y cs : List Cell} (h : c.Cells y cs) (pos : Nat) :
    c.valueSpan pos = ⟨pos + (chars (h.front ++ ⟨':', false⟩ :: h.gap)).byteLength,
      pos + (chars (h.front ++ ⟨':', false⟩ :: (h.gap ++ h.value))).byteLength⟩ := by
  have hone : (':' : Char).utf8Size = 1 := by decide
  rw [valueSpan, h.front_stands.bodyLength_eq, h.value_stands.bodyLength_eq, ← h.gap_stands.byteLength_eq]
  simp only [chars_append, chars_cons, Text.byteLength_append, Text.byteLength_cons, hone,
    Nat.add_assoc]

/-! ### Values that can stand anywhere -/

/-- Units and cells of a value that has its place wherever a value may stand: it has no white space
at its ends, no cut in it, and its brackets nest by themselves. -/
structure Portable (cs : List Cell) (value : List Segment) : Prop where
  covers : Covers cs (value.flatMap Segment.toTokens)
  plain : ∀ s ∈ value, s.Plain
  tight : Tight value
  nested : Units.Nested none false (Units.prepend value .nil)
  solid : value = [] ∨ ∃ c t, blanked cs = c :: t ∧ Token.isSpace c = false

/-- Units between parts begin with no blank. -/
theorem Portable.of_stands {cs y : List Cell} {value : List Segment}
    (hstands : Stands cs y (value.flatMap Segment.toTokens)) (hplain : ∀ s ∈ value, s.Plain)
    (htight : Tight value) (hnested : Units.Nested none false (Units.prepend value .nil)) :
    Portable cs value where
  covers := hstands.covers
  plain := hplain
  tight := htight
  nested := hnested
  solid := by
    cases value with
    | nil => exact .inl rfl
    | cons s value =>
      have hfirst : ∃ token tokens, (s :: value).flatMap Segment.toTokens = token :: tokens ∧
          token.kind ≠ .whitespace := by
        obtain ⟨isColon, hs⟩ := htight.head s rfl
        cases s with
        | leaf token =>
          refine ⟨token, _, rfl, fun hkind => ?_⟩
          rw [Segment.role, hkind] at hs
          cases hs
        | group opener inside closer =>
          refine ⟨opener, _, rfl, fun hkind => ?_⟩
          cases hnested with
          | group ho => simp [Token.opens, hkind] at ho
      obtain ⟨token, tokens, htokens, hkind⟩ := hfirst
      rw [htokens] at hstands
      have hlex := hstands.lex
      obtain ⟨c, l, hlexeme⟩ := List.exists_cons_of_ne_nil
        (hstands.proper token (List.mem_cons_self ..)).nonempty
      have hshown : blanked cs = c :: (l ++ Token.source tokens) := by
        rw [hstands.covers.blanked_eq, Token.source_cons, hlexeme, List.cons_append]
      refine .inr ⟨c, _, hshown, Token.head?_not_space hlex ?_ c ?_⟩
      · intro _ heq
        cases heq
        exact hkind
      · rw [blanked_append, hshown]
        rfl

/-- The value of a clause nests by itself, and so do its cells. -/
theorem Clause.Cells.portable {c : Clause} {y cs : List Cell} {u : Units} {around : Option Bracket}
    {marked : Bool} (cells : c.Cells y cs) (hc : c.Declares)
    (hnested : Units.Nested around marked (Units.prepend c.body u)) :
    Portable cells.value c.value := by
  obtain ⟨hgap, -⟩ := List.forall_mem_append.mp hc.gaps
  rw [Clause.body, Units.prepend_append] at hnested
  obtain ⟨m, hcolon, -⟩ := hnested.behind
  cases hcolon with
  | leaf _ _ hbehind =>
    rw [Units.prepend_append, Units.prepend_append] at hbehind
    exact .of_stands cells.value_stands hc.value hc.tight (hbehind.behind_gaps hgap).alone

/-- The clause of a piece that makes a declaration. -/
theorem exists_clause_of_means {x cs y : List Cell} {body : List Segment} {u : Units}
    {around : Option Bracket} {marked : Bool} (hplain : ∀ s ∈ body, s.Plain)
    (hstands : Stands cs y (body.flatMap Segment.toTokens))
    (hnested : Units.Nested around marked (Units.prepend body u)) {first : Part}
    {others : List Part} {d : Declaration} (hparts : partsOf (chars x).byteLength body = first :: others)
    (hmeans : Statement.Means (chars (x ++ (cs ++ y))) (first :: others) (.declaration d)) :
    ∃ (c : Clause) (cells : c.Cells y cs), c.Declares ∧ c.body = body ∧
      Portable cells.value c.value ∧ d.name = Clause.nameOf c.front (chars cells.front) ∧ d.name ≠ [] ∧
      d.valueSpan = c.valueSpan (chars x).byteLength := by
  have hkind := Statement.eq_kind_of_means hmeans
  obtain ⟨before, colon, value, rfl, hbefore, hcolon⟩ : ∃ before colon value,
      others = before ++ colon :: value ∧ (∀ p ∈ before, p.isColon = false) ∧ colon.isColon = true := by
    cases hmeans with
    | declaration hbefore hcolon _ _ => exact ⟨_, _, _, rfl, hbefore, hcolon⟩
  obtain ⟨c, hc, rfl⟩ := exists_clause hplain hstands.proper hparts hbefore hcolon
  obtain ⟨cells⟩ := Clause.exists_cells hstands
  have htext : chars (x ++ (cs ++ y)) = chars x ++ (chars cells.front ++
      chars (⟨':', false⟩ :: (cells.gap ++ (cells.value ++ (cells.tail ++ y))))) := by
    conv_lhs => rw [cells.eq]
    simp
  rw [htext, hc.kind_eq cells.front_stands.covers cells.front_stands.proper hparts] at hkind
  split at hkind
  · cases hkind
  · rename_i hne
    rw [Kind.declaration.injEq] at hkind
    subst hkind
    exact ⟨c, cells, hc, rfl, cells.portable hc hnested, rfl, hne, rfl⟩

/-- White space and comments before what may end a value may end it as well. -/
theorem Stands.ended {cs y : List Cell} {gaps : List Token} (h : Stands cs y gaps)
    (hgaps : ∀ token ∈ gaps, token.Gap) (hy : Token.Ended (blanked y)) :
    Token.Ended (blanked (cs ++ y)) := by
  cases gaps with
  | nil =>
    cases h.covers
    exact hy
  | cons token gaps =>
    obtain ⟨c, cs', n, heq, hscans, -⟩ := Token.lex_eq_cons h.lex
    rw [heq]
    intro f hf
    obtain rfl : c = f := by simpa using hf
    exact hscans.halts (hgaps token (List.mem_cons_self ..))

/-- The cells of a declaration's value among those of a text that is made up of the units `whole`:
the value can stand anywhere, and what is behind it may end it. -/
structure ValueCells (all : List Cell) (whole : Units) (d : Declaration) where
  before : List Cell
  cells : List Cell
  behind : List Cell
  value : List Segment
  eq : all = before ++ (cells ++ behind)
  span_eq : d.valueSpan = ⟨(chars before).byteLength, (chars (before ++ cells)).byteLength⟩
  stands : Stands cells behind (value.flatMap Segment.toTokens)
  portable : Portable cells value
  ended : Token.Ended (blanked behind)
  closed : whole.isClosed = true → value.all Segment.isClosed = true

def HasValue (all : List Cell) (whole : Units) (item : Item) : Prop :=
  ∀ d, item.kind = .declaration d → Nonempty (ValueCells all whole d)

theorem Statement.Concludes.hasValue {x cs y : List Cell} {body : List Segment} {u whole : Units}
    {around : Option Bracket} {marked : Bool} {cut : Option Nat} {own : Forest}
    (hplain : ∀ s ∈ body, s.Plain) (hstands : Stands cs y (body.flatMap Segment.toTokens))
    (hnested : Units.Nested around marked (Units.prepend body u)) (hy : Token.Ended (blanked y))
    (hclosed : whole.isClosed = true → (Units.prepend body u).isClosed = true)
    (h : Concludes (chars (x ++ (cs ++ y))) cut (partsOf (chars x).byteLength body) own) :
    own.All (HasValue (x ++ (cs ++ y)) whole) := by
  generalize hparts : partsOf (chars x).byteLength body = parts at h
  cases h with
  | nothing => trivial
  | @node first others kind hmeans =>
    refine ⟨?_, trivial, trivial⟩
    intro d heq
    subst heq
    obtain ⟨c, cells, hc, rfl, hvalue, -, -, hspan⟩ :=
      exists_clause_of_means hplain hstands hnested hparts hmeans
    refine ⟨⟨x ++ (cells.front ++ ⟨':', false⟩ :: cells.gap), cells.value, cells.tail ++ y, c.value, ?_, ?_,
      cells.value_stands, hvalue, ?_, fun hwhole => ?_⟩⟩
    · conv_lhs => rw [cells.eq]
      simp
    · rw [hspan, cells.valueSpan_eq]
      simp
    · exact cells.tail_stands.ended (List.forall_mem_append.mp hc.gaps).2 hy
    · have hbody := hclosed hwhole
      rw [Units.isClosed_prepend, Bool.and_eq_true, Clause.body] at hbody
      simp only [List.all_append, List.all_cons, Bool.and_eq_true] at hbody
      exact hbody.1.2.2.2.1

/-! ### Levels -/

/-- The token that cuts a level is a single character. -/
theorem exists_of_cut {token : Token} (h : token.Proper)
    (hcut : token.kind = .semicolon ∨ token.kind = .closer .curly) :
    ∃ ch, token.lexeme = [ch] ∧ ch ≠ ' ' := by
  rcases hcut with hkind | hkind
  · exact ⟨';', h.single ';' hkind, by decide⟩
  · exact ⟨'}', h.single '}' hkind, by decide⟩

theorem kind_of_opens_curly {token : Token} (h : token.opens = some .curly) :
    token.kind = .opener .curly := by
  unfold Token.opens at h
  split at h <;> simp_all

theorem byteLength_block_cells {opener : Token} {inside : Units} {closer : Option Token} {i e : List Cell}
    (ho : opener.lexeme = ['{']) (hi : blanked i = Token.source inside.toTokens)
    (he : blanked e = Token.source closer.toList) :
    (Units.block opener inside closer .nil).byteLength =
      (chars (⟨'{', false⟩ :: (i ++ e))).byteLength := by
  rw [← Units.byteLength_toTokens]
  simp [Units.toTokens, ho, ← hi, ← he]

namespace Stands
variable {cs y : List Cell}

/-- The cells of a piece and of the token that cuts the level behind it. -/
theorem cut {body : List Segment} {token : Token} {rest : Units}
    (h : Stands cs y (Units.prepend body (.leaf token rest)).toTokens)
    (hcut : token.kind = .semicolon ∨ token.kind = .closer .curly) :
    ∃ c ch r, cs = c ++ ⟨ch, false⟩ :: r ∧ token.lexeme = [ch] ∧
      Stands c (⟨ch, false⟩ :: (r ++ y)) (body.flatMap Segment.toTokens) ∧
      Stands r y rest.toTokens ∧
      bodyLength body + token.byteLength = (chars (c ++ [⟨ch, false⟩])).byteLength := by
  obtain ⟨c, d, rfl, hc, hd⟩ := h.piece
  obtain ⟨ch, hch, hne⟩ := exists_of_cut (hd.proper token (List.mem_cons_self ..)) hcut
  obtain ⟨r, rfl, hr⟩ := hd.single hch hne
  refine ⟨c, ch, r, rfl, hch, hc, hr, ?_⟩
  rw [hc.bodyLength_eq, Token.byteLength, hch]
  simp

/-- The cells of a piece and of the block behind it. -/
theorem block {body : List Segment} {opener : Token} {inside : Units} {closer : Option Token}
    {rest : Units} (h : Stands cs y (Units.prepend body (.block opener inside closer rest)).toTokens)
    (ho : opener.opens = some .curly) :
    ∃ c i e r, cs = c ++ ⟨'{', false⟩ :: (i ++ (e ++ r)) ∧
      Stands c (⟨'{', false⟩ :: (i ++ (e ++ (r ++ y)))) (body.flatMap Segment.toTokens) ∧
      Stands i (e ++ (r ++ y)) inside.toTokens ∧ Stands e (r ++ y) closer.toList ∧
      Stands r y rest.toTokens ∧ opener.lexeme = ['{'] ∧
      (Units.block opener inside closer .nil).byteLength =
        (chars (⟨'{', false⟩ :: (i ++ e))).byteLength := by
  obtain ⟨c, d, rfl, hc, hd⟩ := h.piece
  have hlexeme := (hd.proper opener (List.mem_cons_self ..)).single '{' (kind_of_opens_curly ho)
  obtain ⟨d', rfl, hd'⟩ := hd.single hlexeme (by decide)
  obtain ⟨i, d'', rfl, hi, hd''⟩ := hd'.split
  obtain ⟨e, r, rfl, he, hr⟩ := hd''.split
  simp only [List.append_assoc, List.cons_append] at hc hi
  exact ⟨c, i, e, r, rfl, hc, hi, he, hr, hlexeme,
    byteLength_block_cells hlexeme hi.covers.blanked_eq he.covers.blanked_eq⟩

end Stands

/-- The closer of a block: a visible brace, or none at the end of the text. -/
theorem closer_cases {inside rest : Units} {closer : Option Token} {e z : List Cell}
    (h : Units.Ends .curly inside closer rest) (he : Stands e z closer.toList) :
    (∃ token, closer = some token ∧ e = [⟨'}', false⟩] ∧ token.kind = .closer .curly) ∨
      closer = none ∧ e = [] ∧ rest = .nil := by
  cases closer with
  | none =>
    right
    cases he.covers
    exact ⟨rfl, rfl, h⟩
  | some token =>
    left
    have hkind := Units.kind_of_closes h.1
    have hlexeme := (he.proper token (List.mem_cons_self ..)).single '}' hkind
    have hsingle : Stands e z (token :: []) := he
    obtain ⟨e', rfl, he'⟩ := hsingle.single hlexeme (by decide)
    cases he'.covers
    exact ⟨token, rfl, rfl, hkind⟩

theorem closer_cells {inside rest : Units} {closer : Option Token} {e r y : List Cell}
    (h : Units.Ends .curly inside closer rest) (he : Stands e (r ++ y) closer.toList)
    (hr : Stands r y rest.toTokens) : e = [⟨'}', false⟩] ∨ e = [] ∧ r = [] := by
  refine (closer_cases h he).imp (fun ⟨_, _, he, _⟩ => he) fun ⟨_, he, hrest⟩ => ⟨he, ?_⟩
  subst hrest
  cases hr.covers
  rfl

/-- The token that cuts a level ends a value before it, and so does the closer of a block. -/
theorem ended_cut {token : Token} (h : token.Proper)
    (hcut : token.kind = .semicolon ∨ token.kind = .closer .curly) {ch : Char}
    (hlexeme : token.lexeme = [ch]) (y : List Cell) : Token.Ended (blanked (⟨ch, false⟩ :: y)) := by
  have hhalts : Token.Halts ch := by
    rcases hcut with hkind | hkind
    · obtain rfl : ch = ';' := by simpa [hlexeme] using h.single ';' hkind
      exact Token.halts_semicolon
    · obtain rfl : ch = '}' := by simpa [hlexeme] using h.single '}' hkind
      exact Token.halts_brace
  intro f hf
  obtain rfl : ch = f := by simpa [blanked, Cell.shown] using hf
  exact hhalts

theorem ended_closer {e r y : List Cell} (h : e = [⟨'}', false⟩] ∨ e = [] ∧ r = [])
    (hy : Token.Ended (blanked y)) : Token.Ended (blanked (e ++ (r ++ y))) := by
  rcases h with rfl | ⟨rfl, rfl⟩
  · intro f hf
    obtain rfl : '}' = f := by simpa [blanked, Cell.shown] using hf
    exact Token.halts_brace
  · exact hy

theorem hasValue_comments (all : List Cell) (whole : Units) (spans : List Span) :
    (Forest.comments spans).All (HasValue all whole) :=
  Forest.all_comments fun _ _ d hd => by cases hd

/-- The values of a piece that is cut, and of what stands behind it. -/
theorem hasValue_cut {x cs y : List Cell} {body : List Segment} {token : Token} {rest whole : Units}
    {cut : Option Nat} {own after : Forest} {around : Option Bracket} {marked : Bool}
    (hbody : ∀ s ∈ body, s.Plain) (hcut : token.kind = .semicolon ∨ token.kind = .closer .curly)
    (hown : Statement.Concludes (chars (x ++ (cs ++ y))) cut (partsOf (chars x).byteLength body) own)
    (hstands : Stands cs y (Units.prepend body (.leaf token rest)).toTokens)
    (hnested : Units.Nested around marked (Units.prepend body (.leaf token rest)))
    (hclosed : whole.isClosed = true → (Units.prepend body (.leaf token rest)).isClosed = true)
    (hafter : ∀ {z r : List Cell}, x ++ (cs ++ y) = z ++ (r ++ y) →
      (chars x).byteLength + bodyLength body + token.byteLength = (chars z).byteLength →
      Stands r y rest.toTokens → Units.Nested around token.marksInterpolation rest →
      (whole.isClosed = true → rest.isClosed = true) → after.All (HasValue (x ++ (cs ++ y)) whole)) :
    (own.append after).All (HasValue (x ++ (cs ++ y)) whole) := by
  have htoken : token.Proper := hstands.proper token (by simp [Units.toTokens_prepend, Units.toTokens])
  obtain ⟨c, ch, r, rfl, hlexeme, hc, hr, hlen⟩ := hstands.cut hcut
  obtain ⟨m, hleaf, -⟩ := hnested.behind
  cases hleaf with
  | leaf _ _ hnested_rest =>
    have hpos : (chars x).byteLength + bodyLength body + token.byteLength =
        (chars (x ++ (c ++ [⟨ch, false⟩]))).byteLength := by
      rw [Nat.add_assoc, hlen, chars_append x, Text.byteLength_append]
    have hclosed_rest : whole.isClosed = true → rest.isClosed = true := fun hwhole => by
      have := hclosed hwhole
      simp only [Units.isClosed_prepend, Units.isClosed, Bool.and_eq_true] at this
      exact this.2.2
    have hafter := hafter (z := x ++ (c ++ [⟨ch, false⟩])) (by simp) hpos hr hnested_rest hclosed_rest
    rw [List.append_assoc] at hown hafter ⊢
    exact (hown.hasValue hbody hc hnested (ended_cut htoken hcut hlexeme _) hclosed).append hafter

/-- **Every value of a sheet can stand anywhere**, as far as its own units go. -/
theorem Reads.hasValue {all : List Cell} {pos : Nat} {u whole : Units} {f : Forest}
    (h : Reads (.ofCells all) pos u f) {x cs y : List Cell} {around : Option Bracket} {marked : Bool}
    (hall : all = x ++ (cs ++ y)) (hpos : pos = (chars x).byteLength)
    (hstands : Stands cs y u.toTokens) (hnested : Units.Nested around marked u)
    (hy : Token.Ended (blanked y)) (hclosed : whole.isClosed = true → u.isClosed = true) :
    f.All (HasValue all whole) := by
  induction h generalizing x cs y around marked with
  | finish hbody hown =>
    subst hpos hall
    obtain ⟨c, d, rfl, hc, hd⟩ := hstands.piece
    cases hd.covers
    refine (hasValue_comments _ _ _).append ?_
    rw [List.append_nil] at hown ⊢
    exact hown.hasValue hbody hc hnested hy hclosed
  | semicolon hbody hkind hown _ ih =>
    subst hpos hall
    exact (hasValue_comments _ _ _).append (hasValue_cut hbody (.inl hkind) hown hstands hnested hclosed
      fun hcells hpos hr hrest => ih hcells hpos hr hrest hy)
  | strayBrace hbody hkind hown _ ih =>
    subst hpos hall
    exact (hasValue_comments _ _ _).append (hasValue_cut hbody (.inr hkind) hown hstands hnested hclosed
      fun hcells hpos hr hrest => ih hcells hpos hr hrest hy)
  | block hbody hhead _ _ ih₁ ih₂ =>
    subst hpos hall
    obtain ⟨m, hblock, -⟩ := hnested.behind
    cases hblock with
    | block ho hnested_inside hends hnested_rest =>
      obtain ⟨c, i, e, r, rfl, hc, hi, he, hr, hlexeme, hlen⟩ := hstands.block ho
      simp only [Units.isClosed_prepend, Units.isClosed, Bool.and_eq_true] at hclosed
      have hchildren := ih₁ (x := x ++ (c ++ [⟨'{', false⟩])) (by simp) (by
        rw [Token.byteLength, hlexeme, hc.bodyLength_eq]
        simp [Nat.add_assoc]) hi hnested_inside (ended_closer (closer_cells hends he hr) hy)
        fun hwhole => (hclosed hwhole).2.1.1
      have hafter := ih₂ (x := x ++ (c ++ ⟨'{', false⟩ :: (i ++ e))) (by simp) (by
        rw [hlen, hc.bodyLength_eq]
        simp [Nat.add_assoc]) hr hnested_rest hy fun hwhole => (hclosed hwhole).2.2
      refine (hasValue_comments _ _ _).append ⟨fun d hd => ?_, hchildren, hafter⟩
      exact absurd hd (hhead.ne_declaration d)

end VendorSync.Css
