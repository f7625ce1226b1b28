import VendorSync.Proofs.Matching
import VendorSync.Proofs.Moving
import VendorSync.Proofs.Pieces

/-! The pieces of a text in which values are replaced.

`Forest.Becomes` says of two forests that they are the same but for the values at some spans, and
`Forest.Moves` also where the nodes come to stand. A piece is read as the same node as before, or
with the new value in place of its own (`exists_replaced`). -/
namespace VendorSync.Css
open LineComment Token

/-! ### The same nodes with other values -/

/-- A node that declares the same or is the same as another: but a declaration whose value stands
at one of the spans gets the new value. -/
inductive Kind.Becomes (P : Span → Prop) (value : Text) : Kind → Kind → Prop
  | kept {d d'} : ¬ P d.valueSpan → d'.name = d.name → d'.value = d.value →
      Becomes P value (.declaration d) (.declaration d')
  | changed {d d'} : P d.valueSpan → d'.name = d.name → d'.value = value →
      Becomes P value (.declaration d) (.declaration d')
  | rule {selector s s'} : Becomes P value (.rule selector s) (.rule selector s')
  | same {k} : (∀ d, k ≠ .declaration d) → Becomes P value k k

/-- The forests have the same shape, and each node becomes the one in its place. -/
abbrev Forest.Becomes (P : Span → Prop) (value : Text) : Forest → Forest → Prop :=
  Forest.Matches fun item item' => item.kind.Becomes P value item'.kind

variable {P : Span → Prop} {text : Text}

theorem Kind.becomes_shift {k : Kind} (a b : Nat)
    (h : ∀ d, k.shift a = .declaration d → ¬ P d.valueSpan) :
    (k.shift a).Becomes P text (k.shift b) := by
  cases k with
  | declaration d => exact .kept (h _ rfl) rfl rfl
  | rule selector s => exact .rule
  | _ => exact .same (by simp [shift])

/-! ### The same nodes in their new places -/

/-- A node between two offsets and the node that it becomes, which stands where the ends of the one
come to stand. A declaration that gets the new value may end earlier. -/
structure Item.Moves (P : Span → Prop) (value : Text) (move : Nat → Int) (lo hi : Nat)
    (item item' : Item) : Prop where
  becomes : item.kind.Becomes P value item'.kind
  start : item'.span.start = move item.span.start
  stop_le : item'.span.stop ≤ move item.span.stop
  stop : (∀ d, item.kind = .declaration d → ¬ P d.valueSpan) → item'.span.stop = move item.span.stop
  lower : lo ≤ item.span.start
  order : item.span.start ≤ item.span.stop
  upper : item.span.stop ≤ hi

/-- The forests have the same shape, and each node becomes the one in its place and moves to it. -/
abbrev Forest.Moves (P : Span → Prop) (value : Text) (move : Nat → Int) (lo hi : Nat) :
    Forest → Forest → Prop :=
  Forest.Matches (Item.Moves P value move lo hi)

/-- Only the offsets between which the nodes stand have to be known. -/
theorem Forest.Moves.mono {move move' : Nat → Int} {lo hi lo' hi' : Nat} {f f' : Forest}
    (h : f.Moves P text move lo hi f') (hlo : lo' ≤ lo) (hhi : hi ≤ hi')
    (hmove : ∀ q, lo ≤ q → q ≤ hi → move' q = move q) : f.Moves P text move' lo' hi' f' := by
  refine h.imp fun item item' hitem => ?_
  have hlower := hitem.lower
  have horder := hitem.order
  have hupper := hitem.upper
  have hstop := hmove item.span.stop (by omega) hupper
  exact {
    becomes := hitem.becomes
    start := by rw [hmove _ hlower (by omega), hitem.start]
    stop_le := hstop ▸ hitem.stop_le
    stop := fun hno => hstop ▸ hitem.stop hno
    lower := by omega
    order := horder
    upper := by omega }

/-- A node that is the same some bytes further on. -/
theorem Item.moves_of_shift {move : Nat → Int} {lo hi a b : Nat} {k k' : Kind} {s : Span}
    (hkind : k.Becomes P text k') (horder : s.start ≤ s.stop) (hlo : lo ≤ s.start + a)
    (hhi : s.stop + a ≤ hi) (hmove : ∀ q ≤ s.stop, move (q + a) = (q + b : Nat)) :
    Item.Moves P text move lo hi ⟨k, s.shift a⟩ ⟨k', s.shift b⟩ where
  becomes := hkind
  start := (hmove _ horder).symm
  stop_le := Int.le_of_eq (hmove _ (Nat.le_refl _)).symm
  stop _ := (hmove _ (Nat.le_refl _)).symm
  lower := hlo
  order := Nat.add_le_add_right horder a
  upper := hhi

/-- Where the offsets of some cells come to stand when the values at the spans are replaced and
other cells stand before them. -/
def moveTo (vc : List Cell) (spans : List Span) (x x' : List Cell) (q : Nat) : Int :=
  Edit.moved (spans.map (⟨·, chars vc⟩)) q + ((chars x').byteLength - (chars x).byteLength)

theorem moveTo_nil (vc x x' : List Cell) (q : Nat) :
    moveTo vc [] x x' (q + (chars x).byteLength) = (q + (chars x').byteLength : Nat) := by
  simp only [moveTo, Edit.moved, List.map_nil, Edit.growth]
  omega

/-- What stands before the further spans moves as if these were not there. -/
theorem moveTo_left {vc : List Cell} {spans spans₂ : List Span} {x x' : List Cell} {q : Nat}
    (h : Edit.growth q (spans₂.map (⟨·, chars vc⟩)) = 0) :
    moveTo vc (spans ++ spans₂) x x' q = moveTo vc spans x x' q := by
  simp only [moveTo, Edit.moved, List.map_append, Edit.growth_append, h]
  omega

/-- What stands behind the first spans moves with the cells `z` in front of it. -/
theorem moveTo_right {vc : List Cell} {spans spans₂ : List Span} {x x' z z' : List Cell} {q : Nat}
    (h : Edit.growth q (spans.map (⟨·, chars vc⟩)) + ((chars x').byteLength - (chars x).byteLength) =
      (chars z').byteLength - (chars z).byteLength) :
    moveTo vc (spans ++ spans₂) x x' q = moveTo vc spans₂ z z' q := by
  simp only [moveTo, Edit.moved, List.map_append, Edit.growth_append]
  omega

/-! ### Pieces that stay -/

/-- A comment before a statement is one of the text or one of the piece. -/
theorem mem_leadingComments {source : Source} {pos : Nat} {body : List Segment} {s : Span}
    (h : s ∈ leadingComments source pos body) : s ∈ source.comments ∨
      pos ≤ s.start ∧ s.start ≤ s.stop ∧ s.stop ≤ pos + bodyLength body := by
  induction body generalizing pos with
  | nil => simp [leadingComments] at h
  | cons segment body ih =>
    have hbehind : s ∈ leadingComments source (pos + segment.byteLength) body →
        s ∈ source.comments ∨
          pos ≤ s.start ∧ s.start ≤ s.stop ∧ s.stop ≤ pos + bodyLength (segment :: body) := by
      intro hs
      rw [bodyLength_cons]
      refine (ih hs).imp_right fun hbounds => ?_
      omega
    cases hrole : segment.role with
    | space =>
      simp only [leadingComments, hrole, List.mem_append] at h
      exact h.elim (fun hs => .inl (List.mem_of_mem_filter hs)) hbehind
    | comment =>
      simp only [leadingComments, hrole, List.mem_cons] at h
      rcases h with rfl | hs
      · refine .inr ⟨Nat.le_refl _, Nat.le_add_right .., ?_⟩
        rw [bodyLength_cons]
        simp only
        omega
      · exact hbehind hs
    | _ => simp [leadingComments, hrole] at h

/-- Where the tokens of a piece are covered, the leading comments are the same in every place. -/
theorem moves_leadingComments {x x' cs y y' : List Cell} {body : List Segment}
    (hlen : bodyLength body = (chars cs).byteLength) (hx : Apart x (cs ++ y))
    (hy : ∀ c ∈ y.head?, c.hidden = false) (hx' : Apart x' (cs ++ y'))
    (hy' : ∀ c ∈ y'.head?, c.hidden = false) {move : Nat → Int} {hi : Nat}
    (hhi : (chars cs).byteLength + (chars x).byteLength ≤ hi)
    (hmove : ∀ q ≤ (chars cs).byteLength,
      move (q + (chars x).byteLength) = (q + (chars x').byteLength : Nat)) :
    (Forest.comments (leadingComments (.ofCells (x ++ (cs ++ y))) (chars x).byteLength body)).Moves
      P text move (chars x).byteLength hi
      (Forest.comments (leadingComments (.ofCells (x' ++ (cs ++ y'))) (chars x').byteLength body)) := by
  rw [leadingComments_local hx hy hlen, leadingComments_local hx' hy' hlen]
  apply Forest.matches_comments
  rw [List.forall₂_map_left_iff, List.forall₂_map_right_iff, List.forall₂_same]
  intro s hs
  obtain ⟨horder, hstop⟩ : s.start ≤ s.stop ∧ s.stop ≤ (chars cs).byteLength := by
    rcases mem_leadingComments hs with hrun | hown
    · have := (runs_none 0 cs).ordered.of_mem hrun
      omega
    · omega
  exact Item.moves_of_shift (.same (by simp)) horder (by omega) (by omega)
    fun q hq => hmove q (by omega)

/-- Where a piece ends that is cut off by a token of this length, if one belongs to it. -/
abbrev cutAt (x : List Cell) (body : List Segment) (ending : Option Nat) : Option Nat :=
  ending.map ((chars x).byteLength + bodyLength body + ·)

/-- A piece is read as the same node in another place. -/
theorem Statement.Concludes.elsewhere {x cs y : List Cell} {body : List Segment} {ending : Option Nat}
    {own : Forest} (hstands : Stands cs y (body.flatMap Segment.toTokens))
    (h : Concludes (chars (x ++ (cs ++ y))) (cutAt x body ending) (partsOf (chars x).byteLength body) own)
    (hown : own.All fun item => ∀ d, item.kind = .declaration d → ¬ P d.valueSpan)
    (vc x' y' : List Cell) :
    ∃ own', Concludes (chars (x' ++ (cs ++ y'))) (cutAt x' body ending)
        (partsOf (chars x').byteLength body) own' ∧
      own.Moves P text (moveTo vc [] x x') (chars x).byteLength
        ((chars x).byteLength + (chars cs).byteLength + ending.getD 0) own' := by
  refine ⟨_, concludes_iff.mpr rfl, ?_⟩
  have hplaced := placed_parts hstands.covers hstands.proper
  have hparts := partsOf_shift (chars x).byteLength 0 body
  have hparts' := partsOf_shift (chars x').byteLength 0 body
  rw [Nat.zero_add] at hparts hparts'
  rw [concludes_iff, hparts] at h
  rw [h] at hown ⊢
  rw [hparts']
  cases hbody : partsOf 0 body with
  | nil => exact .nil
  | cons first others =>
    rw [hbody] at hplaced hown
    have hkind := kind_shift (x := chars x) (y := chars y) hplaced
    have hkind' := kind_shift (x := chars x') (y := chars y') hplaced
    rw [← chars_append, ← chars_append] at hkind hkind'
    obtain ⟨horder, hupper⟩ := stop_bounds hplaced.ordered
    have hlen := hstands.bodyLength_eq
    have hspan : ∀ k : Nat, (⟨(first.shift k).span.start,
        (ending.map (k + bodyLength body + ·)).getD (stop (first.shift k) (others.map (Part.shift k)))⟩ :
          Span) = Span.shift k ⟨first.span.start,
            (ending.map (bodyLength body + ·)).getD (stop first others)⟩ := by
      intro k
      cases ending with
      | none =>
        simp only [Option.map_none, Option.getD_none, stop_shift]
        rfl
      | some n =>
        simp only [Option.map_some, Option.getD_some, Span.shift, Part.shift, Span.mk.injEq, true_and]
        omega
    have hbounds : first.span.start ≤ (ending.map (bodyLength body + ·)).getD (stop first others) ∧
        (ending.map (bodyLength body + ·)).getD (stop first others) ≤
          (chars cs).byteLength + ending.getD 0 := by
      cases ending <;> simp only [Option.map_none, Option.getD_none, Option.map_some, Option.getD_some] <;>
        omega
    refine .cons ?_ .nil .nil
    show Item.Moves P text _ _ _ ⟨kind _ _ _, ⟨_, _⟩⟩ ⟨kind _ _ _, ⟨_, _⟩⟩
    have hno := hown.1
    rw [hkind] at hno ⊢
    rw [hkind', hspan, hspan]
    exact Item.moves_of_shift (Kind.becomes_shift _ _ hno) hbounds.1 (Nat.le_add_left ..)
      (by simp only; omega) fun q _ => moveTo_nil vc x x' q

/-- The header of a block has its place in the text of the piece before the block. -/
theorem headerSpan_partsOf (pos : Nat) (body : List Segment) :
    Statement.headerSpan (partsOf pos body) (pos + bodyLength body) =
      (Statement.headerSpan (partsOf 0 body) (bodyLength body)).shift pos := by
  have hparts := partsOf_shift pos 0 body
  rw [Nat.zero_add] at hparts
  rw [hparts, Nat.add_comm, Statement.headerSpan_shift]

/-- The header of a block is read in the same way in another place. -/
theorem Statement.Heads.elsewhere {x cs y : List Cell} {body : List Segment} {kind : Kind}
    (hstands : Stands cs y (body.flatMap Segment.toTokens))
    (h : Heads (chars (x ++ (cs ++ y)))
      (headerSpan (partsOf (chars x).byteLength body) ((chars x).byteLength + bodyLength body)) kind)
    (x' y' : List Cell) :
    ∃ kind', Heads (chars (x' ++ (cs ++ y'))) (headerSpan (partsOf (chars x').byteLength body)
      ((chars x').byteLength + bodyLength body)) kind' ∧ kind.Becomes P text kind' := by
  refine ⟨_, heads_iff.mpr rfl, ?_⟩
  have hplaced := placed_parts hstands.covers hstands.proper
  have hne := h.ne_declaration
  rw [heads_iff.mp h] at hne ⊢
  rw [headerSpan_partsOf, chars_append, chars_append, blockKind_shift hplaced] at hne ⊢
  rw [headerSpan_partsOf, chars_append, chars_append, blockKind_shift hplaced]
  exact Kind.becomes_shift _ _ fun d hd => absurd hd (hne d)

/-! ### Pieces with another value -/

/-- The comments before a statement that has begun. -/
theorem leadingComments_append {source : Source} {pos : Nat} {a : List Segment}
    (h : partsOf pos a ≠ []) (b : List Segment) :
    leadingComments source pos (a ++ b) = leadingComments source pos a := by
  induction a generalizing pos with
  | nil => exact absurd rfl h
  | cons s a ih =>
    cases hrole : s.role with
    | part isColon => simp only [List.cons_append, leadingComments, hrole]
    | _ =>
      simp only [partsOf, hrole] at h
      simp only [List.cons_append, leadingComments, hrole, ih h]

theorem toTokens_ne_nil {value : List Segment} (h : value ≠ []) :
    value.flatMap Segment.toTokens ≠ [] := by
  obtain ⟨s, rest, rfl⟩ := List.exists_cons_of_ne_nil h
  cases s <;> simp [Segment.toTokens]

/-- What a piece becomes: units and cells that take its place, with its values at the spans in the
list replaced. -/
structure Replaced (P : Span → Prop) (vc : List Cell) (value : List Segment) (x cs y : List Cell)
    (body : List Segment) (ending : Option Nat) (own : Forest) (spans : List Span) (cs' : List Cell)
    (body' : List Segment) : Prop where
  plain : ∀ s ∈ body', s.Plain
  swapped : Swapped vc (value.flatMap Segment.toTokens) (chars x).byteLength cs
    (body.flatMap Segment.toTokens) spans cs' (body'.flatMap Segment.toTokens)
  listed : ∀ s ∈ spans, P s
  complete : own.All fun item => ∀ d, item.kind = .declaration d → P d.valueSpan → d.valueSpan ∈ spans
  nested : ∀ {around marked u u'}, (∀ b ∈ around, b = Bracket.curly) →
    Units.Nested around marked (Units.prepend body u) → (u = .nil → u' = .nil) →
    (∀ m, Units.Nested around m u') → Units.Nested around marked (Units.prepend body' u')
  isOpen : body'.any Segment.isOpen = true → body.any Segment.isOpen = true
  comments : ∀ x' y', Apart x' (cs' ++ y') → (∀ c ∈ y'.head?, c.hidden = false) →
    (Forest.comments (leadingComments (.ofCells (x ++ (cs ++ y))) (chars x).byteLength body)).Moves P
      (chars vc) (moveTo vc spans x x') (chars x).byteLength ((chars x).byteLength + (chars cs).byteLength)
      (Forest.comments (leadingComments (.ofCells (x' ++ (cs' ++ y'))) (chars x').byteLength body'))
  concludes : ∀ x' y', ∃ own',
    Statement.Concludes (chars (x' ++ (cs' ++ y'))) (cutAt x' body' ending)
      (partsOf (chars x').byteLength body') own' ∧
    own.Moves P (chars vc) (moveTo vc spans x x') (chars x).byteLength
      ((chars x).byteLength + (chars cs).byteLength + ending.getD 0) own'

variable {vc x cs y : List Cell} {value body : List Segment} {ending : Option Nat} {own : Forest}

/-- A piece that keeps its value. -/
theorem replaced_same (hplain : ∀ s ∈ body, s.Plain)
    (hstands : Stands cs y (body.flatMap Segment.toTokens)) (hx : Apart x (cs ++ y))
    (hy : ∀ c ∈ y.head?, c.hidden = false)
    (hown : Statement.Concludes (chars (x ++ (cs ++ y))) (cutAt x body ending)
      (partsOf (chars x).byteLength body) own)
    (hno : own.All fun item => ∀ d, item.kind = .declaration d → ¬ P d.valueSpan) :
    Replaced P vc value x cs y body ending own [] cs body where
  plain := hplain
  swapped := .refl _ hstands.covers
  listed := by simp
  complete := hno.imp fun _ h d hd hP => absurd hP (h d hd)
  nested _ hnested hnil hu' := by
    obtain ⟨m, -, hback⟩ := hnested.behind
    exact hback _ hnil (hu' m)
  isOpen h := h
  comments x' y' hx' hy' := moves_leadingComments hstands.bodyLength_eq hx hy hx' hy' (by omega)
    fun q _ => moveTo_nil vc x x' q
  concludes x' y' := hown.elsewhere hstands hno vc x' y'

theorem Portable.empty_or_head (hvalue : Portable vc value) :
    value.flatMap Segment.toTokens = [] ∨
      ∃ c t, Token.source (value.flatMap Segment.toTokens) = c :: t ∧ isSpace c = false := by
  rcases hvalue.solid with rfl | h
  · exact .inl rfl
  · exact .inr (hvalue.covers.blanked_eq ▸ h)

/-- What stands around the value of a clause is read around another. -/
theorem Clause.Cells.exists_regaps {c : Clause} (cells : c.Cells y cs) (hc : c.Declares)
    (hown : Portable cells.value c.value) (hvalue : Portable vc value) : ∃ gap' tail',
      Regaps c.gap (value.flatMap Segment.toTokens) c.tail gap' tail' := by
  obtain ⟨hgap, htail⟩ := List.forall_mem_append.mp hc.gaps
  have htail_lex := cells.tail_stands.lex
  rw [blanked_append, cells.tail_stands.covers.blanked_eq] at htail_lex
  have hgap_lex := cells.gap_stands.lex
  rw [blanked_append, cells.gap_stands.covers.blanked_eq] at hgap_lex
  suffices h : Skipped (Token.source c.gap) ∧ lex (Token.source c.gap) = c.gap from
    Token.exists_regaps h.1 h.2 htail htail_lex hvalue.empty_or_head
  rcases hown.empty_or_head with hnil | ⟨ch, t, hsource, hch⟩
  · have hempty : c.value = [] := by
      by_contra hne
      exact toTokens_ne_nil hne hnil
    rw [hc.close hempty]
    exact ⟨.nil, rfl⟩
  · have hhead : blanked (cells.value ++ (cells.tail ++ y)) = ch :: (t ++ blanked (cells.tail ++ y)) := by
      rw [blanked_append, cells.value_stands.covers.blanked_eq, hsource, List.cons_append]
    rw [hhead] at hgap_lex
    have hskipped := skipped_of_lex hgap (List.cons_ne_nil _ _) hgap_lex
    exact ⟨hskipped, lex_of_skipped hskipped (by simpa using hch) hgap_lex⟩

/-- The clause with another value and what is read around this. -/
def Clause.revalue (c : Clause) (gap : List Token) (value : List Segment) (tail : List Token) :
    Clause := { c with gap, value, tail }

theorem Portable.bodyLength_eq (h : Portable vc value) : bodyLength value = (chars vc).byteLength := by
  rw [h.covers.byteLength_eq, byteLength_body]

/-- The clause is longer by as much as the value. -/
theorem Clause.bodyLength_revalue (c : Clause) {gap' tail' : List Token}
    (h : Regaps c.gap (value.flatMap Segment.toTokens) c.tail gap' tail') :
    bodyLength (c.revalue gap' value tail').body + bodyLength c.value =
      bodyLength c.body + bodyLength value := by
  have hsource := congrArg Text.byteLength h.source_eq
  simp only [Text.byteLength_append] at hsource
  rw [bodyLength_body, bodyLength_body, revalue]
  simp only
  omega

/-- The new value does not stand behind the place of the old one. -/
theorem Clause.stop_revalue (c : Clause) {gap' tail' : List Token}
    (h : Regaps c.gap (value.flatMap Segment.toTokens) c.tail gap' tail') (pos : Nat) :
    ((c.revalue gap' value tail').valueSpan pos).stop ≤
      pos + bodyLength c.front + 1 + (Token.source c.gap).byteLength + bodyLength value := by
  simp only [valueSpan, revalue]
  by_cases hnil : value.flatMap Segment.toTokens = []
  · simp [h.close hnil]
  · rw [h.keep hnil]

/-- The cells of a clause with those of another value. -/
def Clause.Cells.revalue {c : Clause} (cells : c.Cells y cs) (vc : List Cell) : List Cell :=
  cells.front ++ ⟨':', false⟩ :: (cells.gap ++ (vc ++ cells.tail))

section Revalue
variable {c : Clause} {gap' tail' : List Token}

theorem Clause.Declares.revalue (hc : c.Declares) (hvalue : Portable vc value)
    (hregaps : Regaps c.gap (value.flatMap Segment.toTokens) c.tail gap' tail') :
    (c.revalue gap' value tail').Declares where
  front := hc.front
  first := hc.first
  gaps := hregaps.gaps
  value := hvalue.plain
  tight := hvalue.tight
  close h := hregaps.close (by rw [show value = [] from h]; rfl)

theorem Clause.nested_revalue (hvalue : Portable vc value) (hopen : value.any Segment.isOpen = false)
    (hregaps : Regaps c.gap (value.flatMap Segment.toTokens) c.tail gap' tail')
    {around : Option Bracket} {marked : Bool} {u u' : Units} (haround : ∀ b ∈ around, b = .curly)
    (h : Units.Nested around marked (Units.prepend c.body u)) (hu' : ∀ m, Units.Nested around m u') :
    Units.Nested around marked (Units.prepend (c.revalue gap' value tail').body u') := by
  obtain ⟨hgap, htail⟩ := List.forall_mem_append.mp hregaps.gaps
  rw [body, Units.prepend_append] at h ⊢
  obtain ⟨m, hcolon, hback⟩ := h.behind
  refine hback _ (fun h => by cases h) ?_
  cases hcolon with
  | leaf ho hcloses _ =>
    have hbehind : Units.Nested around false (Units.prepend value (Units.prepend (tail'.map .leaf) u')) :=
      Units.nested_value hvalue.nested hopen hvalue.plain haround fun m =>
        Units.nested_gaps htail (hu' false) fun _ => hu' m
    refine .leaf ho hcloses ?_
    show Units.Nested around false (Units.prepend (gap'.map .leaf ++ (value ++ tail'.map .leaf)) u')
    rw [Units.prepend_append, Units.prepend_append]
    exact Units.nested_gaps hgap hbehind fun _ => hbehind

theorem any_isOpen_leaves (tokens : List Token) : (tokens.map Segment.leaf).any Segment.isOpen = false := by
  induction tokens with
  | nil => rfl
  | cons token tokens ih => exact ih

theorem Clause.isOpen_revalue (hopen : value.any Segment.isOpen = false)
    (h : (c.revalue gap' value tail').body.any Segment.isOpen = true) :
    c.body.any Segment.isOpen = true := by
  have hfront : (c.revalue gap' value tail').body.any Segment.isOpen = c.front.any Segment.isOpen := by
    simp only [body, revalue, List.any_append, List.any_cons, any_isOpen_leaves, hopen, Segment.isOpen,
      Bool.or_false]
  rw [hfront] at h
  simp only [body, List.any_append, h, Bool.true_or]

namespace Clause.Cells
variable (cells : c.Cells y cs)

theorem swapped (hregaps : Regaps c.gap (value.flatMap Segment.toTokens) c.tail gap' tail') (pos : Nat) :
    Swapped vc (value.flatMap Segment.toTokens) pos cs (c.body.flatMap Segment.toTokens)
      [c.valueSpan pos] (cells.revalue vc)
      ((c.revalue gap' value tail').body.flatMap Segment.toTokens) := by
  have hvalue : Swapped vc (value.flatMap Segment.toTokens)
      (pos + (chars cells.front).byteLength) _ _ _ _ _ :=
    .value cells.gap_stands.covers cells.value_stands.covers cells.tail_stands.covers hregaps
      (by simp) .nil
  have h := hvalue.behind cells.front_stands.covers
  simp only [List.append_nil] at h
  rw [← cells.eq] at h
  rw [c.toTokens_body, toTokens_body, cells.valueSpan_eq, chars_append, chars_append,
    Text.byteLength_append, Text.byteLength_append, ← Nat.add_assoc, ← Nat.add_assoc]
  exact h

/-- The clause among other cells, part by part. -/
theorem append_eq (x : List Cell) : x ++ (cs ++ y) =
    x ++ (cells.front ++ ⟨':', false⟩ :: (cells.gap ++ (cells.value ++ (cells.tail ++ y)))) := by
  conv_lhs => rw [cells.eq]
  simp

theorem revalue_append (x y' : List Cell) : x ++ (cells.revalue vc ++ y') =
    x ++ (cells.front ++ ⟨':', false⟩ :: (cells.gap ++ (vc ++ (cells.tail ++ y')))) := by
  simp [revalue]

/-- Nothing moves that stands in the clause before its value. -/
theorem moveTo_front (x x' : List Cell) {q : Nat} (hq : q ≤ (chars cells.front).byteLength) :
    moveTo vc [c.valueSpan (chars x).byteLength] x x' (q + (chars x).byteLength) =
      (q + (chars x').byteLength : Nat) := by
  have hlen := cells.front_stands.bodyLength_eq
  have hstop : q + (chars x).byteLength < (c.valueSpan (chars x).byteLength).stop := by
    simp only [valueSpan]
    omega
  simp only [moveTo, Edit.moved, List.map_cons, List.map_nil, Edit.growth, if_neg (Nat.not_le.mpr hstop)]
  omega

/-- The comments before a declaration stay with another value. -/
theorem moves_leadingComments (hc : c.Declares) {x x' y' : List Cell} (hx : Apart x (cs ++ y))
    (hx' : Apart x' (cells.revalue vc ++ y')) :
    (Forest.comments (leadingComments (.ofCells (x ++ (cs ++ y))) (chars x).byteLength c.body)).Moves P
      text (moveTo vc [c.valueSpan (chars x).byteLength] x x') (chars x).byteLength
      ((chars x).byteLength + (chars cs).byteLength)
      (Forest.comments (leadingComments (.ofCells (x' ++ (cells.revalue vc ++ y'))) (chars x').byteLength
        (c.revalue gap' value tail').body)) := by
  obtain ⟨first, before, hfirst, -⟩ := hc.first
  have hfront : ∀ (c₂ : Clause) (source : Source) (pos : Nat), c₂.front = c.front →
      leadingComments source pos c₂.body = leadingComments source pos c.front := by
    intro c₂ source pos hc₂
    have hparts := partsOf_shift pos 0 c.front
    rw [Nat.zero_add, hfirst] at hparts
    rw [body, hc₂, leadingComments_append (by rw [hparts]; simp)]
  have hcs := cells.append_eq []
  have hcs' : cells.revalue vc ++ y' = _ := cells.revalue_append [] y'
  rw [List.nil_append] at hcs hcs'
  rw [hcs] at hx
  rw [hcs'] at hx'
  have hlen : (chars cells.front).byteLength ≤ (chars cs).byteLength := by
    conv_rhs => rw [cells.eq, chars_append, Text.byteLength_append]
    exact Nat.le_add_right ..
  rw [cells.append_eq, cells.revalue_append, hfront c _ _ rfl, hfront (c.revalue gap' value tail') _ _ rfl]
  exact Css.moves_leadingComments cells.front_stands.bodyLength_eq hx (by simp) hx' (by simp) (by omega)
    fun q hq => cells.moveTo_front x x' hq

/-- The value of the clause with another value. -/
theorem slice_revalue (hvalue : Portable vc value)
    (hregaps : Regaps c.gap (value.flatMap Segment.toTokens) c.tail gap' tail') (x' y' : List Cell) :
    Text.slice ((c.revalue gap' value tail').valueSpan (chars x').byteLength)
      (chars (x' ++ (cells.revalue vc ++ y'))) = chars vc := by
  have hlen := hvalue.bodyLength_eq
  by_cases hnil : value = []
  · subst hnil
    rw [Text.byteLength_eq_zero.mp hlen.symm]
    exact Text.slice_empty _ _
  · rw [revalue_append]
    have hcells : chars (x' ++ (cells.front ++ ⟨':', false⟩ :: (cells.gap ++ (vc ++ (cells.tail ++ y'))))) =
        chars (x' ++ (cells.front ++ ⟨':', false⟩ :: cells.gap)) ++
          (chars vc ++ chars (cells.tail ++ y')) := by simp
    have hgap := hregaps.keep (toTokens_ne_nil hnil)
    have hone : (':' : Char).utf8Size = 1 := by decide
    have hstart : ((c.revalue gap' value tail').valueSpan (chars x').byteLength).start =
        (chars (x' ++ (cells.front ++ ⟨':', false⟩ :: cells.gap))).byteLength := by
      show (chars x').byteLength + bodyLength c.front + 1 + (Token.source gap').byteLength = _
      rw [hgap, ← cells.gap_stands.byteLength_eq, cells.front_stands.bodyLength_eq]
      simp only [chars_append, chars_cons, Text.byteLength_append, Text.byteLength_cons, hone]
      omega
    rw [hcells]
    apply Text.slice_eq hstart
    rw [Text.byteLength_append, ← hstart, ← hlen]
    rfl

include cells in
theorem bodyLength_eq : bodyLength c.body = (chars cs).byteLength := by
  conv_rhs => rw [cells.eq]
  rw [← byteLength_body, toTokens_body]
  simp only [Token.source_append, Token.source_cons, chars_append, chars_cons, Text.byteLength_append,
    Text.byteLength_cons, cells.front_stands.byteLength_eq, cells.gap_stands.byteLength_eq,
    cells.value_stands.byteLength_eq, cells.tail_stands.byteLength_eq]
  rfl

include cells in
/-- The declaration with another value begins where it began, and ends behind the new value or with
the same semicolon. -/
theorem moves_item (hc : c.Declares) (hvalue : Portable vc value)
    (hregaps : Regaps c.gap (value.flatMap Segment.toTokens) c.tail gap' tail') {k k' : Kind}
    (hkind : k.Becomes P text k') (hP : ¬ ∀ d, k = .declaration d → ¬ P d.valueSpan) {x x' : List Cell}
    {first first' : Part} {others others' : List Part}
    (hparts : partsOf (chars x).byteLength c.body = first :: others)
    (hparts' : partsOf (chars x').byteLength (c.revalue gap' value tail').body = first' :: others') :
    Item.Moves P text (moveTo vc [c.valueSpan (chars x).byteLength] x x') (chars x).byteLength
      ((chars x).byteLength + (chars cs).byteLength + ending.getD 0)
      ⟨k, ⟨first.span.start, (cutAt x c.body ending).getD (Statement.stop first others)⟩⟩
      ⟨k', ⟨first'.span.start, (cutAt x' (c.revalue gap' value tail').body ending).getD
        (Statement.stop first' others')⟩⟩ := by
  obtain ⟨p, before, hp, rfl, hstop⟩ := hc.exists_first hparts
  obtain ⟨p', before', hp', rfl, hstop'⟩ := (hc.revalue hvalue hregaps).exists_first hparts'
  obtain ⟨rfl, rfl⟩ := List.cons.inj (hp.symm.trans hp')
  have hplaced := (placed_parts cells.front_stands.covers cells.front_stands.proper).ordered
  rw [hp] at hplaced
  have hfirst : p.span.start < (chars cells.front).byteLength :=
    Nat.lt_of_lt_of_le hplaced.2.1 hplaced.2.2.1
  have hfront := cells.front_stands.bodyLength_eq
  have hbody := c.bodyLength_body
  have hnew := c.bodyLength_revalue hregaps
  have hend := c.stop_revalue hregaps (chars x').byteLength
  have hlen := cells.bodyLength_eq
  have hspan : (c.valueSpan (chars x).byteLength).stop =
      (c.valueSpan (chars x).byteLength).start + bodyLength c.value := rfl
  have hstart : (c.valueSpan (chars x).byteLength).start =
      (chars x).byteLength + bodyLength c.front + 1 + (Token.source c.gap).byteLength := rfl
  have hmove : ∀ q, (c.valueSpan (chars x).byteLength).stop ≤ q →
      moveTo vc [c.valueSpan (chars x).byteLength] x x' q = q + bodyLength value - bodyLength c.value +
        ((chars x').byteLength - (chars x).byteLength) := by
    intro q hq
    rw [hvalue.bodyLength_eq]
    simp only [moveTo, Edit.moved, List.map_cons, List.map_nil, Edit.growth] at hq ⊢
    omega
  refine ⟨hkind, (cells.moveTo_front x x' (Nat.le_of_lt hfirst)).symm, ?_, fun hno => absurd hno hP,
    Nat.le_add_left .., ?_, ?_⟩
  · cases ending with
    | none =>
      simp only [Option.map_none, Option.getD_none, hstop, hstop']
      rw [hmove _ (Nat.le_refl _)]
      omega
    | some n =>
      simp only [Option.map_some, Option.getD_some]
      rw [hmove _ (by omega)]
      omega
  all_goals
    cases ending <;> simp only [Option.map_none, Option.map_some, Option.getD_none, Option.getD_some,
      hstop, Part.shift_start] <;> omega

/-- **The declaration with another value.** -/
theorem concludes (hc : c.Declares) (hvalue : Portable vc value)
    (hregaps : Regaps c.gap (value.flatMap Segment.toTokens) c.tail gap' tail') {d : Declaration}
    (hname : d.name = nameOf c.front (chars cells.front)) (hne : d.name ≠ [])
    (hspan : d.valueSpan = c.valueSpan (chars x).byteLength) (hP : P d.valueSpan) {first : Part}
    {others : List Part} (hparts : partsOf (chars x).byteLength c.body = first :: others)
    (x' y' : List Cell) :
    ∃ own', Statement.Concludes (chars (x' ++ (cells.revalue vc ++ y')))
        (cutAt x' (c.revalue gap' value tail').body ending)
        (partsOf (chars x').byteLength (c.revalue gap' value tail').body) own' ∧
      Forest.Moves P (chars vc) (moveTo vc [d.valueSpan] x x') (chars x).byteLength
        ((chars x).byteLength + (chars cs).byteLength + ending.getD 0)
        (.cons ⟨.declaration d, ⟨first.span.start,
          (cutAt x c.body ending).getD (Statement.stop first others)⟩⟩ .nil .nil) own' := by
  have hc' := hc.revalue hvalue hregaps
  have hslice := cells.slice_revalue hvalue hregaps x' y'
  refine ⟨_, Statement.concludes_iff.mpr rfl, ?_⟩
  cases hparts' : partsOf (chars x').byteLength (c.revalue gap' value tail').body with
  | nil =>
    rw [partsOf_body hc'] at hparts'
    simp at hparts'
  | cons first' others' =>
    have htext : chars (x' ++ (cells.revalue vc ++ y')) = chars x' ++ (chars cells.front ++
        chars (⟨':', false⟩ :: (cells.gap ++ (vc ++ (cells.tail ++ y'))))) := by
      rw [revalue_append]
      simp
    have hkind := hc'.kind_eq cells.front_stands.covers cells.front_stands.proper
      (y := chars (⟨':', false⟩ :: (cells.gap ++ (vc ++ (cells.tail ++ y'))))) hparts'
    rw [← htext, hslice, if_neg (hname ▸ hne)] at hkind
    refine .cons ?_ .nil .nil
    show Item.Moves P _ _ _ _ ⟨.declaration d, ⟨_, _⟩⟩ ⟨Statement.kind _ first' others', ⟨_, _⟩⟩
    rw [hkind]
    rw [hspan]
    refine cells.moves_item hc hvalue hregaps ?_ (fun hno => hno d rfl hP) hparts hparts'
    exact .changed hP hname.symm rfl

end Clause.Cells

/-- A piece whose value is replaced. -/
theorem replaced_value (hc : c.Declares) (cells : c.Cells y cs)
    (hregaps : Regaps c.gap (value.flatMap Segment.toTokens) c.tail gap' tail')
    (hvalue : Portable vc value) (hopen : value.any Segment.isOpen = false) (hx : Apart x (cs ++ y))
    {d : Declaration} (hname : d.name = Clause.nameOf c.front (chars cells.front))
    (hne : d.name ≠ []) (hspan : d.valueSpan = c.valueSpan (chars x).byteLength) (hP : P d.valueSpan)
    {first : Part} {others : List Part} (hparts : partsOf (chars x).byteLength c.body = first :: others) :
    Replaced P vc value x cs y c.body ending
      (.cons ⟨.declaration d, ⟨first.span.start,
        (cutAt x c.body ending).getD (Statement.stop first others)⟩⟩ .nil .nil)
      [d.valueSpan] (cells.revalue vc) (c.revalue gap' value tail').body where
  plain := (hc.revalue hvalue hregaps).plain
  swapped := hspan ▸ cells.swapped hregaps _
  listed := by simpa using hP
  complete := by
    refine ⟨?_, trivial, trivial⟩
    intro d' hd' _
    cases hd'
    exact List.mem_cons_self ..
  nested haround h _ hu' := Clause.nested_revalue hvalue hopen hregaps haround h hu'
  isOpen h := Clause.isOpen_revalue hopen h
  comments x' y' hx' _ := hspan ▸ cells.moves_leadingComments hc hx hx'
  concludes x' y' := cells.concludes hc hvalue hregaps hname hne hspan hP hparts x' y'

end Revalue

/-- **A piece is read as before or with the new value.** -/
theorem exists_replaced (hvalue : Portable vc value) (hopen : value.any Segment.isOpen = false)
    (hplain : ∀ s ∈ body, s.Plain) (hstands : Stands cs y (body.flatMap Segment.toTokens)) {u : Units}
    {around : Option Bracket} {marked : Bool}
    (hnested : Units.Nested around marked (Units.prepend body u)) (hx : Apart x (cs ++ y))
    (hy : ∀ c ∈ y.head?, c.hidden = false)
    (hown : Statement.Concludes (chars (x ++ (cs ++ y))) (cutAt x body ending)
      (partsOf (chars x).byteLength body) own) :
    ∃ spans cs' body', Replaced P vc value x cs y body ending own spans cs' body' := by
  by_cases hno : own.All fun item => ∀ d, item.kind = .declaration d → ¬ P d.valueSpan
  · exact ⟨[], cs, body, replaced_same hplain hstands hx hy hown hno⟩
  · generalize hparts : partsOf (chars x).byteLength body = parts at hown
    cases hown with
    | nothing => exact absurd trivial hno
    | @node first others kind hmeans =>
      obtain ⟨d, rfl, hP⟩ : ∃ d, kind = .declaration d ∧ P d.valueSpan := by
        by_contra h
        exact hno ⟨fun d hd hP => h ⟨d, hd, hP⟩, trivial, trivial⟩
      obtain ⟨c, cells, hc, rfl, hown, hname, hne, hspan⟩ :=
        exists_clause_of_means hplain hstands hnested hparts hmeans
      obtain ⟨gap', tail', hregaps⟩ := cells.exists_regaps hc hown hvalue
      exact ⟨_, _, _, replaced_value hc cells hregaps hvalue hopen hx hname hne hspan hP hparts⟩

theorem Replaced.bodyLength_eq {own : Forest} {spans : List Span} {cs' : List Cell}
    {body' : List Segment} (h : Replaced P vc value x cs y body ending own spans cs' body')
    (hvalue : Portable vc value) : bodyLength body' = (chars cs').byteLength := by
  rw [← byteLength_body, ← h.swapped.blanked_eq hvalue.covers.blanked_eq, byteLength_blanked]

end VendorSync.Css
