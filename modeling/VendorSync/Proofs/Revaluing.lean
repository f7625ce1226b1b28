import VendorSync.Proofs.Replacing

/-! The levels of a text in which values are replaced.

A level is read as the same nodes as before but for their values, from its pieces and the blocks
between them (`Reads.revaluable`). -/
namespace VendorSync.Css
open LineComment Token

variable {P : Span → Prop} {vc x cs y : List Cell} {value body : List Segment} {ending : Option Nat}
  {own : Forest}

/-! ### Levels with other values -/

/-- What a level becomes: the same as `Replaced` for a piece, with all that is below. -/
structure Revalued (P : Span → Prop) (vc : List Cell) (value : List Segment) (around : Option Bracket)
    (marked : Bool) (x cs : List Cell) (u : Units) (f : Forest) (spans : List Span) (cs' : List Cell)
    (u' : Units) : Prop where
  swapped : Swapped vc (value.flatMap Segment.toTokens) (chars x).byteLength cs u.toTokens spans cs'
    u'.toTokens
  listed : ∀ s ∈ spans, P s
  complete : f.All fun item => ∀ d, item.kind = .declaration d → P d.valueSpan → d.valueSpan ∈ spans
  nested : Units.Nested around marked u'
  isOpen : u'.isOpen = true → u.isOpen = true
  reads : ∀ x' y', Apart x' (cs' ++ y') → (∀ c ∈ y'.head?, c.hidden = false) →
    ∃ f', Reads (.ofCells (x' ++ (cs' ++ y'))) (chars x').byteLength u' f' ∧
      f.Moves P (chars vc) (moveTo vc spans x x') (chars x).byteLength
        ((chars x).byteLength + (chars cs).byteLength) f'

theorem all_comments_listed {spans : List Span} (source : Source) (pos : Nat) (body : List Segment) :
    (Forest.comments (leadingComments source pos body)).All fun item =>
      ∀ d, item.kind = .declaration d → P d.valueSpan → d.valueSpan ∈ spans :=
  Forest.all_comments fun _ _ d hd => by cases hd

/-- The last piece of a level. -/
theorem revalued_finish {around : Option Bracket} {marked : Bool}
    (haround : ∀ b ∈ around, b = .curly)
    (hnested : Units.Nested around marked (Units.prepend body .nil)) {spans : List Span}
    {cs' : List Cell} {body' : List Segment}
    (hpiece : Replaced P vc value x cs y body none own spans cs' body') :
    Revalued P vc value around marked x cs (.prepend body .nil)
      ((Forest.comments (leadingComments (.ofCells (x ++ (cs ++ y))) (chars x).byteLength body)).append own)
      spans cs' (.prepend body' .nil) where
  swapped := by
    rw [Units.toTokens_prepend, Units.toTokens_prepend]
    simpa [Units.toTokens] using hpiece.swapped
  listed := hpiece.listed
  complete := (all_comments_listed _ _ _).append hpiece.complete
  nested := hpiece.nested haround hnested (fun h => h) fun _ => .nil
  isOpen h := by
    rw [Units.isOpen_prepend, Units.isOpen, Bool.or_false] at h ⊢
    exact hpiece.isOpen h
  reads x' y' hx' hy' := by
    obtain ⟨own', hown', hmoves⟩ := hpiece.concludes x' y'
    exact ⟨_, .finish hpiece.plain hown', (hpiece.comments x' y' hx' hy').append hmoves⟩

/-- Where a piece that is cut and what stands behind it come to stand. -/
theorem moveTo_cut {new a a' b b' : List Token} {spans spans₂ : List Span} {ch : Char}
    {cs' r r' : List Cell} (hpiece : Swapped vc new (chars x).byteLength cs a spans cs' a')
    (hrest : Swapped vc new (chars (x ++ (cs ++ [⟨ch, false⟩]))).byteLength r b spans₂ r' b')
    (x' : List Cell) (q : Nat) :
    (q ≤ (chars (x ++ (cs ++ [⟨ch, false⟩]))).byteLength →
      moveTo vc (spans ++ spans₂) x x' q = moveTo vc spans x x' q) ∧
    ((chars (x ++ (cs ++ [⟨ch, false⟩]))).byteLength ≤ q →
      moveTo vc (spans ++ spans₂) x x' q =
        moveTo vc spans₂ (x ++ (cs ++ [⟨ch, false⟩])) (x' ++ (cs' ++ [⟨ch, false⟩])) q) := by
  refine ⟨fun hq => moveTo_left (hrest.growth_eq_zero hq), fun hq => moveTo_right ?_⟩
  simp only [chars_append, Text.byteLength_append] at hq ⊢
  rw [hpiece.growth_eq (by omega)]
  omega

/-- A piece that is cut with its comments, and what is behind it, in their new places. -/
theorem moves_cut {new a a' b b' : List Token} {spans spans₂ : List Span} {ch : Char}
    {x' cs' r r' : List Cell} {comments comments' own' after after' : Forest} {n : Nat}
    (hn : n ≤ Text.byteLength [ch])
    (hpiece : Swapped vc new (chars x).byteLength cs a spans cs' a')
    (hrest : Swapped vc new (chars (x ++ (cs ++ [⟨ch, false⟩]))).byteLength r b spans₂ r' b')
    (hcomments : comments.Moves P (chars vc) (moveTo vc spans x x') (chars x).byteLength
      ((chars x).byteLength + (chars cs).byteLength) comments')
    (hown : own.Moves P (chars vc) (moveTo vc spans x x') (chars x).byteLength
      ((chars x).byteLength + (chars cs).byteLength + n) own')
    (hafter : after.Moves P (chars vc)
      (moveTo vc spans₂ (x ++ (cs ++ [⟨ch, false⟩])) (x' ++ (cs' ++ [⟨ch, false⟩])))
      (chars (x ++ (cs ++ [⟨ch, false⟩]))).byteLength
      ((chars (x ++ (cs ++ [⟨ch, false⟩]))).byteLength + (chars r).byteLength) after') :
    (comments.append (own.append after)).Moves P (chars vc) (moveTo vc (spans ++ spans₂) x x')
      (chars x).byteLength ((chars x).byteLength + (chars (cs ++ ⟨ch, false⟩ :: r)).byteLength)
      (comments'.append (own'.append after')) := by
  have hmove := moveTo_cut hpiece hrest x'
  have hcut : (chars (x ++ (cs ++ [⟨ch, false⟩]))).byteLength =
      (chars x).byteLength + (chars cs).byteLength + Text.byteLength [ch] := by
    simp [Nat.add_assoc]
  have hall : (chars (cs ++ ⟨ch, false⟩ :: r)).byteLength =
      (chars cs).byteLength + Text.byteLength [ch] + (chars r).byteLength := by
    simp [Nat.add_assoc]
  refine (hcomments.mono (Nat.le_refl _) (by omega) fun q _ hq => ?_).append
    ((hown.mono (Nat.le_refl _) (by omega) fun q _ hq => ?_).append
      (hafter.mono (by omega) (by omega) fun q hq _ => ?_))
  · exact (hmove q).1 (by omega)
  · exact (hmove q).1 (by omega)
  · exact (hmove q).2 hq

/-- A piece that is cut, and what stands behind it. -/
theorem revalued_cut (hvalue : Portable vc value) {around : Option Bracket} {marked : Bool}
    (haround : ∀ b ∈ around, b = .curly) {token : Token} {rest : Units} {ch : Char} {r : List Cell}
    (hcut : token.kind = .semicolon ∧ ending = some token.byteLength ∨
      token.kind = .closer .curly ∧ ending = none) (hlexeme : token.lexeme = [ch])
    (hnested : Units.Nested around marked (Units.prepend body (.leaf token rest))) {after : Forest}
    {spans spans₂ : List Span} {cs' r' : List Cell} {body' : List Segment} {rest' : Units}
    (hpiece : Replaced P vc value x cs (⟨ch, false⟩ :: (r ++ y)) body ending own spans cs' body')
    (hrest : Revalued P vc value around token.marksInterpolation (x ++ (cs ++ [⟨ch, false⟩])) r rest
      after spans₂ r' rest') :
    Revalued P vc value around marked x (cs ++ ⟨ch, false⟩ :: r) (.prepend body (.leaf token rest))
      ((Forest.comments (leadingComments (.ofCells (x ++ (cs ++ ⟨ch, false⟩ :: (r ++ y))))
        (chars x).byteLength body)).append (own.append after))
      (spans ++ spans₂) (cs' ++ ⟨ch, false⟩ :: r') (.prepend body' (.leaf token rest')) where
  swapped := by
    have htoken : Swapped vc (value.flatMap Segment.toTokens)
        ((chars x).byteLength + (chars cs).byteLength) ([⟨ch, false⟩] ++ r) (token :: rest.toTokens)
        spans₂ ([⟨ch, false⟩] ++ r') (token :: rest'.toTokens) :=
      .token (by rw [hlexeme]; rfl) (by simpa [Nat.add_assoc] using hrest.swapped)
    rw [Units.toTokens_prepend, Units.toTokens_prepend]
    apply hpiece.swapped.append htoken
    intro _ heq
    cases heq
    rcases hcut with ⟨h, -⟩ | ⟨h, -⟩ <;> simp [h]
  listed := List.forall_mem_append.mpr ⟨hpiece.listed, hrest.listed⟩
  complete := by
    refine (all_comments_listed _ _ _).append (Forest.All.append ?_ ?_)
    · exact hpiece.complete.imp fun _ h d hd hP => List.mem_append_left _ (h d hd hP)
    · exact hrest.complete.imp fun _ h d hd hP => List.mem_append_right _ (h d hd hP)
  nested := by
    obtain ⟨m, hleaf, -⟩ := hnested.behind
    cases hleaf with
    | leaf ho hcloses _ =>
      exact hpiece.nested haround hnested (fun h => by cases h) fun _ => .leaf ho hcloses hrest.nested
  isOpen h := by
    rw [Units.isOpen_prepend, Units.isOpen, Bool.or_eq_true] at h ⊢
    exact h.imp hpiece.isOpen hrest.isOpen
  reads x' y' hx' hy' := by
    have hcells : x' ++ (cs' ++ ⟨ch, false⟩ :: r' ++ y') = x' ++ (cs' ++ ⟨ch, false⟩ :: (r' ++ y')) := by
      simp
    have hassoc : x' ++ (cs' ++ ⟨ch, false⟩ :: (r' ++ y')) =
        x' ++ (cs' ++ [⟨ch, false⟩]) ++ (r' ++ y') := by simp
    obtain ⟨after', hafter', hmoves⟩ := hrest.reads (x' ++ (cs' ++ [⟨ch, false⟩])) y'
      (.inl (by simp)) hy'
    obtain ⟨own', hown', hmoves_own⟩ := hpiece.concludes x' (⟨ch, false⟩ :: (r' ++ y'))
    have hmoves_comments := hpiece.comments x' (⟨ch, false⟩ :: (r' ++ y')) (by simpa using hx') (by simp)
    have hpos : (chars (x' ++ (cs' ++ [⟨ch, false⟩]))).byteLength =
        (chars x').byteLength + bodyLength body' + token.byteLength := by
      rw [hpiece.bodyLength_eq hvalue, Token.byteLength, hlexeme]
      simp [Nat.add_assoc]
    rw [← hassoc, hpos] at hafter'
    have hending : ending.getD 0 ≤ token.byteLength := by
      rcases hcut with ⟨-, rfl⟩ | ⟨-, rfl⟩ <;> simp
    rw [Token.byteLength, hlexeme] at hending
    have hmoves_all := moves_cut hending hpiece.swapped hrest.swapped hmoves_comments hmoves_own
      hmoves
    rw [hcells]
    rcases hcut with ⟨hkind, rfl⟩ | ⟨hkind, rfl⟩
    · exact ⟨_, .semicolon hpiece.plain hkind hown' hafter', hmoves_all⟩
    · exact ⟨_, .strayBrace hpiece.plain hkind hown' hafter', hmoves_all⟩

/-- No line comment goes on behind a block. -/
theorem apart_closer {e r z : List Cell} (h : e = [⟨'}', false⟩] ∨ e = [] ∧ r = [])
    (hz : ∀ c ∈ z.head?, c.hidden = false) :
    (∀ c ∈ (e ++ (r ++ z)).head?, c.hidden = false) ∧ ∀ w, Apart (w ++ e) (r ++ z) := by
  rcases h with rfl | ⟨rfl, rfl⟩
  · exact ⟨by simp, fun w => .inl (by simp)⟩
  · exact ⟨hz, fun w => .inr hz⟩

section Block
variable {around : Option Bracket} {marked : Bool} {opener : Token} {closer : Option Token}
  {inside rest inside' rest' : Units} {i e r i' r' : List Cell} {children after : Forest}
  {spans spans₂ : List Span}

/-- The values in a block and behind it are replaced. -/
theorem Swapped.block (hbody : Covers cs (body.flatMap Segment.toTokens))
    (he : Covers e closer.toList) (hlexeme : opener.lexeme = ['{'])
    (hclose : (∃ token, closer = some token ∧ token.kind = .closer .curly) ∨
      closer = none ∧ rest = .nil) {pos : Nat}
    (hinside : Swapped vc (value.flatMap Segment.toTokens) (pos + (chars (cs ++ [⟨'{', false⟩])).byteLength)
      i inside.toTokens spans i' inside'.toTokens)
    (hrest : Swapped vc (value.flatMap Segment.toTokens)
      (pos + (chars (cs ++ ⟨'{', false⟩ :: (i ++ e))).byteLength) r rest.toTokens spans₂ r' rest'.toTokens) :
    Swapped vc (value.flatMap Segment.toTokens) pos (cs ++ ⟨'{', false⟩ :: (i ++ (e ++ r)))
      (Units.prepend body (.block opener inside closer rest)).toTokens (spans ++ spans₂)
      (cs ++ ⟨'{', false⟩ :: (i' ++ (e ++ r')))
      (Units.prepend body (.block opener inside' closer rest')).toTokens := by
  have hbehind : Swapped vc (value.flatMap Segment.toTokens) (pos +
      (chars cs).byteLength + (chars [⟨'{', false⟩]).byteLength + (chars i).byteLength) (e ++ r)
      (closer.toList ++ rest.toTokens) spans₂ (e ++ r') (closer.toList ++ rest'.toTokens) :=
    .behind he (by simpa [Nat.add_assoc] using hrest)
  have hall : Swapped vc (value.flatMap Segment.toTokens) (pos +
      (chars cs).byteLength + (chars [⟨'{', false⟩]).byteLength) (i ++ (e ++ r))
      (inside.toTokens ++ (closer.toList ++ rest.toTokens)) (spans ++ spans₂) (i' ++ (e ++ r'))
      (inside'.toTokens ++ (closer.toList ++ rest'.toTokens)) := by
    apply Swapped.append (by simpa [Nat.add_assoc] using hinside) hbehind
    intro token htoken
    rcases hclose with ⟨token', rfl, hkind⟩ | ⟨rfl, rfl⟩
    · obtain rfl : token' = token := by simpa using htoken
      simp [hkind]
    · cases htoken
  have hopener : Swapped vc (value.flatMap Segment.toTokens) (pos +
      (chars cs).byteLength) ([⟨'{', false⟩] ++ (i ++ (e ++ r)))
      (opener :: (inside.toTokens ++ (closer.toList ++ rest.toTokens))) (spans ++ spans₂)
      ([⟨'{', false⟩] ++ (i' ++ (e ++ r')))
      (opener :: (inside'.toTokens ++ (closer.toList ++ rest'.toTokens))) :=
    .token (by rw [hlexeme]; rfl) hall
  rw [Units.toTokens_prepend, Units.toTokens_prepend]
  exact .behind hbody hopener

/-- Nothing comes of nothing. -/
theorem Revalued.eq_nil (h : Revalued P vc value around marked x cs .nil own spans i' inside') :
    i' = [] ∧ inside' = .nil := by
  obtain ⟨hi', htokens⟩ := h.swapped.eq_nil
  refine ⟨hi', ?_⟩
  cases inside' with
  | nil => rfl
  | _ => cases htokens

/-- Where a header, a block and what is behind it come to stand. -/
theorem moveTo_block {new a a' b b' : List Token}
    (hinside : Swapped vc new (chars (x ++ (cs ++ [⟨'{', false⟩]))).byteLength i a spans i' a')
    (hrest : Swapped vc new (chars (x ++ (cs ++ ⟨'{', false⟩ :: (i ++ e)))).byteLength r b spans₂ r' b')
    (x' : List Cell) (q : Nat) :
    (q ≤ (chars (x ++ (cs ++ [⟨'{', false⟩]))).byteLength →
      moveTo vc (spans ++ spans₂) x x' q = q + ((chars x').byteLength - (chars x).byteLength)) ∧
    (q ≤ (chars (x ++ (cs ++ ⟨'{', false⟩ :: (i ++ e)))).byteLength →
      moveTo vc (spans ++ spans₂) x x' q =
        moveTo vc spans (x ++ (cs ++ [⟨'{', false⟩])) (x' ++ (cs ++ [⟨'{', false⟩])) q) ∧
    ((chars (x ++ (cs ++ ⟨'{', false⟩ :: i))).byteLength ≤ q →
      moveTo vc (spans ++ spans₂) x x' q = moveTo vc spans₂ (x ++ (cs ++ ⟨'{', false⟩ :: (i ++ e)))
        (x' ++ (cs ++ ⟨'{', false⟩ :: (i' ++ e))) q) := by
  have hinner : q ≤ (chars (x ++ (cs ++ ⟨'{', false⟩ :: (i ++ e)))).byteLength →
      moveTo vc (spans ++ spans₂) x x' q =
        moveTo vc spans (x ++ (cs ++ [⟨'{', false⟩])) (x' ++ (cs ++ [⟨'{', false⟩])) q := by
    intro hq
    rw [moveTo_left (hrest.growth_eq_zero hq), moveTo, moveTo]
    simp only [chars_append, Text.byteLength_append]
    omega
  refine ⟨fun hq => ?_, hinner, fun hq => moveTo_right ?_⟩
  · rw [hinner (Nat.le_trans hq (by simp)), moveTo, Edit.moved, hinside.growth_eq_zero hq]
    simp only [chars_append, Text.byteLength_append]
    omega
  · rw [hinside.growth_eq (by simpa [Nat.add_assoc] using hq)]
    simp only [chars_append, chars_cons, Text.byteLength_append, Text.byteLength_cons]
    omega

/-- A block with its comments, its children and what is behind it in their new places. -/
theorem moves_block {kind kind' : Kind} {children' after' : Forest} {x' y' : List Cell}
    {new a a' b b' : List Token} (hkind : kind.Becomes P (chars vc) kind')
    (hstands : Stands cs (⟨'{', false⟩ :: (i ++ (e ++ (r ++ y)))) (body.flatMap Segment.toTokens))
    (hx : Apart x (cs ++ ⟨'{', false⟩ :: (i ++ (e ++ (r ++ y)))))
    (hx' : Apart x' (cs ++ ⟨'{', false⟩ :: (i' ++ (e ++ (r' ++ y')))))
    (hinside : Swapped vc new (chars (x ++ (cs ++ [⟨'{', false⟩]))).byteLength i a spans i' a')
    (hrest : Swapped vc new (chars (x ++ (cs ++ ⟨'{', false⟩ :: (i ++ e)))).byteLength r b spans₂ r' b')
    (hchildren : children.Moves P (chars vc)
      (moveTo vc spans (x ++ (cs ++ [⟨'{', false⟩])) (x' ++ (cs ++ [⟨'{', false⟩])))
      (chars (x ++ (cs ++ [⟨'{', false⟩]))).byteLength
      ((chars (x ++ (cs ++ [⟨'{', false⟩]))).byteLength + (chars i).byteLength) children')
    (hafter : after.Moves P (chars vc) (moveTo vc spans₂ (x ++ (cs ++ ⟨'{', false⟩ :: (i ++ e)))
        (x' ++ (cs ++ ⟨'{', false⟩ :: (i' ++ e))))
      (chars (x ++ (cs ++ ⟨'{', false⟩ :: (i ++ e)))).byteLength
      ((chars (x ++ (cs ++ ⟨'{', false⟩ :: (i ++ e)))).byteLength + (chars r).byteLength) after') :
    ((Forest.comments (leadingComments (.ofCells (x ++ (cs ++ ⟨'{', false⟩ :: (i ++ (e ++ (r ++ y))))))
      (chars x).byteLength body)).append
      (.cons ⟨kind, ⟨(Statement.headerSpan (partsOf (chars x).byteLength body)
        ((chars x).byteLength + bodyLength body)).start,
          (chars (x ++ (cs ++ ⟨'{', false⟩ :: (i ++ e)))).byteLength⟩⟩ children after)).Moves P (chars vc)
      (moveTo vc (spans ++ spans₂) x x') (chars x).byteLength
      ((chars x).byteLength + (chars (cs ++ ⟨'{', false⟩ :: (i ++ (e ++ r)))).byteLength)
      ((Forest.comments (leadingComments
        (.ofCells (x' ++ (cs ++ ⟨'{', false⟩ :: (i' ++ (e ++ (r' ++ y')))))) (chars x').byteLength body)).append
        (.cons ⟨kind', ⟨(Statement.headerSpan (partsOf (chars x').byteLength body)
          ((chars x').byteLength + bodyLength body)).start,
            (chars (x' ++ (cs ++ ⟨'{', false⟩ :: (i' ++ e)))).byteLength⟩⟩ children' after')) := by
  have hmove := moveTo_block hinside hrest x'
  have hheader := (placed_parts hstands.covers hstands.proper).ordered
  rw [← hstands.bodyLength_eq] at hheader
  obtain ⟨-, hstart⟩ := Statement.headerSpan_start_bounds (Nat.zero_le _) hheader
  rw [headerSpan_partsOf, headerSpan_partsOf]
  generalize Statement.headerSpan (partsOf 0 body) (bodyLength body) = header at hstart
  rw [hstands.bodyLength_eq] at hstart
  have hinner : (chars (x ++ (cs ++ [⟨'{', false⟩]))).byteLength + (chars i).byteLength +
      (chars e).byteLength = (chars (x ++ (cs ++ ⟨'{', false⟩ :: (i ++ e)))).byteLength := by
    simp [Nat.add_assoc]
  have houter : (chars (x ++ (cs ++ ⟨'{', false⟩ :: (i ++ e)))).byteLength + (chars r).byteLength =
      (chars x).byteLength + (chars (cs ++ ⟨'{', false⟩ :: (i ++ (e ++ r)))).byteLength := by
    simp [Nat.add_assoc]
  have hbefore : (chars x).byteLength + (chars cs).byteLength ≤
      (chars (x ++ (cs ++ [⟨'{', false⟩]))).byteLength := by
    simp
  have hbehind : (chars (x ++ (cs ++ ⟨'{', false⟩ :: i))).byteLength ≤
      (chars (x ++ (cs ++ ⟨'{', false⟩ :: (i ++ e)))).byteLength := by
    simp only [chars_append, chars_cons, Text.byteLength_append, Text.byteLength_cons]
    omega
  refine (moves_leadingComments hstands.bodyLength_eq hx (by simp) hx' (by simp) (by omega)
    fun q hq => ?_).append (.cons ?_ (hchildren.mono (by omega) (by omega) fun q _ hq => ?_)
      (hafter.mono (by omega) (by omega) fun q hq _ => ?_))
  · rw [(hmove _).1 (by omega)]
    omega
  · have hfirst := (hmove (header.start + (chars x).byteLength)).1 (by omega)
    have hstop : ((chars (x' ++ (cs ++ ⟨'{', false⟩ :: (i' ++ e)))).byteLength : Int) =
        moveTo vc (spans ++ spans₂) x x' (chars (x ++ (cs ++ ⟨'{', false⟩ :: (i ++ e)))).byteLength := by
      rw [(hmove _).2.2 hbehind, moveTo, Edit.moved, hrest.growth_eq_zero (Nat.le_refl _)]
      omega
    exact {
      becomes := hkind
      start := by
        refine Eq.trans ?_ hfirst.symm
        show ((header.start + (chars x').byteLength : Nat) : Int) = _
        omega
      stop_le := Int.le_of_eq hstop
      stop := fun _ => hstop
      lower := Nat.le_add_left ..
      order := by
        show header.start + (chars x).byteLength ≤
          (chars (x ++ (cs ++ ⟨'{', false⟩ :: (i ++ e)))).byteLength
        omega
      upper := by
        show (chars (x ++ (cs ++ ⟨'{', false⟩ :: (i ++ e)))).byteLength ≤ _
        omega }
  · exact (hmove q).2.1 (by omega)
  · exact (hmove q).2.2 (Nat.le_trans hbehind hq)

/-- The nodes of a block and behind it, with other values. -/
theorem Revalued.reads_block (hvalue : Portable vc value) {kind : Kind} (hplain : ∀ s ∈ body, s.Plain)
    (hstands : Stands cs (⟨'{', false⟩ :: (i ++ (e ++ (r ++ y)))) (body.flatMap Segment.toTokens))
    (he : Stands e (r ++ y) closer.toList) (hlexeme : opener.lexeme = ['{'])
    (hx : Apart x (cs ++ ⟨'{', false⟩ :: (i ++ (e ++ (r ++ y)))))
    (hhead : Statement.Heads (chars (x ++ (cs ++ ⟨'{', false⟩ :: (i ++ (e ++ (r ++ y))))))
      (Statement.headerSpan (partsOf (chars x).byteLength body) ((chars x).byteLength + bodyLength body))
      kind)
    (hclose : e = [⟨'}', false⟩] ∨ e = [] ∧ r' = [])
    (hinside : Revalued P vc value (some .curly) false (x ++ (cs ++ [⟨'{', false⟩])) i inside children
      spans i' inside')
    (hrest : Revalued P vc value around false (x ++ (cs ++ ⟨'{', false⟩ :: (i ++ e))) r rest after spans₂
      r' rest') {x' y' : List Cell}
    (hx' : Apart x' (cs ++ ⟨'{', false⟩ :: (i' ++ (e ++ (r' ++ y')))))
    (hy' : ∀ c ∈ y'.head?, c.hidden = false) :
    ∃ f', Reads (.ofCells (x' ++ (cs ++ ⟨'{', false⟩ :: (i' ++ (e ++ (r' ++ y')))))) (chars x').byteLength
        (.prepend body (.block opener inside' closer rest')) f' ∧
      ((Forest.comments (leadingComments
        (.ofCells (x ++ (cs ++ ⟨'{', false⟩ :: (i ++ (e ++ (r ++ y)))))) (chars x).byteLength body)).append
        (.cons ⟨kind, ⟨(Statement.headerSpan (partsOf (chars x).byteLength body)
          ((chars x).byteLength + bodyLength body)).start,
            (chars (x ++ (cs ++ ⟨'{', false⟩ :: (i ++ e)))).byteLength⟩⟩ children after)).Moves P (chars vc)
        (moveTo vc (spans ++ spans₂) x x') (chars x).byteLength
        ((chars x).byteLength + (chars (cs ++ ⟨'{', false⟩ :: (i ++ (e ++ r)))).byteLength) f' := by
  have hinner : x' ++ (cs ++ ⟨'{', false⟩ :: (i' ++ (e ++ (r' ++ y')))) =
      x' ++ (cs ++ [⟨'{', false⟩]) ++ (i' ++ (e ++ (r' ++ y'))) := by simp
  have houter : x' ++ (cs ++ ⟨'{', false⟩ :: (i' ++ (e ++ (r' ++ y')))) =
      x' ++ (cs ++ ⟨'{', false⟩ :: (i' ++ e)) ++ (r' ++ y') := by simp
  have hblock : x' ++ (cs ++ ⟨'{', false⟩ :: (i' ++ e)) = x' ++ (cs ++ ⟨'{', false⟩ :: i') ++ e := by
    simp
  obtain ⟨hvisible, happart⟩ := apart_closer hclose hy'
  obtain ⟨children', hchildren', hmoves⟩ := hinside.reads (x' ++ (cs ++ [⟨'{', false⟩]))
    (e ++ (r' ++ y')) (.inl (by simp)) hvisible
  obtain ⟨after', hafter', hmoves₂⟩ := hrest.reads (x' ++ (cs ++ ⟨'{', false⟩ :: (i' ++ e))) y'
    (hblock ▸ happart _) hy'
  obtain ⟨kind', hhead', hkind⟩ : ∃ kind', _ ∧ Kind.Becomes P (chars vc) kind kind' :=
    hhead.elsewhere hstands x' (⟨'{', false⟩ :: (i' ++ (e ++ (r' ++ y'))))
  have hpos : (chars (x' ++ (cs ++ [⟨'{', false⟩]))).byteLength =
      (chars x').byteLength + bodyLength body + opener.byteLength := by
    rw [hstands.bodyLength_eq, Token.byteLength, hlexeme]
    simp [Nat.add_assoc]
  have hpos₂ : (chars (x' ++ (cs ++ ⟨'{', false⟩ :: (i' ++ e)))).byteLength =
      (chars x').byteLength + bodyLength body +
        (Units.block opener inside' closer .nil).byteLength := by
    rw [hstands.bodyLength_eq, byteLength_block_cells hlexeme
      (hinside.swapped.blanked_eq hvalue.covers.blanked_eq) he.covers.blanked_eq]
    simp [Nat.add_assoc]
  have hmoves_all := moves_block hkind hstands hx hx' hinside.swapped hrest.swapped hmoves hmoves₂
  rw [← hinner, hpos] at hchildren'
  rw [← houter, hpos₂] at hafter'
  rw [hpos₂] at hmoves_all
  exact ⟨_, .block hplain hhead' hchildren' hafter', hmoves_all⟩

/-- A block with its header, and what stands behind it. -/
theorem revalued_block (hvalue : Portable vc value) {kind : Kind} (hplain : ∀ s ∈ body, s.Plain)
    (hstands : Stands cs (⟨'{', false⟩ :: (i ++ (e ++ (r ++ y)))) (body.flatMap Segment.toTokens))
    (he : Stands e (r ++ y) closer.toList) (hlexeme : opener.lexeme = ['{'])
    (hx : Apart x (cs ++ ⟨'{', false⟩ :: (i ++ (e ++ (r ++ y)))))
    (hhead : Statement.Heads (chars (x ++ (cs ++ ⟨'{', false⟩ :: (i ++ (e ++ (r ++ y))))))
      (Statement.headerSpan (partsOf (chars x).byteLength body) ((chars x).byteLength + bodyLength body))
      kind)
    (hnested : Units.Nested around marked (Units.prepend body (.block opener inside closer rest)))
    (hinside : Revalued P vc value (some .curly) false (x ++ (cs ++ [⟨'{', false⟩])) i inside children
      spans i' inside')
    (hrest : Revalued P vc value around false (x ++ (cs ++ ⟨'{', false⟩ :: (i ++ e))) r rest after spans₂
      r' rest') :
    Revalued P vc value around marked x (cs ++ ⟨'{', false⟩ :: (i ++ (e ++ r)))
      (.prepend body (.block opener inside closer rest))
      ((Forest.comments (leadingComments
        (.ofCells (x ++ (cs ++ ⟨'{', false⟩ :: (i ++ (e ++ (r ++ y)))))) (chars x).byteLength body)).append
        (.cons ⟨kind, ⟨(Statement.headerSpan (partsOf (chars x).byteLength body)
          ((chars x).byteLength + bodyLength body)).start,
            (chars (x ++ (cs ++ ⟨'{', false⟩ :: (i ++ e)))).byteLength⟩⟩ children after))
      (spans ++ spans₂) (cs ++ ⟨'{', false⟩ :: (i' ++ (e ++ r')))
      (.prepend body (.block opener inside' closer rest')) := by
  obtain ⟨m, hblock, hback⟩ := hnested.behind
  cases hblock with
  | block ho _ hends _ =>
    have hclose := closer_cases hends he
    have hnil : rest = .nil → r' = [] ∧ rest' = .nil := by
      intro heq
      subst heq
      exact hrest.eq_nil
    constructor
    case swapped =>
      refine .block hstands.covers he.covers hlexeme ?_ ?_ ?_
      · exact hclose.imp (fun ⟨_, h, _, hkind⟩ => ⟨_, h, hkind⟩) fun ⟨h, _, hrest⟩ => ⟨h, hrest⟩
      · simpa [Nat.add_assoc] using hinside.swapped
      · simpa [Nat.add_assoc] using hrest.swapped
    case listed => exact List.forall_mem_append.mpr ⟨hinside.listed, hrest.listed⟩
    case complete =>
      refine (all_comments_listed _ _ _).append ⟨fun d hd => absurd hd (hhead.ne_declaration d), ?_, ?_⟩
      · exact hinside.complete.imp fun _ h d hd hP => List.mem_append_left _ (h d hd hP)
      · exact hrest.complete.imp fun _ h d hd hP => List.mem_append_right _ (h d hd hP)
    case nested =>
      refine hback _ (fun h => by cases h) (.block ho hinside.nested ?_ hrest.nested)
      cases closer with
      | none => exact (hnil hends).2
      | some token =>
        refine ⟨hends.1, ?_⟩
        have := hinside.isOpen
        rw [hends.2] at this
        simpa using this
    case isOpen =>
      intro h
      rw [Units.isOpen_prepend, Units.isOpen, Bool.or_eq_true, Bool.or_eq_true] at h ⊢
      exact h.imp id fun h => h.imp id hrest.isOpen
    case reads =>
      intro x' y' hx' hy'
      have hcells : x' ++ (cs ++ ⟨'{', false⟩ :: (i' ++ (e ++ r')) ++ y') =
          x' ++ (cs ++ ⟨'{', false⟩ :: (i' ++ (e ++ (r' ++ y')))) := by simp
      rw [hcells]
      refine Revalued.reads_block hvalue hplain hstands he hlexeme hx hhead ?_ hinside hrest
        (by simpa using hx') hy'
      exact hclose.imp (fun ⟨_, _, he, _⟩ => he) fun ⟨_, he, hrest⟩ => ⟨he, (hnil hrest).1⟩

end Block

/-! ### A sheet with other values -/

/-- Whatever text the level is part of, some of its values can be replaced. -/
def Revaluable (P : Span → Prop) (vc : List Cell) (value : List Segment) (all : List Cell) (pos : Nat)
    (u : Units) (f : Forest) : Prop :=
  ∀ ⦃x cs y : List Cell⦄ ⦃around : Option Bracket⦄ ⦃marked : Bool⦄, all = x ++ (cs ++ y) →
    pos = (chars x).byteLength → Stands cs y u.toTokens → Units.Nested around marked u →
    (∀ b ∈ around, b = .curly) → Apart x (cs ++ y) → (∀ c ∈ y.head?, c.hidden = false) →
    ∃ spans cs' u', Revalued P vc value around marked x cs u f spans cs' u'

section Revaluable
variable {all : List Cell} {pos : Nat} (hvalue : Portable vc value)
  (hopen : value.any Segment.isOpen = false) (hbody : ∀ s ∈ body, s.Plain)
include hvalue hopen hbody

theorem revaluable_finish (hown : Statement.Concludes (chars all) none (partsOf pos body) own) :
    Revaluable P vc value all pos (.prepend body .nil)
      ((Forest.comments (leadingComments (.ofCells all) pos body)).append own) := by
  intro x cs y around marked hall hpos hstands hnested haround hx hy
  subst hpos hall
  obtain ⟨c, d, rfl, hc, hd⟩ := hstands.piece
  cases hd.covers
  rw [List.append_nil] at hx hown ⊢
  have hown : Statement.Concludes _ (cutAt x body none) _ _ := hown
  obtain ⟨spans, cs', body', hpiece⟩ := exists_replaced hvalue hopen hbody hc hnested hx hy hown
  exact ⟨spans, cs', _, revalued_finish haround hnested hpiece⟩

theorem revaluable_cut {token : Token} {rest : Units} {after : Forest}
    (hcut : token.kind = .semicolon ∧ ending = some token.byteLength ∨
      token.kind = .closer .curly ∧ ending = none)
    (hown : Statement.Concludes (chars all) (ending.map (pos + bodyLength body + ·)) (partsOf pos body) own)
    (hrest : Revaluable P vc value all (pos + bodyLength body + token.byteLength) rest after) :
    Revaluable P vc value all pos (.prepend body (.leaf token rest))
      ((Forest.comments (leadingComments (.ofCells all) pos body)).append (own.append after)) := by
  intro x cs y around marked hall hpos hstands hnested haround hx hy
  subst hpos hall
  obtain ⟨c, ch, r, rfl, hlexeme, hc, hr, hlen⟩ := hstands.cut (hcut.imp And.left And.left)
  obtain ⟨m, hleaf, -⟩ := hnested.behind
  cases hleaf with
  | leaf _ _ hnested_rest =>
    have hpos : (chars x).byteLength + bodyLength body + token.byteLength =
        (chars (x ++ (c ++ [⟨ch, false⟩]))).byteLength := by
      rw [Nat.add_assoc, hlen, chars_append x, Text.byteLength_append]
    obtain ⟨spans₂, r', rest', hrest⟩ := hrest (x := x ++ (c ++ [⟨ch, false⟩])) (by simp) hpos hr
      hnested_rest haround (.inl (by simp)) hy
    rw [List.append_assoc, List.cons_append] at hx hown ⊢
    obtain ⟨spans, cs', body', hpiece⟩ :=
      exists_replaced hvalue hopen hbody hc hnested hx (by simp) hown
    exact ⟨_, _, _, revalued_cut hvalue haround hcut hlexeme hnested hpiece hrest⟩

omit hopen in
theorem revaluable_block {kind : Kind} {opener : Token} {inside : Units} {closer : Option Token}
    {rest : Units} {children after : Forest}
    (hhead : Statement.Heads (chars all)
      (Statement.headerSpan (partsOf pos body) (pos + bodyLength body)) kind)
    (hinside : Revaluable P vc value all (pos + bodyLength body + opener.byteLength) inside children)
    (hrest : Revaluable P vc value all
      (pos + bodyLength body + (Units.block opener inside closer .nil).byteLength) rest after) :
    Revaluable P vc value all pos (.prepend body (.block opener inside closer rest))
      ((Forest.comments (leadingComments (.ofCells all) pos body)).append
        (.cons ⟨kind, ⟨(Statement.headerSpan (partsOf pos body) (pos + bodyLength body)).start,
          pos + bodyLength body + (Units.block opener inside closer .nil).byteLength⟩⟩ children after)) := by
  intro x cs y around marked hall hpos hstands hnested haround hx hy
  subst hpos hall
  obtain ⟨m, hblock, -⟩ := hnested.behind
  cases hblock with
  | block ho hnested_inside hends hnested_rest =>
    obtain ⟨c, i, e, r, rfl, hc, hi, he, hr, hlexeme, hlen⟩ := hstands.block ho
    have hclose := closer_cells hends he hr
    obtain ⟨hvisible, happart⟩ := apart_closer hclose hy
    have hsplit : x ++ (c ++ ⟨'{', false⟩ :: (i ++ e)) = x ++ (c ++ ⟨'{', false⟩ :: i) ++ e := by
      simp
    have hend : (chars x).byteLength + bodyLength body +
        (Units.block opener inside closer .nil).byteLength =
          (chars (x ++ (c ++ ⟨'{', false⟩ :: (i ++ e)))).byteLength := by
      rw [hlen, hc.bodyLength_eq]
      simp [Nat.add_assoc]
    obtain ⟨spans₂, r', rest', hrest⟩ := hrest (x := x ++ (c ++ ⟨'{', false⟩ :: (i ++ e))) (by simp)
      hend hr hnested_rest haround (hsplit ▸ happart _) hy
    obtain ⟨spans, i', inside', hinside⟩ := hinside (x := x ++ (c ++ [⟨'{', false⟩])) (by simp)
      (by rw [Token.byteLength, hlexeme, hc.bodyLength_eq]; simp [Nat.add_assoc]) hi hnested_inside
      (by simp) (.inl (by simp)) hvisible
    have hcells : x ++ (c ++ ⟨'{', false⟩ :: (i ++ (e ++ r)) ++ y) =
        x ++ (c ++ ⟨'{', false⟩ :: (i ++ (e ++ (r ++ y)))) := by simp
    rw [hcells] at hhead ⊢
    rw [hend]
    exact ⟨_, _, _, revalued_block hvalue hbody hc he hlexeme (by simpa using hx) hhead hnested hinside
      hrest⟩

end Revaluable

/-- **The levels of a sheet with some values replaced** are read as before but for these values. -/
theorem Reads.revaluable (hvalue : Portable vc value) (hopen : value.any Segment.isOpen = false)
    {all : List Cell} {pos : Nat} {u : Units} {f : Forest} (h : Reads (.ofCells all) pos u f) :
    Revaluable P vc value all pos u f := by
  induction h with
  | finish hbody hown => exact revaluable_finish hvalue hopen hbody hown
  | semicolon hbody hkind hown _ ih => exact revaluable_cut hvalue hopen hbody (.inl ⟨hkind, rfl⟩) hown ih
  | strayBrace hbody hkind hown _ ih => exact revaluable_cut hvalue hopen hbody (.inr ⟨hkind, rfl⟩) hown ih
  | block hbody hhead _ _ ih₁ ih₂ => exact revaluable_block hvalue hbody hhead ih₁ ih₂

end VendorSync.Css
