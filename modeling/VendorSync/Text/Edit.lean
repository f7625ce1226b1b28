import VendorSync.Text.Span

/-! Edits of a text, applied all together or not at all.

A batch is checked before anything is written: each edit has to name a span of the text,
and no two spans may overlap. `applyEdits` tells the first fault in the order of the spans,
a misplaced span before an overlap. Insertions at one offset keep the order of the batch. -/
namespace VendorSync

/-- The replacement of a span. -/
structure Edit where
  span : Span
  replacement : Text
deriving DecidableEq, Repr

/-- Why a batch cannot be applied. -/
inductive EditFault where
  /-- The span ends before it starts, or behind the end of a text of that many bytes. -/
  | outOfBounds (span : Span) (length : Nat)
  /-- An end of the span lies inside a character. -/
  | notCharBoundary (span : Span)
  /-- Two spans overlap. -/
  | overlapping (first second : Span)
deriving DecidableEq, Repr

namespace EditFault

def describe (s : Span) : String := s!"{s.start}..{s.stop}"

def describeFields (s : Span) : String :=
  "TextRange \x7b start: " ++ toString s.start ++ ", end: " ++ toString s.stop ++ " \x7d"

def message : EditFault → String
  | outOfBounds span length =>
    s!"edit range {describe span} is outside the document (length {length})"
  | notCharBoundary span => s!"edit range {describe span} does not fall on character boundaries"
  | overlapping first second =>
    s!"edit ranges {describeFields first} and {describeFields second} overlap"

end EditFault

namespace Edit

/-! ### Order -/

/-- Whether the span of the one edit comes before that of the other, or is the same. -/
def le (a b : Edit) : Bool :=
  a.span.start < b.span.start || (a.span.start == b.span.start && a.span.stop ≤ b.span.stop)

/-- Puts an edit before those of an ordered batch that it comes before. -/
def place (e : Edit) : List Edit → List Edit
  | [] => [e]
  | f :: fs => if e.le f then e :: f :: fs else f :: place e fs

/-- The batch by the order of its spans. Edits of the same span keep their order. -/
def inOrder (edits : List Edit) : List Edit := edits.foldr place []

theorem place_perm (e : Edit) (es : List Edit) : (place e es).Perm (e :: es) := by
  induction es with
  | nil => exact .refl _
  | cons f fs ih =>
    rw [place]
    split
    · exact .refl _
    · exact (ih.cons f).trans (.swap e f fs)

theorem inOrder_perm (edits : List Edit) : (inOrder edits).Perm edits := by
  induction edits with
  | nil => exact .refl _
  | cons e es ih => exact (place_perm e _).trans (ih.cons e)

@[simp] theorem mem_inOrder {e : Edit} {edits : List Edit} : e ∈ inOrder edits ↔ e ∈ edits :=
  (inOrder_perm edits).mem_iff

theorem disjoint_inOrder {edits : List Edit} :
    (inOrder edits).Pairwise (fun a b => a.span.overlaps b.span = false) ↔
      edits.Pairwise fun a b => a.span.overlaps b.span = false :=
  (inOrder_perm edits).pairwise_iff fun h => (Span.overlaps_comm _ _).trans h

/-! ### Checks -/

/-- What is wrong with the span of an edit by itself. -/
def fault? (t : Text) (e : Edit) : Option EditFault :=
  let ⟨start, stop⟩ := e.span
  if start > stop || stop > t.byteLength then some (.outOfBounds e.span t.byteLength)
  else if !t.isBoundary start || !t.isBoundary stop then some (.notCharBoundary e.span)
  else none

/-- The first two neighbours that overlap. -/
def overlap? : List Edit → Option EditFault
  | e :: f :: fs =>
    if e.span.overlaps f.span then some (.overlapping e.span f.span) else overlap? (f :: fs)
  | _ => none

/-! ### Writing -/

/-- Replaces the spans of an ordered batch in the rest of a text that begins at `pos`. -/
def splice (pos : Nat) (t : Text) : List Edit → Text
  | [] => t
  | e :: es =>
    Text.takeBytes (e.span.start - pos) t ++ e.replacement ++
      splice e.span.stop (Text.dropBytes (e.span.stop - pos) t) es

end Edit

/-- The text after a batch of edits, all of which refer to the text before. -/
def Text.applyEdits (t : Text) (edits : List Edit) : Except EditFault Text :=
  let ordered := Edit.inOrder edits
  match (ordered.findSome? (Edit.fault? t)).or (Edit.overlap? ordered) with
  | some fault => .error fault
  | none => .ok (Edit.splice 0 t ordered)

@[simp] theorem Text.applyEdits_nil (t : Text) : t.applyEdits [] = .ok t := rfl

end VendorSync
