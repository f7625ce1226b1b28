import VendorSync.Text

/-! Spans of a text, as half-open ranges of byte offsets. -/
namespace VendorSync

/-- The offsets from `start` up to but not including `stop`. A span with `stop < start` is not
ruled out: a batch of edits may name one, and is then refused. -/
structure Span where
  start : Nat
  stop : Nat
deriving DecidableEq, Repr, Inhabited

namespace Span

/-- The span of no bytes at an offset. -/
def empty (offset : Nat) : Span := ⟨offset, offset⟩

/-- Whether the offset lies between two bytes of the span. -/
def contains (s : Span) (offset : Nat) : Bool := s.start < offset && offset < s.stop

/-- The ends of the span count as inside. -/
def touches (s : Span) (offset : Nat) : Bool := s.start ≤ offset && offset ≤ s.stop

/-- Whether two spans share a byte. An empty span overlaps one that strictly contains it. -/
def overlaps (a b : Span) : Bool := a.start < b.stop && b.start < a.stop

/-- The span moved to the right. -/
def shift (k : Nat) (s : Span) : Span := ⟨s.start + k, s.stop + k⟩

theorem overlaps_comm (a b : Span) : a.overlaps b = b.overlaps a := by
  simp only [overlaps, Bool.and_comm]

end Span

/-- The part of a text that a span covers. -/
def Text.slice (s : Span) (t : Text) : Text := takeBytes (s.stop - s.start) (dropBytes s.start t)

theorem Text.slice_append (a b c : Text) :
    slice ⟨byteLength a, byteLength a + byteLength b⟩ (a ++ (b ++ c)) = b := by
  rw [slice, dropBytes_byteLength_append, Nat.add_sub_cancel_left, takeBytes_byteLength_append]

end VendorSync
