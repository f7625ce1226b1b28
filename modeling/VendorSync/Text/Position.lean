import VendorSync.Text

/-! Positions in a text, as an editor counts them.

A line ends with a line feed, and a carriage return directly before the line feed belongs
to the line break: no position stands between the two. Offsets that have no position of
their own take the nearest one before them, and positions behind the end of a line, or of
the text, stand for that end. -/
namespace VendorSync

/-- A line and the number of characters before the position on it, both counted from zero. -/
structure Position where
  line : Nat
  character : Nat
deriving DecidableEq, Repr

namespace Position

def origin : Position := ⟨0, 0⟩

/-- The position when a further line stands before the text. -/
def nextLine (p : Position) : Position := ⟨p.line + 1, p.character⟩

/-- The position when a further character stands before the text, on its first line. -/
def nextCharacter (p : Position) : Position :=
  if p.line = 0 then ⟨0, p.character + 1⟩ else p

/-- Positions in the order of the text. -/
def le (p q : Position) : Bool := p.line < q.line || (p.line == q.line && p.character ≤ q.character)

end Position

namespace Text

def lineCount (t : Text) : Nat := t.count '\n' + 1

/-- The offset of a position. -/
def offsetAt (p : Position) : Text → Nat
  | [] => 0
  | '\r' :: '\n' :: cs => if p.line = 0 then 0 else 2 + offsetAt ⟨p.line - 1, p.character⟩ cs
  | '\n' :: cs => if p.line = 0 then 0 else 1 + offsetAt ⟨p.line - 1, p.character⟩ cs
  | c :: cs =>
    if p.line = 0 then
      if p.character = 0 then 0 else c.utf8Size + offsetAt ⟨0, p.character - 1⟩ cs
    else c.utf8Size + offsetAt p cs

/-- The position of an offset. -/
def positionAt (offset : Nat) : Text → Position
  | [] => .origin
  | '\r' :: '\n' :: cs => if offset < 2 then .origin else (positionAt (offset - 2) cs).nextLine
  | '\n' :: cs => if offset < 1 then .origin else (positionAt (offset - 1) cs).nextLine
  | c :: cs =>
    if offset < c.utf8Size then .origin else (positionAt (offset - c.utf8Size) cs).nextCharacter

end Text
end VendorSync
