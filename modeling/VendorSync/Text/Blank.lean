import VendorSync.Text

/-! White space in the sense of the Unicode property `White_Space`, and trimming by it.

The set is much larger than the blanks that separate tokens of a style sheet
(`VendorSync.Css.Token.isSpace`): a no-break space is part of a token but is trimmed from
the ends of a name. -/
namespace VendorSync.Text

/-- The characters with the property `White_Space`. -/
def isBlank (c : Char) : Bool :=
  let n := c.toNat
  (0x09 ≤ n && n ≤ 0x0D) || n == 0x20 || n == 0x85 || n == 0xA0 || n == 0x1680 ||
    (0x2000 ≤ n && n ≤ 0x200A) || n == 0x2028 || n == 0x2029 || n == 0x202F || n == 0x205F ||
    n == 0x3000

def trimStart (t : Text) : Text := t.dropWhile isBlank

def trimEnd (t : Text) : Text := (t.reverse.dropWhile isBlank).reverse

def trim (t : Text) : Text := trimEnd (trimStart t)

/-- A text is its trimmed form and the blanks behind it. -/
theorem trimEnd_append_blanks (t : Text) :
    trimEnd t ++ (t.reverse.takeWhile isBlank).reverse = t := by
  rw [trimEnd, ← List.reverse_append, List.takeWhile_append_dropWhile, List.reverse_reverse]

end VendorSync.Text
