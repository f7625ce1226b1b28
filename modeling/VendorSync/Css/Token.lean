import VendorSync.Text

/-! Tokens of a style sheet, as far as its structure depends on them. -/
namespace VendorSync.Css

inductive Bracket where
  | round | square | curly
deriving DecidableEq, Repr

namespace Token

inductive Kind where
  | whitespace
  | comment
  | string
  | ident
  /-- A name with the parenthesis behind it. -/
  | function
  /-- An address without quotes, from its `url(` to the parenthesis that closes it. -/
  | url
  | hash
  | atKeyword
  | number
  | colon
  | semicolon
  | comma
  /-- An attribute comparison such as `~=`. -/
  | comparison
  /-- One of `<!--` and `-->`. -/
  | markup
  | opener (bracket : Bracket)
  | closer (bracket : Bracket)
  /-- Any other character. -/
  | delim (char : Char)
deriving DecidableEq, Repr

end Token

/-- A token is a stretch of the text and what kind of token it is. -/
structure Token where
  kind : Token.Kind
  lexeme : Text
deriving DecidableEq, Repr

namespace Token

def byteLength (t : Token) : Nat := Text.byteLength t.lexeme

/-- The kind of bracket that the token opens. -/
def opens (t : Token) : Option Bracket :=
  match t.kind with
  | .opener b => some b
  | .function => some .round
  | _ => none

/-- The kind of bracket that the token closes. -/
def closes (t : Token) : Option Bracket :=
  match t.kind with
  | .closer b => some b
  | _ => none

/-- A brace directly behind one of these two opens an interpolation and not a block. -/
def marksInterpolation (t : Token) : Bool := t.kind == .delim '#' || t.kind == .delim '@'

/-- The text that the tokens were read from. -/
def source (ts : List Token) : Text := ts.flatMap lexeme

end Token
end VendorSync.Css
