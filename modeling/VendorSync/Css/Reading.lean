import VendorSync.Css.LineComment
import VendorSync.Css.Token.Lexer
import VendorSync.Css.Units
import VendorSync.Css.Statement

/-! Reading a style sheet, which never fails.

The tokens are those of the masked text, and every name, value and selector is cut out of
the text itself. Statements are cut at semicolons, at blocks and at braces that close
nothing. A comment is a node of its own where no statement has begun, and otherwise part of
the statement around it. -/
namespace VendorSync.Css

/-- A text with its line comments. -/
structure Source where
  text : Text
  comments : List Span

namespace Source

def ofText (t : Text) : Source := ⟨t, LineComment.spans t⟩

/-- The line comments that begin within a span, as nodes before others. -/
def lineComments (source : Source) (span : Span) (after : Forest) : Forest :=
  (source.comments.filter fun c => span.start ≤ c.start && c.start < span.stop).foldr
    (fun c => .cons ⟨.comment, c⟩ .nil) after

end Source

/-- What a token is to the statement that it stands in. -/
inductive Role where
  | space
  | comment
  /-- The end of the statement. -/
  | semicolon
  /-- A brace that closes nothing; the statement ends before it. -/
  | strayBrace
  | part (isColon : Bool)
deriving DecidableEq, Repr

def Role.ofKind : Token.Kind → Role
  | .whitespace => space
  | .comment => comment
  | .semicolon => semicolon
  | .closer .curly => strayBrace
  | .colon => part true
  | _ => part false

/-- The nodes of one level, read from the offset `pos` on when the statement there has the given
parts already. -/
def Forest.ofUnits (source : Source) (pos : Nat) (parts : List Part) : Units → Forest
  | .nil => Statement.conclude source.text parts none .nil
  | .leaf token rest =>
    let span : Span := ⟨pos, pos + token.byteLength⟩
    match Role.ofKind token.kind with
    | .space =>
      let after := ofUnits source span.stop parts rest
      if parts.isEmpty then source.lineComments span after else after
    | .comment =>
      let after := ofUnits source span.stop parts rest
      if parts.isEmpty then .cons ⟨.comment, span⟩ .nil after else after
    | .semicolon =>
      Statement.conclude source.text parts (some span.stop) (ofUnits source span.stop [] rest)
    | .strayBrace =>
      Statement.conclude source.text parts none (ofUnits source span.stop [] rest)
    | .part isColon => ofUnits source span.stop (parts ++ [⟨span, isColon⟩]) rest
  | .group opener inside closer rest =>
    let span : Span := ⟨pos, pos + (Units.group opener inside closer .nil).byteLength⟩
    ofUnits source span.stop (parts ++ [⟨span, false⟩]) rest
  | .block opener inside closer rest =>
    let stop := pos + (Units.block opener inside closer .nil).byteLength
    let header := Statement.headerSpan parts pos
    .cons ⟨Statement.blockKind source.text header, ⟨header.start, stop⟩⟩
      (ofUnits source (pos + opener.byteLength) [] inside)
      (ofUnits source stop [] rest)

/-- The sheet that a text reads as. -/
def Sheet.ofText (t : Text) : Sheet where
  length := t.byteLength
  forest := .ofUnits (.ofText t) 0 [] (.ofTokens (Token.lex (LineComment.masked t)))

end VendorSync.Css
