import VendorSync.Css.Sheet
import VendorSync.Text.Blank

/-! Statements: what a run of significant units between two cuts declares.

A statement is known by its parts, the spans of its significant units in order, each
with whether it is a colon. The first colon behind the first part separates a name from a
value; a statement without one is an at-rule if it begins with `@`. -/
namespace VendorSync.Css

/-- One significant unit of a statement. -/
structure Part where
  span : Span
  isColon : Bool
deriving DecidableEq, Repr

namespace Statement

/-! ### At-rules -/

def endsAtRuleName (c : Char) : Bool := Text.isBlank c || c == '(' || c == '{' || c == ';'

/-- The name and the prelude of an at-rule, such as `media` and `(min-width: 10px)`. -/
def atRule? (header : Text) : Option (Text × Text) :=
  match header with
  | '@' :: rest =>
    let (name, prelude) := rest.span fun c => !endsAtRuleName c
    some (name, Text.trim prelude)
  | _ => none

/-! ### Kinds -/

/-- Where the parts end that begin with `first`. -/
def stop (first : Part) (others : List Part) : Nat := (others.getLastD first).span.stop

/-- The declaration that a statement makes when its name begins with `first`, `colon` is its
colon and `value` is what comes behind. The value of an empty declaration stands directly
behind the colon. -/
def declaration? (text : Text) (first colon : Part) (value : List Part) : Option Declaration :=
  let name := Text.trimEnd (Text.slice ⟨first.span.start, colon.span.start⟩ text)
  let valueSpan := match value with
    | [] => Span.empty (colon.span.start + 1)
    | v :: vs => ⟨v.span.start, stop v vs⟩
  if name.isEmpty then none
  else some
    { name
      nameSpan := ⟨first.span.start, first.span.start + Text.byteLength name⟩
      value := Text.slice valueSpan text
      valueSpan }

/-- The kind of node that a statement without a block makes. -/
def kind (text : Text) (first : Part) (others : List Part) : Kind :=
  match others.dropWhile (!·.isColon) with
  | colon :: value => ((declaration? text first colon value).map .declaration).getD .other
  | [] =>
    match atRule? (Text.slice ⟨first.span.start, stop first others⟩ text) with
    | some (name, prelude) => .atRule name prelude false
    | none => .other

/-- Where the header of a block stands that opens at `brace`: a block without one has it at
its brace. -/
def headerSpan (parts : List Part) (brace : Nat) : Span :=
  match parts with
  | [] => .empty brace
  | first :: others => ⟨first.span.start, stop first others⟩

/-- The kind of node that the header of a block makes. -/
def blockKind (text : Text) (header : Span) : Kind :=
  match atRule? (Text.slice header text) with
  | some (name, prelude) => .atRule name prelude true
  | none => .rule (Text.slice header text) header

/-- The nodes with the statement of these parts before them, if there are any parts; the node
ends at `cut`, or else with its last part. -/
def conclude (text : Text) (parts : List Part) (cut : Option Nat) (after : Forest) : Forest :=
  match parts with
  | [] => after
  | first :: others =>
    .cons ⟨kind text first others, ⟨first.span.start, cut.getD (stop first others)⟩⟩ .nil after

end Statement
end VendorSync.Css
