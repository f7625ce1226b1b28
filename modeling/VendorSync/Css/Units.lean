import VendorSync.Css.Token

/-! The bracket structure of a list of tokens.

A bracket runs to the next closer of its own kind that is not inside a further bracket, or
to the end of the text; any other closer in it is a token like the rest. A group is
read as one unit of the statement that it stands in: everything in round or square brackets,
and an interpolation. A block in braces holds statements of its own. -/
namespace VendorSync.Css

/-- What stands side by side at one level, in order. -/
inductive Units where
  | nil
  | leaf (token : Token) (rest : Units)
  | group (opener : Token) (inside : Units) (closer : Option Token) (rest : Units)
  | block (opener : Token) (inside : Units) (closer : Option Token) (rest : Units)
deriving DecidableEq, Repr

namespace Units

/-! ### From tokens -/

/-- The units up to the end of the innermost open bracket, and for each open bracket, from
the inside out, its closer and the units behind it at the next level. -/
structure Levels where
  innermost : Units
  outer : List (Option Token × Units)

namespace Levels

/-- The text ends with `depth` brackets open. -/
def ended (depth : Nat) : Levels := ⟨.nil, List.replicate depth (none, .nil)⟩

/-- A token comes before what is read. -/
def precede (token : Token) (l : Levels) : Levels := { l with innermost := .leaf token l.innermost }

/-- The innermost bracket closes before what is read. -/
def close (closer : Token) (l : Levels) : Levels := ⟨.nil, (some closer, l.innermost) :: l.outer⟩

/-- The innermost level of what is read turns out to be the inside of a bracket. -/
def enclose (opener : Token) (isGroup : Bool) (l : Levels) : Levels :=
  let (closer, rest) := l.outer.head?.getD (none, .nil)
  ⟨if isGroup then .group opener l.innermost closer rest
    else .block opener l.innermost closer rest, l.outer.tail⟩

end Levels

/-- Reads tokens with the brackets `stack`, the innermost first, still to be closed; `marked`
tells that the token before was one that makes a brace an interpolation. -/
def levels (marked : Bool) (stack : List Bracket) : List Token → Levels
  | [] => .ended stack.length
  | token :: rest =>
    match token.opens with
    | some bracket =>
      (levels false (bracket :: stack) rest).enclose token (bracket != .curly || marked)
    | none =>
      if token.closes.isSome && token.closes == stack.head? then
        (levels false stack.tail rest).close token
      else (levels token.marksInterpolation stack rest).precede token

/-- The units that a list of tokens makes up. -/
def ofTokens (tokens : List Token) : Units := (levels false [] tokens).innermost

/-! ### Back to tokens -/

def toTokens : Units → List Token
  | nil => []
  | leaf t rest => t :: rest.toTokens
  | group opener inside closer rest | block opener inside closer rest =>
    opener :: (inside.toTokens ++ (closer.toList ++ rest.toTokens))

def byteLength : Units → Nat
  | nil => 0
  | leaf t rest => t.byteLength + rest.byteLength
  | group opener inside closer rest | block opener inside closer rest =>
    opener.byteLength + inside.byteLength + (closer.map Token.byteLength).getD 0 + rest.byteLength

/-- The tokens of all levels, with the closers between them. -/
def Levels.toTokens (l : Levels) : List Token :=
  l.innermost.toTokens ++ l.outer.flatMap fun (closer, units) => closer.toList ++ units.toTokens

theorem length_outer_levels (marked : Bool) (stack : List Bracket) (tokens : List Token) :
    (levels marked stack tokens).outer.length = stack.length := by
  induction tokens generalizing marked stack with
  | nil => simp [levels, Levels.ended]
  | cons token rest ih =>
    rw [levels]
    split
    · simp [Levels.enclose, ih]
    · split
      · rename_i h
        cases stack with
        | nil => simp only [List.head?_nil, Bool.and_eq_true, beq_iff_eq] at h; simp [h.2] at h
        | cons b bs => simp [Levels.close, ih]
      · simp [Levels.precede, ih]

theorem toTokens_levels (marked : Bool) (stack : List Bracket) (tokens : List Token) :
    (levels marked stack tokens).toTokens = tokens := by
  induction tokens generalizing marked stack with
  | nil => simp [levels, Levels.ended, Levels.toTokens, Units.toTokens]
  | cons token rest ih =>
    rw [levels]
    split
    · rename_i bracket _
      have hlen := length_outer_levels false (bracket :: stack) rest
      have := ih false (bracket :: stack)
      generalize levels false (bracket :: stack) rest = l at hlen this
      obtain ⟨innermost, outer⟩ := l
      cases outer with
      | nil => simp at hlen
      | cons o os =>
        simp only [Levels.enclose, Levels.toTokens, List.head?_cons, Option.getD_some,
          List.tail_cons, List.flatMap_cons] at this ⊢
        split <;> simp [Units.toTokens, ← this]
    · split
      · have := ih false stack.tail
        simp only [Levels.toTokens] at this
        simp [Levels.close, Levels.toTokens, Units.toTokens, this]
      · have := ih token.marksInterpolation stack
        simp only [Levels.toTokens] at this
        simp [Levels.precede, Levels.toTokens, Units.toTokens, this]

/-- Grouping loses no token. -/
theorem toTokens_ofTokens (tokens : List Token) : (ofTokens tokens).toTokens = tokens := by
  have hlen := length_outer_levels false [] tokens
  have := toTokens_levels false [] tokens
  rw [Levels.toTokens, List.length_eq_zero_iff.mp hlen] at this
  simpa [ofTokens] using this

theorem byteLength_toTokens (units : Units) :
    Text.byteLength (Token.source units.toTokens) = units.byteLength := by
  induction units with
  | nil => rfl
  | leaf t rest ih =>
    simp only [Token.source] at ih
    simp [toTokens, byteLength, Token.source, Token.byteLength, ih]
  | group opener inside closer rest ih₁ ih₂ | block opener inside closer rest ih₁ ih₂ =>
    simp only [Token.source] at ih₁ ih₂
    cases closer <;>
      simp [toTokens, byteLength, Token.source, Token.byteLength, ih₁, ih₂, Nat.add_assoc]

end Units
end VendorSync.Css
