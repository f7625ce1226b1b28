import VendorSync.Css.Token
import VendorSync.Css.Token.Name

/-! From a text to its tokens.

`scan` looks at the text from a token's first character on and tells the token's kind and how
many characters follow the first. `lex` cuts the text accordingly; its lexemes make up
the text whatever `scan` says (`source_lex`), and none is empty. -/
namespace VendorSync.Css.Token

/-! ### How far a token runs

As with names, the number counts the characters that an escape still covers. -/

/-- The rest of a string, from behind its quote: up to and including the same quote, or up to
a bare line break or the end. -/
def stringLength (quote : Char) : Nat → Text → Nat
  | _, [] => 0
  | covered + 1, _ :: cs => 1 + stringLength quote covered cs
  | 0, c :: cs =>
    if c == quote then 1
    else if isNewline c then 0
    else if c == '\\' then
      1 + stringLength quote (if startsNewline cs then newlineLength cs else escapeLength cs) cs
    else 1 + stringLength quote 0 cs

/-- The rest of a comment, from behind its opening: up to and including the first star and
slash. -/
def commentLength : Text → Nat
  | [] => 0
  | c :: cs => if c == '*' && cs.head? == some '/' then 2 else 1 + commentLength cs

/-- The parts of an address without quotes. -/
inductive UrlPart where
  /-- Blanks before the address. -/
  | lead
  | body
  /-- Blanks behind the address, after which only the parenthesis may come. -/
  | tail
  /-- What is left of a malformed address. -/
  | remnants
deriving DecidableEq, Repr

/-- The characters that make an address malformed. -/
def spoilsUrl (c : Char) : Bool :=
  let n := c.toNat
  c == '"' || c == '\'' || c == '(' || (1 ≤ n && n ≤ 8) || n == 0x0B || (0x0E ≤ n && n ≤ 0x1F) ||
    n == 0x7F

/-- The part that the character `c` brings an address into, and how many characters it
escapes, when `cs` follows. The closing parenthesis is not asked for. -/
def UrlPart.read : UrlPart → Char → Text → UrlPart × Nat
  | lead, c, cs | body, c, cs =>
    if spoilsUrl c then (remnants, 0)
    else if c == '\\' then if startsNewline cs then (remnants, 0) else (body, escapeLength cs)
    else (body, 0)
  | tail, _, _ => (remnants, 0)
  | remnants, c, cs =>
    (remnants, if c == '\\' && (cs.head? == some ')' || cs.head? == some '\\') then 1 else 0)

/-- The rest of an address, from behind `url(`: up to and including the parenthesis that closes
it. -/
def urlLength (part : UrlPart) : Nat → Text → Nat
  | _, [] => 0
  | covered + 1, _ :: cs => 1 + urlLength part covered cs
  | 0, c :: cs =>
    if c == ')' then 1
    else if isSpace c && part != .remnants then
      1 + urlLength (if part == .lead then .lead else .tail) 0 cs
    else
      let (part, covered) := part.read c cs
      1 + urlLength part covered cs

/-- Whether a number begins here. -/
def startsNumber (t : Text) : Bool :=
  let unsigned := match t with
    | c :: cs => if c == '+' || c == '-' then cs else t
    | [] => []
  match unsigned with
  | c :: cs => c.isDigit || (c == '.' && cs.head?.any Char.isDigit)
  | [] => false

/-- A dot and the digits behind it. -/
def fractionLength : Text → Nat
  | '.' :: cs =>
    let digits := (cs.takeWhile Char.isDigit).length
    if digits == 0 then 0 else 1 + digits
  | _ => 0

/-- An exponent with its digits. -/
def exponentLength : Text → Nat
  | c :: cs =>
    if c == 'e' || c == 'E' then
      let sign := if cs.head? == some '+' || cs.head? == some '-' then 1 else 0
      let digits := ((cs.drop sign).takeWhile Char.isDigit).length
      if digits == 0 then 0 else 1 + sign + digits
    else 0
  | [] => 0

/-- A percent sign or the name of a unit. -/
def unitLength (t : Text) : Nat :=
  if t.head? == some '%' then 1 else if startsName t then nameLength 0 t else 0

/-- A number with its sign, fraction, exponent and unit. -/
def numberLength (t : Text) : Nat :=
  let sign := if t.head? == some '+' || t.head? == some '-' then 1 else 0
  let whole := sign + ((t.drop sign).takeWhile Char.isDigit).length
  let plain := whole + fractionLength (t.drop whole)
  let scaled := plain + exponentLength (t.drop plain)
  scaled + unitLength (t.drop scaled)

/-! ### One token -/

/-- A token that begins with a name: the name alone, a function, or an address. The address of
`url( )` is a token of its own unless it is quoted. -/
def scanName (t : Text) : Kind × Nat :=
  let name := nameLength 0 t
  match t.drop name with
  | '(' :: cs =>
    let afterBlanks := cs.dropWhile isSpace
    if meansUrl (t.take name) && afterBlanks.head? != some '"' && afterBlanks.head? != some '\'' then
      (.url, name + 1 + urlLength .lead 0 cs)
    else (.function, name + 1)
  | _ => (.ident, name)

/-- The kind of token that a single character makes up. -/
def single (c : Char) : Kind :=
  match c with
  | ':' => .colon
  | ';' => .semicolon
  | ',' => .comma
  | '(' => .opener .round
  | '[' => .opener .square
  | '{' => .opener .curly
  | ')' => .closer .round
  | ']' => .closer .square
  | '}' => .closer .curly
  | c => .delim c

/-- The kind of the token that begins with `c` when `cs` follows, and how many characters of
`cs` it takes. -/
def scan (c : Char) (cs : Text) : Kind × Nat :=
  if isSpace c then (.whitespace, (cs.takeWhile isSpace).length)
  else if c == '"' || c == '\'' then (.string, stringLength c 0 cs)
  else if c == '/' && cs.head? == some '*' then (.comment, 1 + commentLength cs.tail)
  else if startsNumber (c :: cs) then (.number, numberLength (c :: cs) - 1)
  else if c == '-' && cs.take 2 == ['-', '>'] then (.markup, 2)
  else if c == '<' && cs.take 3 == ['!', '-', '-'] then (.markup, 3)
  else if startsName (c :: cs) then
    let (kind, length) := scanName (c :: cs)
    (kind, length - 1)
  else if c == '#' && (startsName cs || cs.head?.any fun d => d.isDigit || d == '-') then
    (.hash, nameLength 0 cs)
  else if c == '@' && startsName cs then (.atKeyword, nameLength 0 cs)
  else if ['~', '|', '^', '$', '*'].contains c && cs.head? == some '=' then (.comparison, 1)
  else (single c, 0)

/-! ### All tokens -/

/-- The tokens of a text of which the given number of characters is already taken. -/
def lexFrom : Nat → Text → List Token
  | _, [] => []
  | taken + 1, _ :: cs => lexFrom taken cs
  | 0, c :: cs =>
    let (kind, length) := scan c cs
    ⟨kind, c :: cs.take length⟩ :: lexFrom length cs

def lex (t : Text) : List Token := lexFrom 0 t

theorem lexFrom_eq_lex_drop (taken : Nat) (t : Text) : lexFrom taken t = lex (t.drop taken) := by
  induction t generalizing taken with
  | nil => simp [lexFrom, lex]
  | cons c cs ih => cases taken with
    | zero => rfl
    | succ taken => exact ih taken

@[simp] theorem lex_nil : lex [] = [] := rfl

theorem lex_cons (c : Char) (cs : Text) :
    lex (c :: cs) = ⟨(scan c cs).1, c :: cs.take (scan c cs).2⟩ :: lex (cs.drop (scan c cs).2) := by
  rw [← lexFrom_eq_lex_drop]
  rfl

/-- No character is lost between the tokens. -/
theorem source_lex (t : Text) : source (lex t) = t := by
  induction hn : t.length using Nat.strongRecOn generalizing t with
  | _ n ih =>
    cases t with
    | nil => rfl
    | cons c cs =>
      rw [lex_cons]
      have hshort : (cs.drop (scan c cs).2).length < n := by
        simp only [List.length_cons] at hn
        simp only [List.length_drop]
        omega
      have := ih _ hshort (cs.drop (scan c cs).2) rfl
      simp only [source, List.flatMap_cons] at this ⊢
      rw [this, List.cons_append, List.take_append_drop]

theorem lexeme_ne_nil {t : Text} {token : Token} (h : token ∈ lex t) : token.lexeme ≠ [] := by
  induction hn : t.length using Nat.strongRecOn generalizing t with
  | _ n ih =>
    cases t with
    | nil => simp at h
    | cons c cs =>
      rw [lex_cons, List.mem_cons] at h
      rcases h with rfl | h
      · simp
      · refine ih _ ?_ h rfl
        simp only [List.length_cons] at hn
        simp only [List.length_drop]
        omega

end VendorSync.Css.Token
