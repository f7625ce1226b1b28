import VendorSync.Text

/-! Names and the escapes in them.

Functions that measure return how many characters of the text belong to what they
measure; a measure of a text never exceeds its length. The first argument of those
that take a number counts the characters that an escape still covers. -/
namespace VendorSync.Css.Token

/-! ### Characters -/

def isNewline (c : Char) : Bool := c == '\n' || c == '\r' || c == '\x0c'

/-- The blanks that separate tokens. -/
def isSpace (c : Char) : Bool := c == ' ' || c == '\t' || isNewline c

def isHexDigit (c : Char) : Bool :=
  c.isDigit || ('a' ≤ c && c ≤ 'f') || ('A' ≤ c && c ≤ 'F')

/-- The characters that a name may begin with. Every character beyond ASCII is one. -/
def isNameStart (c : Char) : Bool :=
  c.isAlpha || c == '_' || c == '\x00' || 0x80 ≤ c.toNat

def isNameChar (c : Char) : Bool := isNameStart c || c.isDigit || c == '-'

def startsNewline (t : Text) : Bool := t.head?.any isNewline

/-! ### Escapes -/

/-- A line break that an escape may cover; a carriage return and a line feed count as one. -/
def newlineLength : Text → Nat
  | '\r' :: '\n' :: _ => 2
  | c :: _ => if isNewline c then 1 else 0
  | [] => 0

/-- The hexadecimal digits of an escape, at most six. -/
def escapeDigits (t : Text) : Text := (t.take 6).takeWhile isHexDigit

/-- How much of the text behind a backslash is escaped by it: digits and one blank behind
them, or else one character. -/
def escapeLength (t : Text) : Nat :=
  match (escapeDigits t).length with
  | 0 => min 1 t.length
  | n =>
    match t.drop n with
    | c :: cs => if isNewline c then n + newlineLength (c :: cs) else if isSpace c then n + 1 else n
    | [] => n

/-- The value of hexadecimal digits. -/
def hexValue (digits : Text) : Nat :=
  digits.foldl (fun n c => 16 * n +
    if c.isDigit then c.toNat - '0'.toNat
    else if 'a' ≤ c then c.toNat - 'a'.toNat + 10 else c.toNat - 'A'.toNat + 10) 0

/-- The character that an escape stands for; U+FFFD if there is none. -/
def escapedChar (t : Text) : Char :=
  match escapeDigits t, t with
  | [], [] => '\uFFFD'
  | [], c :: _ => if c == '\x00' then '\uFFFD' else c
  | digits, _ =>
    let n := hexValue digits
    if n != 0 && n.isValidChar then Char.ofNat n else '\uFFFD'

/-! ### Names -/

/-- Whether a name begins here: with a letter, an escape, or a dash before one of them or
before another dash. -/
def startsName : Text → Bool
  | [] => false
  | '-' :: cs =>
    match cs with
    | '-' :: _ => true
    | '\\' :: rest => !startsNewline rest
    | c :: _ => isNameStart c
    | [] => false
  | '\\' :: rest => !startsNewline rest
  | c :: _ => isNameStart c

/-- How far a name runs. -/
def nameLength : Nat → Text → Nat
  | _, [] => 0
  | covered + 1, _ :: cs => 1 + nameLength covered cs
  | 0, c :: cs =>
    if isNameChar c then 1 + nameLength 0 cs
    else if c == '\\' && !startsNewline cs then 1 + nameLength (escapeLength cs) cs
    else 0

/-- What a name reads when its escapes are resolved. -/
def unescaped : Nat → Text → Text
  | _, [] => []
  | covered + 1, _ :: cs => unescaped covered cs
  | 0, c :: cs =>
    if c == '\\' then escapedChar cs :: unescaped (escapeLength cs) cs
    else (if c == '\x00' then '\uFFFD' else c) :: unescaped 0 cs

/-- Whether a written name means `url`, in any case and with any escapes. -/
def meansUrl (name : Text) : Bool := (unescaped 0 name).map Char.toLower == ['u', 'r', 'l']

theorem nameLength_le_length (covered : Nat) (t : Text) : nameLength covered t ≤ t.length := by
  fun_induction nameLength covered t <;> simp_all <;> omega

end VendorSync.Css.Token
