import VendorSync.Text.Span

/-! Line comments, which style sheet dialects have and the language itself has not.

A scan over the text tells which characters belong to a comment that starts with two
slashes. It steps over strings, block comments and the argument of `url( )`, where two
slashes mean something else. `masked` blanks the comments byte for byte, so that offsets
into the masked text are offsets into the text (`byteLength_masked`), and `spans` lists
where the comments stand. -/
namespace VendorSync.Css.LineComment

/-! ### The scan -/

/-- Where the scan stands before a character. -/
inductive Place where
  /-- Outside of everything, just behind that many letters of `url`. -/
  | code (letters : Nat)
  /-- Between the slash and the star that open a block comment. -/
  | opening
  /-- In a block comment, and whether just behind a star. -/
  | block (star : Bool)
  /-- In a line comment. -/
  | line
  /-- In a string that closes with `quote`. -/
  | quoted (quote : Char)
  /-- In a string, just behind a backslash. -/
  | escaped (quote : Char)
  /-- In the argument of `url( )`. -/
  | address
deriving DecidableEq, Repr

/-- How many letters of `url`, in either case, are behind the scan once it has read `c`. -/
def letterRun (letters : Nat) (c : Char) : Nat :=
  if c == 'u' || c == 'U' then 1
  else if letters == 1 && (c == 'r' || c == 'R') then 2
  else if letters == 2 && (c == 'l' || c == 'L') then 3
  else 0

/-- Reads a character that is followed by `next`, and tells whether it is part of a line
comment. A line break ends the comment and is not part of it, nor is a carriage return
before the line break or the end of the text. -/
def Place.read : Place → Char → Option Char → Bool × Place
  | code letters, c, next =>
    if c == '/' && next == some '*' then (false, opening)
    else if c == '/' && next == some '/' then (true, line)
    else if c == '"' || c == '\'' then (false, quoted c)
    else if c == '(' && letters == 3 then (false, address)
    else (false, code (letterRun letters c))
  | opening, _, _ => (false, block false)
  | block star, c, _ => (false, if star && c == '/' then code 0 else block (c == '*'))
  | line, c, next =>
    if c == '\n' then (false, code 0)
    else (!(c == '\r' && (next == none || next == some '\n')), line)
  | quoted quote, c, _ =>
    (false, if c == quote || c == '\n' then code 0 else if c == '\\' then escaped quote
      else quoted quote)
  | escaped quote, _, _ => (false, quoted quote)
  | address, c, _ => (false, if c == ')' || c == '\n' then code 0 else address)

/-- A character of the text, and whether a line comment hides it. -/
structure Cell where
  char : Char
  hidden : Bool
deriving DecidableEq, Repr

def cellsFrom (place : Place) : Text → List Cell
  | [] => []
  | c :: cs =>
    let (hidden, place) := place.read c cs.head?
    ⟨c, hidden⟩ :: cellsFrom place cs

def cells (t : Text) : List Cell := cellsFrom (.code 0) t

theorem map_char_cellsFrom (place : Place) (t : Text) :
    (cellsFrom place t).map Cell.char = t := by
  induction t generalizing place with
  | nil => rfl
  | cons c cs ih => simp [cellsFrom, ih]

/-! ### The masked text -/

/-- What the tokens are read from: a hidden character leaves as many blanks as it has bytes. -/
def Cell.shown (cell : Cell) : Text :=
  if cell.hidden then List.replicate cell.char.utf8Size ' ' else [cell.char]

def masked (t : Text) : Text := (cells t).flatMap Cell.shown

theorem byteLength_replicate_space (n : Nat) : Text.byteLength (List.replicate n ' ') = n := by
  induction n with
  | zero => rfl
  | succ n ih =>
    rw [List.replicate_succ, Text.byteLength_cons, ih]
    have : (' ' : Char).utf8Size = 1 := rfl
    omega

theorem Cell.byteLength_shown (cell : Cell) :
    Text.byteLength cell.shown = cell.char.utf8Size := by
  rw [shown]
  split
  · exact byteLength_replicate_space _
  · simp

/-- Masking keeps every offset. -/
theorem byteLength_masked (t : Text) : (masked t).byteLength = t.byteLength := by
  rw [masked, cells]
  generalize Place.code 0 = place
  induction t generalizing place with
  | nil => rfl
  | cons c cs ih => simp [cellsFrom, Cell.byteLength_shown, ih]

/-! ### The spans -/

/-- The spans of the runs of hidden characters, where `started` is the start of the run that
the scan is in. -/
def runs (started : Option Nat) (pos : Nat) : List Cell → List Span
  | [] => (started.map fun start => ⟨start, pos⟩).toList
  | cell :: rest =>
    let after := pos + cell.char.utf8Size
    match cell.hidden, started with
    | true, _ => runs (some (started.getD pos)) after rest
    | false, none => runs none after rest
    | false, some start => ⟨start, pos⟩ :: runs none after rest

/-- The line comments of a text, in order. Two of them never touch: a line break lies between. -/
def spans (t : Text) : List Span := runs none 0 (cells t)

end VendorSync.Css.LineComment
