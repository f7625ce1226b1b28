import VendorSync.Text

/-! JSON texts and the values that they stand for.

A text is read character by character into tokens (`Place.run`), and these token by token into a
value (`Stage.run`). Both are machines with one step for each character or token, so that what a
text stands for can be computed from the left, piece by piece.

Read is the part of JSON that lists of edits need: numbers are natural numbers without a leading
zero, escapes by code stand for one character each, and `true`, `false` and `null` are left out.
What is read is JSON, and has the value that it has there. -/
namespace VendorSync

inductive Json where
  | number (n : Nat)
  | string (t : Text)
  | array (items : List Json)
  | object (members : List (Text × Json))

namespace Json

inductive Token where
  | openArray
  | closeArray
  | openObject
  | closeObject
  | comma
  | colon
  | number (n : Nat)
  | string (t : Text)
deriving DecidableEq, Repr

/-! ### From characters to tokens -/

/-- Where a text has been read to. Of a string the last character read comes first. -/
inductive Place where
  | outside
  /-- Behind the digits of a number. -/
  | number (n : Nat)
  | string (read : Text)
  /-- Behind the backslash of an escape. -/
  | escape (read : Text)
  /-- In the code of a character, of which so many digits are to come. -/
  | code (read : Text) (n left : Nat)
deriving DecidableEq, Repr

def digitValue (c : Char) : Nat := c.toNat - '0'.toNat

/-- The value of a hexadecimal digit. -/
def hexValue? (c : Char) : Option Nat :=
  if c.isDigit then some (digitValue c)
  else if 'a' ≤ c ∧ c ≤ 'f' then some (c.toNat - 'a'.toNat + 10)
  else if 'A' ≤ c ∧ c ≤ 'F' then some (c.toNat - 'A'.toNat + 10)
  else none

/-- The character that an escape of one letter stands for. -/
def escaped? : Char → Option Char
  | '"' => some '"'
  | '\\' => some '\\'
  | '/' => some '/'
  | 'b' => some '\x08'
  | 'f' => some '\x0c'
  | 'n' => some '\n'
  | 'r' => some '\r'
  | 't' => some '\t'
  | _ => none

namespace Place

/-- Reads a character outside of numbers and strings. -/
def begin? (c : Char) : Option (List Token × Place) :=
  if c.isDigit then some ([], number (digitValue c))
  else match c with
    | ' ' | '\n' | '\r' | '\t' => some ([], outside)
    | '"' => some ([], string [])
    | '[' => some ([.openArray], outside)
    | ']' => some ([.closeArray], outside)
    | '\x7b' => some ([.openObject], outside)
    | '\x7d' => some ([.closeObject], outside)
    | ',' => some ([.comma], outside)
    | ':' => some ([.colon], outside)
    | _ => none

/-- Reads one character. A number is complete with the first character behind it. -/
def step (p : Place) (c : Char) : Option (List Token × Place) :=
  match p with
  | outside => begin? c
  | number n =>
    if c.isDigit then
      if n = 0 then none else some ([], number (10 * n + digitValue c))
    else (begin? c).map fun (tokens, q) => (.number n :: tokens, q)
  | string read =>
    if c = '"' then some ([.string read.reverse], outside)
    else if c = '\\' then some ([], escape read)
    else if c.toNat < 0x20 then none
    else some ([], string (c :: read))
  | escape read =>
    if c = 'u' then some ([], code read 0 4)
    else (escaped? c).map fun c => ([], string (c :: read))
  | code read n left =>
    (hexValue? c).bind fun d =>
      let n := 16 * n + d
      if left ≠ 1 then some ([], code read n (left - 1))
      else if n.isValidChar then some ([], string (Char.ofNat n :: read))
      else none

def run (p : Place) : Text → Option (List Token × Place)
  | [] => some ([], p)
  | c :: cs => do
    let (tokens, q) ← p.step c
    let (rest, r) ← q.run cs
    return (tokens ++ rest, r)

theorem run_singleton (p : Place) (c : Char) : p.run [c] = p.step c := by
  cases h : p.step c <;> simp [run, h]

theorem run_append {p q r : Place} {a b : Text} {tokens rest : List Token}
    (ha : p.run a = some (tokens, q)) (hb : q.run b = some (rest, r)) :
    p.run (a ++ b) = some (tokens ++ rest, r) := by
  induction a generalizing p tokens with
  | nil =>
    obtain ⟨rfl, rfl⟩ := Prod.mk.injEq .. ▸ Option.some.inj ha
    exact hb
  | cons c cs ih =>
    simp only [run, Option.bind_eq_bind, Option.bind_eq_some_iff, Option.pure_def,
      Option.some.injEq, Prod.mk.injEq, Prod.exists] at ha
    obtain ⟨first, p', hstep, more, q', hrun, rfl, rfl⟩ := ha
    simp [run, hstep, ih hrun]

end Place

/-- The tokens of a text. -/
def tokens? (t : Text) : Option (List Token) :=
  match Place.outside.run t with
  | some (tokens, .outside) => some tokens
  | some (tokens, .number n) => some (tokens ++ [.number n])
  | _ => none

/-! ### From tokens to values -/

/-- What has been opened and is not closed yet, with what stands in it so far, the last first. -/
inductive Frame where
  | array (before : List Json)
  /-- An object in which the value of this key comes next. -/
  | object (before : List (Text × Json)) (key : Text)

/-- What may come next. -/
inductive Stage where
  | value
  /-- The first item of an array, or the end of an empty one. -/
  | firstItem
  /-- The first key of an object, or the end of an empty one. -/
  | firstKey
  | key (before : List (Text × Json))
  | colon (before : List (Text × Json)) (key : Text)
  /-- Whatever may follow a value. -/
  | behind (v : Json)

namespace Stage

/-- Reads the first token of a value. -/
def begin? (frames : List Frame) : Token → Option (List Frame × Stage)
  | .number n => some (frames, behind (.number n))
  | .string t => some (frames, behind (.string t))
  | .openArray => some (frames, firstItem)
  | .openObject => some (frames, firstKey)
  | _ => none

/-- Reads one token, within all that is open, the innermost first. -/
def step (frames : List Frame) (s : Stage) (token : Token) : Option (List Frame × Stage) :=
  match s, token, frames with
  | value, token, frames => begin? frames token
  | firstItem, .closeArray, frames => some (frames, behind (.array []))
  | firstItem, token, frames => begin? (.array [] :: frames) token
  | firstKey, .closeObject, frames => some (frames, behind (.object []))
  | firstKey, .string k, frames => some (frames, colon [] k)
  | key before, .string k, frames => some (frames, colon before k)
  | colon before k, .colon, frames => some (.object before k :: frames, value)
  | behind v, .comma, .array before :: frames => some (.array (v :: before) :: frames, value)
  | behind v, .closeArray, .array before :: frames =>
    some (frames, behind (.array (v :: before).reverse))
  | behind v, .comma, .object before k :: frames => some (frames, key ((k, v) :: before))
  | behind v, .closeObject, .object before k :: frames =>
    some (frames, behind (.object ((k, v) :: before).reverse))
  | _, _, _ => none

def run (frames : List Frame) (s : Stage) : List Token → Option (List Frame × Stage)
  | [] => some (frames, s)
  | token :: tokens => do
    let (frames, s) ← s.step frames token
    s.run frames tokens

theorem run_cons {frames frames' : List Frame} {s s' : Stage} {token : Token}
    (h : s.step frames token = some (frames', s')) (tokens : List Token) :
    s.run frames (token :: tokens) = s'.run frames' tokens := by
  simp [run, h]

theorem run_append {frames frames' : List Frame} {s s' : Stage} {a : List Token}
    (ha : s.run frames a = some (frames', s')) (b : List Token) :
    s.run frames (a ++ b) = s'.run frames' b := by
  induction a generalizing frames s with
  | nil =>
    obtain ⟨rfl, rfl⟩ := Prod.mk.injEq .. ▸ Option.some.inj ha
    rfl
  | cons token a ih =>
    simp only [run, Option.bind_eq_bind, Option.bind_eq_some_iff, Prod.exists] at ha
    obtain ⟨between, s₁, hstep, hrun⟩ := ha
    rw [List.cons_append, run_cons hstep, ih hrun]

end Stage

/-- The value that a text stands for. -/
def ofText? (t : Text) : Option Json := do
  match ← Stage.value.run [] (← tokens? t) with
  | ([], .behind v) => some v
  | _ => none

/-! ### Parts of a value -/

def number? : Json → Option Nat
  | number n => some n
  | _ => none

def string? : Json → Option Text
  | string t => some t
  | _ => none

def items? : Json → Option (List Json)
  | array items => some items
  | _ => none

/-- The member of an object with the given key. -/
def member? (key : String) : Json → Option Json
  | object members => members.lookup key.toList
  | _ => none

end Json
end VendorSync
