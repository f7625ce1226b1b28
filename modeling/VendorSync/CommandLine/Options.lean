/-! The options of the command line.

Arguments are read from left to right and the first one that cannot be accepted decides.
An option may come before or after the input, gives its value behind an equals sign or as the
next argument, and may be given once. One-letter options may share a dash; the last of them
may have its value directly behind it. Behind `--` there are no options. -/
namespace VendorSync.CommandLine

/-- How the cursor is told. -/
inductive CursorChoice where
  /-- By an offset. -/
  | offset (n : Nat)
  /-- By line and column, both counted from one. -/
  | lineColumn (line column : Nat)
deriving DecidableEq, Repr

structure Options where
  input : String
  cursor : CursorChoice
  language : Option String
  /-- Rewrite the input instead of printing the result. -/
  write : Bool
  /-- Print the edits instead of the result. -/
  json : Bool
deriving DecidableEq, Repr

/-- Why arguments do not become options. -/
inductive Refusal where
  /-- The arguments ask for help. -/
  | help
  | unknownArgument (argument : String)
  | missingValue (option : String)
  | unexpectedValue (option : String)
  | repeated (option : String)
  | notANumber (value : String)
  | emptyInput
  | missingInput
  | missingCursor
  | conflictingCursors
deriving DecidableEq, Repr

/-! ### Names -/

/-- The options that take a value. -/
inductive Valued where
  | line | column | offset | language
deriving DecidableEq, Repr

/-- The options that do not. -/
inductive Switch where
  | write | json | help
deriving DecidableEq, Repr

inductive Name where
  | valued (v : Valued)
  | switch (s : Switch)
deriving DecidableEq, Repr

def Name.ofLong (name : List Char) : Option Name :=
  match String.ofList name with
  | "line" => some (.valued .line)
  | "column" => some (.valued .column)
  | "offset" => some (.valued .offset)
  | "language" => some (.valued .language)
  | "write" => some (.switch .write)
  | "json" => some (.switch .json)
  | "help" => some (.switch .help)
  | _ => none

def Name.ofShort : Char → Option Name
  | 'l' => some (.valued .line)
  | 'c' => some (.valued .column)
  | 'w' => some (.switch .write)
  | 'h' => some (.switch .help)
  | _ => none

def Valued.name : Valued → String
  | line => "--line"
  | column => "--column"
  | offset => "--offset"
  | language => "--language"

def Switch.name : Switch → String
  | write => "--write"
  | json => "--json"
  | help => "--help"

/-! ### Values -/

/-- The largest number that an option takes. -/
def maxNumber : Nat := UInt64.size - 1

/-- Reads a number: digits, with at most one plus sign before them. -/
def number? (value : List Char) : Option Nat :=
  let digits := match value with
    | '+' :: rest => rest
    | _ => value
  if digits.isEmpty || !digits.all Char.isDigit then none
  else
    let n := digits.foldl (fun n c => 10 * n + (c.toNat - '0'.toNat)) 0
    if n ≤ maxNumber then some n else none

/-- What the arguments so far have told. -/
structure Draft where
  input : Option String := none
  line : Option Nat := none
  column : Option Nat := none
  offset : Option Nat := none
  language : Option String := none
  write : Bool := false
  json : Bool := false
deriving DecidableEq, Repr

namespace Draft

def setNumber (old : Option Nat) (v : Valued) (value : List Char) : Except Refusal Nat :=
  match old, number? value with
  | some _, _ => .error (.repeated v.name)
  | none, none => .error (.notANumber (String.ofList value))
  | none, some n => .ok n

def set (d : Draft) (v : Valued) (value : List Char) : Except Refusal Draft :=
  match v with
  | .line => return { d with line := some (← setNumber d.line v value) }
  | .column => return { d with column := some (← setNumber d.column v value) }
  | .offset => return { d with offset := some (← setNumber d.offset v value) }
  | .language =>
    if d.language.isSome then .error (.repeated v.name)
    else .ok { d with language := some (String.ofList value) }

def turnOn (d : Draft) (s : Switch) : Except Refusal Draft :=
  match s with
  | .write => if d.write then .error (.repeated s.name) else .ok { d with write := true }
  | .json => if d.json then .error (.repeated s.name) else .ok { d with json := true }
  | .help => .error .help

def setInput (d : Draft) (input : String) : Except Refusal Draft :=
  if d.input.isSome then .error (.unknownArgument input)
  else if input.isEmpty then .error .emptyInput
  else .ok { d with input := some input }

/-- The options, once every argument is read. -/
def finish (d : Draft) : Except Refusal Options := do
  let input ← match d.input with
    | some input => .ok input
    | none => .error .missingInput
  let cursor ← match d.offset, d.line, d.column with
    | some n, none, none => .ok (.offset n)
    | none, some line, some column => .ok (.lineColumn line column)
    | some _, _, _ => .error .conflictingCursors
    | none, _, _ => .error .missingCursor
  return { input, cursor, language := d.language, write := d.write, json := d.json }

end Draft

/-! ### Arguments -/

/-- Whether an argument stands for itself: everything does that does not begin with a dash, and a
dash alone. -/
def isPlain (argument : String) : Bool := argument == "-" || argument.toList.head? != some '-'

/-- Reads the letters behind a single dash. The option that still waits for its value is given
back. -/
def readLetters (d : Draft) : List Char → Except Refusal (Draft × Option Valued)
  | [] => .ok (d, none)
  | c :: cs =>
    match Name.ofShort c with
    | none => .error (.unknownArgument (String.ofList ['-', c]))
    | some (.switch s) => do readLetters (← d.turnOn s) cs
    | some (.valued v) =>
      match cs with
      | [] => .ok (d, some v)
      | '=' :: value => do return (← d.set v value, none)
      | value => do return (← d.set v value, none)

/-- Reads what stands behind two dashes. -/
def readLong (d : Draft) (body : List Char) : Except Refusal (Draft × Option Valued) :=
  let (name, value) := body.span (· != '=')
  match Name.ofLong name, value with
  | none, _ => .error (.unknownArgument ("--" ++ String.ofList body))
  | some (.switch s), [] => do return (← d.turnOn s, none)
  | some (.switch s), _ => .error (.unexpectedValue s.name)
  | some (.valued v), [] => .ok (d, some v)
  | some (.valued v), _ :: value => do return (← d.set v value, none)

/-- Reads one argument that is neither `--` nor the value of an option. -/
def readArgument (d : Draft) (argument : String) : Except Refusal (Draft × Option Valued) :=
  if isPlain argument then do return (← d.setInput argument, none)
  else match argument.toList with
    | '-' :: '-' :: body => readLong d body
    | _ :: letters => readLetters d letters
    | [] => .error .emptyInput

def readArguments (d : Draft) : List String → Except Refusal Draft
  | [] => .ok d
  | argument :: rest =>
    if argument == "--" then rest.foldlM Draft.setInput d
    else match readArgument d argument with
      | .error refusal => .error refusal
      | .ok (d, none) => readArguments d rest
      | .ok (d, some v) =>
        match rest with
        | value :: rest =>
          if isPlain value then
            match d.set v value.toList with
            | .error refusal => .error refusal
            | .ok d => readArguments d rest
          else .error (.missingValue v.name)
        | [] => .error (.missingValue v.name)

/-- The options that a list of arguments stands for. -/
def Options.ofArguments (arguments : List String) : Except Refusal Options := do
  (← readArguments {} arguments).finish

end VendorSync.CommandLine
