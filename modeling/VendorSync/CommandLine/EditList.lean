import VendorSync.Text.Edit

/-! The edits of a run as a JSON list, indented by two spaces.

An edit is an object with the members `range`, which holds `start` and `end`, and `new_text`.
In strings only quotes, backslashes and control characters are escaped. -/
namespace VendorSync.CommandLine.EditList

/-- A digit of the hexadecimal system, in lower case. -/
def hexDigit (n : Nat) : Char :=
  if n < 10 then Char.ofNat ('0'.toNat + n) else Char.ofNat ('a'.toNat + (n - 10))

/-- A character within a JSON string. -/
def encodeChar (c : Char) : Text :=
  match c with
  | '"' => ['\\', '"']
  | '\\' => ['\\', '\\']
  | '\x08' => ['\\', 'b']
  | '\t' => ['\\', 't']
  | '\n' => ['\\', 'n']
  | '\x0c' => ['\\', 'f']
  | '\r' => ['\\', 'r']
  | c =>
    if c.toNat < 0x20 then
      ['\\', 'u', '0', '0', hexDigit (c.toNat / 16), hexDigit (c.toNat % 16)]
    else [c]

def encodeString (t : Text) : Text := ['"'] ++ t.flatMap encodeChar ++ ['"']

def encodeNumber (n : Nat) : Text := Nat.toDigits 10 n

def encodeEdit (e : Edit) : Text :=
  "  \x7b\n    \"range\": \x7b\n      \"start\": ".toList ++ encodeNumber e.span.start ++
    ",\n      \"end\": ".toList ++ encodeNumber e.span.stop ++
    "\n    \x7d,\n    \"new_text\": ".toList ++ encodeString e.replacement ++ "\n  \x7d".toList

/-- The list as it is printed, with a line break behind it. -/
def encode : List Edit → Text
  | [] => "[]\n".toList
  | e :: es =>
    "[\n".toList ++ encodeEdit e ++ es.flatMap (fun e => ",\n".toList ++ encodeEdit e) ++
      "\n]\n".toList

end VendorSync.CommandLine.EditList
