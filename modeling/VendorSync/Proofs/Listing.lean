import VendorSync.CommandLine.EditList
import VendorSync.Proofs.Json

/-! A printed list of edits can be read back.

Whatever the texts of the edits hold, also quotes and control characters, the list as it is printed
is JSON, and what it stands for is the list itself (`decode_encode`). -/
namespace VendorSync.CommandLine.EditList
open Json

/-! ### Reading a list -/

/-- The edit that a value stands for. -/
def edit? (v : Json) : Option Edit := do
  let range ← v.member? "range"
  let start ← (← range.member? "start").number?
  let stop ← (← range.member? "end").number?
  let replacement ← (← v.member? "new_text").string?
  return ⟨⟨start, stop⟩, replacement⟩

/-- The edits that a text lists. -/
def decode (t : Text) : Option (List Edit) := do
  let items ← (← Json.ofText? t).items?
  items.mapM edit?

/-! ### Characters -/

section Digits
variable {d : Nat} (h : d < 10)
include h

theorem digitValue_digitChar : digitValue d.digitChar = d := by
  rw [digitValue, Nat.toNat_digitChar_of_lt_ten h, show '0'.toNat = 48 from rfl,
    Nat.add_sub_cancel_left]

theorem isDigit_digitChar : d.digitChar.isDigit = true := by
  rw [Nat.isDigit_digitChar, decide_eq_true h]

end Digits

/-- The digits of a number are read as its value, one by one from the first. -/
theorem run_encodeNumber (n : Nat) :
    Place.outside.run (encodeNumber n) = some ([], .number n) := by
  induction n using Nat.strongRecOn with
  | ind n ih =>
    by_cases hn : n < 10
    · simp [encodeNumber, Nat.toDigits_of_lt_base hn, Place.run, Place.step, Place.begin?,
        isDigit_digitChar hn, digitValue_digitChar hn]
    · have hlast : n % 10 < 10 := Nat.mod_lt n (by decide)
      have hfirst : n / 10 ≠ 0 := by omega
      have hsplit : encodeNumber n = encodeNumber (n / 10) ++ [(n % 10).digitChar] := by
        rw [encodeNumber, encodeNumber, ← Nat.toDigits_of_lt_base hlast,
          Nat.toDigits_append_toDigits (by decide) (Nat.pos_of_ne_zero hfirst) hlast, Nat.div_add_mod]
      have hstep : (Place.number (n / 10)).run [(n % 10).digitChar] = some ([], .number n) := by
        simp only [Place.run_singleton, Place.step, isDigit_digitChar hlast,
          digitValue_digitChar hlast, hfirst, if_true, if_false, Nat.div_add_mod]
      rw [hsplit]
      exact Place.run_append (ih (n / 10) (by omega)) hstep

theorem hexValue?_hexDigit : ∀ d < 16, hexValue? (hexDigit d) = some d := by decide

/-- An escape by code stands for its character. -/
theorem run_code {c : Char} (h : c.toNat < 0x20) (read : Text) :
    (Place.string read).run
      ['\\', 'u', '0', '0', hexDigit (c.toNat / 16), hexDigit (c.toNat % 16)] =
      some ([], .string (c :: read)) := by
  have hhigh := hexValue?_hexDigit (c.toNat / 16) (by omega)
  have hlow := hexValue?_hexDigit (c.toNat % 16) (by omega)
  have hzero : hexValue? '0' = some 0 := rfl
  have hvalid : c.toNat.isValidChar := c.valid
  simp [Place.run, Place.step, hzero, hhigh, hlow, Nat.div_add_mod, hvalid]

theorem run_encodeChar (c : Char) (read : Text) :
    (Place.string read).run (encodeChar c) = some ([], .string (c :: read)) := by
  unfold encodeChar
  split
  case h_8 hquote hbackslash _ _ _ _ _ =>
    split
    · exact run_code ‹_› read
    · rw [Place.run_singleton, Place.step, if_neg hquote, if_neg hbackslash, if_neg ‹_›]
  all_goals rfl

/-- Inside of a string every text is read as it was before its escapes. -/
theorem run_flatMap_encodeChar (t read : Text) :
    (Place.string read).run (t.flatMap encodeChar) = some ([], .string (t.reverse ++ read)) := by
  induction t generalizing read with
  | nil => rfl
  | cons c t ih =>
    rw [List.flatMap_cons, List.reverse_cons, List.append_assoc, List.singleton_append]
    exact Place.run_append (run_encodeChar c read) (ih (c :: read))

theorem run_encodeString (t : Text) :
    Place.outside.run (encodeString t) = some ([.string t], .outside) := by
  have hclose : (Place.string (t.reverse ++ [])).run ['"'] = some ([.string t], .outside) := by
    simp [Place.run, Place.step]
  have hopen : Place.outside.run ['"'] = some ([], .string []) := rfl
  exact Place.run_append (Place.run_append hopen (run_flatMap_encodeChar t [])) hclose

/-! ### Tokens -/

/-- The tokens of an edit. -/
def tokens (e : Edit) : List Token :=
  [.openObject, .string "range".toList, .colon, .openObject, .string "start".toList, .colon,
    .number e.span.start, .comma, .string "end".toList, .colon, .number e.span.stop, .closeObject,
    .comma, .string "new_text".toList, .colon, .string e.replacement, .closeObject]

theorem run_encodeEdit (e : Edit) : Place.outside.run (encodeEdit e) = some (tokens e, .outside) := by
  have hopen : Place.outside.run "  \x7b\n    \"range\": \x7b\n      \"start\": ".toList =
      some ([.openObject, .string "range".toList, .colon, .openObject, .string "start".toList,
        .colon], .outside) := rfl
  have hmiddle (n : Nat) : (Place.number n).run ",\n      \"end\": ".toList =
      some ([.number n, .comma, .string "end".toList, .colon], .outside) := rfl
  have hbehind (n : Nat) : (Place.number n).run "\n    \x7d,\n    \"new_text\": ".toList =
      some ([.number n, .closeObject, .comma, .string "new_text".toList, .colon], .outside) := rfl
  have hclose : Place.outside.run "\n  \x7d".toList = some ([.closeObject], .outside) := rfl
  have hstart := Place.run_append hopen (run_encodeNumber e.span.start)
  have hstop := Place.run_append (Place.run_append hstart (hmiddle _)) (run_encodeNumber e.span.stop)
  have hrun := Place.run_append (Place.run_append (Place.run_append hstop (hbehind _))
    (run_encodeString e.replacement)) hclose
  unfold encodeEdit
  rw [hrun]
  rfl

theorem tokens?_encode (e : Edit) (es : List Edit) :
    tokens? (encode (e :: es)) =
      some (.openArray :: tokens e ++ es.flatMap (fun e => .comma :: tokens e) ++ [.closeArray]) := by
  have hmore : Place.outside.run (es.flatMap fun e => ",\n".toList ++ encodeEdit e) =
      some (es.flatMap fun e => .comma :: tokens e, .outside) := by
    induction es with
    | nil => rfl
    | cons e es ih =>
      have hcomma : Place.outside.run ",\n".toList = some ([.comma], .outside) := rfl
      rw [List.flatMap_cons, List.flatMap_cons,
        Place.run_append (Place.run_append hcomma (run_encodeEdit e)) ih]
      rfl
  have hopen : Place.outside.run "[\n".toList = some ([.openArray], .outside) := rfl
  have hclose : Place.outside.run "\n]\n".toList = some ([.closeArray], .outside) := rfl
  have hrun := Place.run_append
    (Place.run_append (Place.run_append hopen (run_encodeEdit e)) hmore) hclose
  rw [tokens?, encode, hrun]
  rfl

/-! ### Values -/

/-- The value of an edit. -/
def value (e : Edit) : Json :=
  .object [("range".toList, .object [("start".toList, .number e.span.start),
    ("end".toList, .number e.span.stop)]), ("new_text".toList, .string e.replacement)]

theorem edit?_value (e : Edit) : edit? (value e) = some e := rfl

theorem run_tokens (frames : List Frame) (e : Edit) :
    Stage.value.run frames (tokens e) = some (frames, .behind (value e)) := rfl

theorem run_tokens_firstItem (frames : List Frame) (e : Edit) :
    Stage.firstItem.run frames (tokens e) = some (.array [] :: frames, .behind (value e)) := rfl

theorem run_more (before : List Json) (v : Json) (es : List Edit) :
    (Stage.behind v).run [.array before] (es.flatMap (fun e => .comma :: tokens e) ++ [.closeArray]) =
      some ([], .behind (.array (before.reverse ++ v :: es.map value))) := by
  induction es generalizing before v with
  | nil => simp [Stage.run, Stage.step]
  | cons e es ih =>
    have hstep : (Stage.behind v).run [.array before] (.comma :: tokens e) =
        some ([.array (v :: before)], .behind (value e)) :=
      (Stage.run_cons rfl _).trans (run_tokens _ e)
    rw [List.flatMap_cons, List.append_assoc, Stage.run_append hstep, ih]
    simp

theorem ofText?_encode (edits : List Edit) :
    Json.ofText? (encode edits) = some (.array (edits.map value)) := by
  cases edits with
  | nil => rfl
  | cons e es =>
    have hfirst : Stage.value.run [] (.openArray :: tokens e) =
        some ([.array []], .behind (value e)) :=
      (Stage.run_cons rfl _).trans (run_tokens_firstItem [] e)
    have hrun : Stage.value.run []
        (.openArray :: tokens e ++ es.flatMap (fun e => .comma :: tokens e) ++ [.closeArray]) =
        some ([], .behind (.array (value e :: es.map value))) := by
      rw [List.append_assoc, Stage.run_append hfirst, run_more]
      rfl
    rw [Json.ofText?, tokens?_encode, Option.bind_eq_bind, Option.bind_some, hrun]
    rfl

/-- What is printed is read back as the list that it was made of. -/
theorem decode_encode (edits : List Edit) : decode (encode edits) = some edits := by
  have hitems : (edits.map value).mapM edit? = some edits := by
    induction edits with
    | nil => rfl
    | cons e es ih => simp [edit?_value, ih]
  simp [decode, ofText?_encode, items?, hitems]

end VendorSync.CommandLine.EditList
