import Mathlib.Data.List.TakeDrop
import VendorSync.Proofs.Switches

/-! Arguments for any options.

Whatever the input and the language are called, also if they begin with a dash, and wherever the
cursor is, there are arguments that are read as these options (`ofArguments_arguments`): each value
stands behind the equals sign of its option, and the input stands behind `--`. -/
namespace VendorSync.CommandLine

/-! ### Values -/

/-- A number within bounds is read from its digits. -/
theorem number?_toDigits {n : Nat} (h : n ≤ maxNumber) : number? (Nat.toDigits 10 n) = some n := by
  have hdigits : ∀ c ∈ Nat.toDigits 10 n, c.isDigit = true := fun _ hc =>
    Nat.isDigit_of_mem_toDigits (by decide) (by decide) hc
  have hvalue : (Nat.toDigits 10 n).foldl (fun n c => 10 * n + (c.toNat - '0'.toNat)) 0 = n :=
    Nat.ofDigitChars_toDigits (by decide) (by decide)
  have hall : ((Nat.toDigits 10 n).isEmpty || !(Nat.toDigits 10 n).all Char.isDigit) = false := by
    simp [List.all_eq_true.mpr hdigits, Nat.toDigits_ne_nil]
  unfold number?
  split
  next rest hsign =>
    have hplus := hdigits '+' (hsign ▸ List.mem_cons_self)
    exact absurd hplus (by decide)
  · simp only [hall, hvalue, h, Bool.false_eq_true, if_true, if_false]

/-- The numbers of the cursor are small enough to be given. -/
def CursorChoice.Fits : CursorChoice → Prop
  | offset n => n ≤ maxNumber
  | lineColumn line column => line ≤ maxNumber ∧ column ≤ maxNumber

/-! ### Arguments -/

/-- An option together with its value. -/
def Valued.argument (v : Valued) (value : List Char) : String :=
  String.ofList (v.name.toList ++ '=' :: value)

def CursorChoice.arguments : CursorChoice → List String
  | offset n => [Valued.offset.argument (Nat.toDigits 10 n)]
  | lineColumn line column =>
    [Valued.line.argument (Nat.toDigits 10 line), Valued.column.argument (Nat.toDigits 10 column)]

/-- Arguments that are read as the options. -/
def Options.arguments (o : Options) : List String :=
  switches o.write o.json ++ ((o.language.map fun l => Valued.language.argument l.toList).toList ++
    (o.cursor.arguments ++ ["--", o.input]))

theorem Valued.exists_name (v : Valued) : ∃ name, v.name.toList = '-' :: '-' :: name ∧
    Name.ofLong name = some (.valued v) ∧ '=' ∉ name := by
  cases v <;> exact ⟨_, rfl, by decide, by decide⟩

theorem readLong_argument {d d' : Draft} {v : Valued} {name value : List Char}
    (hname : Name.ofLong name = some (.valued v)) (hplain : '=' ∉ name)
    (h : d.set v value = .ok d') : readLong d (name ++ '=' :: value) = .ok (d', none) := by
  have hpos : ∀ c ∈ name, (c != '=') = true := fun c hc => by
    rw [bne_iff_ne]
    exact fun heq => hplain (heq ▸ hc)
  have hspan : (name ++ '=' :: value).span (· != '=') = (name, '=' :: value) := by
    simp [List.span_eq_takeWhile_dropWhile, List.takeWhile_append_of_pos hpos,
      List.dropWhile_append_of_pos hpos]
  simp only [readLong, hspan, hname, h]
  rfl

/-- What stands behind the equals sign is the value, whatever it is. -/
theorem readArguments_argument {d d' : Draft} {v : Valued} {value : List Char}
    (h : d.set v value = .ok d') (rest : List String) :
    readArguments d (v.argument value :: rest) = readArguments d' rest := by
  obtain ⟨name, hdashes, hname, hplain⟩ := v.exists_name
  have hlist : (v.argument value).toList = '-' :: '-' :: (name ++ '=' :: value) := by
    simp [Valued.argument, hdashes]
  have hends : v.argument value ≠ "--" := fun heq => by simp [heq] at hlist
  have halone : v.argument value ≠ "-" := fun heq => by simp [heq] at hlist
  have hread : readArgument d (v.argument value) = .ok (d', none) := by
    simp [readArgument, isPlain, halone, hlist, readLong_argument hname hplain h]
  simp [readArguments, hends, hread]

theorem readArguments_input {d : Draft} (hd : d.input = none) {input : String} (hne : input ≠ "") :
    readArguments d ["--", input] = .ok { d with input := some input } := by
  simp [readArguments, Draft.setInput, hd, hne]

/-- **Any options can be given**: every input with a name, every language, and every cursor whose
numbers are not too large. -/
theorem ofArguments_arguments {o : Options} (hinput : o.input ≠ "") (hfits : o.cursor.Fits) :
    Options.ofArguments o.arguments = .ok o := by
  obtain ⟨input, cursor, language, write, json⟩ := o
  refine ofArguments_switches (o := ⟨input, cursor, language, write, json⟩) ?_ write json
  have hlanguage (rest : List String) :
      readArguments {} ((language.map fun l => Valued.language.argument l.toList).toList ++ rest) =
        readArguments { language } rest := by
    cases language with
    | none => rfl
    | some l => exact readArguments_argument (by simp [Draft.set]) rest
  rw [Options.ofArguments, hlanguage]
  cases cursor with
  | offset n =>
    have hoffset : Draft.set { language } .offset (Nat.toDigits 10 n) =
        .ok { language, offset := some n } := by
      simp only [Draft.set, Draft.setNumber, number?_toDigits hfits]
      rfl
    rw [CursorChoice.arguments, List.singleton_append, readArguments_argument hoffset,
      readArguments_input rfl hinput]
    rfl
  | lineColumn line column =>
    have hline : Draft.set { language } .line (Nat.toDigits 10 line) =
        .ok { language, line := some line } := by
      simp only [Draft.set, Draft.setNumber, number?_toDigits hfits.1]
      rfl
    have hcolumn : Draft.set { language, line := some line } .column (Nat.toDigits 10 column) =
        .ok { language, line := some line, column := some column } := by
      simp only [Draft.set, Draft.setNumber, number?_toDigits hfits.2]
      rfl
    rw [CursorChoice.arguments, List.cons_append, List.singleton_append,
      readArguments_argument hline, readArguments_argument hcolumn, readArguments_input rfl hinput]
    rfl

end VendorSync.CommandLine
