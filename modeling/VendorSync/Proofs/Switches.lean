import VendorSync.CommandLine.Options

/-! Switches in front of the arguments.

`--write` and `--json` can be put before any arguments that are accepted without them: nothing
else is then read differently (`ofArguments_switches`). What has been read of the arguments is a
`Draft`, and each way to read more of them leaves the two switches as they are or turns one on, so
that a draft that ends with both off can be followed with other switches from its start. -/
namespace VendorSync.CommandLine

/-- The same options with these switches. -/
def Options.telling (o : Options) (write json : Bool) : Options := { o with write, json }

/-- The arguments that turn on the switches. -/
def switches (write json : Bool) : List String :=
  (if write then ["--write"] else []) ++ if json then ["--json"] else []

theorem exists_of_bind_eq_ok {ε α β : Type} {x : Except ε α} {f : α → Except ε β} {b : β}
    (h : (x >>= f) = .ok b) : ∃ a, x = .ok a ∧ f a = .ok b := by
  cases x with
  | error => cases h
  | ok a => exact ⟨a, rfl, h⟩

namespace Draft

/-- The same draft with these switches. -/
def telling (d : Draft) (write json : Bool) : Draft := { d with write, json }

/-- Both switches are off. -/
def Plain (d : Draft) : Prop := d.write = false ∧ d.json = false

variable {d d' : Draft} (write json : Bool)

/-! ### One option -/

theorem not_plain_of_turnOn {s : Switch} (h : d.turnOn s = .ok d') : ¬ d'.Plain := by
  cases s <;> simp only [turnOn] at h
  case help => cases h
  all_goals
    split at h
    · cases h
    · cases h
      simp [Plain]

theorem set_telling {v : Valued} {value : List Char} (h : d.set v value = .ok d') :
    (d.telling write json).set v value = .ok (d'.telling write json) ∧ (d'.Plain → d.Plain) := by
  cases v <;> simp only [set] at h
  case language =>
    split at h
    · cases h
    · cases h
      exact ⟨by simp_all [set, telling], id⟩
  all_goals
    obtain ⟨n, hn, h⟩ := exists_of_bind_eq_ok h
    cases h
    exact ⟨by simp only [set, telling, hn]; rfl, id⟩

theorem setInput_telling {input : String} (h : d.setInput input = .ok d') :
    (d.telling write json).setInput input = .ok (d'.telling write json) ∧ (d'.Plain → d.Plain) := by
  simp only [setInput] at h
  split at h
  · cases h
  split at h
  · cases h
  cases h
  exact ⟨by simp_all [setInput, telling], id⟩

theorem finish_telling {o : Options} (h : d.finish = .ok (o.telling false false)) :
    (d.telling write json).finish = .ok (o.telling write json) ∧ d.Plain := by
  obtain ⟨input, line, column, offset, language, w, j⟩ := d
  obtain ⟨input', cursor', language', w', j'⟩ := o
  cases input <;> cases offset <;> cases line <;> cases column <;> cases h <;>
    exact ⟨rfl, rfl, rfl⟩

end Draft

/-! ### One argument -/

section Arguments
variable {d d' : Draft} (write json : Bool)

/-- Reading goes on the same way from a draft with other switches, if none is turned on. -/
theorem readLetters_telling {letters : List Char} {waiting : Option Valued}
    (h : readLetters d letters = .ok (d', waiting)) (hplain : d'.Plain) :
    readLetters (d.telling write json) letters = .ok (d'.telling write json, waiting) ∧ d.Plain := by
  induction letters generalizing d with
  | nil =>
    cases h
    exact ⟨rfl, hplain⟩
  | cons c cs ih =>
    rw [readLetters] at h ⊢
    split at h
    · cases h
    · obtain ⟨d₁, hd₁, h⟩ := exists_of_bind_eq_ok h
      exact absurd (ih h).2 (Draft.not_plain_of_turnOn hd₁)
    · split at h
      · cases h
        exact ⟨rfl, hplain⟩
      all_goals
        obtain ⟨d₁, hd₁, h⟩ := exists_of_bind_eq_ok h
        cases h
        obtain ⟨hset, hback⟩ := Draft.set_telling write json hd₁
        exact ⟨by rw [hset]; rfl, hback hplain⟩

theorem readLong_telling {body : List Char} {waiting : Option Valued}
    (h : readLong d body = .ok (d', waiting)) (hplain : d'.Plain) :
    readLong (d.telling write json) body = .ok (d'.telling write json, waiting) ∧ d.Plain := by
  simp only [readLong] at h ⊢
  split at h
  · cases h
  · obtain ⟨d₁, hd₁, h⟩ := exists_of_bind_eq_ok h
    cases h
    exact absurd hplain (Draft.not_plain_of_turnOn hd₁)
  · cases h
  · cases h
    exact ⟨rfl, hplain⟩
  · obtain ⟨d₁, hd₁, h⟩ := exists_of_bind_eq_ok h
    cases h
    obtain ⟨hset, hback⟩ := Draft.set_telling write json hd₁
    exact ⟨by rw [hset]; rfl, hback hplain⟩

theorem readArgument_telling {argument : String} {waiting : Option Valued}
    (h : readArgument d argument = .ok (d', waiting)) (hplain : d'.Plain) :
    readArgument (d.telling write json) argument = .ok (d'.telling write json, waiting) ∧
      d.Plain := by
  rw [readArgument] at h ⊢
  split at h
  next hargument =>
    obtain ⟨d₁, hd₁, h⟩ := exists_of_bind_eq_ok h
    cases h
    obtain ⟨hinput, hback⟩ := Draft.setInput_telling write json hd₁
    exact ⟨by rw [if_pos hargument, hinput]; rfl, hback hplain⟩
  next hargument =>
    rw [if_neg hargument]
    split at h
    · exact readLong_telling write json h hplain
    · exact readLetters_telling write json h hplain
    · cases h

theorem foldlM_setInput_telling {inputs : List String}
    (h : inputs.foldlM Draft.setInput d = .ok d') (hplain : d'.Plain) :
    inputs.foldlM Draft.setInput (d.telling write json) = .ok (d'.telling write json) ∧
      d.Plain := by
  induction inputs generalizing d with
  | nil =>
    cases h
    exact ⟨rfl, hplain⟩
  | cons input inputs ih =>
    rw [List.foldlM_cons] at h ⊢
    obtain ⟨d₁, hd₁, h⟩ := exists_of_bind_eq_ok h
    obtain ⟨hrest, hplain₁⟩ := ih h
    obtain ⟨hinput, hback⟩ := Draft.setInput_telling write json hd₁
    exact ⟨by rw [hinput]; exact hrest, hback hplain₁⟩

theorem readArguments_telling {arguments : List String}
    (h : readArguments d arguments = .ok d') (hplain : d'.Plain) :
    readArguments (d.telling write json) arguments = .ok (d'.telling write json) ∧ d.Plain := by
  fun_induction readArguments d arguments with
  | case1 d =>
    cases h
    exact ⟨rfl, hplain⟩
  | case2 d argument rest hargument =>
    rw [readArguments, if_pos hargument]
    exact foldlM_setInput_telling write json h hplain
  | case3 => cases h
  | case4 d argument rest hargument d₁ hd₁ ih =>
    obtain ⟨hrest, hplain₁⟩ := ih h
    obtain ⟨hread, hback⟩ := readArgument_telling write json hd₁ hplain₁
    exact ⟨by rw [readArguments, if_neg hargument, hread]; exact hrest, hback⟩
  | case5 => cases h
  | case6 d argument hargument d₁ v hd₁ value rest hvalue d₂ hd₂ ih =>
    obtain ⟨hrest, hplain₂⟩ := ih h
    obtain ⟨hset, hplain₁⟩ := Draft.set_telling write json hd₂
    obtain ⟨hread, hback⟩ :=
      readArgument_telling write json hd₁ (hplain₁ hplain₂)
    refine ⟨?_, hback⟩
    rw [readArguments, if_neg hargument, hread]
    simp only [hvalue, hset, if_true]
    exact hrest
  | case7 => cases h
  | case8 => cases h

end Arguments

/-- **Switches can be put in front of any arguments** that are accepted without them. -/
theorem ofArguments_switches {arguments : List String} {o : Options}
    (h : Options.ofArguments arguments = .ok (o.telling false false)) (write json : Bool) :
    Options.ofArguments (switches write json ++ arguments) = .ok (o.telling write json) := by
  obtain ⟨d, hd, hfinish⟩ := exists_of_bind_eq_ok h
  obtain ⟨hfinished, hplain⟩ := Draft.finish_telling write json hfinish
  have hread : readArguments {} (switches write json ++ arguments) =
      readArguments (Draft.telling {} write json) arguments := by
    cases write <;> cases json <;> rfl
  rw [Options.ofArguments, hread, (readArguments_telling write json hd hplain).1]
  exact hfinished

end VendorSync.CommandLine
