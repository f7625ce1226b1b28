import Mathlib.Tactic.SplitIfs
import VendorSync.Proofs.Lexemes

/-! Characters that no token looks past.

A colon that is a token of its own cuts a text in two: the tokens before it are the same
whatever stands behind it (`lex_fence`). For each scanning function there is one lemma, which
says that it gives the same on both texts unless it goes past the fence. -/
namespace VendorSync.Css.Token

/-- What no name, number or mark goes on with. -/
structure Halts (f : Char) : Prop where
  nameChar : isNameChar f = false
  nameStart : isNameStart f = false
  digit : f.isDigit = false
  backslash : f ≠ '\\'
  signs : f ≠ '-' ∧ f ≠ '+'
  number : f ≠ '.' ∧ f ≠ '%' ∧ f ≠ 'e' ∧ f ≠ 'E'
  parens : f ≠ '(' ∧ f ≠ ')'
  markup : f ≠ '>' ∧ f ≠ '!'
  star : f ≠ '*'
  equals : f ≠ '='

/-- What no token goes on with and no token looks past. -/
structure Fence (f : Char) : Prop extends Halts f where
  space : isSpace f = false
  newline : isNewline f = false
  hex : isHexDigit f = false
  quotes : f ≠ '"' ∧ f ≠ '\''

theorem fence_colon : Fence ':' where
  toHalts := by constructor <;> decide
  space := by decide
  newline := by decide
  hex := by decide
  quotes := by decide

variable {f : Char}

/-! ### Looking ahead -/

theorem head?_fence (x y y' : Text) : (x ++ f :: y).head? = (x ++ f :: y').head? := by
  cases x <;> rfl

theorem startsNewline_fence (x y y' : Text) :
    startsNewline (x ++ f :: y) = startsNewline (x ++ f :: y') := by
  rw [startsNewline, startsNewline, head?_fence x y y']

theorem takeWhile_fence {p : Char → Bool} (hp : p f = false) (x y : Text) :
    (x ++ f :: y).takeWhile p = x.takeWhile p := by
  induction x with
  | nil => simp [hp]
  | cons c x ih => simp only [List.cons_append, List.takeWhile_cons, ih]

theorem dropWhile_fence {p : Char → Bool} (hp : p f = false) (x y : Text) :
    (x ++ f :: y).dropWhile p = x.dropWhile p ++ f :: y := by
  induction x with
  | nil => simp [hp]
  | cons c x ih =>
    simp only [List.cons_append, List.dropWhile_cons, ih]
    split <;> rfl

theorem escapeDigits_fence (hf : Fence f) (x y : Text) :
    escapeDigits (x ++ f :: y) = escapeDigits x := by
  rw [escapeDigits, escapeDigits, List.take_append]
  cases h : 6 - x.length with
  | zero => rw [List.take_zero, List.append_nil]
  | succ n => rw [List.take_succ_cons, takeWhile_fence hf.hex]

theorem escapeDigits_length_le (x : Text) : (escapeDigits x).length ≤ x.length :=
  Nat.le_trans (List.takeWhile_prefix _).length_le (List.length_take_le' 6 x)

theorem newlineLength_cons (c : Char) (cs : Text) : newlineLength (c :: cs) =
    if c = '\r' ∧ cs.head? = some '\n' then 2 else if isNewline c = true then 1 else 0 := by
  by_cases hcr : c = '\r' ∧ cs.head? = some '\n'
  · obtain ⟨rfl, hhead⟩ := hcr
    obtain ⟨ds, rfl⟩ := eq_cons_of_head? hhead
    rfl
  · rw [if_neg hcr]
    unfold newlineLength
    split
    · rename_i h
      cases h
      exact absurd ⟨rfl, rfl⟩ hcr
    · rename_i h
      cases h
      rfl
    · rename_i h
      cases h

theorem newlineLength_fence (hf : Fence f) (x y y' : Text) :
    newlineLength (x ++ f :: y) = newlineLength (x ++ f :: y') := by
  cases x with
  | nil =>
    have hcr : f ≠ '\r' := by
      intro heq
      subst heq
      exact absurd hf.newline (by decide)
    simp [newlineLength_cons, hf.newline, hcr]
  | cons c x => simp only [List.cons_append, newlineLength_cons, head?_fence x y y']

/-- An escape ends before a fence, unless it is the fence that is escaped. -/
theorem escapeLength_fence (hf : Fence f) (x y y' : Text) :
    escapeLength (x ++ f :: y) = escapeLength (x ++ f :: y') := by
  unfold escapeLength
  rw [escapeDigits_fence hf, escapeDigits_fence hf]
  cases hn : (escapeDigits x).length with
  | zero => simp; omega
  | succ n =>
    have hle : n + 1 ≤ x.length := hn ▸ escapeDigits_length_le x
    simp only [List.drop_append_of_le_length hle]
    cases hx : x.drop (n + 1) with
    | nil => simp [hf.newline, hf.space]
    | cons c cs => simp only [List.cons_append, newlineLength_cons, head?_fence cs y y']

theorem startsName_cons (c : Char) (cs : Text) : startsName (c :: cs) =
    if c = '-' then
      cs.head? = some '-' || (cs.head? = some '\\' && !startsNewline cs.tail) ||
        cs.head?.any isNameStart
    else if c = '\\' then !startsNewline cs else isNameStart c := by
  by_cases hdash : c = '-'
  · subst hdash
    rw [if_pos rfl]
    cases cs with
    | nil => rfl
    | cons d ds =>
      by_cases hdash : d = '-'
      · subst hdash
        rfl
      by_cases hslash : d = '\\'
      · subst hslash
        have hname : isNameStart '\\' = false := by decide
        simp [startsName, hname]
      · simp [startsName, hdash, hslash]
  · rw [if_neg hdash]
    by_cases hslash : c = '\\'
    · subst hslash
      rfl
    · simp [startsName, hslash]

theorem startsName_fence (hf : Fence f) (x y y' : Text) :
    startsName (x ++ f :: y) = startsName (x ++ f :: y') := by
  cases x with
  | nil => simp [startsName_cons, hf.signs.1, hf.backslash]
  | cons c x =>
    simp only [List.cons_append, startsName_cons, head?_fence x y y', startsNewline_fence x y y']
    cases x with
    | nil => simp [hf.backslash]
    | cons d x => simp only [List.cons_append, List.tail_cons, startsNewline_fence x y y']

/-! ### Measures that end at a fence -/

theorem nameLength_fence (hf : Fence f) {covered : Nat} {x y : Text}
    (h : nameLength covered (x ++ f :: y) ≤ x.length) (y' : Text) :
    nameLength covered (x ++ f :: y') = nameLength covered (x ++ f :: y) := by
  induction x generalizing covered with
  | nil =>
    cases covered with
    | zero => simp [nameLength, hf.nameChar, hf.backslash]
    | succ n => simp [nameLength] at h
  | cons c x ih =>
    cases covered with
    | succ n =>
      simp only [List.cons_append, nameLength, List.length_cons] at h ⊢
      rw [ih (by omega)]
    | zero =>
      simp only [List.cons_append, nameLength, List.length_cons] at h ⊢
      rw [startsNewline_fence x y' y, escapeLength_fence hf x y' y]
      split_ifs at h ⊢
      · rw [ih (by omega)]
      · rw [ih (by omega)]
      · rfl

theorem stringLength_fence (hf : Fence f) {quote : Char} (hquote : f ≠ quote) {covered : Nat}
    {x y : Text} (h : stringLength quote covered (x ++ f :: y) ≤ x.length) (y' : Text) :
    stringLength quote covered (x ++ f :: y') = stringLength quote covered (x ++ f :: y) := by
  induction x generalizing covered with
  | nil =>
    cases covered with
    | zero => simp [stringLength, hf.newline, hf.backslash, hquote] at h
    | succ n => simp [stringLength] at h
  | cons c x ih =>
    cases covered with
    | succ n =>
      simp only [List.cons_append, stringLength, List.length_cons] at h ⊢
      rw [ih (by omega)]
    | zero =>
      simp only [List.cons_append, stringLength, List.length_cons] at h ⊢
      rw [startsNewline_fence x y' y, escapeLength_fence hf x y' y, newlineLength_fence hf x y' y]
      split_ifs at h ⊢
      · rfl
      · rfl
      · rw [ih (by omega)]
      · rw [ih (by omega)]
      · rw [ih (by omega)]

theorem commentLength_fence (hf : Fence f) {x y : Text}
    (h : commentLength (x ++ f :: y) ≤ x.length) (y' : Text) :
    commentLength (x ++ f :: y') = commentLength (x ++ f :: y) := by
  induction x with
  | nil => simp [commentLength, hf.star] at h
  | cons c x ih =>
    simp only [List.cons_append, commentLength, List.length_cons] at h ⊢
    rw [head?_fence x y' y]
    split_ifs at h ⊢
    · rfl
    · rw [ih (by omega)]

theorem read_fence (hf : Fence f) (part : UrlPart) (c : Char) (x y y' : Text) :
    part.read c (x ++ f :: y') = part.read c (x ++ f :: y) := by
  cases part <;>
    simp only [UrlPart.read, startsNewline_fence x y' y, escapeLength_fence hf x y' y,
      head?_fence x y' y]

theorem urlLength_fence (hf : Fence f) {part : UrlPart} {covered : Nat} {x y : Text}
    (h : urlLength part covered (x ++ f :: y) ≤ x.length) (y' : Text) :
    urlLength part covered (x ++ f :: y') = urlLength part covered (x ++ f :: y) := by
  induction x generalizing part covered with
  | nil =>
    cases covered with
    | zero => simp [urlLength, hf.parens.2, hf.space] at h
    | succ n => simp [urlLength] at h
  | cons c x ih =>
    cases covered with
    | succ n =>
      simp only [List.cons_append, urlLength, List.length_cons] at h ⊢
      rw [ih (by omega)]
    | zero =>
      simp only [List.cons_append, urlLength, List.length_cons] at h ⊢
      rw [read_fence hf part c x y y']
      split_ifs at h ⊢
      · rfl
      all_goals rw [ih (by omega)]

/-! ### Numbers -/

/-- The parts of a number, each measured from its start: the sign, the digits before the dot,
those behind it and the exponent. -/
def signLength (t : Text) : Nat := if t.head? == some '+' || t.head? == some '-' then 1 else 0

def wholeLength (t : Text) : Nat :=
  signLength t + ((t.drop (signLength t)).takeWhile Char.isDigit).length

def plainLength (t : Text) : Nat := wholeLength t + fractionLength (t.drop (wholeLength t))

def scaledLength (t : Text) : Nat := plainLength t + exponentLength (t.drop (plainLength t))

theorem numberLength_eq (t : Text) :
    numberLength t = scaledLength t + unitLength (t.drop (scaledLength t)) := rfl

/-- A measure that is the same before a fence as at the end of the text. -/
def Stops (f : Char) (measure : Text → Nat) : Prop :=
  ∀ x y, measure (x ++ f :: y) = measure x ∧ measure x ≤ x.length

theorem Stops.add {m n : Text → Nat} (hm : Stops f m) (hn : Stops f n) :
    Stops f fun t => m t + n (t.drop (m t)) := by
  intro x y
  obtain ⟨hmeq, hmle⟩ := hm x y
  obtain ⟨hneq, hnle⟩ := hn (x.drop (m x)) y
  simp only [hmeq, List.drop_append_of_le_length hmle, hneq, true_and]
  rw [List.length_drop] at hnle
  omega

theorem stops_takeWhile {p : Char → Bool} (hp : p f = false) :
    Stops f fun t => (t.takeWhile p).length := by
  intro x y
  exact ⟨congrArg _ (takeWhile_fence hp x y), (List.takeWhile_prefix p).length_le⟩

theorem stops_sign (hf : Halts f) : Stops f signLength := by
  intro x y
  cases x with
  | nil => simp [signLength, hf.signs]
  | cons c x =>
    refine ⟨rfl, ?_⟩
    unfold signLength
    split <;> simp

theorem stops_fraction (hf : Halts f) : Stops f fractionLength := by
  intro x y
  cases x with
  | nil =>
    refine ⟨?_, Nat.le_refl _⟩
    show fractionLength (f :: y) = fractionLength []
    unfold fractionLength
    split
    · rename_i h
      exact absurd (List.cons.inj h).1 hf.number.1
    · rfl
  | cons c x =>
    obtain ⟨heq, hle⟩ := stops_takeWhile hf.digit x y
    by_cases hc : c = '.'
    · subst hc
      simp only [List.cons_append, fractionLength, List.length_cons, heq]
      refine ⟨trivial, ?_⟩
      split
      · omega
      · exact Nat.add_comm .. ▸ Nat.succ_le_succ hle
    · simp [fractionLength, hc]

theorem stops_exponent (hf : Halts f) : Stops f exponentLength := by
  intro x y
  cases x with
  | nil => simp [exponentLength, hf.number]
  | cons c x =>
    obtain ⟨hsign, hsignle⟩ := stops_sign hf x y
    have hdigits := takeWhile_fence hf.digit (x.drop (signLength x)) y
    have hle : signLength x + ((x.drop (signLength x)).takeWhile Char.isDigit).length ≤ x.length :=
      ((stops_sign hf).add (stops_takeWhile hf.digit) x y).2
    have hexponent : ∀ t, exponentLength (c :: t) = if c == 'e' || c == 'E' then
        if ((t.drop (signLength t)).takeWhile Char.isDigit).length == 0 then 0
        else 1 + signLength t + ((t.drop (signLength t)).takeWhile Char.isDigit).length else 0 :=
      fun t => rfl
    rw [List.cons_append, hexponent, hexponent, hsign, List.drop_append_of_le_length hsignle, hdigits]
    refine ⟨rfl, ?_⟩
    rw [List.length_cons]
    split_ifs <;> omega

theorem stops_scaled (hf : Halts f) : Stops f scaledLength :=
  (((stops_sign hf).add (stops_takeWhile hf.digit)).add (stops_fraction hf)).add (stops_exponent hf)

theorem numberLength_fence (hf : Fence f) {x y : Text}
    (h : numberLength (x ++ f :: y) ≤ x.length) (y' : Text) :
    numberLength (x ++ f :: y') = numberLength (x ++ f :: y) := by
  obtain ⟨heq, hle⟩ := stops_scaled hf.toHalts x y
  have heq' := (stops_scaled hf.toHalts x y').1
  rw [numberLength_eq, heq, List.drop_append_of_le_length hle] at h
  rw [numberLength_eq, numberLength_eq, heq, heq', List.drop_append_of_le_length hle,
    List.drop_append_of_le_length hle]
  generalize scaledLength x = n at *
  have hlen : (x.drop n).length = x.length - n := List.length_drop
  unfold unitLength at h ⊢
  rw [head?_fence _ y' y, startsName_fence hf _ y' y]
  split_ifs at h ⊢
  · rfl
  · rw [nameLength_fence (y := y) hf (by omega)]
  · rfl

/-! ### Tokens -/

theorem take_fence {n : Nat} {x : Text} (h : n ≤ x.length) (y : Text) :
    (x ++ f :: y).take n = x.take n :=
  List.take_append_of_le_length h

theorem scanName_fence (hf : Fence f) {x y : Text} (h : (scanName (x ++ f :: y)).2 ≤ x.length)
    (y' : Text) : scanName (x ++ f :: y') = scanName (x ++ f :: y) := by
  have hname : nameLength 0 (x ++ f :: y) ≤ x.length := by
    refine Nat.le_trans ?_ h
    unfold scanName
    simp only
    split
    · split
      · simp; omega
      · simp
    · simp
  unfold scanName at h ⊢
  rw [nameLength_fence hf hname]
  simp only [List.drop_append_of_le_length hname, take_fence hname] at h ⊢
  have hlen : (x.drop (nameLength 0 (x ++ f :: y))).length = x.length - nameLength 0 (x ++ f :: y) :=
    List.length_drop
  generalize nameLength 0 (x ++ f :: y) = n at *
  cases hx : x.drop n with
  | nil => simp [hf.parens.1]
  | cons c cs =>
    by_cases hc : c = '('
    · subst hc
      rw [hx] at h hlen
      simp only [List.cons_append, dropWhile_fence hf.space, head?_fence _ y' y,
        List.length_cons] at h hlen ⊢
      split_ifs at h ⊢
      · rw [urlLength_fence (y := y) hf (by omega)]
      · rfl
    · simp [hc]

/-- Whether the digits of a number begin here, or its dot and digits. -/
theorem startsNumber_cons (c : Char) (t : Text) : startsNumber (c :: t) =
    if c == '+' || c == '-' then
      t.head?.any Char.isDigit || (t.head? == some '.' && t.tail.head?.any Char.isDigit)
    else c.isDigit || (c == '.' && t.head?.any Char.isDigit) := by
  unfold startsNumber
  by_cases hc : (c == '+' || c == '-') = true
  · cases t <;> simp [hc]
  · simp [hc]

theorem startsNumber_fence (hf : Fence f) (x y y' : Text) :
    startsNumber (x ++ f :: y) = startsNumber (x ++ f :: y') := by
  have hdot : (f == '.') = false := beq_eq_false_iff_ne.mpr hf.number.1
  cases x with
  | nil => simp [startsNumber_cons, hf.signs, hf.digit, hdot]
  | cons c x =>
    simp only [List.cons_append, startsNumber_cons, head?_fence x y y']
    cases x with
    | nil => simp [hdot]
    | cons d x => simp only [List.cons_append, List.tail_cons, head?_fence x y y']

/-- A beginning of a text that reaches behind the fence is none of other characters. -/
theorem take_ne_fence {l x : Text} (hl : f ∉ l) {n : Nat} (hn : x.length < n) (y : Text) :
    (x ++ f :: y).take n ≠ l := by
  intro heq
  obtain ⟨m, hm⟩ : ∃ m, n - x.length = m + 1 := ⟨n - x.length - 1, by omega⟩
  rw [List.take_append, hm, List.take_succ_cons] at heq
  exact hl (heq ▸ by simp)

/-- Comparing the beginning of a text with characters none of which is the fence. -/
theorem take_beq_fence {l : Text} (hl : f ∉ l) (x y y' : Text) (n : Nat) :
    ((x ++ f :: y).take n == l) = ((x ++ f :: y').take n == l) := by
  by_cases hn : n ≤ x.length
  · rw [take_fence hn, take_fence hn]
  · have hne := take_ne_fence hl (Nat.lt_of_not_le hn)
    rw [beq_eq_false_iff_ne.mpr (hne y), beq_eq_false_iff_ne.mpr (hne y')]

/-- What `scan` asks of the text behind the character `c` has the same answers in both texts: where
it looks ahead, and how far the token runs that it finds. -/
structure ScansAlike (c : Char) (t t' : Text) : Prop where
  star : (t'.head? == some '*') = (t.head? == some '*')
  equals : (t'.head? == some '=') = (t.head? == some '=')
  hashStart : (t'.head?.any fun d => d.isDigit || d == '-') =
    t.head?.any fun d => d.isDigit || d == '-'
  markupEnd : (t'.take 2 == ['-', '>']) = (t.take 2 == ['-', '>'])
  markupStart : (t'.take 3 == ['!', '-', '-']) = (t.take 3 == ['!', '-', '-'])
  startsNumber : startsNumber (c :: t') = startsNumber (c :: t)
  startsName : startsName (c :: t') = startsName (c :: t)
  startsNameBehind : Token.startsName t' = Token.startsName t
  whitespace : scan c t = (.whitespace, (t.takeWhile isSpace).length) →
    t'.takeWhile isSpace = t.takeWhile isSpace
  string : c = '"' ∨ c = '\'' → scan c t = (.string, stringLength c 0 t) →
    stringLength c 0 t' = stringLength c 0 t
  comment : c = '/' → t.head? = some '*' → scan c t = (.comment, 1 + commentLength t.tail) →
    commentLength t'.tail = commentLength t.tail
  number : scan c t = (.number, numberLength (c :: t) - 1) →
    numberLength (c :: t') = numberLength (c :: t)
  name : scan c t = ((scanName (c :: t)).1, (scanName (c :: t)).2 - 1) →
    scanName (c :: t') = scanName (c :: t)
  run : ∀ kind, scan c t = (kind, nameLength 0 t) → nameLength 0 t' = nameLength 0 t

theorem ScansAlike.scan_eq {c : Char} {t t' : Text} (h : ScansAlike c t t') :
    scan c t' = scan c t := by
  generalize hscan : scan c t = token
  have hread := hscan
  unfold scan at hread ⊢
  simp only [h.star, h.equals, h.hashStart, h.markupEnd, h.markupStart, h.startsNumber, h.startsName,
    h.startsNameBehind] at hread ⊢
  by_cases h₁ : isSpace c = true
  · simp only [if_pos h₁] at hread ⊢
    rw [h.whitespace (hscan.trans hread.symm), hread]
  simp only [if_neg h₁] at hread ⊢
  by_cases h₂ : (c == '"' || c == '\'') = true
  · simp only [if_pos h₂] at hread ⊢
    rw [h.string (by simpa using h₂) (hscan.trans hread.symm), hread]
  simp only [if_neg h₂] at hread ⊢
  by_cases h₃ : (c == '/' && t.head? == some '*') = true
  · simp only [if_pos h₃] at hread ⊢
    rw [Bool.and_eq_true, beq_iff_eq, beq_iff_eq] at h₃
    rw [h.comment h₃.1 h₃.2 (hscan.trans hread.symm), hread]
  simp only [if_neg h₃] at hread ⊢
  by_cases h₄ : Token.startsNumber (c :: t) = true
  · simp only [if_pos h₄] at hread ⊢
    rw [h.number (hscan.trans hread.symm), hread]
  simp only [if_neg h₄] at hread ⊢
  by_cases h₅ : (c == '-' && t.take 2 == ['-', '>']) = true
  · simpa only [if_pos h₅] using hread
  simp only [if_neg h₅] at hread ⊢
  by_cases h₆ : (c == '<' && t.take 3 == ['!', '-', '-']) = true
  · simpa only [if_pos h₆] using hread
  simp only [if_neg h₆] at hread ⊢
  by_cases h₇ : Token.startsName (c :: t) = true
  · simp only [if_pos h₇] at hread ⊢
    rw [h.name (hscan.trans hread.symm), hread]
  simp only [if_neg h₇] at hread ⊢
  by_cases h₈ : (c == '#' && (Token.startsName t || t.head?.any fun d => d.isDigit || d == '-')) = true
  · simp only [if_pos h₈] at hread ⊢
    rw [h.run _ (hscan.trans hread.symm), hread]
  simp only [if_neg h₈] at hread ⊢
  by_cases h₉ : (c == '@' && Token.startsName t) = true
  · simp only [if_pos h₉] at hread ⊢
    rw [h.run _ (hscan.trans hread.symm), hread]
  simpa only [if_neg h₉] using hread

theorem scansAlike_fence (hf : Fence f) {c : Char} {x y : Text}
    (h : (scan c (x ++ f :: y)).2 ≤ x.length) (y' : Text) :
    ScansAlike c (x ++ f :: y) (x ++ f :: y') where
  star := by rw [head?_fence x y' y]
  equals := by rw [head?_fence x y' y]
  hashStart := by rw [head?_fence x y' y]
  markupEnd := take_beq_fence (by simp [hf.signs, hf.markup]) x y' y 2
  markupStart := take_beq_fence (by simp [hf.signs, hf.markup]) x y' y 3
  startsNumber := startsNumber_fence hf (c :: x) y' y
  startsName := startsName_fence hf (c :: x) y' y
  startsNameBehind := startsName_fence hf x y' y
  whitespace _ := by rw [takeWhile_fence hf.space, takeWhile_fence hf.space]
  string hc hscan := by
    rw [hscan] at h
    refine stringLength_fence hf (fun heq => ?_) h y'
    exact hc.elim (fun hc => hf.quotes.1 (heq.trans hc)) fun hc => hf.quotes.2 (heq.trans hc)
  comment _ hstar hscan := by
    rw [hscan] at h
    cases x with
    | nil => exact absurd (Option.some.inj hstar) hf.star
    | cons d x =>
      simp only [List.cons_append, List.tail_cons, List.length_cons] at h
      exact commentLength_fence hf (by omega) y'
  number hscan := by
    rw [hscan] at h
    rw [← List.cons_append] at h ⊢
    exact numberLength_fence hf (by rw [List.length_cons]; omega) y'
  name hscan := by
    rw [hscan] at h
    rw [← List.cons_append] at h ⊢
    exact scanName_fence hf (by rw [List.length_cons]; omega) y'
  run kind hscan := by
    rw [hscan] at h
    exact nameLength_fence hf h y'

/-! ### Tokens within the text -/

theorem stringLength_le (quote : Char) (covered : Nat) (t : Text) :
    stringLength quote covered t ≤ t.length := by
  fun_induction stringLength quote covered t <;> simp only [List.length_cons, List.length_nil] <;> omega

theorem commentLength_le (t : Text) : commentLength t ≤ t.length := by
  fun_induction commentLength t with
  | case1 => exact Nat.le_refl _
  | case2 c cs hc =>
    simp only [Bool.and_eq_true, beq_iff_eq] at hc
    obtain ⟨ds, rfl⟩ := eq_cons_of_head? hc.2
    simp
  | case3 c cs _ ih => simp only [List.length_cons]; omega

theorem urlLength_le (part : UrlPart) (covered : Nat) (t : Text) :
    urlLength part covered t ≤ t.length := by
  fun_induction urlLength part covered t <;> simp only [List.length_cons, List.length_nil] <;> omega

theorem numberLength_le (t : Text) : numberLength t ≤ t.length := by
  have hscaled := (stops_scaled fence_colon.toHalts t []).2
  have hunit : ∀ u : Text, unitLength u ≤ u.length := by
    intro u
    unfold unitLength
    split
    · cases u <;> simp_all
    · split
      · exact nameLength_le_length 0 u
      · exact Nat.zero_le _
  have := hunit (t.drop (scaledLength t))
  rw [List.length_drop] at this
  rw [numberLength_eq]
  omega

theorem scanName_le (t : Text) : (scanName t).2 ≤ t.length := by
  have hname := nameLength_le_length 0 t
  unfold scanName
  simp only
  split
  · rename_i cs hdrop
    have hlen := congrArg List.length hdrop
    have hurl := urlLength_le .lead 0 cs
    rw [List.length_drop, List.length_cons] at hlen
    split <;> simp only <;> omega
  · exact hname

theorem scan_le (c : Char) (cs : Text) : (scan c cs).2 ≤ cs.length := by
  have hnumber := numberLength_le (c :: cs)
  have hname := scanName_le (c :: cs)
  rw [List.length_cons] at hnumber hname
  have hscans := scans c cs
  generalize (scan c cs).1 = kind at hscans
  generalize (scan c cs).2 = n at hscans ⊢
  cases hscans with
  | whitespace => exact (List.takeWhile_prefix _).length_le
  | string => exact stringLength_le ..
  | @comment ds _ h =>
    have := commentLength_le ds
    subst h
    rw [List.length_cons]
    omega
  | number | name => omega
  | markupEnd _ h | markupStart _ h | comparison _ h => subst h; simp
  | hash | atKeyword => exact nameLength_le_length 0 cs
  | single => exact Nat.zero_le _

/-- How the first of some tokens is read, and the others behind it. -/
theorem exists_scan_of_lex {token : Token} {rest : List Token} {y : Text}
    (h : lex (source (token :: rest) ++ y) = token :: rest ++ lex y) :
    ∃ c l, token.lexeme = c :: l ∧ scan c (l ++ (source rest ++ y)) = (token.kind, l.length) ∧
      lex (source rest ++ y) = rest ++ lex y := by
  have hne : token.lexeme ≠ [] := lexeme_ne_nil (t := source (token :: rest) ++ y) (by rw [h]; simp)
  obtain ⟨kind, lexeme⟩ := token
  obtain ⟨c, l, rfl⟩ := List.exists_cons_of_ne_nil hne
  rw [source_cons, List.append_assoc, List.cons_append, lex_cons, List.cons_append, List.cons.injEq,
    Token.mk.injEq, List.cons.injEq] at h
  obtain ⟨⟨hkind, -, htake⟩, hrest⟩ := h
  have hlen : (scan c (l ++ (source rest ++ y))).2 = l.length := by
    have hle := scan_le c (l ++ (source rest ++ y))
    have := congrArg List.length htake
    rw [List.length_take] at this
    omega
  rw [hlen, List.drop_left] at hrest
  exact ⟨c, l, rfl, Prod.ext hkind hlen, hrest⟩

theorem lex_of_scan {token : Token} {rest : List Token} {c : Char} {l y : Text}
    (hlexeme : token.lexeme = c :: l)
    (hscan : scan c (l ++ (source rest ++ y)) = (token.kind, l.length)) :
    lex (source (token :: rest) ++ y) = token :: lex (source rest ++ y) := by
  rw [source_cons, hlexeme, List.append_assoc, List.cons_append, lex_cons, hscan, List.take_left,
    List.drop_left, ← hlexeme]

/-- **Tokens before a fence do not depend on what stands behind it.** -/
theorem lex_fence (hf : Fence f) {a : List Token} {y : Text}
    (h : lex (source a ++ f :: y) = a ++ lex (f :: y)) (y' : Text) :
    lex (source a ++ f :: y') = a ++ lex (f :: y') := by
  induction a with
  | nil => rfl
  | cons token a ih =>
    obtain ⟨c, l, hlexeme, hscan, hrest⟩ := exists_scan_of_lex h
    have halike : ScansAlike c (l ++ source a ++ f :: y) (l ++ source a ++ f :: y') := by
      refine scansAlike_fence hf ?_ y'
      rw [List.append_assoc, hscan, List.length_append]
      omega
    rw [List.append_assoc, List.append_assoc] at halike
    rw [lex_of_scan hlexeme (halike.scan_eq.trans hscan), ih hrest, List.cons_append]

/-! ### Texts that are the same up to a colon -/

/-- The texts are the same, or the same up to a colon that is a token of its own. -/
def SameToColon (t t' : Text) : Prop := t = t' ∨ ∃ a y y', t = source a ++ ':' :: y ∧
  t' = source a ++ ':' :: y' ∧ lex t = a ++ lex (':' :: y)

namespace SameToColon
variable {t t' : Text}

theorem head?_eq (h : SameToColon t t') : t.head? = t'.head? := by
  rcases h with rfl | ⟨a, y, y', rfl, rfl, -⟩
  · rfl
  · exact head?_fence _ y y'

/-- Tokens before one of the texts are read before the other. -/
theorem lex_append (h : SameToColon t t') {a : List Token} (ha : lex (source a ++ t) = a ++ lex t) :
    lex (source a ++ t') = a ++ lex t' := by
  rcases h with rfl | ⟨b, y, y', rfl, rfl, hb⟩
  · exact ha
  · have hboth : lex (source (a ++ b) ++ ':' :: y) = (a ++ b) ++ lex (':' :: y) := by
      rw [source_append, List.append_assoc, ha, hb, List.append_assoc]
    have := lex_fence fence_colon hboth y'
    rwa [source_append, List.append_assoc, List.append_assoc, ← lex_fence fence_colon hb y'] at this

theorem append (h : SameToColon t t') {a : List Token} (ha : lex (source a ++ t) = a ++ lex t) :
    SameToColon (source a ++ t) (source a ++ t') := by
  rcases h with rfl | ⟨b, y, y', rfl, rfl, hb⟩
  · exact .inl rfl
  · exact .inr ⟨a ++ b, y, y', by simp, by simp, by rw [ha, hb, List.append_assoc]⟩

end SameToColon

/-! ### Fences as tokens -/

/-- A fence is a token of its own, unless it begins a comment, a mark, a hash, a keyword or a
comparison. -/
theorem lex_single (hf : Fence f) (hplain : f ∉ ['/', '<', '#', '@', '~', '|', '^', '$'])
    (t : Text) : lex (f :: t) = ⟨single f, [f]⟩ :: lex t := by
  have hscan : scan f t = (single f, 0) := by
    have hnumber : startsNumber (f :: t) = false := by
      rw [startsNumber_cons]
      simp [hf.digit, hf.signs, hf.number.1]
    have hname : startsName (f :: t) = false := by
      rw [startsName_cons]
      simp [hf.nameStart, hf.signs.1, hf.backslash]
    simp only [List.mem_cons, not_or] at hplain
    obtain ⟨hslash, hless, hhash, hat, htilde, hbar, hcaret, hdollar, -⟩ := hplain
    unfold scan
    rw [if_neg (by simp [hf.space]), if_neg (by simp [hf.quotes]), if_neg (by simp [hslash]), hnumber,
      hname]
    simp [hf.signs, hless, hhash, hat, htilde, hbar, hcaret, hdollar, hf.star]
  rw [lex_cons, hscan]
  rfl

def colon : Token := ⟨.colon, [':']⟩

theorem lex_colon (t : Text) : lex (':' :: t) = colon :: lex t :=
  lex_single fence_colon (by decide) t

end VendorSync.Css.Token
