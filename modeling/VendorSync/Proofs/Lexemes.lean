import Mathlib.Data.List.Basic
import Mathlib.Data.List.TakeDrop
import Mathlib.Data.List.TakeWhile
import VendorSync.Css.Token.Lexer

/-! Where tokens begin and end.

White space is a longest run of blanks, and no other token begins with a blank. Another token
may end with one, but where a blank follows only by an escape (`endsWithEscape_of_blank`), and so
never with two (`not_two_blanks`): this keeps the ends of tokens out of the inside of a blanked
comment. -/
namespace VendorSync.Css.Token

theorem eq_of_isSpace {d : Char} (h : isSpace d = true) :
    d = ' ' ∨ d = '\t' ∨ d = '\n' ∨ d = '\r' ∨ d = '\x0c' := by
  simpa [isSpace, isNewline, or_assoc] using h

/-! ### Blanks at the end of a text -/

/-- A backslash and at most six hexadecimal digits, which a blank behind them would belong to. -/
def EndsWithEscape (t : Text) : Prop := ∃ l digits, t = l ++ '\\' :: digits ∧
  (∀ c ∈ digits, isHexDigit c = true) ∧ digits.length ≤ 6

/-- If the text ends with a blank, this belongs to an escape. -/
def EndsEscaped (t : Text) : Prop := ∀ l, t = l ++ [' '] → EndsWithEscape l

theorem EndsWithEscape.append_left {t : Text} (h : EndsWithEscape t) (a : Text) :
    EndsWithEscape (a ++ t) := by
  obtain ⟨l, digits, rfl, hdigits, hlen⟩ := h
  exact ⟨a ++ l, digits, (List.append_assoc ..).symm, hdigits, hlen⟩

theorem EndsWithEscape.last {t : Text} (h : EndsWithEscape t) :
    ∀ c ∈ t.getLast?, c = '\\' ∨ isHexDigit c = true := by
  obtain ⟨l, digits, rfl, hdigits, -⟩ := h
  intro c hc
  rw [List.getLast?_append_of_ne_nil _ (List.cons_ne_nil _ _)] at hc
  exact (List.mem_cons.mp (List.mem_of_getLast? hc)).imp_right (hdigits c)

theorem EndsWithEscape.getLast?_ne {t : Text} (h : EndsWithEscape t) : t.getLast? ≠ some ' ' :=
  fun hlast => absurd (h.last ' ' hlast) (by decide)

theorem endsEscaped_concat {d : Char} (hd : d ≠ ' ') (t : Text) : EndsEscaped (t ++ [d]) := by
  intro l hl
  exact absurd (List.cons.inj (List.append_inj' hl rfl).2).1 hd

theorem endsEscaped_of_ne {t : Text} (h : ∀ c ∈ t, c ≠ ' ') : EndsEscaped t := by
  intro l hl
  exact absurd rfl (h ' ' (by rw [hl]; simp))

theorem EndsEscaped.append {a b : Text} (ha : EndsEscaped a) (hb : EndsEscaped b) :
    EndsEscaped (a ++ b) := by
  intro l hl
  rcases List.eq_nil_or_concat' b with rfl | ⟨b, d, rfl⟩
  · exact ha l (by simpa using hl)
  · rw [← List.append_assoc] at hl
    obtain ⟨rfl, hd⟩ := List.append_inj' hl rfl
    exact (hb b (by rw [hd])).append_left a

/-! ### Names -/

/-- An escape is some digits and at most a character or a line break behind them. -/
theorem take_escapeLength (t : Text) : ∃ digits rest, t.take (escapeLength t) = digits ++ rest ∧
    (∀ c ∈ digits, isHexDigit c = true) ∧ digits.length ≤ 6 ∧
    (rest.length ≤ 1 ∨ rest = ['\r', '\n']) := by
  have hprefix : escapeDigits t <+: t := (List.takeWhile_prefix _).trans (List.take_prefix 6 t)
  have hdigits : ∀ c ∈ t.take (escapeDigits t).length, isHexDigit c = true := by
    rw [← List.prefix_iff_eq_take.mp hprefix]
    exact fun c hc => List.mem_takeWhile_imp hc
  have hlen : (t.take (escapeDigits t).length).length ≤ 6 := by
    rw [← List.prefix_iff_eq_take.mp hprefix]
    exact (List.takeWhile_prefix _).length_le.trans (List.length_take_le 6 t)
  unfold escapeLength
  split
  · refine ⟨[], _, (List.nil_append _).symm, by simp, by simp, .inl ?_⟩
    exact (List.length_take_le ..).trans (Nat.min_le_left ..)
  · split
    · rename_i c cs hdrop
      split
      · refine ⟨_, _, List.take_add, hdigits, hlen, ?_⟩
        rw [hdrop]
        unfold newlineLength
        split
        · rename_i heq
          cases heq
          exact .inr rfl
        · exact .inl (by split <;> simp)
        · exact .inl (by simp)
      · split
        · exact ⟨_, _, List.take_add, hdigits, hlen, .inl (List.length_take_le ..)⟩
        · exact ⟨_, [], (List.append_nil _).symm, hdigits, hlen, .inl (by simp)⟩
    · exact ⟨_, [], (List.append_nil _).symm, hdigits, hlen, .inl (by simp)⟩

theorem endsEscaped_escape (t : Text) : EndsEscaped ('\\' :: t.take (escapeLength t)) := by
  obtain ⟨digits, rest, heq, hdigits, hlen, hrest⟩ := take_escapeLength t
  rw [heq, ← List.cons_append]
  intro l hl
  rcases List.eq_nil_or_concat' rest with rfl | ⟨rest, d, rfl⟩
  · -- the digits are no blanks
    have hne : EndsWithEscape ('\\' :: digits) := ⟨[], digits, rfl, hdigits, hlen⟩
    rw [List.append_nil] at hl
    exact absurd (by rw [hl, List.getLast?_concat]) hne.getLast?_ne
  · rw [← List.append_assoc] at hl
    obtain ⟨rfl, hd⟩ := List.append_inj' hl rfl
    have hnil : rest = [] := by
      rcases hrest with hone | hbreak
      · simpa using hone
      · have := congrArg List.getLast? hbreak
        rw [List.getLast?_concat] at this
        simp_all
    subst hnil
    exact ⟨[], digits, by simp, hdigits, hlen⟩

theorem nameLength_eq_add (covered : Nat) (t : Text) :
    nameLength covered t = min covered t.length + nameLength 0 (t.drop covered) := by
  induction t generalizing covered with
  | nil => simp [nameLength]
  | cons c cs ih => cases covered with
    | zero => simp
    | succ n => simp only [nameLength, ih n, List.drop_succ_cons, List.length_cons]; omega

theorem take_min_length_add (k n : Nat) (t : Text) :
    t.take (min k t.length + n) = t.take k ++ (t.drop k).take n := by
  rcases Nat.le_total k t.length with h | h
  · rw [Nat.min_eq_left h, List.take_add]
  · rw [Nat.min_eq_right h, List.drop_eq_nil_of_le h, List.take_nil, List.append_nil,
      List.take_of_length_le (by omega), List.take_of_length_le h]

theorem endsEscaped_name (t : Text) : EndsEscaped (t.take (nameLength 0 t)) := by
  induction hn : t.length using Nat.strongRecOn generalizing t with
  | _ n ih =>
    cases t with
    | nil => exact endsEscaped_of_ne (by simp)
    | cons c cs =>
      rw [List.length_cons] at hn
      rw [nameLength]
      split
      · rename_i hc
        have hone : EndsEscaped [c] := endsEscaped_of_ne fun d hd heq => by
          obtain rfl := List.mem_singleton.mp hd
          subst heq
          exact absurd hc (by decide)
        rw [Nat.add_comm, List.take_succ_cons]
        exact hone.append (ih _ (by omega) cs rfl)
      · split
        · rename_i hc
          simp only [Bool.and_eq_true, beq_iff_eq] at hc
          obtain ⟨rfl, -⟩ := hc
          rw [Nat.add_comm, List.take_succ_cons, nameLength_eq_add, take_min_length_add,
            ← List.cons_append]
          exact (endsEscaped_escape cs).append (ih _ (by rw [List.length_drop]; omega) _ rfl)
        · exact endsEscaped_of_ne (by simp)

/-! ### Tokens with an end of their own -/

/-- A string that a blank follows has its closing quote. -/
theorem stringLength_end {quote : Char} {covered : Nat} {t rest : Text}
    (h : t.drop (stringLength quote covered t) = ' ' :: rest) :
    ∃ l, t.take (stringLength quote covered t) = l ++ [quote] := by
  fun_induction stringLength quote covered t with
  | case1 => simp at h
  | case2 covered c cs ih | case5 c cs _ _ _ ih | case6 c cs _ _ _ ih =>
    rw [Nat.add_comm, List.drop_succ_cons] at h
    obtain ⟨l, hl⟩ := ih h
    exact ⟨c :: l, by rw [Nat.add_comm, List.take_succ_cons, hl, List.cons_append]⟩
  | case3 c cs hq =>
    rw [beq_iff_eq] at hq
    exact ⟨[], by simp [hq]⟩
  | case4 c cs hq hnl =>
    rw [List.drop_zero, List.cons.injEq] at h
    rw [h.1] at hnl
    exact absurd hnl (by decide)

/-- A comment that something follows has its closing slash. -/
theorem commentLength_end {t : Text} (h : t.drop (commentLength t) ≠ []) :
    ∃ l, t.take (commentLength t) = l ++ ['/'] := by
  fun_induction commentLength t with
  | case1 => simp at h
  | case2 c cs hc =>
    simp only [Bool.and_eq_true, beq_iff_eq] at hc
    obtain ⟨rfl, hc⟩ := hc
    cases cs with
    | nil => simp at hc
    | cons d ds =>
      obtain rfl : d = '/' := by simpa using hc
      exact ⟨['*'], rfl⟩
  | case3 c cs _ ih =>
    rw [Nat.add_comm, List.drop_succ_cons] at h
    obtain ⟨l, hl⟩ := ih h
    exact ⟨c :: l, by rw [Nat.add_comm, List.take_succ_cons, hl, List.cons_append]⟩

/-- An address that something follows has its closing parenthesis. -/
theorem urlLength_end {part : UrlPart} {covered : Nat} {t : Text}
    (h : t.drop (urlLength part covered t) ≠ []) :
    ∃ l, t.take (urlLength part covered t) = l ++ [')'] := by
  fun_induction urlLength part covered t with
  | case1 => simp at h
  | case2 part covered c cs ih | case4 part c cs _ _ ih | case5 part c cs _ _ _ _ _ ih =>
    rw [Nat.add_comm, List.drop_succ_cons] at h
    obtain ⟨l, hl⟩ := ih h
    exact ⟨c :: l, by rw [Nat.add_comm, List.take_succ_cons, hl, List.cons_append]⟩
  | case3 part c cs hc =>
    rw [beq_iff_eq] at hc
    exact ⟨[], by simp [hc]⟩

/-! ### Numbers -/

/-- The first characters of the text are not blanks. -/
def Solid (n : Nat) (t : Text) : Prop := ∀ c ∈ t.take n, c ≠ ' '

theorem Solid.add {m n : Nat} {t : Text} (hm : Solid m t) (hn : Solid n (t.drop m)) :
    Solid (m + n) t := by
  intro c hc
  rw [List.take_add, List.mem_append] at hc
  exact hc.elim (hm c) (hn c)

theorem solid_zero (t : Text) : Solid 0 t := by simp [Solid]

theorem solid_takeWhile {p : Char → Bool} (hp : p ' ' = false) (t : Text) :
    Solid (t.takeWhile p).length t := by
  intro c hc heq
  subst heq
  rw [← List.prefix_iff_eq_take.mp (List.takeWhile_prefix p)] at hc
  rw [List.mem_takeWhile_imp hc] at hp
  cases hp

theorem solid_sign (t : Text) :
    Solid (if t.head? == some '+' || t.head? == some '-' then 1 else 0) t := by
  split
  · rename_i h
    cases t with
    | nil => simp [Solid]
    | cons c cs =>
      intro d hd heq
      subst heq
      obtain rfl : ' ' = c := by simpa using hd
      simp at h
  · exact solid_zero t

theorem solid_fraction (t : Text) : Solid (fractionLength t) t := by
  unfold fractionLength
  split
  · rename_i cs
    simp only
    split
    · exact solid_zero _
    · exact Solid.add (m := 1) (by simp [Solid]) (solid_takeWhile (by decide) cs)
  · exact solid_zero _

theorem solid_exponent (t : Text) : Solid (exponentLength t) t := by
  unfold exponentLength
  split
  · rename_i c cs
    simp only
    split
    · rename_i hc
      have hone : Solid 1 (c :: cs) := by
        intro d hd heq
        subst heq
        obtain rfl : ' ' = c := by simpa using hd
        simp at hc
      have hsign := solid_sign cs
      generalize (if cs.head? == some '+' || cs.head? == some '-' then 1 else 0) = sign at hsign ⊢
      split
      · exact solid_zero _
      · apply (hone.add (n := sign) hsign).add
        rw [Nat.add_comm 1, List.drop_succ_cons]
        exact solid_takeWhile (by decide) _
    · exact solid_zero _
  · exact solid_zero _

theorem endsEscaped_unit (t : Text) : EndsEscaped (t.take (unitLength t)) := by
  unfold unitLength
  split
  · rename_i h
    cases t with
    | nil => simp at h
    | cons c cs =>
      obtain rfl : c = '%' := by simpa using h
      exact endsEscaped_of_ne (by simp)
  · split
    · exact endsEscaped_name t
    · exact endsEscaped_of_ne (by simp)

theorem endsEscaped_number (t : Text) : EndsEscaped (t.take (numberLength t)) := by
  have hsolid := (((solid_sign t).add (solid_takeWhile (p := Char.isDigit) (by decide) _)).add
    (solid_fraction _)).add (solid_exponent _)
  rw [numberLength, List.take_add]
  exact (endsEscaped_of_ne hsolid).append (endsEscaped_unit _)

/-! ### All tokens -/

/-- A name that a blank follows, with the address or the parenthesis behind it. -/
theorem scanName_end {t rest : Text} (h : t.drop (scanName t).2 = ' ' :: rest) :
    EndsEscaped (t.take (scanName t).2) := by
  unfold scanName at h ⊢
  simp only at h ⊢
  split
  · rename_i cs hdrop
    have hparen : t.take (nameLength 0 t + 1) = t.take (nameLength 0 t) ++ ['('] := by
      rw [List.take_add, hdrop, List.take_succ_cons, List.take_zero]
    split
    · rename_i hurl
      have hrest : t.drop (nameLength 0 t + 1) = cs := by
        rw [← List.drop_drop, hdrop, List.drop_succ_cons, List.drop_zero]
      simp only [hdrop, hurl, if_true] at h
      rw [← List.drop_drop, hrest] at h
      obtain ⟨l, hl⟩ := urlLength_end (by rw [h]; simp)
      rw [List.take_add, hrest, hl, ← List.append_assoc]
      exact endsEscaped_concat (by decide) _
    · rw [hparen]
      exact endsEscaped_concat (by decide) _
  · exact endsEscaped_name t

/-- A measure of a text from its first character on, and the same from its second. -/
theorem take_pred {c : Char} {cs : Text} {n : Nat} (hn : n ≠ 0) :
    c :: cs.take (n - 1) = (c :: cs).take n ∧ cs.drop (n - 1) = (c :: cs).drop n := by
  obtain ⟨k, rfl⟩ := Nat.exists_eq_succ_of_ne_zero hn
  exact ⟨rfl, rfl⟩

/-- What a token is that begins with `c` when `cs` follows. -/
inductive Scans (c : Char) (cs : Text) : Kind → Nat → Prop
  | whitespace : isSpace c = true → Scans c cs .whitespace (cs.takeWhile isSpace).length
  | string : isSpace c = false → c = '"' ∨ c = '\'' → Scans c cs .string (stringLength c 0 cs)
  | comment {ds} : c = '/' → cs = '*' :: ds → Scans c cs .comment (1 + commentLength ds)
  | number : isSpace c = false → Scans c cs .number (numberLength (c :: cs) - 1)
  | markupEnd {ds} : c = '-' → cs = '-' :: '>' :: ds → Scans c cs .markup 2
  | markupStart {ds} : c = '<' → cs = '!' :: '-' :: '-' :: ds → Scans c cs .markup 3
  | name : isSpace c = false → Scans c cs (scanName (c :: cs)).1 ((scanName (c :: cs)).2 - 1)
  | hash : c = '#' → Scans c cs .hash (nameLength 0 cs)
  | atKeyword : c = '@' → Scans c cs .atKeyword (nameLength 0 cs)
  | comparison {ds} : isSpace c = false → cs = '=' :: ds → Scans c cs .comparison 1
  | single : isSpace c = false → Scans c cs (single c) 0

theorem eq_cons_of_head? {cs : Text} {d : Char} (h : cs.head? = some d) : ∃ ds, cs = d :: ds := by
  cases cs with
  | nil => simp at h
  | cons e es => exact ⟨es, by simpa using h⟩

theorem eq_append_of_take {cs l : Text} {n : Nat} (h : cs.take n = l) : ∃ ds, cs = l ++ ds :=
  ⟨cs.drop n, by rw [← h, List.take_append_drop]⟩

theorem scans (c : Char) (cs : Text) : Scans c cs (scan c cs).1 (scan c cs).2 := by
  unfold scan
  split
  · rename_i hc
    exact .whitespace hc
  rename_i hc
  rw [Bool.not_eq_true] at hc
  split
  · rename_i h
    exact .string hc (by simpa using h)
  split
  · rename_i h
    simp only [Bool.and_eq_true, beq_iff_eq] at h
    obtain ⟨ds, rfl⟩ := eq_cons_of_head? h.2
    exact .comment h.1 rfl
  split
  · exact .number hc
  split
  · rename_i h
    simp only [Bool.and_eq_true, beq_iff_eq] at h
    obtain ⟨ds, rfl⟩ := eq_append_of_take h.2
    exact .markupEnd h.1 rfl
  split
  · rename_i h
    simp only [Bool.and_eq_true, beq_iff_eq] at h
    obtain ⟨ds, rfl⟩ := eq_append_of_take h.2
    exact .markupStart h.1 rfl
  split
  · exact .name hc
  split
  · rename_i h
    simp only [Bool.and_eq_true, beq_iff_eq] at h
    exact .hash h.1
  split
  · rename_i h
    simp only [Bool.and_eq_true, beq_iff_eq] at h
    exact .atKeyword h.1
  split
  · rename_i h
    simp only [Bool.and_eq_true, beq_iff_eq] at h
    obtain ⟨ds, rfl⟩ := eq_cons_of_head? h.2
    exact .comparison hc rfl
  · exact .single hc

/-- **A token that a blank follows** is white space, or ends with a blank only by an escape. -/
theorem scans_end {c : Char} {cs rest : Text} {kind : Kind} {n : Nat} (hs : Scans c cs kind n)
    (h : cs.drop n = ' ' :: rest) (hc : isSpace c = false) : EndsEscaped (c :: cs.take n) := by
  have hone : EndsEscaped [c] := endsEscaped_of_ne fun d hd heq => by
    obtain rfl := List.mem_singleton.mp hd
    subst heq
    exact absurd hc (by decide)
  cases hs with
  | whitespace hspace => rw [hc] at hspace; cases hspace
  | string _ hquote =>
    obtain ⟨l, hl⟩ := stringLength_end h
    rw [hl, ← List.cons_append]
    exact endsEscaped_concat (by rcases hquote with rfl | rfl <;> decide) _
  | @comment ds _ hcs =>
    subst hcs
    rw [Nat.add_comm, List.drop_succ_cons] at h
    obtain ⟨l, hl⟩ := commentLength_end (by rw [h]; simp)
    rw [Nat.add_comm, List.take_succ_cons, hl, ← List.cons_append, ← List.cons_append]
    exact endsEscaped_concat (by decide) _
  | number =>
    by_cases h0 : numberLength (c :: cs) = 0
    · rw [h0]
      exact hone
    · rw [(take_pred h0).1]
      exact endsEscaped_number (c :: cs)
  | markupEnd _ hcs =>
    subst hcs
    exact endsEscaped_concat (d := '>') (by decide) [c, '-']
  | markupStart _ hcs =>
    subst hcs
    exact endsEscaped_concat (d := '-') (by decide) [c, '!', '-']
  | comparison _ hcs =>
    subst hcs
    exact endsEscaped_concat (d := '=') (by decide) [c]
  | name =>
    by_cases h0 : (scanName (c :: cs)).2 = 0
    · rw [h0]
      exact hone
    · rw [(take_pred h0).2] at h
      rw [(take_pred h0).1]
      exact scanName_end h
  | hash | atKeyword => exact hone.append (endsEscaped_name cs)
  | single => exact hone

/-! ### Lists of tokens -/

@[simp] theorem source_nil : source [] = [] := rfl

@[simp] theorem source_cons (token : Token) (ts : List Token) :
    source (token :: ts) = token.lexeme ++ source ts := rfl

@[simp] theorem source_append (a b : List Token) : source (a ++ b) = source a ++ source b := by
  simp [source]

theorem lex_eq_cons {t : Text} {token : Token} {after : List Token} (h : lex t = token :: after) :
    ∃ c cs n, t = c :: cs ∧ Scans c cs token.kind n ∧ token.lexeme = c :: cs.take n ∧
      source after = cs.drop n := by
  cases t with
  | nil => simp at h
  | cons c cs =>
    rw [lex_cons, List.cons.injEq] at h
    obtain ⟨rfl, rfl⟩ := h
    exact ⟨c, cs, _, rfl, scans c cs, rfl, source_lex _⟩

/-- The tokens behind a token are those of the text behind it. -/
theorem lex_source_of_append {t : Text} {a b : List Token} (h : lex t = a ++ b) :
    lex (source b) = b := by
  induction a generalizing t with
  | nil => rw [List.nil_append] at h; rw [← h, source_lex]
  | cons token a ih =>
    cases t with
    | nil => simp at h
    | cons c cs =>
      rw [lex_cons, List.cons_append, List.cons.injEq] at h
      exact ih h.2

theorem source_of_lex {t : Text} {a b : List Token} (h : lex t = a ++ b) :
    t = source a ++ source b := by
  rw [← source_append, ← h, source_lex]

/-- What stands behind some tokens of a text is read as the others. -/
theorem lex_behind {t : Text} {a b : List Token} (h : lex (source a ++ t) = a ++ b) :
    t = source b ∧ lex t = b := by
  have ht : t = source b := List.append_cancel_left (source_of_lex h)
  exact ⟨ht, ht ▸ lex_source_of_append h⟩

theorem scanName_kind (t : Text) :
    (scanName t).1 = .url ∨ (scanName t).1 = .function ∨ (scanName t).1 = .ident := by
  unfold scanName
  simp only
  split
  · split
    · exact .inl rfl
    · exact .inr (.inl rfl)
  · exact .inr (.inr rfl)

/-- The kind of a single character is none of those that longer tokens have. -/
theorem single_ne (c : Char) : single c ≠ .whitespace ∧ single c ≠ .string ∧
    single c ≠ .comment ∧ single c ≠ .number ∧ single c ≠ .markup ∧ single c ≠ .hash ∧
    single c ≠ .atKeyword ∧ single c ≠ .comparison ∧ single c ≠ .url ∧ single c ≠ .function ∧
    single c ≠ .ident := by
  unfold single
  split <;> simp

/-- The character of a token that is a single character. -/
def Kind.char : Kind → Char
  | .colon => ':'
  | .semicolon => ';'
  | .comma => ','
  | .opener .round => '('
  | .opener .square => '['
  | .opener .curly => '{'
  | .closer .round => ')'
  | .closer .square => ']'
  | .closer .curly => '}'
  | .delim c => c
  | _ => ' '

theorem char_single (c : Char) : (single c).char = c := by
  unfold single
  split <;> rfl

/-- White space is what begins with a blank. -/
theorem Scans.whitespace_iff {c : Char} {cs : Text} {kind : Kind} {n : Nat}
    (h : Scans c cs kind n) : kind = .whitespace ↔ isSpace c = true := by
  cases h with
  | whitespace hc => simp [hc]
  | name hc =>
    have := scanName_kind (c :: cs)
    simp only [hc, Bool.false_eq_true, iff_false]
    intro hk
    simp [hk] at this
  | single hc => simp [hc, (single_ne c).1]
  | comment hc | markupEnd hc | markupStart hc | hash hc | atKeyword hc => subst hc; simp; decide
  | _ hc => simp [hc]

/-- A token with the kind of a single character is this character. -/
theorem lexeme_of_kind_single {t : Text} {token : Token} {after : List Token} {d : Char}
    (h : lex t = token :: after) (hk : token.kind = single d) : token.lexeme = [d] := by
  obtain ⟨c, cs, n, rfl, hs, hlexeme, -⟩ := lex_eq_cons h
  rw [hk] at hs
  have hne := single_ne d
  have hsingle : n = 0 ∧ single c = single d := by
    generalize single d = kind at hs hne
    cases hs with
    | single => exact ⟨rfl, rfl⟩
    | name hc =>
      have := scanName_kind (c :: cs)
      simp_all
    | _ => simp at hne
  rw [hlexeme, hsingle.1, List.take_zero, ← char_single c, hsingle.2, char_single d]

theorem lexeme_of_mem_lex {t : Text} {token : Token} {d : Char} (h : token ∈ lex t)
    (hk : token.kind = single d) : token.lexeme = [d] := by
  obtain ⟨a, b, hab⟩ := List.append_of_mem h
  exact lexeme_of_kind_single (lex_source_of_append hab) hk

/-- What holds of every token that is read: it is not empty, and if its kind is that of a single
character it is this character. -/
structure Proper (token : Token) : Prop where
  nonempty : token.lexeme ≠ []
  single : ∀ d, token.kind = Token.single d → token.lexeme = [d]

theorem proper_of_mem_lex {t : Text} {token : Token} (h : token ∈ lex t) : token.Proper where
  nonempty := lexeme_ne_nil h
  single _ hk := lexeme_of_mem_lex h hk

theorem Scans.string_eq {c : Char} {cs : Text} {kind : Kind} {n : Nat}
    (h : Scans c cs kind n) (hk : kind = .string) : (c = '"' ∨ c = '\'') ∧ n = stringLength c 0 cs := by
  cases h with
  | string _ hc => exact ⟨hc, rfl⟩
  | name => rcases scanName_kind (c :: cs) with h | h | h <;> simp [h] at hk
  | single => exact absurd hk (single_ne c).2.1
  | _ => cases hk

theorem Scans.comment_eq {c : Char} {cs : Text} {kind : Kind} {n : Nat}
    (h : Scans c cs kind n) (hk : kind = .comment) :
    ∃ ds, c = '/' ∧ cs = '*' :: ds ∧ n = 1 + commentLength ds := by
  cases h with
  | comment hc hcs => exact ⟨_, hc, hcs, rfl⟩
  | name => rcases scanName_kind (c :: cs) with h | h | h <;> simp [h] at hk
  | single => exact absurd hk (single_ne c).2.2.1
  | _ => cases hk

theorem Scans.eq_of_isSpace {c : Char} {cs : Text} {kind : Kind} {n : Nat}
    (h : Scans c cs kind n) (hc : isSpace c = true) : n = (cs.takeWhile isSpace).length := by
  have hk := h.whitespace_iff.mpr hc
  cases h with
  | whitespace => rfl
  | name hc' | string hc' | number hc' | comparison hc' | single hc' => simp [hc] at hc'
  | _ => cases hk

theorem drop_length_takeWhile (p : Char → Bool) (t : Text) :
    t.drop (t.takeWhile p).length = t.dropWhile p := by
  conv_lhs => arg 2; rw [← List.takeWhile_append_dropWhile (p := p) (l := t)]
  exact List.drop_left

/-- White space runs as far as there are blanks. -/
theorem whitespace_maximal {t : Text} {token : Token} {after : List Token}
    (h : lex t = token :: after) (hk : token.kind = .whitespace) :
    (∀ c ∈ token.lexeme, isSpace c = true) ∧ ∀ c ∈ (source after).head?, isSpace c = false := by
  obtain ⟨c, cs, n, rfl, hs, hlexeme, hafter⟩ := lex_eq_cons h
  have hc := hs.whitespace_iff.mp hk
  rw [hlexeme, hafter, hs.eq_of_isSpace hc]
  refine ⟨List.forall_mem_cons.mpr ⟨hc, fun d hd => ?_⟩, fun d hd => ?_⟩
  · rw [← List.prefix_iff_eq_take.mp (List.takeWhile_prefix isSpace)] at hd
    exact List.mem_takeWhile_imp hd
  · rw [drop_length_takeWhile] at hd
    have := List.head?_dropWhile_not isSpace cs
    rw [Option.mem_def.mp hd] at this
    exact this

/-- A text does not begin with a blank if its first token is not white space. -/
theorem head?_not_space {t : Text} {tokens : List Token} (h : lex t = tokens)
    (htokens : ∀ token ∈ tokens.head?, token.kind ≠ .whitespace) :
    ∀ c ∈ t.head?, isSpace c = false := by
  intro c hc
  cases t with
  | nil => cases hc
  | cons d t =>
    obtain rfl : d = c := by simpa using hc
    rw [lex_cons] at h
    subst h
    have hne := htokens _ rfl
    rw [Ne, (scans d t).whitespace_iff, Bool.not_eq_true] at hne
    exact hne

/-- **A token ends between two blanks only by an escape**, of which the first of them is part. -/
theorem endsWithEscape_of_blank {t l rest : Text} {before after : List Token}
    (h : lex t = before ++ after) (hl : source before = l ++ [' ']) (hrest : source after = ' ' :: rest) :
    EndsWithEscape l := by
  rcases List.eq_nil_or_concat' before with rfl | ⟨before, token, rfl⟩
  · simp at hl
  rw [List.append_assoc] at h
  have htoken : lex (source (token :: after)) = token :: after := lex_source_of_append h
  have hne : token.lexeme ≠ [] := lexeme_ne_nil (t := t) (by rw [h]; simp)
  obtain ⟨lexeme, d, hlexeme⟩ := (List.eq_nil_or_concat' token.lexeme).resolve_left hne
  have hsource : (source before ++ lexeme) ++ [d] = l ++ [' '] := by simpa [hlexeme] using hl
  obtain ⟨rfl, hd⟩ := List.append_inj' hsource rfl
  rw [hd] at hlexeme
  have hspace : token.kind ≠ .whitespace := fun hkind => by
    have := (whitespace_maximal htoken hkind).2 ' ' (by rw [hrest]; rfl)
    exact absurd this (by decide)
  obtain ⟨c, cs, n, -, hs, hscanned, hafter⟩ := lex_eq_cons htoken
  rw [Ne, hs.whitespace_iff, Bool.not_eq_true] at hspace
  have hend := scans_end hs (by rw [← hafter, hrest]) hspace
  rw [← hscanned] at hend
  exact (hend lexeme hlexeme).append_left (source before)

/-- **A token does not end inside a run of blanks** behind two of them. -/
theorem not_two_blanks {t l rest : Text} {before after : List Token} (h : lex t = before ++ after)
    (hl : source before = l ++ [' ', ' ']) : source after ≠ ' ' :: rest := by
  intro hrest
  have hescape := endsWithEscape_of_blank (l := l ++ [' ']) h (by rw [hl]; simp) hrest
  exact hescape.getLast?_ne (by simp)

end VendorSync.Css.Token
