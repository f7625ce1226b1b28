import VendorSync.Proofs.Fence
import VendorSync.Proofs.Nesting

/-! Tokens that end where they end, whatever follows.

Strings, addresses and functions reach for the character that closes them, and the other tokens
end with the first character that they cannot go on with. So tokens that are closed among
themselves (`Sealed`) are the same before any text that halts them (`lex_sealed`). -/
namespace VendorSync.Css.Token

/-- What may stand behind a value: nothing, or a character that halts it. -/
def Ended (e : Text) : Prop := ∀ f ∈ e.head?, Halts f

theorem halts_of_isSpace {f : Char} (h : isSpace f = true) : Halts f := by
  rcases eq_of_isSpace h with rfl | rfl | rfl | rfl | rfl <;> constructor <;> decide

theorem halts_slash : Halts '/' := by
  constructor <;> decide

theorem halts_semicolon : Halts ';' := by
  constructor <;> decide

theorem halts_brace : Halts '}' := by
  constructor <;> decide

/-- White space and comments halt what stands before them. -/
theorem Scans.halts {c : Char} {cs : Text} {kind : Kind} {n : Nat} (h : Scans c cs kind n)
    (hkind : kind = .whitespace ∨ kind = .comment) : Halts c := by
  rcases hkind with hkind | hkind
  · exact halts_of_isSpace (h.whitespace_iff.mp hkind)
  · obtain ⟨ds, rfl, -⟩ := h.comment_eq hkind
    exact halts_slash

variable {e e' x : Text} {f : Char}

/-- What is the same before every character that halts it is the same before what ends it. -/
theorem Ended.append_eq {α : Type} {m : Text → α} (he : Ended e)
    (hm : ∀ f y, Halts f → m (x ++ f :: y) = m x) : m (x ++ e) = m x := by
  cases e with
  | nil => rw [List.append_nil]
  | cons f y => exact hm f y (he f rfl)

theorem Ended.append_eq_append {α : Type} {m : Text → α} (he : Ended e) (he' : Ended e')
    (hm : ∀ f y, Halts f → m (x ++ f :: y) = m x) : m (x ++ e') = m (x ++ e) :=
  (he'.append_eq hm).trans (he.append_eq hm).symm

/-! ### Looking behind the end -/

theorem any_head?_stop {p : Char → Bool} (hp : p f = false) (x y : Text) :
    (x ++ f :: y).head?.any p = x.head?.any p := by
  cases x with
  | nil => exact hp
  | cons c x => rfl

theorem head?_beq_stop {d : Char} (hd : f ≠ d) (x y : Text) :
    ((x ++ f :: y).head? == some d) = (x.head? == some d) := by
  cases x with
  | nil => simpa using hd
  | cons c x => rfl

/-- Comparing the beginning of a text with as many characters, none of which ends the text. -/
theorem take_beq_stop {l : Text} (hl : f ∉ l) (x y : Text) :
    ((x ++ f :: y).take l.length == l) = (x.take l.length == l) := by
  by_cases hn : l.length ≤ x.length
  · rw [take_fence hn]
  · have hx : x.take l.length ≠ l := by
      intro heq
      have := congrArg List.length heq
      rw [List.length_take] at this
      omega
    rw [beq_eq_false_iff_ne.mpr hx,
      beq_eq_false_iff_ne.mpr (take_ne_fence hl (Nat.lt_of_not_le hn) y)]

theorem takeWhile_append_of_exists (hx : ∃ c ∈ x, isSpace c = false) (e : Text) :
    (x ++ e).takeWhile isSpace = x.takeWhile isSpace := by
  rw [List.takeWhile_append, if_neg]
  intro hall
  obtain ⟨c, hc, hspace⟩ := hx
  have hc : c ∈ x.takeWhile isSpace := by
    rwa [(List.takeWhile_prefix isSpace).eq_of_length hall]
  rw [List.mem_takeWhile_imp hc] at hspace
  cases hspace

theorem head?_dropWhile_append (hx : ∃ c ∈ x, isSpace c = false) (e : Text) :
    ((x ++ e).dropWhile isSpace).head? = (x.dropWhile isSpace).head? := by
  have hne : x.dropWhile isSpace ≠ [] := by
    obtain ⟨c, hc, hspace⟩ := hx
    intro hnil
    have := List.dropWhile_eq_nil_iff.mp hnil c hc
    rw [hspace] at this
    cases this
  rw [List.dropWhile_append, if_neg (by simpa using hne), List.head?_append_of_ne_nil _ hne]

/-! ### Names and numbers -/

theorem nameLength_halts (hf : Halts f) (hx : '\\' ∉ x) (y : Text) :
    nameLength 0 (x ++ f :: y) = nameLength 0 x := by
  induction x with
  | nil => simp [nameLength, hf.nameChar, hf.backslash]
  | cons c x ih =>
    rw [List.mem_cons, not_or] at hx
    simp [nameLength, Ne.symm hx.1, ih hx.2]

theorem startsName_halts (hf : Halts f) (hx : '\\' ∉ x) (y : Text) :
    startsName (x ++ f :: y) = startsName x := by
  cases x with
  | nil =>
    rw [List.nil_append, startsName_cons, if_neg hf.signs.1, if_neg hf.backslash]
    exact hf.nameStart
  | cons c x =>
    rw [List.mem_cons, not_or] at hx
    rw [List.cons_append, startsName_cons, startsName_cons, if_neg (Ne.symm hx.1), if_neg (Ne.symm hx.1)]
    cases x with
    | nil => simp [hf.signs.1, hf.backslash, hf.nameStart]
    | cons d x =>
      have hd : d ≠ '\\' := fun heq => hx.2 (heq ▸ List.mem_cons_self ..)
      simp [hd]

theorem startsNumber_halts (hf : Halts f) (x y : Text) :
    startsNumber (x ++ f :: y) = startsNumber x := by
  have hdot : (f == '.') = false := beq_eq_false_iff_ne.mpr hf.number.1
  cases x with
  | nil =>
    rw [List.nil_append, startsNumber_cons]
    simp [hf.signs, hf.digit, hdot, startsNumber]
  | cons c x =>
    rw [List.cons_append, startsNumber_cons, startsNumber_cons, any_head?_stop hf.digit,
      head?_beq_stop hf.number.1]
    cases x with
    | nil => simp
    | cons d x => rw [List.cons_append, List.tail_cons, List.tail_cons, any_head?_stop hf.digit]

theorem numberLength_halts (hf : Halts f) (hx : '\\' ∉ x) (y : Text) :
    numberLength (x ++ f :: y) = numberLength x := by
  obtain ⟨heq, hle⟩ := stops_scaled hf x y
  have hrest : '\\' ∉ x.drop (scaledLength x) := fun h => hx (List.mem_of_mem_drop h)
  rw [numberLength_eq, numberLength_eq, heq, List.drop_append_of_le_length hle, unitLength, unitLength,
    head?_beq_stop hf.number.2.1, startsName_halts hf hrest, nameLength_halts hf hrest]

/-! ### Tokens that reach for their end -/

/-- A string with its quote does not look past it. -/
theorem stringLength_append {quote : Char} (hquote : quote ∈ x) (hx : '\\' ∉ x) (e : Text) :
    stringLength quote 0 (x ++ e) = stringLength quote 0 x := by
  induction x with
  | nil => cases hquote
  | cons c x ih =>
    rw [List.mem_cons, not_or] at hx
    by_cases hc : c = quote
    · simp [stringLength, hc]
    · have hquote := (List.mem_cons.mp hquote).resolve_left (Ne.symm hc)
      simp [stringLength, hc, Ne.symm hx.1, ih hquote hx.2]

/-- An address goes on from a plain character in one way, whatever follows. -/
theorem read_plain (part : UrlPart) {c : Char} (hc : c ≠ '\\') :
    ∃ next, ∀ cs, part.read c cs = (next, 0) := by
  cases part with
  | tail => exact ⟨.remnants, fun _ => rfl⟩
  | remnants => exact ⟨.remnants, fun cs => by simp [UrlPart.read, hc]⟩
  | lead | body =>
    by_cases hspoils : spoilsUrl c = true
    · exact ⟨.remnants, fun cs => by simp [UrlPart.read, hspoils]⟩
    · exact ⟨.body, fun cs => by simp [UrlPart.read, hspoils, hc]⟩

/-- An address with its parenthesis does not look past it. -/
theorem urlLength_append {part : UrlPart} (hparen : ')' ∈ x) (hx : '\\' ∉ x) (e : Text) :
    urlLength part 0 (x ++ e) = urlLength part 0 x := by
  induction x generalizing part with
  | nil => cases hparen
  | cons c x ih =>
    rw [List.mem_cons, not_or] at hx
    by_cases hc : c = ')'
    · simp [urlLength, hc]
    · have hparen := (List.mem_cons.mp hparen).resolve_left (Ne.symm hc)
      obtain ⟨next, hread⟩ := read_plain part (Ne.symm hx.1)
      simp [urlLength, hc, hread, ih hparen hx.2]

theorem isNameChar_of_mem_name {c : Char} (hx : '\\' ∉ x) (hc : c ∈ x.take (nameLength 0 x)) :
    isNameChar c = true := by
  induction x with
  | nil => simp at hc
  | cons d x ih =>
    rw [List.mem_cons, not_or] at hx
    by_cases hd : isNameChar d = true
    · rw [nameLength, if_pos hd, Nat.add_comm, List.take_succ_cons] at hc
      rcases List.mem_cons.mp hc with rfl | hc
      · exact hd
      · exact ih hx.2 hc
    · simp [nameLength, hd, Ne.symm hx.1] at hc

theorem scanName_ident {t : Text} (h : ∀ c ∈ (t.drop (nameLength 0 t)).head?, c ≠ '(') :
    scanName t = (.ident, nameLength 0 t) := by
  unfold scanName
  simp only
  split
  · rename_i hdrop
    exact absurd rfl (h '(' (by rw [hdrop]; rfl))
  · rfl

/-- A name that goes on with a parenthesis is the same token if this is closed within the text. -/
theorem scanName_append (he : Ended e) (he' : Ended e') (hx : '\\' ∉ x)
    (hparen : (scanName (x ++ e)).1 ≠ .ident → ')' ∈ x) : scanName (x ++ e') = scanName (x ++ e) := by
  have hlength : ∀ {e}, Ended e → nameLength 0 (x ++ e) = nameLength 0 x := fun he =>
    he.append_eq fun _ y hf => nameLength_halts hf hx y
  have hdrop : ∀ e, (x ++ e).drop (nameLength 0 x) = x.drop (nameLength 0 x) ++ e := fun e =>
    List.drop_append_of_le_length (nameLength_le_length 0 x)
  by_cases hopens : ∃ cs, x.drop (nameLength 0 x) = '(' :: cs
  · obtain ⟨cs, hcs⟩ := hopens
    have hfunction : (scanName (x ++ e)).1 ≠ .ident := by
      unfold scanName
      simp only [hlength he, hdrop, hcs, List.cons_append]
      split <;> simp
    have hclosed : ')' ∈ cs := by
      have hmem := hparen hfunction
      rw [← List.take_append_drop (nameLength 0 x) x, hcs] at hmem
      rcases List.mem_append.mp hmem with hmem | hmem
      · exact absurd (isNameChar_of_mem_name hx hmem) (by decide)
      · simpa using hmem
    have hplain : '\\' ∉ cs := fun h => hx (List.mem_of_mem_drop (hcs ▸ List.mem_cons_of_mem _ h))
    unfold scanName
    simp only [hlength he, hlength he', hdrop, hcs, List.cons_append,
      List.take_append_of_le_length (nameLength_le_length 0 x),
      head?_dropWhile_append ⟨')', hclosed, rfl⟩, urlLength_append hclosed hplain]
  · have hident : ∀ {e}, Ended e → scanName (x ++ e) = (.ident, nameLength 0 x) := by
      intro e he
      rw [← hlength he]
      refine scanName_ident fun c hc heq => ?_
      subst heq
      rw [hlength he, hdrop] at hc
      cases hrest : x.drop (nameLength 0 x) with
      | nil =>
        rw [hrest] at hc
        exact absurd rfl (he '(' hc).parens.1
      | cons d cs =>
        rw [hrest] at hc
        obtain rfl : d = '(' := by simpa using hc
        exact hopens ⟨cs, hrest⟩
    rw [hident he, hident he']

/-! ### Tokens -/

/-- What a token of this kind that begins with `c` needs of the text `x` behind its first character
to end within it whatever follows. -/
def Shut (c : Char) (x : Text) : Kind → Prop
  | .whitespace => ∃ d ∈ x, isSpace d = false
  | .string => c ∈ x
  | .function | .url => ')' ∈ c :: x
  | _ => True

/-- **A token that is shut is the same before every end.** -/
theorem scansAlike_append (he : Ended e) (he' : Ended e') {c : Char} (hx : '\\' ∉ c :: x)
    (hc : c ≠ '/') (hshut : Shut c x (scan c (x ++ e)).1) : ScansAlike c (x ++ e) (x ++ e') where
  star := he.append_eq_append (m := fun t => t.head? == some '*') he' fun _ y hf =>
    head?_beq_stop hf.star x y
  equals := he.append_eq_append (m := fun t => t.head? == some '=') he' fun _ y hf =>
    head?_beq_stop hf.equals x y
  hashStart := he.append_eq_append (m := fun t => t.head?.any fun d => d.isDigit || d == '-') he'
    fun _ y hf => any_head?_stop (by simp [hf.signs, hf.digit]) x y
  markupEnd := he.append_eq_append (m := fun t => t.take 2 == ['-', '>']) he' fun _ y hf =>
    take_beq_stop (l := ['-', '>']) (by simp [hf.signs, hf.markup]) x y
  markupStart := he.append_eq_append (m := fun t => t.take 3 == ['!', '-', '-']) he' fun _ y hf =>
    take_beq_stop (l := ['!', '-', '-']) (by simp [hf.signs, hf.markup]) x y
  startsNumber := by
    rw [← List.cons_append, ← List.cons_append]
    exact he.append_eq_append he' fun _ y hf => startsNumber_halts hf (c :: x) y
  startsName := by
    rw [← List.cons_append, ← List.cons_append]
    exact he.append_eq_append he' fun _ y hf => startsName_halts hf hx y
  startsNameBehind := he.append_eq_append (m := startsName) he' fun _ y hf =>
    startsName_halts hf (List.not_mem_of_not_mem_cons hx) y
  whitespace hscan := by
    rw [hscan] at hshut
    rw [takeWhile_append_of_exists hshut, takeWhile_append_of_exists hshut]
  string _ hscan := by
    rw [hscan] at hshut
    have hrest := List.not_mem_of_not_mem_cons hx
    rw [stringLength_append hshut hrest, stringLength_append hshut hrest]
  comment hslash := absurd hslash hc
  number _ := by
    rw [← List.cons_append, ← List.cons_append]
    exact he.append_eq_append he' fun _ y hf => numberLength_halts hf hx y
  name hscan := by
    rw [hscan, ← List.cons_append] at hshut
    rw [← List.cons_append, ← List.cons_append]
    refine scanName_append he he' hx fun hne => ?_
    rcases scanName_kind (c :: x ++ e) with hkind | hkind | hkind
    · rwa [hkind] at hshut
    · rwa [hkind] at hshut
    · exact absurd hkind hne
  run _ _ := he.append_eq_append (m := nameLength 0) he' fun _ y hf =>
    nameLength_halts hf (List.not_mem_of_not_mem_cons hx) y

/-! ### Tokens that are closed among themselves -/

/-- Each string and address has its end, and each function its parenthesis somewhere behind it. -/
def Sealed : List Token → Prop
  | [] => True
  | token :: rest =>
    token.isClosed = true ∧ (token.kind = .function → ')' ∈ source rest) ∧ Sealed rest

theorem Sealed.append {a b : List Token} (ha : Sealed a) (hb : Sealed b) : Sealed (a ++ b) := by
  induction a with
  | nil => exact hb
  | cons token a ih =>
    obtain ⟨hclosed, hfunction, ha⟩ := ha
    exact ⟨hclosed, fun hkind => by simp [hfunction hkind], ih ha⟩

theorem sealed_bracket {opener : Token} {bracket : Bracket} {inside rest : Units}
    {closer : Option Token} (ho : opener.opens = some bracket)
    (hends : Units.Ends bracket inside closer rest) (hcloser : closer.isSome = true)
    (hproper : ∀ token ∈ closer, token.Proper) (hinside : Sealed inside.toTokens)
    (hrest : Sealed rest.toTokens) :
    Sealed (opener :: (inside.toTokens ++ (closer.toList ++ rest.toTokens))) := by
  obtain ⟨token, rfl⟩ := Option.isSome_iff_exists.mp hcloser
  have hkind := Units.kind_of_closes hends.1
  have htoken : Sealed [token] := ⟨by simp [isClosed, hkind], by simp [hkind], trivial⟩
  refine ⟨?_, fun hfunction => ?_, hinside.append (htoken.append hrest)⟩
  · unfold opens at ho
    unfold isClosed
    split at ho <;> simp_all
  · -- what a function opens, a parenthesis closes
    have hround : bracket = .round := by
      simpa [opens, hfunction] using ho.symm
    subst hround
    have hlexeme := (hproper token rfl).single ')' hkind
    simp [hlexeme]

/-- The units of a text seal their tokens if their brackets are closed. -/
theorem sealed_toTokens {around : Option Bracket} {marked : Bool} {u : Units}
    (h : Units.Nested around marked u) (hclosed : u.isClosed = true)
    (hproper : ∀ token ∈ u.toTokens, token.Proper) : Sealed u.toTokens := by
  induction h with
  | nil => trivial
  | leaf ho _ _ ih =>
    rw [Units.isClosed, Bool.and_eq_true] at hclosed
    refine ⟨hclosed.1, fun hkind => ?_, ih hclosed.2 (List.forall_mem_cons.mp hproper).2⟩
    simp [opens, hkind] at ho
  | group ho _ _ hends _ ih₁ ih₂ | block ho _ hends _ ih₁ ih₂ =>
    simp only [Units.isClosed, Bool.and_eq_true] at hclosed
    obtain ⟨-, hproper⟩ := List.forall_mem_cons.mp hproper
    rw [List.forall_mem_append, List.forall_mem_append] at hproper
    exact sealed_bracket ho hends hclosed.1.2 (fun token h => hproper.2.1 token (by simpa using h))
      (ih₁ hclosed.1.1 hproper.1) (ih₂ hclosed.2 hproper.2.2)

theorem exists_not_space {t : Text} {a b : List Token} (h : lex t = a ++ b) (hne : a ≠ [])
    (hlast : ∀ token ∈ a.getLast?, token.kind ≠ .whitespace) : ∃ d ∈ source a, isSpace d = false := by
  obtain ⟨before, token, rfl⟩ := (List.eq_nil_or_concat' a).resolve_left hne
  rw [List.append_assoc] at h
  obtain ⟨c, cs, n, -, hscans, hlexeme, -⟩ := lex_eq_cons (lex_source_of_append h)
  refine ⟨c, by simp [hlexeme], ?_⟩
  rw [← Bool.not_eq_true, ← hscans.whitespace_iff]
  exact hlast token (by simp)

/-- What a sealed token needs stands behind it. -/
theorem shut_of_closed {token : Token} {rest : List Token} (hclosed : token.isClosed = true)
    (hfunction : token.kind = .function → ')' ∈ source rest)
    (hspace : token.kind = .whitespace → ∃ d ∈ source rest, isSpace d = false) {c : Char} {l : Text}
    (hlexeme : token.lexeme = c :: l) : Shut c (l ++ source rest) token.kind := by
  unfold Shut
  split
  · rename_i hkind
    obtain ⟨d, hd, hvisible⟩ := hspace hkind
    exact ⟨d, List.mem_append_right _ hd, hvisible⟩
  · rename_i hkind
    simp only [isClosed, hkind, hlexeme, Bool.and_eq_true, decide_eq_true_eq, List.head?_cons,
      beq_iff_eq, List.length_cons] at hclosed
    obtain ⟨d, l, rfl⟩ := List.exists_cons_of_ne_nil (List.ne_nil_of_length_pos (l := l) (by omega))
    rw [List.getLast?_cons_cons] at hclosed
    exact List.mem_append_left _ (List.mem_of_getLast? hclosed.2.symm)
  · rename_i hkind
    exact List.mem_cons_of_mem _ (List.mem_append_right _ (hfunction hkind))
  · rename_i hkind
    simp only [isClosed, hkind, hlexeme, beq_iff_eq] at hclosed
    exact List.mem_append_left _ (List.mem_of_getLast? hclosed)
  · trivial

/-- **Sealed tokens are the same before every end**, unless they end with white space. -/
theorem lex_sealed {tokens : List Token} (hsealed : Sealed tokens)
    (hlast : ∀ token ∈ tokens.getLast?, token.kind ≠ .whitespace)
    (hbackslash : '\\' ∉ source tokens) (hslash : '/' ∉ source tokens) (he : Ended e)
    (he' : Ended e') (h : lex (source tokens ++ e) = tokens ++ lex e) :
    lex (source tokens ++ e') = tokens ++ lex e' := by
  induction tokens with
  | nil => rfl
  | cons token rest ih =>
    obtain ⟨hclosed, hfunction, hrest⟩ := hsealed
    obtain ⟨c, l, hlexeme, hscan, hbehind⟩ := exists_scan_of_lex h
    have hlast' : ∀ token ∈ rest.getLast?, token.kind ≠ .whitespace := fun last hmem =>
      hlast last (List.mem_getLast?_cons hmem)
    -- white space is not the last of the tokens, so it ends before another one
    have hspace : token.kind = .whitespace → ∃ d ∈ source rest, isSpace d = false := by
      intro hkind
      have hne : rest ≠ [] := by
        intro hnil
        exact hlast token (by simp [hnil]) hkind
      exact exists_not_space hbehind hne hlast'
    rw [source_cons, hlexeme, List.mem_append, not_or] at hbackslash hslash
    have halike : ScansAlike c (l ++ source rest ++ e) (l ++ source rest ++ e') := by
      refine scansAlike_append he he' ?_ ?_ ?_
      · simpa [not_or, and_assoc] using hbackslash
      · exact fun heq => hslash.1 (heq ▸ List.mem_cons_self ..)
      · rw [List.append_assoc, hscan]
        exact shut_of_closed hclosed hfunction hspace hlexeme
    rw [List.append_assoc, List.append_assoc] at halike
    rw [lex_of_scan hlexeme (halike.scan_eq.trans hscan), ih hrest hlast' hbackslash.2 hslash.2 hbehind,
      List.cons_append]

end VendorSync.Css.Token
