import Mathlib.Data.List.Chain
import VendorSync.Proofs.CommentBodies

/-! Which slashes begin a line comment.

The scan for line comments runs before there are tokens, and goes by a few characters only. What it
should find is said by `pieces`, which reads tokens and takes two slashes for a comment where a token
could begin. On a text that is `legible` the two agree (`spans_eq_of_legible`): no token of it looks
to the scan like something else than it is. On other texts they may not, in either direction
(`spans_ne_of_quoted_address`). -/
namespace VendorSync.Css
open Token

/-! ### Tokens and comments side by side -/

/-- A token, or a line comment between tokens. -/
inductive Piece where
  | comment (text : Text)
  | token (token : Token)
deriving DecidableEq, Repr

namespace Piece

def text : Piece → Text
  | comment s => s
  | token t => t.lexeme

/-- How much of the text behind its first slash belongs to a line comment: all up to the line break or
the end, less a carriage return directly before that. -/
def lineLength (t : Text) : Nat :=
  let line := t.takeWhile (· != '\n')
  if line.getLast? == some '\r' then line.length - 1 else line.length

/-- The pieces of a text of which the given number of characters is already taken. -/
def piecesFrom : Nat → Text → List Piece
  | _, [] => []
  | taken + 1, _ :: cs => piecesFrom taken cs
  | 0, c :: cs =>
    if c == '/' && cs.head? == some '/' then
      .comment (c :: cs.take (lineLength cs)) :: piecesFrom (lineLength cs) cs
    else
      let (kind, length) := scan c cs
      .token ⟨kind, c :: cs.take length⟩ :: piecesFrom length cs

def pieces (t : Text) : List Piece := piecesFrom 0 t

/-- The spans of the comments among pieces that begin at an offset. -/
def commentSpans (pos : Nat) : List Piece → List Span
  | [] => []
  | comment s :: rest => ⟨pos, pos + s.byteLength⟩ :: commentSpans (pos + s.byteLength) rest
  | token t :: rest => commentSpans (pos + t.byteLength) rest

theorem piecesFrom_eq_pieces_drop (taken : Nat) (t : Text) :
    piecesFrom taken t = pieces (t.drop taken) := by
  induction t generalizing taken with
  | nil => simp [piecesFrom, pieces]
  | cons c cs ih => cases taken with
    | zero => rfl
    | succ taken => exact ih taken

@[simp] theorem pieces_nil : pieces [] = [] := rfl

theorem pieces_comment (cs : Text) : pieces ('/' :: '/' :: cs) =
    .comment ('/' :: ('/' :: cs).take (lineLength ('/' :: cs))) ::
      pieces (('/' :: cs).drop (lineLength ('/' :: cs))) := by
  rw [← piecesFrom_eq_pieces_drop]
  rfl

theorem pieces_token {c : Char} {cs : Text} (h : c = '/' → cs.head? ≠ some '/') :
    pieces (c :: cs) = .token ⟨(scan c cs).1, c :: cs.take (scan c cs).2⟩ ::
      pieces (cs.drop (scan c cs).2) := by
  have hno : (c == '/' && cs.head? == some '/') = false := by
    by_cases hc : c = '/' <;> simp [hc, h]
  rw [← piecesFrom_eq_pieces_drop, pieces, piecesFrom, hno]
  rfl

/-- The character that the pieces begin with. -/
def next (ps : List Piece) : Option Char := ps.head?.bind fun p => p.text.head?

theorem next_pieces (t : Text) : next (pieces t) = t.head? := by
  cases t with
  | nil => rfl
  | cons c cs =>
    rw [pieces, piecesFrom]
    split <;> rfl

end Piece

/-! ### What the scan can tell -/

section Legible
open LineComment Piece

/-- Where the scan is behind a token that `next` follows, when it takes no part of the token for
something else: there is no quote in it, no beginning of a comment, and a parenthesis directly behind
`url` only at its end. -/
def Token.behind (next : Option Char) : Nat → Text → Option Place
  | letters, [] => some (.code letters)
  | letters, c :: cs =>
    let after := cs.head?.or next
    if c == '"' || c == '\'' || c == '/' && (after == some '/' || after == some '*') then none
    else if c == '(' && letters == 3 then if cs.isEmpty then some .address else none
    else Token.behind next (letterRun letters c) cs

/-- Whether the rest of a string ends with its quote and not with an escaped one. -/
def closes (quote : Char) : (escaped : Bool) → Text → Bool
  | _, [] => false
  | true, _ :: cs => closes quote false cs
  | false, c :: cs =>
    if c == '\\' then closes quote true cs else c == quote && cs.isEmpty || closes quote false cs

/-- A line feed stands in the text only where a backslash stands directly before it. -/
def Escapes (t : Text) : Prop := t.IsChain fun a b => b = '\n' → a = '\\'

instance (t : Text) : Decidable (Escapes t) :=
  inferInstanceAs (Decidable (t.IsChain fun a b => b = '\n' → a = '\\'))

/-- Whether the text begins with `url(`, in either case and without an escape. -/
def spellsUrl : Text → Bool
  | u :: r :: l :: paren :: _ =>
    (u == 'u' || u == 'U') && (r == 'r' || r == 'R') && (l == 'l' || l == 'L') && paren == '('
  | _ => false

/-- An address in which nothing ends it before its end. -/
def isBare (t : Text) : Bool := spellsUrl t && t.all (· != '\n') && t.dropLast.all (· != ')')

/-- Whether the scan, from a place on, goes through the pieces without taking one of them for
something else. A string without its closing quote ends with the line. So does an address that is
none to the tokens, such as one in quotes, unless a parenthesis closes it before; there is no
comment in it. -/
def legible : Place → List Piece → Bool
  | _, [] => true
  | .code _, .comment _ :: rest => legible (.code 0) rest
  | .code letters, .token t :: rest =>
    match t.kind, t.lexeme with
    | .comment, _ => legible (.code 0) rest
    | .string, quote :: s => decide (Escapes (quote :: s)) &&
        legible (if closes quote false s then .code 0 else .quoted quote) rest
    | .url, lexeme => isBare lexeme && legible (.code 0) rest
    | _, lexeme =>
      match Token.behind (next rest) letters lexeme with
      | some place => legible place rest
      | none => false
  | .quoted _, .token t :: rest =>
    t.kind == .whitespace && t.lexeme.contains '\n' && legible (.code 0) rest
  | .address, .token t :: rest =>
    if t.lexeme.any fun c => c == ')' || c == '\n' then
      (t.kind == .closer .round || t.kind == .whitespace) && legible (.code 0) rest
    else legible .address rest
  | _, _ => false

end Legible

namespace LineComment

/-! ### The scan over a token -/

/-- A character that leaves the scan outside of everything, or brings it into an address. -/
theorem read_code {letters : Nat} {d : Char} {next : Option Char} (hquote : d ≠ '"' ∧ d ≠ '\'')
    (hslash : d = '/' → next ≠ some '/' ∧ next ≠ some '*') :
    Place.read (.code letters) d next =
      (false, if d == '(' && letters == 3 then .address else .code (letterRun letters d)) := by
  have hblock : (d == '/' && next == some '*') = false := by
    by_cases hd : d = '/' <;> simp [hd, hslash]
  have hline : (d == '/' && next == some '/') = false := by
    by_cases hd : d = '/' <;> simp [hd, hslash]
  have hstring : (d == '"' || d == '\'') = false := by simp [hquote]
  by_cases hparen : (d == '(' && letters == 3) = true <;>
    simp [Place.read, hblock, hline, hstring, hparen]

theorem cellsFrom_behind {letters : Nat} {s rest : Text} {place : Place}
    (h : Token.behind rest.head? letters s = some place) :
    cellsFrom (.code letters) (s ++ rest) = reveal s ++ cellsFrom place rest := by
  induction s generalizing letters with
  | nil =>
    obtain rfl : Place.code letters = place := Option.some.inj h
    rfl
  | cons d s ih =>
    simp only [Token.behind] at h
    split at h
    · cases h
    rename_i hplain
    simp only [Bool.or_eq_true, Bool.and_eq_true, beq_iff_eq, not_or, not_and] at hplain
    have hread := @read_code letters d (s ++ rest).head? ⟨hplain.1.1, hplain.1.2⟩
      (fun hd => by rw [List.head?_append]; exact hplain.2 hd)
    rw [List.cons_append, cellsFrom_cons, hread, reveal_cons, List.cons_append]
    split at h
    · rename_i hparen
      split at h
      · rename_i hnil
        obtain rfl : Place.address = place := Option.some.inj h
        rw [List.isEmpty_iff.mp hnil, if_pos hparen]
        rfl
      · cases h
    · rename_i hparen
      rw [if_neg hparen, ih h]

theorem cellsFrom_inside_address {s : Text} (hs : ∀ d ∈ s, d ≠ ')' ∧ d ≠ '\n') (rest : Text) :
    cellsFrom .address (s ++ rest) = reveal s ++ cellsFrom .address rest := by
  induction s with
  | nil => rfl
  | cons d s ih =>
    obtain ⟨hd, hs⟩ := List.forall_mem_cons.mp hs
    have hread : ∀ next, Place.read .address d next = (false, .address) := by
      simp [Place.read, hd.1, hd.2]
    rw [List.cons_append, cellsFrom_cons, hread, ih hs]
    rfl

/-- An address ends with its first parenthesis, or with the text. -/
theorem cellsFrom_address {s rest : Text} (hbreak : ∀ d ∈ s, d ≠ '\n') (hparen : ∀ d ∈ s.dropLast, d ≠ ')')
    (hend : rest = [] ∨ s.getLast? = some ')') :
    cellsFrom .address (s ++ rest) = reveal s ++ cellsFrom (.code 0) rest := by
  rcases List.eq_nil_or_concat s with rfl | ⟨s, d, rfl⟩
  · obtain rfl : rest = [] := by simpa using hend
    rfl
  · rw [List.concat_eq_append] at hbreak hparen hend ⊢
    rw [List.dropLast_concat] at hparen
    rw [List.getLast?_concat] at hend
    have hinside : ∀ e ∈ s, e ≠ ')' ∧ e ≠ '\n' := fun e he =>
      ⟨hparen e he, hbreak e (List.mem_append_left _ he)⟩
    rw [List.append_assoc, cellsFrom_inside_address hinside, reveal_append, List.append_assoc]
    congr 1
    rcases hend with rfl | hend
    · rfl
    · obtain rfl : d = ')' := by simpa using hend
      rfl

theorem cellsFrom_spaces {s : Text} (hspace : ∀ d ∈ s, isSpace d = true) (rest : Text) :
    cellsFrom (.code 0) (s ++ rest) = reveal s ++ cellsFrom (.code 0) rest := by
  induction s with
  | nil => rfl
  | cons d s ih =>
    obtain ⟨hd, hspace⟩ := List.forall_mem_cons.mp hspace
    have hread : ∀ next, Place.read (.code 0) d next = (false, .code 0) := by
      rcases eq_of_isSpace hd with rfl | rfl | rfl | rfl | rfl <;> intro next <;> rfl
    rw [List.cons_append, cellsFrom_cons, hread, ih hspace]
    rfl

/-- The places that a line feed ends. -/
inductive EndsWithLine : Place → Prop
  | address : EndsWithLine .address
  | quoted {quote} : quote = '"' ∨ quote = '\'' → EndsWithLine (.quoted quote)

theorem EndsWithLine.cellsFrom {place : Place} (h : EndsWithLine place) {s : Text}
    (hspace : ∀ d ∈ s, isSpace d = true) (hbreak : '\n' ∈ s) (rest : Text) :
    cellsFrom place (s ++ rest) = reveal s ++ cellsFrom (.code 0) rest := by
  induction s with
  | nil => cases hbreak
  | cons d s ih =>
    obtain ⟨hd, hspace⟩ := List.forall_mem_cons.mp hspace
    have hread : ∀ next, place.read d next = (false, if d = '\n' then .code 0 else place) := by
      intro next
      cases h with
      | address => rcases eq_of_isSpace hd with rfl | rfl | rfl | rfl | rfl <;> rfl
      | quoted hquote =>
        rcases hquote with rfl | rfl <;> rcases eq_of_isSpace hd with rfl | rfl | rfl | rfl | rfl <;> rfl
    rw [List.cons_append, cellsFrom_cons, hread, reveal_cons, List.cons_append]
    by_cases hline : d = '\n'
    · rw [if_pos hline, cellsFrom_spaces hspace]
    · rw [if_neg hline, ih hspace ((List.mem_cons.mp hbreak).resolve_left (Ne.symm hline))]

/-- The scan finds the end of a block comment where the tokens have it. -/
theorem cellsFrom_commentLength {star : Bool} {t : Text} (hstar : star = true → t.head? ≠ some '/') :
    cellsFrom (.block star) t = reveal (t.take (commentLength t)) ++
      cellsFrom (.code 0) (t.drop (commentLength t)) := by
  fun_induction commentLength t generalizing star with
  | case1 => rfl
  | case2 c cs hend =>
    simp only [Bool.and_eq_true, beq_iff_eq] at hend
    obtain ⟨rfl, hnext⟩ := hend
    obtain ⟨ds, rfl⟩ := eq_cons_of_head? hnext
    cases star <;> rfl
  | case3 c cs hend ih =>
    have hread : Place.read (.block star) c cs.head? = (false, .block (c == '*')) := by
      have hno : (star && c == '/') = false := by
        cases star with
        | false => rfl
        | true => simpa using hstar rfl
      simp only [Place.read, hno]
      rfl
    rw [cellsFrom_cons, hread, ih fun hc hnext => hend (by rw [hc, hnext]; rfl), Nat.add_comm,
      List.take_succ_cons, List.drop_succ_cons]
    rfl

end LineComment

/-! ### Strings -/

namespace Token

/-- The rest of a string behind its quote, when `rest` stands behind the string. -/
inductive StringRest (quote : Char) : Text → Text → Prop
  | closed {rest} : StringRest quote [quote] rest
  | ended {rest} : StringRest quote [] rest
  | plain {c s rest} : c ≠ quote → c ≠ '\\' → isNewline c = false → StringRest quote s rest →
      StringRest quote (c :: s) rest
  | escape {c s rest} : StringRest quote s rest → StringRest quote ('\\' :: c :: s) rest
  /-- The digits of an escape with a blank behind them, or a line break of two characters. -/
  | escapes {c e s rest} : (∀ d ∈ c :: e, isHexDigit d = true ∨ isSpace d = true) →
      StringRest quote s rest → StringRest quote ('\\' :: c :: (e ++ s)) rest
  | cut : StringRest quote ['\\'] []

theorem stringLength_eq_add (quote : Char) (covered : Nat) (t : Text) :
    stringLength quote covered t =
      min covered t.length + stringLength quote 0 (t.drop covered) := by
  induction t generalizing covered with
  | nil => simp [stringLength]
  | cons c cs ih => cases covered with
    | zero => simp
    | succ n => simp only [stringLength, ih n, List.drop_succ_cons, List.length_cons]; omega

theorem drop_min_length_add (k n : Nat) (t : Text) :
    t.drop (min k t.length + n) = (t.drop k).drop n := by
  rcases Nat.le_total k t.length with h | h
  · rw [Nat.min_eq_left h, List.drop_drop]
  · rw [List.drop_eq_nil_of_le h, List.drop_nil, List.drop_eq_nil_of_le (by omega)]

theorem take_newlineLength {c : Char} {cs : Text} (h : isNewline c = true) :
    ∃ e, (c :: cs).take (newlineLength (c :: cs)) = c :: e ∧ ∀ d ∈ c :: e, isNewline d = true := by
  unfold newlineLength
  split
  · rename_i heq
    cases heq
    exact ⟨['\n'], rfl, by simp [isNewline]⟩
  · rename_i d ds _ heq
    obtain ⟨rfl, rfl⟩ := List.cons.inj heq
    exact ⟨[], by rw [if_pos h]; rfl, by simpa using h⟩
  · rename_i heq
    cases heq

/-- An escape is one character, or digits with a blank behind them. -/
theorem take_escapeLength_cons (c : Char) (cs : Text) :
    ∃ e, (c :: cs).take (escapeLength (c :: cs)) = c :: e ∧
      (e = [] ∨ ∀ d ∈ c :: e, isHexDigit d = true ∨ isSpace d = true) := by
  have hprefix : escapeDigits (c :: cs) <+: c :: cs :=
    (List.takeWhile_prefix _).trans (List.take_prefix 6 _)
  have hdigits : ∀ d ∈ (c :: cs).take (escapeDigits (c :: cs)).length, isHexDigit d = true := by
    rw [← List.prefix_iff_eq_take.mp hprefix]
    exact fun d hd => List.mem_takeWhile_imp hd
  unfold escapeLength
  cases hlen : (escapeDigits (c :: cs)).length with
  | zero => exact ⟨[], by simp, .inl rfl⟩
  | succ n =>
    rw [hlen] at hdigits
    -- the digits, and what the escape takes behind them
    have hblank : ∀ k, (∀ d ∈ ((c :: cs).drop (n + 1)).take k, isSpace d = true) →
        ∃ e, (c :: cs).take (n + 1 + k) = c :: e ∧
          (e = [] ∨ ∀ d ∈ c :: e, isHexDigit d = true ∨ isSpace d = true) := by
      intro k hk
      refine ⟨cs.take n ++ (cs.drop n).take k, ?_, .inr fun d hd => ?_⟩
      · rw [List.take_add, List.take_succ_cons, List.drop_succ_cons, List.cons_append]
      · rw [← List.cons_append, ← List.take_succ_cons, List.mem_append] at hd
        exact hd.imp (hdigits d) (hk d)
    have hnone := hblank 0 (by simp)
    simp only
    split
    · rename_i d ds hdrop
      rw [hdrop] at hblank
      split
      · rename_i hnewline
        obtain ⟨e, he, hall⟩ := @take_newlineLength _ ds hnewline
        exact hblank _ fun x hx => by rw [he] at hx; simp [isSpace, hall x hx]
      · split
        · rename_i hspace
          exact hblank 1 (by simpa using hspace)
        · exact hnone
    · exact hnone

/-- What a backslash in a string covers of the text behind it. -/
theorem take_covers (c : Char) (cs : Text) :
    ∃ e, (c :: cs).take (if startsNewline (c :: cs) then newlineLength (c :: cs)
        else escapeLength (c :: cs)) = c :: e ∧
      (e = [] ∨ ∀ d ∈ c :: e, isHexDigit d = true ∨ isSpace d = true) := by
  split
  · rename_i hnewline
    obtain ⟨e, he, hall⟩ := @take_newlineLength c cs (by simpa [startsNewline] using hnewline)
    exact ⟨e, he, .inr fun d hd => .inr (by simp [isSpace, hall d hd])⟩
  · exact take_escapeLength_cons c cs

theorem stringRest (quote : Char) (t : Text) :
    StringRest quote (t.take (stringLength quote 0 t)) (t.drop (stringLength quote 0 t)) := by
  induction hn : t.length using Nat.strongRecOn generalizing t with
  | _ n ih =>
    cases t with
    | nil => exact .ended
    | cons c cs =>
      rw [List.length_cons] at hn
      rw [stringLength]
      split
      · rename_i hc
        obtain rfl : c = quote := by simpa using hc
        exact .closed
      rename_i hquote
      split
      · exact .ended
      rename_i hnewline
      split
      · rename_i hc
        obtain rfl : c = '\\' := by simpa using hc
        rw [Nat.add_comm, List.take_succ_cons, List.drop_succ_cons, stringLength_eq_add,
          take_min_length_add]
        cases cs with
        | nil => simpa using .cut
        | cons d ds =>
          obtain ⟨e, he, hall⟩ := take_covers d ds
          generalize (if startsNewline (d :: ds) then _ else _) = covered at he ⊢
          have hrest := ih _ (by simp only [List.length_drop]; omega) ((d :: ds).drop covered) rfl
          rw [he, drop_min_length_add, List.cons_append]
          rcases hall with rfl | hall
          · exact .escape hrest
          · exact .escapes hall hrest
      · rename_i hc
        rw [Nat.add_comm, List.take_succ_cons, List.drop_succ_cons]
        exact .plain (by simpa using hquote) (by simpa using hc) (by simpa using hnewline)
          (ih _ (by omega) cs rfl)

end Token

namespace LineComment

theorem not_escape_char {d : Char} (h : isHexDigit d = true ∨ isSpace d = true) :
    d ≠ '"' ∧ d ≠ '\'' ∧ d ≠ '\\' := by
  refine ⟨?_, ?_, ?_⟩ <;> rintro rfl <;> exact absurd h (by decide)

/-- Behind the first character of an escape the string goes on. -/
theorem cellsFrom_escapes {quote : Char} (hquote : quote = '"' ∨ quote = '\'') {before : Char} {e s : Text}
    (he : ∀ d ∈ e, isHexDigit d = true ∨ isSpace d = true) (hbefore : before ≠ '\\')
    (hbreak : Escapes (before :: (e ++ s))) (rest : Text) :
    cellsFrom (.quoted quote) (e ++ (s ++ rest)) = reveal e ++ cellsFrom (.quoted quote) (s ++ rest) := by
  induction e generalizing before with
  | nil => rfl
  | cons d e ih =>
    obtain ⟨hd, he⟩ := List.forall_mem_cons.mp he
    obtain ⟨hline, hbreak⟩ := List.isChain_cons_cons.mp hbreak
    obtain ⟨hd₁, hd₂, hd₃⟩ := not_escape_char hd
    have hread : ∀ next, Place.read (.quoted quote) d next = (false, .quoted quote) := by
      have hnot : d ≠ quote := by rcases hquote with rfl | rfl <;> assumption
      simp [Place.read, hnot, hd₃, mt hline hbefore]
    rw [List.cons_append, cellsFrom_cons, hread, ih he hd₃ hbreak]
    rfl

theorem closes_append {quote : Char} (hquote : quote = '"' ∨ quote = '\'') {e : Text}
    (he : ∀ d ∈ e, isHexDigit d = true ∨ isSpace d = true) (s : Text) :
    closes quote false (e ++ s) = closes quote false s := by
  induction e with
  | nil => rfl
  | cons d e ih =>
    obtain ⟨hd, he⟩ := List.forall_mem_cons.mp he
    obtain ⟨hd₁, hd₂, hd₃⟩ := not_escape_char hd
    have hnot : d ≠ quote := by rcases hquote with rfl | rfl <;> assumption
    simp [closes, hnot, hd₃, ih he]

/-- **The scan finds the end of a string where the tokens have it**, or has not found it yet. -/
theorem cellsFrom_stringRest {quote : Char} (hquote : quote = '"' ∨ quote = '\'') {s rest : Text}
    (h : StringRest quote s rest) (hbreak : Escapes s) :
    cellsFrom (.quoted quote) (s ++ rest) =
      reveal s ++ cellsFrom (if closes quote false s then .code 0 else .quoted quote) rest := by
  have hne : quote ≠ '\\' := by rcases hquote with rfl | rfl <;> decide
  have hslash : ∀ next, Place.read (.quoted quote) '\\' next = (false, .escaped quote) := by
    simp [Place.read, hne.symm]
  induction h with
  | closed => rcases hquote with rfl | rfl <;> rfl
  | ended => rfl
  | @plain c s rest hc hc' hnewline _ ih =>
    have hread : ∀ next, Place.read (.quoted quote) c next = (false, .quoted quote) := by
      have hline : c ≠ '\n' := by
        rintro rfl
        cases hnewline
      simp [Place.read, hc, hc', hline]
    rw [List.cons_append, cellsFrom_cons, hread, ih hbreak.tail]
    simp [closes, hc, hc']
  | @escape c s rest _ ih =>
    rw [List.cons_append, cellsFrom_cons, hslash, List.cons_append, cellsFrom_cons, Place.read,
      ih hbreak.tail.tail]
    rfl
  | @escapes c e s rest he _ ih =>
    obtain ⟨hc, he⟩ := List.forall_mem_cons.mp he
    have hbehind : Escapes (c :: (e ++ s)) := hbreak.tail
    rw [List.cons_append, cellsFrom_cons, hslash, List.cons_append, cellsFrom_cons, Place.read,
      List.append_assoc, cellsFrom_escapes hquote he (not_escape_char hc).2.2 hbehind,
      ih (List.isChain_append.mp hbehind.tail).2.1]
    simp [closes, closes_append hquote he, reveal]
  | cut => rfl

end LineComment

/-! ### Tokens -/

namespace Token
variable {c : Char} {cs : Text} {kind : Kind} {n : Nat}

/-- An address that something follows has its closing parenthesis. -/
theorem scanName_url {t : Text} (hk : (scanName t).1 = .url) : (scanName t).2 ≠ 0 ∧
    (t.drop (scanName t).2 = [] ∨ (t.take (scanName t).2).getLast? = some ')') := by
  unfold scanName at hk ⊢
  simp only at hk ⊢
  split at hk
  · rename_i cs hdrop
    split at hk
    · rename_i hurl
      have hrest : t.drop (nameLength 0 t + 1) = cs := by
        rw [← List.drop_drop, hdrop, List.drop_succ_cons, List.drop_zero]
      simp only [hurl, if_true]
      refine ⟨by omega, ?_⟩
      rw [← List.drop_drop, hrest, List.take_add, hrest]
      refine or_iff_not_imp_left.mpr fun hne => ?_
      obtain ⟨l, hl⟩ := urlLength_end hne
      rw [hl, ← List.append_assoc, List.getLast?_concat]
    · cases hk
  · cases hk

theorem Scans.url_end (h : Scans c cs kind n) (hk : kind = .url) :
    cs.drop n = [] ∨ (c :: cs.take n).getLast? = some ')' := by
  cases h with
  | name =>
    obtain ⟨hne, hend⟩ := scanName_url hk
    rwa [(take_pred hne).1, (take_pred hne).2]
  | single => exact absurd hk (single_ne c).2.2.2.2.2.2.2.2.1
  | _ => cases hk

end Token

/-! ### Pieces -/

namespace LineComment
open Piece

/-- The scan is in no string but one that a quote opened. -/
def Place.Proper (place : Place) : Prop := ∀ quote, place = .quoted quote → quote = '"' ∨ quote = '\''

theorem endsWithLine_quoted {quote : Char} (h : Place.Proper (.quoted quote)) :
    EndsWithLine (.quoted quote) :=
  .quoted (h quote rfl)

theorem proper_behind {next : Option Char} {letters : Nat} {s : Text} {place : Place}
    (h : Token.behind next letters s = some place) : place.Proper := by
  induction s generalizing letters with
  | nil =>
    obtain rfl : Place.code letters = place := Option.some.inj h
    exact fun quote heq => by cases heq
  | cons d s ih =>
    simp only [Token.behind] at h
    split at h
    · cases h
    split at h
    · split at h
      · obtain rfl : Place.address = place := Option.some.inj h
        exact fun quote heq => by cases heq
      · cases h
    · exact ih h

theorem cellsFrom_url {t : Text} (h : spellsUrl t = true) (letters : Nat) : ∃ u r l s,
    t = [u, r, l, '('] ++ s ∧ ∀ rest, cellsFrom (.code letters) (t ++ rest) =
      reveal [u, r, l, '('] ++ cellsFrom .address (s ++ rest) := by
  unfold spellsUrl at h
  split at h
  · rename_i u r l paren s
    simp only [Bool.and_eq_true, Bool.or_eq_true, beq_iff_eq] at h
    obtain ⟨⟨⟨hu, hr⟩, hl⟩, rfl⟩ := h
    refine ⟨u, r, l, s, rfl, fun rest => ?_⟩
    rcases hu with rfl | rfl <;> rcases hr with rfl | rfl <;> rcases hl with rfl | rfl <;> rfl
  · cases h

/-- The scan over an address that it knows for one. -/
theorem cellsFrom_bare {t rest : Text} (h : isBare t = true) (hend : rest = [] ∨ t.getLast? = some ')')
    (letters : Nat) : cellsFrom (.code letters) (t ++ rest) = reveal t ++ cellsFrom (.code 0) rest := by
  simp only [isBare, Bool.and_eq_true, List.all_eq_true, bne_iff_ne] at h
  obtain ⟨⟨hspells, hbreak⟩, hparen⟩ := h
  obtain ⟨u, r, l, s, rfl, hcells⟩ := cellsFrom_url hspells letters
  rw [hcells, reveal_append, List.append_assoc, cellsFrom_address]
  · exact fun d hd => hbreak d (List.mem_append_right _ hd)
  · intro d hd
    have hne : s ≠ [] := by
      rintro rfl
      cases hd
    exact hparen d (by rw [List.dropLast_append_of_ne_nil hne]; exact List.mem_append_right _ hd)
  · refine hend.imp_right fun hlast => ?_
    cases s with
    | nil => simp at hlast
    | cons d s => rwa [List.getLast?_append_of_ne_nil _ (by simp)] at hlast

/-- The scan over a token of a legible text. -/
theorem cellsFrom_lexeme {t : Text} {token : Token} {after : List Token} {rest : List Piece}
    {place : Place} (h : lex t = token :: after) (hproper : place.Proper)
    (hnext : next rest = (source after).head?) (hlegible : legible place (.token token :: rest) = true) :
    ∃ place' : Place, cellsFrom place t = reveal token.lexeme ++ cellsFrom place' (source after) ∧
      place'.Proper ∧ legible place' rest = true := by
  have ht : t = token.lexeme ++ source after := by
    rw [← source_lex t, h, source_cons]
  have hcode : Place.Proper (.code 0) := fun quote heq => by cases heq
  have hspace : token.kind = .whitespace → ∀ d ∈ token.lexeme, isSpace d = true := fun hkind =>
    (whitespace_maximal h hkind).1
  cases place with
  | quoted quote =>
    simp only [legible, Bool.and_eq_true, beq_iff_eq, List.contains_iff_mem] at hlegible
    obtain ⟨⟨hkind, hbreak⟩, hrest⟩ := hlegible
    refine ⟨.code 0, ?_, hcode, hrest⟩
    rw [ht]
    exact (endsWithLine_quoted hproper).cellsFrom (hspace hkind) hbreak _
  | address =>
    rw [legible] at hlegible
    split at hlegible
    · rename_i hend
      rw [Bool.and_eq_true, Bool.or_eq_true, beq_iff_eq, beq_iff_eq] at hlegible
      obtain ⟨hkind, hrest⟩ := hlegible
      refine ⟨.code 0, ?_, hcode, hrest⟩
      rw [ht]
      rcases hkind with hkind | hkind
      · rw [lexeme_of_kind_single (d := ')') h hkind]
        rfl
      · refine EndsWithLine.address.cellsFrom (hspace hkind) ?_ _
        obtain ⟨d, hd, hd'⟩ := List.any_eq_true.mp hend
        rw [Bool.or_eq_true, beq_iff_eq, beq_iff_eq] at hd'
        rcases hd' with rfl | rfl
        · exact absurd (hspace hkind _ hd) (by decide)
        · exact hd
    · rename_i hinside
      refine ⟨.address, ?_, hproper, hlegible⟩
      rw [ht, cellsFrom_inside_address]
      simpa [not_or] using hinside
  | code letters =>
    obtain ⟨c, cs, n, rfl, hs, hlexeme, hafter⟩ := lex_eq_cons h
    cases hkind : token.kind with
    | comment =>
      simp only [legible, hkind] at hlegible
      refine ⟨.code 0, ?_, hcode, hlegible⟩
      obtain ⟨ds, rfl, rfl, rfl⟩ := hs.comment_eq hkind
      have hstar : Place.read (.code letters) '/' (('*' :: ds).head?) = (false, .opening) := rfl
      rw [hlexeme, hafter, Nat.add_comm, List.take_succ_cons, List.drop_succ_cons, cellsFrom_cons, hstar,
        cellsFrom_cons, Place.read, cellsFrom_commentLength (by simp)]
      rfl
    | string =>
      obtain ⟨hquote, rfl⟩ := hs.string_eq hkind
      simp only [legible, hkind, hlexeme, Bool.and_eq_true, decide_eq_true_eq] at hlegible
      obtain ⟨hbreak, hrest⟩ := hlegible
      have hopen : Place.read (.code letters) c cs.head? = (false, .quoted c) := by
        rcases hquote with rfl | rfl <;> rfl
      refine ⟨_, ?_, ?_, hrest⟩
      · have hcells := cellsFrom_stringRest hquote (stringRest c cs) hbreak.tail
        rw [List.take_append_drop] at hcells
        rw [hlexeme, hafter, cellsFrom_cons, hopen, hcells]
        rfl
      · split
        · exact hcode
        · intro quote heq
          cases heq
          exact hquote
    | url =>
      simp only [legible, hkind, Bool.and_eq_true] at hlegible
      obtain ⟨hbare, hrest⟩ := hlegible
      refine ⟨.code 0, ?_, hcode, hrest⟩
      rw [ht, cellsFrom_bare hbare]
      rw [hlexeme, hafter]
      exact hs.url_end hkind
    | _ =>
      simp only [legible, hkind] at hlegible
      split at hlegible
      · rename_i place' hbehind
        refine ⟨place', ?_, ?_, hlegible⟩
        · rw [ht, cellsFrom_behind (hnext ▸ hbehind)]
        · exact proper_behind hbehind
      · cases hlegible
  | opening | block | line | escaped => simp [legible] at hlegible

/-- What may stand behind a line comment. -/
inductive LineEnds : Text → Prop
  | ended : LineEnds []
  | carriageReturn : LineEnds ['\r']
  | lineFeed {t} : LineEnds ('\n' :: t)
  | both {t} : LineEnds ('\r' :: '\n' :: t)

theorem lineEnds_dropWhile (t : Text) : t.dropWhile (· != '\n') = [] ∨
    ∃ rest, t.dropWhile (· != '\n') = '\n' :: rest := by
  cases hrest : t.dropWhile (· != '\n') with
  | nil => exact .inl rfl
  | cons d rest =>
    have := List.head?_dropWhile_not (· != '\n') t
    rw [hrest] at this
    obtain rfl : d = '\n' := by simpa using this
    exact .inr ⟨rest, rfl⟩

/-- Where a line comment ends. -/
theorem lineLength_spec (s : Text) : ∃ body behind : Text, s = body ++ behind ∧
    ('/' :: s).take (lineLength ('/' :: s)) = '/' :: body ∧
    ('/' :: s).drop (lineLength ('/' :: s)) = behind ∧ '\n' ∉ body ∧ LineEnds behind ∧
    (body.getLast? = some '\r' → behind.head? = some '\r') := by
  have hline : ('/' :: s).takeWhile (· != '\n') = '/' :: s.takeWhile (· != '\n') := rfl
  have hs := (List.takeWhile_append_dropWhile (p := (· != '\n')) (l := s)).symm
  have hbreak : '\n' ∉ s.takeWhile (· != '\n') := fun h => by simpa using List.mem_takeWhile_imp h
  have hbehind := lineEnds_dropWhile s
  simp only [lineLength, hline]
  generalize s.takeWhile (· != '\n') = line at hs hbreak
  generalize s.dropWhile (· != '\n') = rest at hs hbehind
  subst hs
  rcases List.eq_nil_or_concat line with rfl | ⟨body, d, rfl⟩
  · refine ⟨[], rest, rfl, rfl, rfl, hbreak, ?_, by simp⟩
    rcases hbehind with rfl | ⟨t, rfl⟩
    · exact .ended
    · exact .lineFeed
  · rw [List.concat_eq_append] at hbreak ⊢
    have hlast : ('/' :: (body ++ [d])).getLast? = some d := by
      rw [← List.cons_append, List.getLast?_concat]
    rw [hlast]
    by_cases hd : d = '\r'
    · subst hd
      refine ⟨body, '\r' :: rest, by simp, by simp, by simp, ?_, ?_, fun _ => rfl⟩
      · exact fun h => hbreak (List.mem_append_left _ h)
      · rcases hbehind with rfl | ⟨t, rfl⟩
        · exact .carriageReturn
        · exact .both
    · have happend : '/' :: (body ++ [d] ++ rest) = ('/' :: (body ++ [d])) ++ rest := rfl
      rw [if_neg (by simpa using hd), happend, List.take_left, List.drop_left]
      refine ⟨body ++ [d], rest, rfl, rfl, rfl, hbreak, ?_, ?_⟩
      · rcases hbehind with rfl | ⟨t, rfl⟩
        · exact .ended
        · exact .lineFeed
      · rw [List.getLast?_concat]
        exact fun h => absurd (Option.some.inj h) hd

/-- Behind a line comment the scan goes on as outside of everything. -/
theorem LineEnds.cellsFrom {behind : Text} (h : LineEnds behind) :
    cellsFrom .line behind = cellsFrom (.code 0) behind ∧
      ∀ cell ∈ (cellsFrom (.code 0) behind).head?, cell.hidden = false := by
  cases h with
  | ended => exact ⟨rfl, by simp [LineComment.cellsFrom]⟩
  | carriageReturn => exact ⟨rfl, by decide⟩
  | lineFeed | both => exact ⟨rfl, by simp [cellsFrom_cons, Place.read]⟩

/-- The comments that the scan finds in a legible text, from any place on. -/
theorem runs_eq_commentSpans {t : Text} {place : Place} (hproper : place.Proper)
    (h : legible place (pieces t) = true) (pos : Nat) :
    runs none pos (cellsFrom place t) = commentSpans pos (pieces t) := by
  induction hn : t.length using Nat.strongRecOn generalizing t place pos with
  | _ n ih =>
    cases t with
    | nil => rfl
    | cons c cs =>
      by_cases hslashes : c = '/' ∧ cs.head? = some '/'
      · obtain ⟨rfl, hnext⟩ := hslashes
        obtain ⟨ds, rfl⟩ := eq_cons_of_head? hnext
        obtain ⟨body, behind, rfl, htake, hdrop, hbreak, hends, hlast⟩ := lineLength_spec ds
        rw [pieces_comment, htake, hdrop] at h ⊢
        cases place with
        | code letters =>
          obtain ⟨hline, hshown⟩ := hends.cellsFrom
          have hcells : cellsFrom (.code letters) ('/' :: '/' :: (body ++ behind)) =
              hide ('/' :: '/' :: body) ++ cellsFrom (.code 0) behind := by
            rw [cellsFrom_slashes, cellsFrom_body hbreak fun hr => by simp [hlast hr], hline]
            rfl
          rw [hcells, runs_hide (by simp) hshown, commentSpans]
          refine congrArg _ (ih _ ?_ (fun _ heq => by cases heq) h _ rfl)
          simp only [List.length_cons, List.length_append] at hn
          omega
        | _ => simp [legible] at h
      · have hno : c = '/' → cs.head? ≠ some '/' := fun hc hnext => hslashes ⟨hc, hnext⟩
        rw [pieces_token hno] at h ⊢
        obtain ⟨place', hcells, hproper', hrest⟩ := cellsFrom_lexeme (lex_cons c cs) hproper
          (by rw [next_pieces, source_lex]) h
        rw [source_lex] at hcells
        rw [hcells, runs_reveal, commentSpans, ih _ ?_ hproper' hrest _ rfl]
        · rfl
        · rw [List.length_drop, ← hn, List.length_cons]
          omega

/-- **The scan finds the comments that stand between the tokens**, on every text in which it can tell
the tokens apart. -/
theorem spans_eq_of_legible {t : Text} (h : legible (.code 0) (pieces t) = true) :
    spans t = commentSpans 0 (pieces t) :=
  runs_eq_commentSpans (fun _ heq => by cases heq) h 0

/-- Slashes in an address, in a string and in a block comment are none of a line comment. -/
theorem spans_of_mixed_slashes :
    spans "a\x7bb:url(//x) \"//\";/*//*/c:1//d\r\n\x7d//".toList = [⟨27, 30⟩, ⟨33, 35⟩] := by
  have h := @spans_eq_of_legible "a\x7bb:url(//x) \"//\";/*//*/c:1//d\r\n\x7d//".toList
    (by decide +kernel)
  exact h.trans (by decide +kernel)

/-- A parenthesis in the string of an address ends it too early for the scan, which hides the rest of
the line. -/
theorem spans_ne_of_quoted_address :
    spans "a\x7bb:url(\")//\");x:1\x7d".toList ≠
      commentSpans 0 (pieces "a\x7bb:url(\")//\");x:1\x7d".toList) := by
  decide +kernel

end LineComment
end VendorSync.Css
