import VendorSync.Proofs.Bytes
import VendorSync.Proofs.Slashes

/-! The scan for line comments as it goes over the bytes of a text.

The scan that is run looks at bytes and cuts the text where it searches in it: `turn?` is one turn of
it, `scan?` all turns and `mask?` the masked text put together from slices, and all of them fail where
a cut is not between characters. From a character on, one turn, or the turns over its bytes, do what
the scan over characters does (`exists_turns`). So the scan over bytes never fails, and gives the same
comments (`scan?_eq`) and the same masked text (`mask?_eq`). -/
namespace VendorSync.Css.LineComment

/-! ### The scan over bytes -/

/-- How many bytes of a string stand before the quote or the line break that ends it. A backslash
takes along the byte behind it, or the end of the text. -/
def stringBytes (quote : UInt8) : List UInt8 → Nat
  | [] => 0
  | byte :: bytes =>
    if byte == quote || byte == '\n'.toUInt8 then 0
    else if byte == '\\'.toUInt8 then
      match bytes with
      | [] => 2
      | _ :: bytes => 2 + stringBytes quote bytes
    else 1 + stringBytes quote bytes

/-- Whether bytes, read from the last one on, are these letters in either case. -/
def spells : List (Char × Char) → List UInt8 → Bool
  | [], _ => true
  | _, [] => false
  | (lower, upper) :: letters, byte :: bytes =>
    (byte == lower.toUInt8 || byte == upper.toUInt8) && spells letters bytes

def endsWithUrl (bytes : List UInt8) : Bool :=
  spells [('l', 'L'), ('r', 'R'), ('u', 'U')] bytes.reverse

/-- Where the block comment ends that begins at an offset: behind its star and slash, or with the
text. -/
def blockStop? (t : Text) (i : Nat) : Option Nat := do
  let rest ← t.rest? (i + 2)
  return ((rest.offset? (['*', '/'].isPrefixOf ·)).map (i + 2 + · + 2)).getD t.byteLength

/-- The line comment that begins at an offset, and where its line ends. -/
def lineComment? (t : Text) (i : Nat) : Option (Span × Nat) := do
  let rest ← t.rest? i
  let line := ((rest.offsetOf? (· == '\n')).map (i + ·)).getD t.byteLength
  let stop := if i < line && t.bytes[line - 1]? == some '\r'.toUInt8 then line - 1 else line
  return (⟨i, stop⟩, line)

/-- Where the address ends that opens at an offset: behind its parenthesis or its line, or with the
text. -/
def addressStop? (t : Text) (i : Nat) : Option Nat := do
  let rest ← t.rest? i
  return ((rest.offsetOf? fun c => c == ')' || c == '\n').map (i + · + 1)).getD t.byteLength

/-- One turn of the scan, at the offset `i` where `byte` stands: the comment that it finds, and the
offset that it leaves the scan at. -/
def turn? (t : Text) (i : Nat) (byte : UInt8) : Option (Option Span × Nat) :=
  if byte == '/'.toUInt8 && t.bytes[i + 1]? == some '*'.toUInt8 then
    (blockStop? t i).map (none, ·)
  else if byte == '/'.toUInt8 && t.bytes[i + 1]? == some '/'.toUInt8 then
    (lineComment? t i).map fun (comment, line) => (some comment, line)
  else if byte == '"'.toUInt8 || byte == '\''.toUInt8 then
    some (none, i + 1 + stringBytes byte (t.bytes.drop (i + 1)) + 1)
  else if byte == '('.toUInt8 && endsWithUrl (t.bytes.take i) then
    (addressStop? t i).map (none, ·)
  else some (none, i + 1)

/-- The comments from the offset `i` on, if no more turns than given lead to the end of the text. -/
def scan? (t : Text) : (turns : Nat) → (i : Nat) → Option (List Span)
  | 0, _ => none
  | turns + 1, i =>
    match t.bytes[i]? with
    | none => some []
    | some byte => do
      let (comment, next) ← turn? t i byte
      let comments ← scan? t turns next
      return comment.toList ++ comments

/-- The text from the offset `copied` on, put together from its slices and blanks for the comments. -/
def blank? (t : Text) (copied : Nat) : List Span → Option Text
  | [] => t.rest? copied
  | c :: comments => do
    let shown ← t.slice? ⟨copied, c.start⟩
    let behind ← blank? t c.stop comments
    return shown ++ (List.replicate (c.stop - c.start) ' ' ++ behind)

/-- The masked text and the comments. -/
def mask? (t : Text) : Option (Text × List Span) := do
  let comments ← scan? t (t.byteLength + 1) 0
  let shown ← blank? t 0 comments
  return (shown, comments)

/-! ### Masking from slices -/

theorem blank?_of_runs {pos : Nat} {cs : List Cell} {comments : List Span} (h : Runs pos cs comments)
    {a p : Text} (hpos : pos = Text.byteLength (a ++ p)) :
    blank? (a ++ (p ++ chars cs)) a.byteLength comments = some (p ++ blanked cs) := by
  induction h generalizing a p with
  | nil => exact Text.rest?_append a _
  | @plain pos cell rest comments hcell _ ih =>
    have := @ih a (p ++ [cell.char]) (by rw [hpos]; simp [Nat.add_assoc])
    rw [blanked_cons, Cell.shown_of_not_hidden hcell]
    simpa using this
  | @hidden pos run rest comments _ hhidden _ _ ih =>
    have hrest := @ih (a ++ (p ++ chars run)) [] (by rw [hpos]; simp [Nat.add_assoc])
    have hslice : Text.slice? ⟨a.byteLength, pos⟩ (a ++ (p ++ chars (run ++ rest))) = some p :=
      Text.slice?_append rfl hpos
    have hstop : Text.byteLength (a ++ (p ++ chars run)) = pos + (chars run).byteLength := by
      rw [hpos]
      simp [Nat.add_assoc]
    rw [hstop] at hrest
    have hblank : blanked run = List.replicate (chars run).byteLength ' ' := by
      rw [← hide_chars hhidden, blanked_hide, hide_chars hhidden]
    rw [blank?, hslice, blanked_append, hblank, chars_append]
    simp only [List.append_assoc, List.nil_append] at hrest
    simp [hrest]

theorem blank?_spans (t : Text) : blank? t 0 (spans t) = some (masked t) := by
  have := @blank?_of_runs _ _ _ (runs_spans t) [] [] rfl
  simpa [masked_eq_blanked] using this

/-! ### Letters -/

theorem spells_concat {lower upper : Char} (hlower : lower.utf8Size = 1) (hupper : upper.utf8Size = 1)
    (letters : List (Char × Char)) (a : Text) (c : Char) :
    spells ((lower, upper) :: letters) (Text.bytes (a ++ [c])).reverse =
      ((c == lower || c == upper) && spells letters (Text.bytes a).reverse) := by
  obtain ⟨byte, rest, hbytes, hbyte, hrest⟩ := Text.reverse_bytes_concat a c
  rw [hbytes, spells]
  have htest : (byte == lower.toUInt8 || byte == upper.toUInt8) = (c == lower || c == upper) := by
    rw [Bool.eq_iff_iff]
    simp [hbyte lower hlower, hbyte upper hupper]
  rw [htest]
  cases hc : (c == lower || c == upper) with
  | false => rfl
  | true =>
    simp only [Bool.or_eq_true, beq_iff_eq] at hc
    rw [hrest (hc.elim (· ▸ hlower) (· ▸ hupper))]

/-- How many letters of `url` stand last in the text. -/
def letterRuns (a : Text) : Nat := a.foldl letterRun 0

theorem letterRuns_concat (a : Text) (c : Char) : letterRuns (a ++ [c]) = letterRun (letterRuns a) c := by
  simp [letterRuns]

theorem letterRun_eq_one (n : Nat) (c : Char) : (letterRun n c == 1) = (c == 'u' || c == 'U') := by
  unfold letterRun
  split_ifs <;> simp_all

theorem letterRun_eq_two (n : Nat) (c : Char) :
    (letterRun n c == 2) = ((c == 'r' || c == 'R') && n == 1) := by
  unfold letterRun
  split_ifs with hu hr
  · simp only [Bool.or_eq_true, beq_iff_eq] at hu
    rcases hu with rfl | rfl <;> rfl
  all_goals grind

theorem letterRun_eq_three (n : Nat) (c : Char) :
    (letterRun n c == 3) = ((c == 'l' || c == 'L') && n == 2) := by
  unfold letterRun
  split_ifs with hu hr
  · simp only [Bool.or_eq_true, beq_iff_eq] at hu
    rcases hu with rfl | rfl <;> rfl
  all_goals grind

/-- One letter more, on both counts. -/
theorem spells_cons {lower upper : Char} (hlower : lower.utf8Size = 1) (hupper : upper.utf8Size = 1)
    {letters : List (Char × Char)} {k : Nat} {p : Nat → Bool}
    (hrun : ∀ n c, (letterRun n c == k + 1) = ((c == lower || c == upper) && p n))
    (hletters : ∀ a : Text, spells letters a.bytes.reverse = p (letterRuns a)) (a : Text) :
    spells ((lower, upper) :: letters) a.bytes.reverse = (letterRuns a == k + 1) := by
  rcases List.eq_nil_or_concat' a with rfl | ⟨a, c, rfl⟩
  · rfl
  · rw [spells_concat hlower hupper, letterRuns_concat, hrun, hletters]

/-- The bytes end with `url` where the scan counts three letters. -/
theorem endsWithUrl_bytes (a : Text) : endsWithUrl a.bytes = (letterRuns a == 3) := by
  have hu : ∀ a : Text, spells [('u', 'U')] a.bytes.reverse = (letterRuns a == 1) :=
    spells_cons (by decide) (by decide) (p := fun _ => true)
      (fun n c => by rw [letterRun_eq_one, Bool.and_true]) fun _ => rfl
  have hr : ∀ a : Text, spells [('r', 'R'), ('u', 'U')] a.bytes.reverse = (letterRuns a == 2) :=
    spells_cons (by decide) (by decide) (p := (· == 1)) letterRun_eq_two hu
  exact spells_cons (by decide) (by decide) (p := (· == 2)) letterRun_eq_three hr a

/-! ### Strings, comments and addresses -/

/-- From a place on the scan shows all up to a character that closes, which has so many bytes before it,
and is then outside of everything; or it shows all of the text. -/
inductive Leaves (closes : Char → Prop) (place : Place) (t : Text) : Option Nat → Prop
  | closed {u d v} : t = u ++ d :: v → closes d →
      cellsFrom place t = reveal (u ++ [d]) ++ cellsFrom (.code 0) v →
      Leaves closes place t (some u.byteLength)
  | unclosed : cellsFrom place t = reveal t → Leaves closes place t none

theorem Leaves.behind {closes : Char → Prop} {place : Place} {t : Text} {r : Option Nat}
    (h : Leaves closes place t r) (place' : Place) (w : Text)
    (hw : cellsFrom place' (w ++ t) = reveal w ++ cellsFrom place t) :
    Leaves closes place' (w ++ t) (r.map (w.byteLength + ·)) := by
  cases h with
  | @closed u d v ht hd hcells =>
    have := @Leaves.closed closes place' (w ++ t) (w ++ u) d v (by rw [ht, List.append_assoc]) hd
      (by rw [hw, hcells]; simp)
    rwa [Text.byteLength_append] at this
  | unclosed hcells => exact .unclosed (by rw [hw, hcells, reveal_append])

theorem stringBytes_append {quote : UInt8} {skipped : List UInt8}
    (h : ∀ byte ∈ skipped, byte ≠ quote ∧ byte ≠ '\n'.toUInt8 ∧ byte ≠ '\\'.toUInt8)
    (bytes : List UInt8) :
    stringBytes quote (skipped ++ bytes) = skipped.length + stringBytes quote bytes := by
  induction skipped with
  | nil => simp
  | cons byte skipped ih =>
    obtain ⟨⟨hquote, hbreak, hescape⟩, h⟩ := List.forall_mem_cons.mp h
    rw [List.cons_append, stringBytes.eq_def]
    simp only [beq_iff_eq, hquote, hbreak, hescape, Bool.or_eq_true, or_self, if_false]
    rw [ih h, List.length_cons]
    omega

/-- A character that neither ends a string nor escapes is passed byte by byte. -/
theorem stringBytes_cons {quote c : Char} (hquote : quote.utf8Size = 1)
    (hc : c ≠ quote ∧ c ≠ '\n' ∧ c ≠ '\\') (t : Text) :
    stringBytes quote.toUInt8 (Text.bytes (c :: t)) = c.utf8Size + stringBytes quote.toUInt8 t.bytes := by
  have hno : ∀ d : Char, d.utf8Size = 1 → c ≠ d → ∀ byte ∈ String.utf8EncodeChar c, byte ≠ d.toUInt8 :=
    fun d hd hne byte hbyte heq => hne ((Text.mem_utf8EncodeChar hd).mp (heq ▸ hbyte))
  rw [Text.bytes_cons, stringBytes_append fun byte hbyte => ⟨hno quote hquote hc.1 byte hbyte,
    hno '\n' (by decide) hc.2.1 byte hbyte, hno '\\' (by decide) hc.2.2 byte hbyte⟩,
    String.length_utf8EncodeChar]

theorem stringBytes_backslash {quote : Char} (hquote : quote.utf8Size = 1) (hescape : quote ≠ '\\')
    (bytes : List UInt8) : stringBytes quote.toUInt8 ('\\'.toUInt8 :: bytes) =
      match bytes with
      | [] => 2
      | _ :: bytes => 2 + stringBytes quote.toUInt8 bytes := by
  have hno : ('\\'.toUInt8 == quote.toUInt8 || '\\'.toUInt8 == '\n'.toUInt8) = false := by
    rw [Bool.or_eq_false_iff]
    refine ⟨beq_eq_false_iff_ne.mpr fun h => hescape ?_, by decide⟩
    exact Text.toUInt8_inj hquote (by decide) h.symm
  rw [stringBytes.eq_def]
  simp only [hno, beq_self_eq_true, if_true]
  rfl

/-- An escaped character is passed whole, though the backslash takes along its first byte only. -/
theorem stringBytes_escape {quote : Char} (hquote : quote.utf8Size = 1) (hescape : quote ≠ '\\')
    (c : Char) (t : Text) : stringBytes quote.toUInt8 (Text.bytes ('\\' :: c :: t)) =
      1 + c.utf8Size + stringBytes quote.toUInt8 t.bytes := by
  have hlen := String.length_utf8EncodeChar c
  obtain ⟨byte, rest, hrest⟩ := List.exists_cons_of_ne_nil (@String.utf8EncodeChar_ne_nil c)
  have hbytes : Text.bytes ('\\' :: c :: t) = '\\'.toUInt8 :: byte :: (rest ++ t.bytes) := by
    rw [Text.bytes_cons, Text.bytes_cons, hrest, String.utf8EncodeChar_eq_singleton (by decide)]
    rfl
  -- the bytes behind the first one are none of a single character
  have hhigh : ∀ b ∈ rest, b ≠ quote.toUInt8 ∧ b ≠ '\n'.toUInt8 ∧ b ≠ '\\'.toUInt8 := by
    intro b hb
    rcases Text.utf8EncodeChar_cases c with ⟨-, henc, -⟩ | ⟨-, hbytes⟩
    · obtain rfl : rest = [] := (List.cons.inj (hrest.symm.trans henc)).2
      cases hb
    · have hb' := hbytes b (by rw [hrest]; exact List.mem_cons_of_mem _ hb)
      exact ⟨Text.ne_toUInt8_of_high hquote hb', Text.ne_toUInt8_of_high (by decide) hb',
        Text.ne_toUInt8_of_high (by decide) hb'⟩
  rw [hrest, List.length_cons] at hlen
  rw [hbytes, stringBytes_backslash hquote hescape]
  show 2 + stringBytes quote.toUInt8 (rest ++ t.bytes) = _
  rw [stringBytes_append hhigh]
  omega

/-- A string ends with its quote or with the line, or goes on to the end of the text. -/
theorem leaves_string {quote : Char} (hquote : quote.utf8Size = 1) (hescape : quote ≠ '\\') (t : Text) :
    ∃ r, Leaves (fun d => d = quote ∨ d = '\n') (.quoted quote) t r ∧
      r.elim (t.byteLength ≤ stringBytes quote.toUInt8 t.bytes)
        (stringBytes quote.toUInt8 t.bytes = ·) := by
  induction hn : t.length using Nat.strongRecOn generalizing t with
  | _ n ih =>
    cases t with
    | nil => exact ⟨none, .unclosed rfl, Nat.le_refl _⟩
    | cons c t =>
      rw [List.length_cons] at hn
      by_cases hend : c = quote ∨ c = '\n'
      · have hread : ∀ next, Place.read (.quoted quote) c next = (false, .code 0) := by
          rcases hend with rfl | rfl <;> simp [Place.read]
        have hc : c.utf8Size = 1 := hend.elim (· ▸ hquote) (· ▸ by decide)
        have hstop : (c.toUInt8 == quote.toUInt8 || c.toUInt8 == '\n'.toUInt8) = true := by
          rcases hend with rfl | rfl <;> simp
        refine ⟨some 0, .closed (u := []) rfl hend (by rw [cellsFrom_cons, hread]; rfl), ?_⟩
        rw [Text.bytes_cons, String.utf8EncodeChar_eq_singleton hc]
        show stringBytes quote.toUInt8 (c.toUInt8 :: Text.bytes t) = 0
        rw [stringBytes.eq_def]
        simp only [hstop, if_true]
      rw [not_or] at hend
      obtain ⟨r, hleaves, hr⟩ := ih t.length (by omega) t rfl
      by_cases hback : c = '\\'
      · subst hback
        have hone : ('\\' : Char).utf8Size = 1 := by decide
        have hread : ∀ next, Place.read (.quoted quote) '\\' next = (false, .escaped quote) := by
          simp [Place.read, Ne.symm hescape]
        cases t with
        | nil =>
          refine ⟨none, .unclosed (by rw [cellsFrom_cons, hread]; rfl), ?_⟩
          have htwo := stringBytes_backslash hquote hescape []
          show Text.byteLength ['\\'] ≤ stringBytes quote.toUInt8 ['\\'.toUInt8]
          rw [htwo, Text.byteLength_cons, hone]
          exact Nat.le_succ 1
        | cons d t =>
          rw [List.length_cons] at hn
          obtain ⟨r, hleaves, hr⟩ := ih t.length (by omega) t rfl
          have hw : cellsFrom (.quoted quote) ('\\' :: d :: t) =
              reveal ['\\', d] ++ cellsFrom (.quoted quote) t := by
            rw [cellsFrom_cons, hread]
            rfl
          refine ⟨_, hleaves.behind (.quoted quote) ['\\', d] hw, ?_⟩
          rw [stringBytes_escape hquote hescape]
          cases r <;> simp_all [Nat.add_assoc]
      · have hread : ∀ next, Place.read (.quoted quote) c next = (false, .quoted quote) := by
          simp [Place.read, hend, hback]
        have hw : cellsFrom (.quoted quote) (c :: t) = reveal [c] ++ cellsFrom (.quoted quote) t := by
          rw [cellsFrom_cons, hread]
          rfl
        refine ⟨_, hleaves.behind (.quoted quote) [c] hw, ?_⟩
        rw [stringBytes_cons hquote ⟨hend.1, hend.2, hback⟩]
        cases r <;> simp_all

theorem leaves_address (t : Text) : Leaves (fun d => d = ')' ∨ d = '\n') .address t
    (t.offsetOf? fun c => c == ')' || c == '\n') := by
  induction t with
  | nil => exact .unclosed rfl
  | cons c t ih =>
    by_cases hend : (c == ')' || c == '\n') = true
    · have hread : ∀ next, Place.read .address c next = (false, .code 0) := by
        intro next
        simp only [Place.read, hend, if_true]
      have hfirst := @Text.offsetOf?_eq (fun c => c == ')' || c == '\n') [] (c :: t) (by simp)
        (by simpa using hend)
      rw [List.nil_append] at hfirst
      rw [hfirst]
      exact .closed (u := []) rfl (by simpa using hend) (by rw [cellsFrom_cons, hread]; rfl)
    · have hread : ∀ next, Place.read .address c next = (false, .address) := by
        intro next
        simp only [Place.read, hend]
        rfl
      have := Text.offsetOf?_append (q := fun c => c == ')' || c == '\n') (u := [c])
        (by simpa using hend) t
      rw [List.singleton_append] at this
      rw [this]
      exact ih.behind .address [c] (by rw [List.singleton_append, cellsFrom_cons, hread]; rfl)

/-- A block comment ends with the slash behind a star. -/
theorem leaves_block (star : Bool) {t : Text} (hstar : star = true → t.head? ≠ some '/') :
    Leaves (fun d => d = '/') (.block star) t ((t.offset? (['*', '/'].isPrefixOf ·)).map (· + 1)) := by
  induction t generalizing star with
  | nil => exact .unclosed rfl
  | cons c t ih =>
    have hread : Place.read (.block star) c t.head? = (false, .block (c == '*')) := by
      have hno : (star && c == '/') = false := by
        cases star with
        | false => rfl
        | true => simpa using hstar rfl
      simp only [Place.read, hno]
      rfl
    by_cases hend : c = '*' ∧ t.head? = some '/'
    · obtain ⟨rfl, hnext⟩ := hend
      obtain ⟨t, rfl⟩ := Token.eq_cons_of_head? hnext
      exact .closed (u := ['*']) rfl rfl (by rw [cellsFrom_cons, hread]; rfl)
    · have hno : ['*', '/'].isPrefixOf (c :: t) = false := by
        by_contra hprefix
        rw [Bool.not_eq_false, List.isPrefixOf_iff_prefix] at hprefix
        obtain ⟨rest, hrest⟩ := hprefix
        obtain ⟨rfl, rfl⟩ := List.cons.inj hrest
        exact hend ⟨rfl, rfl⟩
      have := (ih (c == '*') fun hc hnext => hend ⟨by simpa using hc, hnext⟩).behind (.block star) [c]
        (by rw [List.singleton_append, cellsFrom_cons, hread]; rfl)
      rw [Text.offset?, if_neg (by simp [hno]), Option.map_map]
      rw [Option.map_map] at this
      exact this

/-- A line comment, with the carriage return before its line break. -/
theorem line_cells (t : Text) : ∃ body cr v : Text, t = body ++ (cr ++ v) ∧ '\n' ∉ body ++ cr ∧
    (∀ c ∈ v.head?, c = '\n') ∧ (cr = ['\r'] ∨ cr = [] ∧ body.getLast? ≠ some '\r') ∧
    cellsFrom .line t = hide body ++ (reveal cr ++ cellsFrom (.code 0) v) ∧
    ∀ cell ∈ (reveal cr ++ cellsFrom (.code 0) v).head?, cell.hidden = false := by
  obtain ⟨body, behind, rfl, -, -, hbreak, hends, hlast⟩ := lineLength_spec t
  obtain ⟨hline, hshown⟩ := hends.cellsFrom
  have hcells : cellsFrom .line (body ++ behind) = hide body ++ cellsFrom (.code 0) behind := by
    rw [cellsFrom_body hbreak fun hr => by simp [hlast hr], hline]
  cases hends with
  | ended =>
    have hno : body.getLast? ≠ some '\r' := fun h => by simpa using hlast h
    exact ⟨body, [], [], rfl, by simpa, by simp, .inr ⟨rfl, hno⟩, hcells, hshown⟩
  | carriageReturn => exact ⟨body, ['\r'], [], rfl, by simpa, by simp, .inl rfl, hcells, hshown⟩
  | @lineFeed t =>
    have hno : body.getLast? ≠ some '\r' := fun h => by simpa using hlast h
    exact ⟨body, [], '\n' :: t, rfl, by simpa, by simp, .inr ⟨rfl, hno⟩, hcells, hshown⟩
  | @both t => exact ⟨body, ['\r'], '\n' :: t, rfl, by simpa, by simp, .inl rfl, hcells, hshown⟩

/-! ### Turns -/

/-- The letters are those that stand last behind the scan, or a line break comes next, or nothing. -/
def Counted (a b : Text) (letters : Nat) : Prop := letters = letterRuns a ∨ ∀ c ∈ b.head?, c = '\n'

/-- What one turn at the beginning of `b` comes to, where the scan stands behind `a`. -/
inductive Turns (a b : Text) (letters : Nat) : Option Span × Nat → Prop
  | shown {u v letters'} : b = u ++ v → u ≠ [] →
      cellsFrom (.code letters) b = reveal u ++ cellsFrom (.code letters') v →
      Counted (a ++ u) v letters' → Turns a b letters (none, (a ++ u).byteLength)
  | ended {next} : cellsFrom (.code letters) b = reveal b → (a ++ b).byteLength ≤ next →
      Turns a b letters (none, next)
  | comment {body cr v} : b = body ++ (cr ++ v) → body ≠ [] →
      cellsFrom (.code letters) b = hide body ++ (reveal cr ++ cellsFrom (.code 0) v) →
      (∀ cell ∈ (reveal cr ++ cellsFrom (.code 0) v).head?, cell.hidden = false) →
      (∀ c ∈ v.head?, c = '\n') →
      Turns a b letters
        (some ⟨a.byteLength, (a ++ body).byteLength⟩, (a ++ (body ++ cr)).byteLength)

/-- Behind a character that closes no letter of `url` is counted. -/
theorem Leaves.turns {closes : Char → Prop} {a b : Text} {letters : Nat} {r : Option Nat}
    (h : Leaves closes (.code letters) b r)
    (hcloses : ∀ d, closes d → d.utf8Size = 1 ∧ ∀ n, letterRun n d = 0) {next : Nat} (hnext : r.elim ((a ++ b).byteLength ≤ next) (next = a.byteLength + · + 1)) :
    Turns a b letters (none, next) := by
  cases h with
  | unclosed hcells => exact .ended hcells hnext
  | @closed u d v hb hd hcells =>
    obtain ⟨hsize, hrun⟩ := hcloses d hd
    have hlen : next = Text.byteLength (a ++ (u ++ [d])) := by
      rw [Option.elim_some] at hnext
      rw [hnext]
      simp [hsize, Nat.add_assoc]
    rw [hlen]
    refine .shown (by rw [hb]; simp) (by simp) hcells (.inl ?_)
    rw [← List.append_assoc, letterRuns_concat, hrun]

theorem getElem?_bytes_behind {c : Char} (hc : c.utf8Size = 1) (a b : Text) :
    (Text.bytes (a ++ c :: b))[a.byteLength + 1]? = (Text.bytes b).head? := by
  have := Text.getElem?_bytes (a ++ [c]) b
  simpa [hc] using this

section Turn
variable {a b : Text} {letters : Nat}

theorem blockStop?_turns (t : Text) : ∃ next,
    blockStop? (a ++ '/' :: '*' :: t) a.byteLength = some next ∧
      Turns a ('/' :: '*' :: t) letters (none, next) := by
  have hrest := Text.rest?_append (a ++ ['/', '*']) t
  have hlen : Text.byteLength (a ++ ['/', '*']) = a.byteLength + 2 := by
    rw [Text.byteLength_append]
    rfl
  rw [hlen, List.append_assoc] at hrest
  have htext : a ++ '/' :: '*' :: t = a ++ (['/', '*'] ++ t) := rfl
  have hleaves := (@leaves_block false t (by simp)).behind (.code letters) ['/', '*']
    (by simp [cellsFrom_cons, Place.read]; rfl)
  refine ⟨_, by rw [blockStop?, htext, hrest]; rfl, ?_⟩
  refine hleaves.turns (fun d hd => ?_) ?_
  · subst hd
    exact ⟨by decide, fun n => by simp [letterRun]⟩
  · have hstar : Text.byteLength ['/', '*'] = 2 := rfl
    cases Text.offset? (['*', '/'].isPrefixOf ·) t with
    | none => exact Nat.le_refl _
    | some close =>
      simp only [Option.map_some, Option.elim_some, Option.getD_some, hstar]
      omega

theorem addressStop?_turns (t : Text) : ∃ next,
    addressStop? (a ++ '(' :: t) a.byteLength = some next ∧
      Turns a ('(' :: t) 3 (none, next) := by
  have hleaves := (leaves_address t).behind (.code 3) ['(']
    (by simp [cellsFrom_cons, Place.read]; rfl)
  have hoffset := Text.offsetOf?_append (q := fun c => c == ')' || c == '\n') (u := ['(']) (by simp) t
  refine ⟨_, by rw [addressStop?, Text.rest?_append]; rfl, ?_⟩
  rw [List.singleton_append] at hoffset hleaves
  rw [← hoffset] at hleaves
  refine hleaves.turns (fun d hd => ?_) ?_
  · rcases hd with rfl | rfl <;> exact ⟨by decide, fun n => by simp [letterRun]⟩
  · cases Text.offsetOf? (fun c => c == ')' || c == '\n') ('(' :: t) with
    | none => exact Nat.le_refl _
    | some close => rfl

theorem string_turns {quote : Char} (hquote : quote = '"' ∨ quote = '\'') (t : Text) :
    Turns a (quote :: t) letters (none, a.byteLength + 1 + stringBytes quote.toUInt8 t.bytes + 1) := by
  have hsize : quote.utf8Size = 1 := by rcases hquote with rfl | rfl <;> rfl
  obtain ⟨r, hleaves, hr⟩ := leaves_string hsize (by rcases hquote with rfl | rfl <;> decide) t
  have hread : ∀ next, Place.read (.code letters) quote next = (false, .quoted quote) := by
    rcases hquote with rfl | rfl <;> simp [Place.read]
  have hall := hleaves.behind (.code letters) [quote]
    (by rw [List.singleton_append, cellsFrom_cons, hread]; rfl)
  refine hall.turns (fun d hd => ?_) ?_
  · rcases hd with rfl | rfl
    · exact ⟨hsize, fun n => by rcases hquote with rfl | rfl <;> simp [letterRun]⟩
    · exact ⟨by decide, fun n => by simp [letterRun]⟩
  · cases r with
    | none =>
      simp only [Option.map_none, Option.elim_none, List.singleton_append, Text.byteLength_append,
        Text.byteLength_cons, hsize] at hr ⊢
      omega
    | some close =>
      simp only [Option.map_some, Option.elim_some, Text.byteLength_cons, Text.byteLength_nil,
        hsize] at hr ⊢
      omega

theorem lineComment?_eq {line v : Text} (hne : line ≠ []) (hbreak : '\n' ∉ line)
    (hv : ∀ c ∈ v.head?, c = '\n') : lineComment? (a ++ (line ++ v)) a.byteLength =
      some (⟨a.byteLength, if line.getLast? = some '\r' then (a ++ line).byteLength - 1
        else (a ++ line).byteLength⟩, (a ++ line).byteLength) := by
  have hline : ∀ c ∈ line, (c == '\n') = false := fun c hc =>
    beq_eq_false_iff_ne.mpr fun heq => hbreak (heq ▸ hc)
  have hoffset : ((Text.offsetOf? (· == '\n') (line ++ v)).map (a.byteLength + ·)).getD
      (a ++ (line ++ v)).byteLength = (a ++ line).byteLength := by
    rw [Text.offsetOf?_eq hline fun c hc => beq_iff_eq.mpr (hv c hc)]
    cases v <;> simp
  have hbyte := Text.getElem?_bytes_pred (List.append_ne_nil_of_right_ne_nil a hne) v
  have hlast : (Text.bytes (a ++ line)).getLast? = some '\r'.toUInt8 ↔ line.getLast? = some '\r' := by
    rw [Text.getLast?_bytes (by decide), List.getLast?_append_of_ne_nil a hne]
  have hlonger : a.byteLength < (a ++ line).byteLength := by
    have := byteLength_pos hne
    rw [Text.byteLength_append]
    omega
  rw [List.append_assoc] at hbyte
  rw [lineComment?, Text.rest?_append]
  show some (_, _) = _
  have hstop : (decide (a.byteLength < (a ++ line).byteLength) &&
      (Text.bytes (a ++ line)).getLast? == some '\r'.toUInt8) = decide (line.getLast? = some '\r') := by
    rw [Bool.eq_iff_iff, Bool.and_eq_true, decide_eq_true_eq, beq_iff_eq, decide_eq_true_eq, hlast]
    exact and_iff_right hlonger
  simp only [hoffset, hbyte, hstop, decide_eq_true_eq]

theorem lineComment?_turns (t : Text) : ∃ c line,
    lineComment? (a ++ '/' :: '/' :: t) a.byteLength = some (c, line) ∧
      Turns a ('/' :: '/' :: t) letters (some c, line) := by
  obtain ⟨body, cr, v, rfl, hbreak, hv, hcr, hcells, hshown⟩ := line_cells t
  have hcomment := @lineComment?_eq a ('/' :: '/' :: (body ++ cr)) v (by simp) (by simpa using hbreak) hv
  have hstop : (if ('/' :: '/' :: (body ++ cr)).getLast? = some '\r' then
        (a ++ '/' :: '/' :: (body ++ cr)).byteLength - 1
      else (a ++ '/' :: '/' :: (body ++ cr)).byteLength) = (a ++ '/' :: '/' :: body).byteLength := by
    rcases hcr with rfl | ⟨rfl, hlast⟩
    · have hone : ('\r' : Char).utf8Size = 1 := by decide
      rw [← List.cons_append, ← List.cons_append, List.getLast?_concat, if_pos rfl]
      simp only [Text.byteLength_append, Text.byteLength_cons, Text.byteLength_nil, hone]
      omega
    · rw [List.append_nil, if_neg]
      intro h
      cases body with
      | nil => exact absurd h (by decide)
      | cons c body => exact hlast (by simpa using h)
  have hsplit : '/' :: '/' :: (body ++ (cr ++ v)) = '/' :: '/' :: (body ++ cr) ++ v := by simp
  rw [hstop, ← hsplit] at hcomment
  refine ⟨_, _, hcomment, @Turns.comment a _ letters ('/' :: '/' :: body) cr v rfl (by simp) ?_ hshown hv⟩
  rw [cellsFrom_slashes, hcells]
  rfl

/-- A character outside of everything is shown by itself. -/
theorem turns_code {c : Char} (hc : c.utf8Size = 1) (h : Counted a (c :: b) letters)
    (hread : Place.read (.code letters) c b.head? = (false, .code (letterRun letters c))) :
    Turns a (c :: b) letters (none, a.byteLength + 1) := by
  have hlen : a.byteLength + 1 = Text.byteLength (a ++ [c]) := by simp [hc]
  rw [hlen]
  refine .shown (u := [c]) rfl (by simp) (by rw [cellsFrom_cons, hread]; rfl) (.inl ?_)
  rw [letterRuns_concat]
  rcases h with rfl | hbreak
  · rfl
  · obtain rfl := hbreak c rfl
    simp [letterRun]

/-- **A turn at a character of one byte** cuts the text between characters, and comes to what the scan
over characters does. -/
theorem exists_turns {c : Char} (hc : c.utf8Size = 1) (h : Counted a (c :: b) letters) : ∃ r,
    turn? (a ++ c :: b) a.byteLength c.toUInt8 = some r ∧ Turns a (c :: b) letters r := by
  have hbyte : ∀ d : Char, d.utf8Size = 1 → (c.toUInt8 == d.toUInt8) = (c == d) := by
    intro d hd
    rw [Bool.eq_iff_iff, beq_iff_eq, beq_iff_eq]
    exact ⟨Text.toUInt8_inj hc hd, congrArg _⟩
  have hnext : ∀ d : Char, d.utf8Size = 1 →
      ((Text.bytes (a ++ c :: b))[a.byteLength + 1]? == some d.toUInt8) = (b.head? == some d) := by
    intro d hd
    rw [Bool.eq_iff_iff, beq_iff_eq, beq_iff_eq, getElem?_bytes_behind hc, Text.head?_bytes hd]
  have htake : (Text.bytes (a ++ c :: b)).take a.byteLength = a.bytes := by
    rw [Text.bytes_append, ← Text.length_bytes, List.take_left]
  have hdrop : (Text.bytes (a ++ c :: b)).drop (a.byteLength + 1) = b.bytes := by
    have hsplit : Text.bytes (a ++ c :: b) = Text.bytes (a ++ [c]) ++ b.bytes := by simp
    rw [hsplit, show a.byteLength + 1 = (Text.bytes (a ++ [c])).length by simp [hc], List.drop_left]
  unfold turn?
  rw [hbyte '/' (by decide), hbyte '"' (by decide), hbyte '\'' (by decide), hbyte '(' (by decide),
    hnext '*' (by decide), hnext '/' (by decide), htake, hdrop, endsWithUrl_bytes]
  split_ifs with hblock hline hquote hparen
  · simp only [Bool.and_eq_true, beq_iff_eq] at hblock
    obtain ⟨rfl, hstar⟩ := hblock
    obtain ⟨t, rfl⟩ := Token.eq_cons_of_head? hstar
    obtain ⟨next, hstop, hturns⟩ := @blockStop?_turns a letters t
    exact ⟨_, by rw [hstop]; rfl, hturns⟩
  · simp only [Bool.and_eq_true, beq_iff_eq] at hline
    obtain ⟨rfl, hslash⟩ := hline
    obtain ⟨t, rfl⟩ := Token.eq_cons_of_head? hslash
    obtain ⟨comment, line, hcomment, hturns⟩ := @lineComment?_turns a letters t
    exact ⟨_, by rw [hcomment]; rfl, hturns⟩
  · exact ⟨_, rfl, string_turns (by simpa using hquote) b⟩
  · simp only [Bool.and_eq_true, beq_iff_eq] at hparen
    obtain ⟨rfl, hletters⟩ := hparen
    obtain rfl : letters = 3 := by
      rcases h with rfl | hbreak
      · exact hletters
      · exact absurd (hbreak '(' rfl) (by decide)
    obtain ⟨next, hstop, hturns⟩ := @addressStop?_turns a b
    exact ⟨_, by rw [hstop]; rfl, hturns⟩
  · refine ⟨_, rfl, turns_code hc h ?_⟩
    have hno : ¬ (c == '(' && letters == 3) = true := by
      intro hopen
      simp only [Bool.and_eq_true, beq_iff_eq] at hopen hparen
      obtain ⟨rfl, rfl⟩ := hopen
      rcases h with hletters | hbreak
      · exact hparen ⟨rfl, hletters.symm⟩
      · exact absurd (hbreak '(' rfl) (by decide)
    simp only [Place.read, hblock, hline, hquote, hno]
    rfl

end Turn

/-! ### The whole scan -/

theorem scan?_of_turn {t : Text} {i next : Nat} {byte : UInt8} {comment : Option Span}
    (hget : t.bytes[i]? = some byte) (hturn : turn? t i byte = some (comment, next)) (turns : Nat) :
    scan? t (turns + 1) i = (scan? t turns next).map (comment.toList ++ ·) := by
  rw [scan?, hget]
  simp only [hturn]
  show (scan? t turns next >>= fun comments => some (comment.toList ++ comments)) = _
  cases scan? t turns next <;> rfl

/-- The bytes of other characters are passed one by one. -/
theorem scan?_high {t : Text} {passed bytes rest : List UInt8} (ht : t.bytes = passed ++ (bytes ++ rest))
    (h : ∀ byte ∈ bytes, 0x80 ≤ byte) (turns : Nat) :
    scan? t (turns + bytes.length) passed.length = scan? t turns (passed.length + bytes.length) := by
  induction bytes generalizing passed with
  | nil => rfl
  | cons byte bytes ih =>
    obtain ⟨hbyte, h⟩ := List.forall_mem_cons.mp h
    have hget : t.bytes[passed.length]? = some byte := by
      rw [ht, List.getElem?_append_right (Nat.le_refl _), Nat.sub_self]
      rfl
    have hno : ∀ d : Char, d.utf8Size = 1 → (byte == d.toUInt8) = false := fun d hd =>
      beq_eq_false_iff_ne.mpr (Text.ne_toUInt8_of_high hd hbyte)
    have hturn : turn? t passed.length byte = some (none, passed.length + 1) := by
      unfold turn?
      rw [hno '/' (by decide), hno '"' (by decide), hno '\'' (by decide), hno '(' (by decide)]
      rfl
    have hrest := @ih (passed ++ [byte]) (by rw [ht]; simp) h
    rw [List.length_append, List.length_singleton] at hrest
    rw [List.length_cons, ← Nat.add_assoc, scan?_of_turn hget hturn, hrest, Nat.add_right_comm,
      Nat.add_assoc]
    simp

/-- A turn and the turns behind it, if these find the comments that are behind it. -/
theorem Turns.scan? {t a b : Text} {letters turns : Nat} {r : Option Span × Nat}
    (h : Turns a b letters r) (ht : t = a ++ b) (hpos : 0 < turns) (hturns : b.byteLength ≤ turns)
    (ih : ∀ {a' b' : Text} {letters' : Nat}, t = a' ++ b' → Counted a' b' letters' →
      b'.byteLength < turns →
      scan? t turns a'.byteLength = some (runs none a'.byteLength (cellsFrom (.code letters') b'))) :
    (scan? t turns r.2).map (r.1.toList ++ ·) =
      some (runs none a.byteLength (cellsFrom (.code letters) b)) := by
  cases h with
  | @shown u v letters' hb hne hcells hcounted =>
    have hlen := congrArg Text.byteLength hb
    have hu := byteLength_pos hne
    rw [Text.byteLength_append] at hlen
    rw [ih (by rw [ht, hb, List.append_assoc]) hcounted (by omega), hcells, runs_reveal,
      Text.byteLength_append]
    rfl
  | @ended next hcells hnext =>
    have hend : t.bytes[next]? = none := by
      rw [List.getElem?_eq_none_iff, Text.length_bytes, ht]
      exact hnext
    have hnil := runs_reveal a.byteLength b []
    rw [List.append_nil] at hnil
    obtain ⟨turns, rfl⟩ : ∃ m, turns = m + 1 := ⟨turns - 1, by omega⟩
    rw [LineComment.scan?, hend, hcells, hnil]
    rfl
  | @comment body cr v hb hne hcells hshown hv =>
    have hlen := congrArg Text.byteLength hb
    have hbody := byteLength_pos hne
    rw [Text.byteLength_append, Text.byteLength_append] at hlen
    have hbehind := @ih (a ++ (body ++ cr)) v 0 (by rw [ht, hb]; simp) (.inr hv) (by omega)
    rw [hbehind, hcells, runs_hide hne hshown, runs_reveal]
    simp [Nat.add_assoc]

theorem read_code_high {c : Char} (hc : c.utf8Size ≠ 1) (letters : Nat) (next : Option Char) :
    Place.read (.code letters) c next = (false, .code 0) ∧ letterRun letters c = 0 := by
  have hne : ∀ d : Char, d.utf8Size = 1 → c ≠ d := fun d hd heq => hc (heq ▸ hd)
  have hrun : letterRun letters c = 0 := by
    simp [letterRun, hne 'u' rfl, hne 'U' rfl, hne 'r' rfl, hne 'R' rfl, hne 'l' rfl, hne 'L' rfl]
  refine ⟨?_, hrun⟩
  rw [read_code ⟨hne '"' rfl, hne '\'' rfl⟩ fun h => absurd h (hne '/' rfl), hrun]
  simp [hne '(' rfl]

/-- **The scan over bytes never fails**, and finds the comments that the scan over characters finds. The
induction is on the turns, of which a character takes one or as many as it has bytes. -/
theorem scan?_eq {t a b : Text} {letters turns : Nat} (ht : t = a ++ b) (h : Counted a b letters)
    (hturns : b.byteLength < turns) :
    scan? t turns a.byteLength = some (runs none a.byteLength (cellsFrom (.code letters) b)) := by
  induction turns using Nat.strongRecOn generalizing a b letters with
  | _ turns ih =>
    have hget : t.bytes[a.byteLength]? = b.bytes.head? := by rw [ht, Text.getElem?_bytes]
    cases b with
    | nil =>
      obtain ⟨turns, rfl⟩ : ∃ m, turns = m + 1 := ⟨turns - 1, by omega⟩
      rw [scan?, hget]
      rfl
    | cons c b =>
      rw [Text.byteLength_cons] at hturns
      have hpos := c.utf8Size_pos
      rcases Text.utf8EncodeChar_cases c with ⟨hc, henc, -⟩ | ⟨hc, hhigh⟩
      · obtain ⟨turns, rfl⟩ : ∃ m, turns = m + 1 := ⟨turns - 1, by omega⟩
        rw [Text.bytes_cons, henc, List.singleton_append, List.head?_cons] at hget
        obtain ⟨⟨comment, next⟩, hturn, hcomes⟩ := exists_turns hc h
        rw [← ht] at hturn
        rw [scan?_of_turn hget hturn]
        exact hcomes.scan? ht (by omega) (by rw [Text.byteLength_cons]; omega)
          fun ht' h' hturns' => ih turns (by omega) ht' h' hturns'
      · obtain ⟨hread, hrun⟩ := read_code_high hc letters b.head?
        have hbytes : t.bytes = a.bytes ++ (String.utf8EncodeChar c ++ Text.bytes b) := by rw [ht]; simp
        have hpassed := scan?_high hbytes hhigh (turns - c.utf8Size)
        rw [String.length_utf8EncodeChar, Text.length_bytes, Nat.sub_add_cancel (by omega)] at hpassed
        have hcounted : Counted (a ++ [c]) b 0 := by
          rw [Counted, letterRuns_concat, (read_code_high hc _ none).2]
          exact .inl rfl
        have hrest := ih (turns - c.utf8Size) (by omega) (by rw [ht]; simp) hcounted (by omega)
        have hlen : Text.byteLength (a ++ [c]) = a.byteLength + c.utf8Size := by simp
        rw [hlen] at hrest
        rw [hpassed, hrest, cellsFrom_cons, hread]
        rfl

theorem scan?_zero (t : Text) : scan? t (t.byteLength + 1) 0 = some (spans t) :=
  @scan?_eq t [] t 0 _ rfl (.inl rfl) (Nat.lt_succ_self _)

/-- **Masking cuts no character.** -/
theorem mask?_eq (t : Text) : mask? t = some (masked t, spans t) := by
  rw [mask?, scan?_zero]
  show (blank? t 0 (spans t)).bind _ = _
  rw [blank?_spans]
  rfl

end VendorSync.Css.LineComment
