import VendorSync.Proofs.Bytes
import VendorSync.Proofs.Positions

/-! Positions that are found through an index of the lines.

The index of a text lists the offsets at which its lines begin, which are those behind the bytes of line
feeds. `indexedOffset?` looks a line up by its number, `indexedPosition?` searches the list for the line
of an offset, and both count the characters of a slice of the text: so they fail where that would cut a
character in two. They never do (`indexedOffset?_eq`, `indexedPosition?_eq`), and they find what
`offsetAt` and `positionAt` find by going over the characters. -/
namespace VendorSync.Text

/-! ### The index -/

/-- The offsets behind the line feeds among bytes, of which the first has the offset `pos`. -/
def startsFrom (pos : Nat) : List UInt8 → List Nat
  | [] => []
  | byte :: bytes =>
    if byte == '\n'.toUInt8 then (pos + 1) :: startsFrom (pos + 1) bytes
    else startsFrom (pos + 1) bytes

/-- The offsets at which the lines of a text begin. -/
def lineStarts (t : Text) : List Nat := 0 :: startsFrom 0 t.bytes

/-- Where a line ends, before its line break. -/
def lineStop? (t : Text) (number : Nat) : Option Nat := do
  let start ← t.lineStarts[number]?
  match t.lineStarts[number + 1]? with
  | none => return t.byteLength
  | some next =>
    let stop := next - 1
    return if start < stop && t.bytes[stop - 1]? == some '\r'.toUInt8 then stop - 1 else stop

/-- The offset of a position, by the index. -/
def indexedOffset? (t : Text) (p : Position) : Option Nat :=
  if t.lineStarts.length ≤ p.line then some t.byteLength
  else do
    let start ← t.lineStarts[p.line]?
    let stop ← t.lineStop? p.line
    let line ← t.slice? ⟨start, stop⟩
    return if p.character < line.length then start + byteLength (line.take p.character) else stop

/-- The index of a number in a sorted list, or as an error the one at which it could be inserted. -/
def search (numbers : List Nat) (n : Nat) : Except Nat Nat :=
  let index := (numbers.takeWhile (· < n)).length
  if numbers[index]? = some n then .ok index else .error index

/-- The line that an offset is on. -/
def lineOf (t : Text) (offset : Nat) : Nat :=
  match search t.lineStarts offset with
  | .ok number => number
  | .error next => next - 1

/-- The position of an offset, by the index. -/
def indexedPosition? (t : Text) (o : Nat) : Option Position := do
  let offset := t.floor (min o t.byteLength)
  let number := t.lineOf offset
  let start ← t.lineStarts[number]?
  let stop ← t.lineStop? number
  let before ← t.slice? ⟨start, min offset (max stop start)⟩
  return ⟨number, before.length⟩

/-! ### The starts of lines -/

theorem startsFrom_append (pos : Nat) (a b : List UInt8) :
    startsFrom pos (a ++ b) = startsFrom pos a ++ startsFrom (pos + a.length) b := by
  induction a generalizing pos with
  | nil => rfl
  | cons byte a ih =>
    rw [List.cons_append, startsFrom, startsFrom, ih, List.length_cons, Nat.add_right_comm, Nat.add_assoc]
    split <;> rfl

theorem startsFrom_of_not_mem {bytes : List UInt8} (h : '\n'.toUInt8 ∉ bytes) (pos : Nat) :
    startsFrom pos bytes = [] := by
  induction bytes generalizing pos with
  | nil => rfl
  | cons byte bytes ih =>
    rw [List.mem_cons, not_or] at h
    rw [startsFrom, if_neg (by simpa using Ne.symm h.1), ih h.2]

/-- Of characters that are no line feed no line begins. -/
theorem startsFrom_of_no_break {u : Text} (h : '\n' ∉ u) (pos : Nat) : startsFrom pos u.bytes = [] := by
  exact startsFrom_of_not_mem (fun hmem => h ((mem_bytes (by decide)).mp hmem)) pos

theorem lineStarts_append (a b : Text) :
    (a ++ b).lineStarts = a.lineStarts ++ startsFrom a.byteLength b.bytes := by
  rw [lineStarts, lineStarts, bytes_append, startsFrom_append, length_bytes, Nat.zero_add, List.cons_append]

theorem startsFrom_cons (pos : Nat) (c : Char) (t : Text) : startsFrom pos (bytes (c :: t)) =
    (if c = '\n' then [pos + 1] else []) ++ startsFrom (pos + c.utf8Size) t.bytes := by
  rw [bytes_cons, startsFrom_append, String.length_utf8EncodeChar]
  split
  · rename_i hc
    subst hc
    rfl
  · rename_i hc
    have := @startsFrom_of_no_break [c] (by simpa using Ne.symm hc) pos
    rw [bytes_cons, bytes_nil, List.append_nil] at this
    rw [this]

/-- The index has an entry for each line. -/
theorem length_lineStarts (t : Text) : t.lineStarts.length = t.lineCount := by
  have hcount : ∀ pos, (startsFrom pos t.bytes).length = t.count '\n' := by
    induction t with
    | nil => intro pos; rfl
    | cons c t ih =>
      intro pos
      rw [startsFrom_cons, List.length_append, ih, List.count_cons]
      by_cases hc : c = '\n' <;> simp [hc, Nat.add_comm]
  rw [lineStarts, List.length_cons, hcount, lineCount]

theorem startsFrom_le (pos : Nat) (t : Text) : ∀ s ∈ startsFrom pos t.bytes, s ≤ pos + t.byteLength := by
  induction t generalizing pos with
  | nil => simp [startsFrom]
  | cons c t ih =>
    intro s hs
    have hpos := c.utf8Size_pos
    rw [startsFrom_cons, List.mem_append] at hs
    rw [byteLength_cons]
    rcases hs with hs | hs
    · split at hs
      · obtain rfl := List.mem_singleton.mp hs
        omega
      · cases hs
    · have := ih (pos + c.utf8Size) s hs
      omega

variable {t : Text} {number : Nat} {before line behind : Text}

/-- Where the next line begins, if one does behind what stands behind a line. -/
def nextStart (stop : Nat) : Text → Option Nat
  | [] => none
  | '\r' :: _ => some (stop + 2)
  | _ => some (stop + 1)

theorem lt_of_nextStart {stop s : Nat} (h : s ∈ nextStart stop behind) : stop < s := by
  unfold nextStart at h
  split at h
  · cases h
  all_goals
    obtain rfl := Option.some.inj h
    omega

theorem EndsLine.head?_startsFrom (h : EndsLine line behind) (pos : Nat) :
    (startsFrom pos behind.bytes).head? = nextStart pos behind := by
  have hone : ('\r' : Char).utf8Size = 1 := by decide
  cases h with
  | text => rfl
  | lineFeed => rw [startsFrom_cons, if_pos rfl]; rfl
  | both => rw [startsFrom_cons, if_neg (by decide), startsFrom_cons, if_pos rfl, hone]; rfl

/-- The lines above a line are listed first, and its start behind theirs. -/
theorem exists_lineStarts (h : ∀ c ∈ before.getLast?, c = '\n') : ∃ above,
    before.lineStarts = above ++ [byteLength before] ∧ above.length = before.count '\n' ∧
      ∀ s ∈ above, s < byteLength before := by
  rcases List.eq_nil_or_concat' before with rfl | ⟨x, c, rfl⟩
  · exact ⟨[], rfl, rfl, by simp⟩
  · obtain rfl : c = '\n' := h c (by simp)
    have hone : ('\n' : Char).utf8Size = 1 := by decide
    refine ⟨lineStarts x, ?_, ?_, fun s hs => ?_⟩
    · rw [lineStarts_append, startsFrom_cons]
      simp [hone, startsFrom]
    · rw [length_lineStarts, lineCount]
      simp
    · rw [byteLength_append, byteLength_cons, hone]
      rcases List.mem_cons.mp hs with rfl | hs
      · omega
      · have := startsFrom_le 0 x s hs
        omega

/-- **A line is listed where its number says**, before the next one. -/
theorem IsLine.lineStarts_eq (h : IsLine t number before line behind) : ∃ above below,
    t.lineStarts = above ++ byteLength before :: below ∧ above.length = number ∧
      (∀ s ∈ above, s < byteLength before) ∧
      below.head? = nextStart (byteLength (before ++ line)) behind := by
  obtain ⟨above, hstarts, hlength, hlt⟩ := exists_lineStarts h.begins
  refine ⟨above, startsFrom (byteLength (before ++ line)) behind.bytes, ?_,
    by rw [hlength, h.number_eq], hlt, h.ends.head?_startsFrom _⟩
  rw [h.text_eq, lineStarts_append, hstarts, bytes_append, startsFrom_append, startsFrom_of_no_break h.whole,
    length_bytes, byteLength_append]
  simp

theorem IsLine.getElem?_lineStarts (h : IsLine t number before line behind) :
    t.lineStarts[number]? = some (byteLength before) ∧
      t.lineStarts[number + 1]? = nextStart (byteLength (before ++ line)) behind := by
  obtain ⟨above, below, hstarts, rfl, -, hnext⟩ := h.lineStarts_eq
  have hone : above.length + 1 - above.length = 1 := by omega
  rw [hstarts]
  refine ⟨by simp, ?_⟩
  rw [List.getElem?_append_right (Nat.le_add_right ..), hone, List.getElem?_cons_succ, ← hnext,
    List.head?_eq_getElem?]

/-- **The index knows where a line ends.** -/
theorem IsLine.lineStop?_eq (h : IsLine t number before line behind) :
    t.lineStop? number = some (byteLength (before ++ line)) := by
  obtain ⟨hstart, hnext⟩ := h.getElem?_lineStarts
  have ht := h.text_eq
  rw [← List.append_assoc] at ht
  simp only [lineStop?, hstart, hnext, Option.bind_eq_bind, Option.bind_some]
  cases h.ends with
  | text => simp [nextStart, ht]
  | @lineFeed below hlast =>
    -- the byte before the line feed is the last one of the line, if this has any
    have hno : (decide (byteLength before < byteLength (before ++ line)) &&
        t.bytes[byteLength (before ++ line) - 1]? == some '\r'.toUInt8) = false := by
      rw [Bool.and_eq_false_imp]
      intro hlt
      have hne : line ≠ [] := by
        rintro rfl
        simp at hlt
      rw [ht, getElem?_bytes_pred (List.append_ne_nil_of_right_ne_nil before hne), beq_eq_false_iff_ne]
      intro hbyte
      rw [getLast?_bytes (by decide), List.getLast?_append_of_ne_nil before hne] at hbyte
      exact hlast hbyte
    simp [-byteLength_append, nextStart, hno]
  | @both below =>
    have hreturn : ('\r' : Char).utf8Size = 1 := by decide
    have hlen : byteLength (before ++ line ++ ['\r']) = byteLength (before ++ line) + 1 := by
      rw [byteLength_append (before ++ line), byteLength_cons, hreturn]
      rfl
    have hbyte : t.bytes[byteLength (before ++ line)]? = some '\r'.toUInt8 := by
      have := @getElem?_bytes_pred (before ++ line ++ ['\r']) (by simp) ('\n' :: below)
      rw [hlen, Nat.add_sub_cancel, (getLast?_bytes (by decide)).mpr List.getLast?_concat] at this
      rw [ht, ← this]
      simp
    have hlt : byteLength before < byteLength (before ++ line) + 1 := by
      rw [byteLength_append]
      omega
    simp [-byteLength_append, nextStart, hbyte, hlt]

/-! ### Positions -/

theorem indexedOffset?_eq (t : Text) (p : Position) : t.indexedOffset? p = some (t.offsetAt p) := by
  rw [indexedOffset?, length_lineStarts]
  split
  · rename_i hle
    rw [offsetAt_of_le hle]
  · rename_i hlt
    obtain ⟨before, line, behind, h⟩ := exists_isLine_iff.mpr (Nat.lt_of_not_le hlt)
    have hslice : t.slice? ⟨byteLength before, byteLength (before ++ line)⟩ = some line := by
      rw [h.text_eq]
      exact slice?_append rfl rfl
    simp only [h.getElem?_lineStarts, h.lineStop?_eq, hslice, Option.bind_eq_bind, Option.bind_some]
    rw [show p = ⟨p.line, p.character⟩ from rfl, h.offsetAt_eq]
    split
    · rw [byteLength_append]
      rfl
    · rename_i hcharacter
      rw [List.take_of_length_le (Nat.le_of_not_lt hcharacter)]
      rfl

theorem length_takeWhile_lt {above below : List Nat} {start n : Nat} (h : ∀ s ∈ above, s < start)
    (hn : start ≤ n) (hbelow : ∀ s ∈ below.head?, n < s) :
    ((above ++ start :: below).takeWhile (· < n)).length =
      if n = start then above.length else above.length + 1 := by
  have habove : ∀ s ∈ above, decide (s < n) = true := fun s hs =>
    decide_eq_true (Nat.lt_of_lt_of_le (h s hs) hn)
  rw [List.takeWhile_append_of_pos habove]
  split
  · rename_i heq
    simp [heq]
  · rename_i hne
    have hlt : start < n := by omega
    have hnil : below.takeWhile (· < n) = [] := by
      cases below with
      | nil => rfl
      | cons s below => simp [Nat.le_of_lt (hbelow s rfl)]
    simp [hlt, hnil]

/-- **The search finds the line** that an offset is on. -/
theorem IsLine.lineOf_eq (h : IsLine t number before line behind) {b : Nat} (hle : byteLength before ≤ b)
    (hlt : ∀ s ∈ nextStart (byteLength (before ++ line)) behind, b < s) : t.lineOf b = number := by
  have hlisted := h.getElem?_lineStarts
  obtain ⟨above, below, hstarts, rfl, habove, hnext⟩ := h.lineStarts_eq
  rw [← hnext] at hlt
  have hindex : (t.lineStarts.takeWhile (· < b)).length =
      if b = byteLength before then above.length else above.length + 1 := by
    rw [hstarts]
    exact length_takeWhile_lt habove hle hlt
  rw [lineOf, search, hindex]
  by_cases hb : b = byteLength before
  · simp [hb, hlisted.1]
  · have hno : t.lineStarts[above.length + 1]? ≠ some b := by
      rw [hlisted.2, ← hnext]
      exact fun hb => Nat.lt_irrefl b (hlt b hb)
    simp [hb, hno]

/-- The characters that stand on a line before an offset are those of a slice. -/
theorem IsLine.indexedPosition?_eq {u v : Text} (h : IsLine t number before (u ++ v) behind) {o : Nat}
    (hle : byteLength before ≤ t.floor (min o t.byteLength))
    (hlt : ∀ s ∈ nextStart (byteLength (before ++ (u ++ v))) behind, t.floor (min o t.byteLength) < s)
    (hmin : min (t.floor (min o t.byteLength)) (byteLength (before ++ (u ++ v))) = byteLength (before ++ u)) :
    t.indexedPosition? o = some ⟨number, u.length⟩ := by
  have hmax : max (byteLength (before ++ (u ++ v))) (byteLength before) =
      byteLength (before ++ (u ++ v)) := by
    rw [byteLength_append]
    omega
  have hslice : t.slice? ⟨byteLength before, byteLength (before ++ u)⟩ = some u := by
    rw [h.text_eq, List.append_assoc]
    exact slice?_append rfl rfl
  simp only [indexedPosition?, h.lineOf_eq hle hlt, h.getElem?_lineStarts, h.lineStop?_eq, hmax, hmin, hslice,
    Option.bind_eq_bind, Option.bind_some]
  rfl

theorem indexedPosition?_eq (t : Text) (o : Nat) : t.indexedPosition? o = some (t.positionAt o) := by
  have hfloor := isGreatest_floor t (min o t.byteLength)
  have hposition : t.positionAt o = t.positionAt (t.floor (min o t.byteLength)) :=
    positionAt_of_floor (by rwa [boundaries_min] at hfloor)
  obtain ⟨x, y, ht, hb⟩ := isBoundary_iff.mp hfloor.1.1
  rw [hposition, hb]
  by_cases hcuts : CutsBreak x y
  · -- the line ends before the carriage return that stands last before the cut
    obtain ⟨x, rfl⟩ := List.getLast?_eq_some_iff.mp hcuts.1
    have hreturn : ('\r' : Char).utf8Size = 1 := by decide
    have hinside := positionAt_of_cutsBreak hcuts
    obtain ⟨number, before, u, rfl, h⟩ := exists_isLine_of_cutsBreak hcuts
    rw [List.append_cons, ← ht, ← List.append_nil u] at h
    rw [ht, hinside, ← ht, h.positionAt_eq]
    refine h.indexedPosition?_eq ?_ ?_ ?_
    all_goals rw [hb]
    · simp
    · simp only [nextStart, Option.mem_some_iff, forall_eq', byteLength_append, byteLength_cons, hreturn]
      simp [Nat.add_assoc]
    · simp [hreturn]
  · obtain ⟨number, before, u, v, behind, rfl, rfl, h⟩ := exists_isLine hcuts
    rw [← ht] at h
    rw [h.positionAt_eq]
    refine h.indexedPosition?_eq ?_ ?_ ?_
    all_goals rw [hb]
    · simp
    · intro s hs
      have := lt_of_nextStart hs
      simp only [byteLength_append] at this ⊢
      omega
    · simp only [byteLength_append]
      omega

/-! ### Order -/

/-- **Offsets and positions keep their order**, and a position never leads into a character or a line
break, nor behind the text; so what the index cuts out of the text is always a part of it. -/
theorem positions_in_order (t : Text) :
    (∀ p q : Position, p.le q = true → t.offsetAt p ≤ t.offsetAt q) ∧
    (∀ a b, a ≤ b → (t.positionAt a).le (t.positionAt b) = true) ∧
    (∀ p : Position, t.offsetAt p ≤ t.byteLength ∧ t.isBoundary (t.offsetAt p) = true ∧
      ¬ SplitsBreak t (t.offsetAt p)) ∧
    (∀ p : Position, t.indexedOffset? p = some (t.offsetAt p)) ∧
    ∀ o, t.indexedPosition? o = some (t.positionAt o) :=
  ⟨fun _ _ => offsetAt_le t, fun _ _ => positionAt_le t, offsetAt_sound t, indexedOffset?_eq t,
    indexedPosition?_eq t⟩

end VendorSync.Text
