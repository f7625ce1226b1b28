import VendorSync.Proofs.Turns

/-! The masked text beside the text, and masked once more.

A line comment is two slashes and the rest of their line (`IsLineComment`). The masked text has blanks
for its bytes (`getElem?_of_inside`) and all other bytes as the text has them (`getElem?_of_outside`).
A second scan goes the way of the first: in a blanked comment it stands outside of everything, and
everywhere else where the first scan stood (`Place.read_again`). So it finds no comment
(`cells_masked`). `masking_projects` puts this together. -/
namespace VendorSync

/-- Of spans in order each ends before the next ones start. -/
theorem Span.Ordered.pairwise {lo hi : Nat} {spans : List Span} (h : Ordered lo hi spans) :
    spans.Pairwise fun a b => a.stop ≤ b.start := by
  induction spans generalizing lo with
  | nil => exact .nil
  | cons s rest ih =>
    obtain ⟨-, -, -, hrest⟩ := h
    exact .cons (fun s' hs' => (hrest.of_mem hs').1) (ih hrest)

theorem Text.getElem?_bytes_between {a b : Text} {i : Nat} (hstart : a.byteLength ≤ i)
    (hstop : i < (a ++ b).byteLength) (c : Text) :
    (Text.bytes (a ++ (b ++ c)))[i]? = (Text.bytes b)[i - a.byteLength]? := by
  rw [Text.byteLength_append] at hstop
  rw [Text.bytes_append, List.getElem?_append_right (by rw [Text.length_bytes]; exact hstart),
    Text.bytes_append, Text.length_bytes, List.getElem?_append_left (by rw [Text.length_bytes]; omega)]

namespace Css.LineComment

/-! ### A comment on its line -/

/-- The span is that of two slashes and the rest of their line, less a carriage return directly before
the end of the line. -/
structure IsLineComment (t : Text) (c : Span) (before body ending behind : Text) : Prop where
  text_eq : t = before ++ ('/' :: '/' :: body ++ (ending ++ behind))
  start : c.start = before.byteLength
  stop : c.stop = Text.byteLength (before ++ '/' :: '/' :: body)
  no_break : '\n' ∉ body
  ending : ending = ['\r'] ∨ ending = [] ∧ body.getLast? ≠ some '\r'
  /-- A line break or the end of the text. -/
  behind : ∀ d ∈ behind.head?, d = '\n'

/-- What is hidden up to a shown character can be told. -/
theorem hide_append_inj {a b : Text} {y z : List Cell} (h : hide a ++ y = hide b ++ z)
    (hy : ∀ cell ∈ y.head?, cell.hidden = false) (hz : ∀ cell ∈ z.head?, cell.hidden = false) :
    a = b := by
  induction a generalizing b with
  | nil =>
    cases b with
    | nil => rfl
    | cons d b =>
      have hhidden := hy ⟨d, true⟩ (by rw [← List.nil_append y]; exact h ▸ rfl)
      cases hhidden
  | cons d a ih =>
    cases b with
    | nil =>
      have hhidden := hz ⟨d, true⟩ (by rw [← List.nil_append z]; exact h ▸ rfl)
      cases hhidden
    | cons e b =>
      rw [hide_cons, hide_cons, List.cons_append, List.cons_append, List.cons.injEq, Cell.mk.injEq] at h
      rw [h.1.1, ih h.2]

variable {t : Text} {c : Span} {before body ending behind : Text}

/-- The scan over what stands behind the slashes of a comment. -/
theorem CommentAt.cellsFrom_line (h : CommentAt t c before body behind) :
    cellsFrom .line (body ++ behind) = hide body ++ cellsFrom .line behind := by
  obtain ⟨letters, hletters⟩ := h.place
  have hcells := h.cells_eq
  rw [cells, h.text_eq, Place.cellsFrom_append, List.cons_append, List.head?_cons, hletters,
    List.cons_append, cellsFrom_slashes] at hcells
  exact List.append_cancel_left (List.append_cancel_left hcells)

/-- **A comment goes on to the end of its line.** -/
theorem exists_isLineComment (hc : c ∈ spans t) :
    ∃ before body ending behind, IsLineComment t c before body ending behind := by
  obtain ⟨before, body, rest, hat⟩ := exists_commentAt hc
  obtain ⟨body', ending, behind, hrest, hbreak, hbehind, hending, hcells, hshown⟩ := line_cells (body ++ rest)
  rw [hat.cellsFrom_line] at hcells
  obtain rfl := hide_append_inj hcells hat.shown_behind hshown
  obtain rfl := List.append_cancel_left hrest
  refine ⟨before, body, ending, behind, hat.text_eq, hat.start, ?_, ?_, hending, hbehind⟩
  · rw [hat.stop, Text.byteLength_append, byteLength_slashes]
  · exact fun hmem => hbreak (List.mem_append_left _ hmem)

/-! ### Bytes -/

/-- No byte of a comment is a line feed. -/
theorem IsLineComment.getElem?_ne (h : IsLineComment t c before body ending behind) {i : Nat}
    (hstart : c.start ≤ i) (hstop : i < c.stop) : t.bytes[i]? ≠ some '\n'.toUInt8 := by
  rw [h.text_eq, Text.getElem?_bytes_between (h.start ▸ hstart) (h.stop ▸ hstop)]
  intro hget
  have hmem : '\n' ∈ '/' :: '/' :: body := (Text.mem_bytes (by decide)).mp (List.mem_of_getElem? hget)
  exact h.no_break (by simpa using hmem)

/-- Blanks stand for the bytes of a comment. -/
theorem getElem?_of_inside (hc : c ∈ spans t) {i : Nat} (hstart : c.start ≤ i) (hstop : i < c.stop) :
    (masked t).bytes[i]? = some ' '.toUInt8 := by
  obtain ⟨x, run, y, hat⟩ := exists_cells_of_mem_spans hc
  rw [hat.start, Nat.zero_add, ← byteLength_blanked] at hstart
  rw [hat.stop, Nat.zero_add, ← byteLength_blanked, blanked_append] at hstop
  have hlt : i - (blanked x).byteLength < (blanked run).bytes.length := by
    rw [Text.byteLength_append] at hstop
    rw [Text.length_bytes]
    omega
  rw [masked_eq_blanked, hat.cells_eq, blanked_append, blanked_append,
    Text.getElem?_bytes_between hstart hstop, List.getElem?_eq_getElem hlt, Option.some.injEq]
  obtain ⟨d, hd, hbyte⟩ := List.mem_flatMap.mp (List.getElem_mem hlt)
  rw [eq_space_of_mem_blanked hat.hidden d hd, String.utf8EncodeChar_eq_singleton (by decide)] at hbyte
  exact List.mem_singleton.mp hbyte

theorem Runs.getElem?_eq {pos : Nat} {cs : List Cell} {comments : List Span} (h : Runs pos cs comments)
    {i : Nat} (hi : ∀ c ∈ comments, ¬ (c.start ≤ pos + i ∧ pos + i < c.stop)) :
    (blanked cs).bytes[i]? = (chars cs).bytes[i]? := by
  induction h generalizing i with
  | nil => rfl
  | @plain pos cell rest comments hcell _ ih =>
    rw [blanked_cons, Cell.shown_of_not_hidden hcell, chars_cons, List.singleton_append, Text.bytes_cons,
      Text.bytes_cons, List.getElem?_append, List.getElem?_append, String.length_utf8EncodeChar]
    split
    · rfl
    · refine ih fun c hc hin => hi c hc ?_
      omega
  | @hidden pos run rest comments _ _ _ _ ih =>
    obtain ⟨hrun, hrest⟩ := List.forall_mem_cons.mp hi
    rw [blanked_append, chars_append, Text.bytes_append, Text.bytes_append, List.getElem?_append,
      List.getElem?_append, Text.length_bytes, Text.length_bytes, byteLength_blanked]
    split
    · rename_i hlt
      exact absurd ⟨Nat.le_add_right .., Nat.add_lt_add_left hlt pos⟩ hrun
    · refine ih fun c hc hin => hrest c hc ?_
      omega

/-- The bytes outside of comments are shown. -/
theorem getElem?_of_outside {i : Nat} (hi : ∀ c ∈ spans t, ¬ (c.start ≤ i ∧ i < c.stop)) :
    (masked t).bytes[i]? = t.bytes[i]? := by
  have := (runs_spans t).getElem?_eq (i := i) (by simpa using hi)
  rwa [chars_cells] at this

/-- Line feeds stay where they are. -/
theorem getElem?_masked_line_feed (t : Text) (i : Nat) :
    (masked t).bytes[i]? = some '\n'.toUInt8 ↔ t.bytes[i]? = some '\n'.toUInt8 := by
  by_cases hin : ∃ c ∈ spans t, c.start ≤ i ∧ i < c.stop
  · obtain ⟨c, hc, hstart, hstop⟩ := hin
    obtain ⟨_, _, _, _, hcomment⟩ := exists_isLineComment hc
    have hblank : (masked t).bytes[i]? ≠ some '\n'.toUInt8 := by
      rw [getElem?_of_inside hc hstart hstop]
      decide
    exact iff_of_false hblank (hcomment.getElem?_ne hstart hstop)
  · rw [getElem?_of_outside fun c hc hi => hin ⟨c, hc, hi⟩]

/-! ### The second scan -/

/-- Where a scan of the masked text stands when a scan of the text stands at the place. -/
def Place.again : Place → Place
  | line => code 0
  | place => place

theorem Place.again_eq {place : Place} (h : place ≠ .line) : place.again = place := by
  cases place with
  | line => exact absurd rfl h
  | _ => rfl

/-- Where a slash does not begin a comment, what follows matters only if it is no slash. -/
theorem Place.read_of_next {place : Place} (hplace : place ≠ .line) {c : Char} {next next' : Option Char}
    (hshown : (place.read c next).1 = false) (hnext : next ≠ some '/' → next' = next) :
    place.read c next' = place.read c next := by
  cases place with
  | code letters =>
    by_cases hc : c = '/'
    · subst hc
      have hslash : next ≠ some '/' := fun heq => by simp [Place.read, heq] at hshown
      rw [hnext hslash]
    · simp [Place.read, hc]
  | line => exact absurd rfl hplace
  | opening | block | quoted | escaped | address => rfl

/-- **A character that is shown is read again as it was read**, if what follows it is shown too, or is a
slash. -/
theorem Place.read_again {place : Place} {c : Char} {next next' : Option Char}
    (hshown : (place.read c next).1 = false)
    (hnext : (place.read c next).2 ≠ .line → next ≠ some '/' → next' = next) :
    place.again.read c next' = (false, (place.read c next).2.again) := by
  by_cases hplace : place = .line
  · -- of a comment's line only its end is shown, which outside of everything begins nothing
    subst hplace
    by_cases hc : c = '\n'
    · subst hc
      rfl
    · obtain rfl : c = '\r' := by
        by_contra hreturn
        simp [Place.read, hc, hreturn] at hshown
      simp [Place.read, Place.again, letterRun]
  · have hbehind : (place.read c next).2 ≠ .line := fun hline => by
      rcases read_line hline with ⟨hin, -⟩ | ⟨-, hhidden⟩
      · exact hplace hin
      · rw [hshown] at hhidden
        cases hhidden
    rw [again_eq hplace, again_eq hbehind, read_of_next hplace hshown (hnext hbehind), ← hshown]

/-- No comment begins with anything but a slash, so what else comes next is shown. -/
theorem head?_blanked {place : Place} (hplace : place ≠ .line) {t : Text} (ht : t.head? ≠ some '/') :
    (blanked (cellsFrom place t)).head? = t.head? := by
  cases t with
  | nil => rfl
  | cons c t =>
    cases hhidden : (place.read c t.head?).1 with
    | false => rw [cellsFrom_cons, hhidden, blanked_cons, Cell.shown_of_not_hidden rfl]; rfl
    | true =>
      obtain ⟨-, rfl, -⟩ := (opens_of_hidden hhidden).resolve_left hplace
      exact absurd rfl ht

/-- Behind blanks outside of everything no letter is counted. -/
theorem cellsFrom_blanks (letters : Nat) {n : Nat} (hn : n ≠ 0) (t : Text) :
    cellsFrom (.code letters) (List.replicate n ' ' ++ t) =
      reveal (List.replicate n ' ') ++ cellsFrom (.code 0) t := by
  obtain ⟨n, rfl⟩ := Nat.exists_eq_succ_of_ne_zero hn
  have hspace : ∀ d ∈ List.replicate n ' ', Token.isSpace d = true := fun d hd => by
    rw [List.eq_of_mem_replicate hd]
    decide
  have hread : ∀ next, Place.read (.code letters) ' ' next = (false, .code 0) := by
    simp [Place.read, letterRun]
  rw [List.replicate_succ, List.cons_append, cellsFrom_cons, hread, cellsFrom_spaces hspace]
  rfl

/-- **The second scan shows everything.** -/
theorem cellsFrom_again (place : Place) (t : Text) :
    cellsFrom place.again (blanked (cellsFrom place t)) = reveal (blanked (cellsFrom place t)) := by
  induction t generalizing place with
  | nil => rfl
  | cons c t ih =>
    rw [cellsFrom_cons, blanked_cons]
    cases hhidden : (place.read c t.head?).1 with
    | true =>
      -- its blanks are read outside of everything, also where it is the first slash
      obtain ⟨letters, hletters⟩ : ∃ letters, place.again = .code letters := by
        rcases opens_of_hidden hhidden with rfl | ⟨⟨letters, rfl⟩, -⟩
        · exact ⟨0, rfl⟩
        · exact ⟨letters, rfl⟩
      have hline := ih .line
      rw [line_of_hidden hhidden, Cell.shown_of_hidden rfl, hletters,
        cellsFrom_blanks letters c.utf8Size_pos.ne', reveal_append]
      exact congrArg _ hline
    | false =>
      rw [Cell.shown_of_not_hidden rfl, List.singleton_append, cellsFrom_cons,
        Place.read_again hhidden fun hplace hhead => head?_blanked hplace hhead, ih, reveal_cons]

theorem cells_masked (t : Text) : cells (masked t) = reveal (masked t) := cellsFrom_again (.code 0) t

/-- A text of which nothing is hidden is its own masked text and has no comments. -/
theorem masking_eq_of_cells {t : Text} (h : cells t = reveal t) : masked t = t ∧ spans t = [] := by
  have hruns := runs_reveal 0 t []
  rw [List.append_nil] at hruns
  rw [masked_eq_blanked, spans, h, blanked_reveal, hruns]
  exact ⟨rfl, rfl⟩

/-- **Masking is a projection that keeps every offset.** It never fails. The comments stand in order, each
from its slashes to the end of its line. The masked text has blanks for their bytes, the bytes of the text
everywhere else, and so the same line feeds; it has no comments, and masking leaves it as it is. -/
theorem masking_projects (t : Text) :
    mask? t = some (masked t, spans t) ∧ (masked t).byteLength = t.byteLength ∧
      (spans t).Pairwise (fun a b => a.stop ≤ b.start) ∧
      (∀ c ∈ spans t, ∃ before body ending behind, IsLineComment t c before body ending behind) ∧
      (∀ i : Nat, (∃ c ∈ spans t, c.start ≤ i ∧ i < c.stop) → (masked t).bytes[i]? = some ' '.toUInt8) ∧
      (∀ i : Nat, (∀ c ∈ spans t, ¬ (c.start ≤ i ∧ i < c.stop)) → (masked t).bytes[i]? = t.bytes[i]?) ∧
      (∀ i : Nat, (masked t).bytes[i]? = some '\n'.toUInt8 ↔ t.bytes[i]? = some '\n'.toUInt8) ∧
      masked (masked t) = masked t ∧ spans (masked t) = [] := by
  refine ⟨mask?_eq t, byteLength_masked t, (runs_spans t).ordered.pairwise,
    fun c hc => exists_isLineComment hc, ?_, fun i hi => getElem?_of_outside hi, getElem?_masked_line_feed t,
    masking_eq_of_cells (cells_masked t)⟩
  rintro i ⟨c, hc, hstart, hstop⟩
  exact getElem?_of_inside hc hstart hstop

end Css.LineComment
end VendorSync
