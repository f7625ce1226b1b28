import VendorSync.Css.LineComment
import VendorSync.Proofs.Lexemes
import VendorSync.Proofs.Offsets

/-! Line comments, and the tokens of a text in which they are blanked.

A comment is a run of hidden characters (`Runs`). The tokens of the masked text cover whole
characters of the text itself (`exists_cells_of_lex`), and a comment that begins in white space
ends in the same white space (`stop_le_of_whitespace`). -/
namespace VendorSync.Css.LineComment

/-! ### Cells -/

/-- The characters of cells. -/
def chars (cs : List Cell) : Text := cs.map Cell.char

/-- What cells show, with blanks for the hidden ones. -/
def blanked (cs : List Cell) : Text := cs.flatMap Cell.shown

@[simp] theorem chars_nil : chars [] = [] := rfl

@[simp] theorem chars_cons (c : Cell) (cs : List Cell) : chars (c :: cs) = c.char :: chars cs := rfl

@[simp] theorem chars_append (a b : List Cell) : chars (a ++ b) = chars a ++ chars b := by
  simp [chars]

@[simp] theorem chars_cells (t : Text) : chars (cells t) = t := map_char_cellsFrom _ t

@[simp] theorem blanked_nil : blanked [] = [] := rfl

@[simp] theorem blanked_cons (c : Cell) (cs : List Cell) :
    blanked (c :: cs) = c.shown ++ blanked cs := rfl

@[simp] theorem blanked_append (a b : List Cell) : blanked (a ++ b) = blanked a ++ blanked b := by
  simp [blanked]

theorem masked_eq_blanked (t : Text) : masked t = blanked (cells t) := rfl

@[simp] theorem byteLength_blanked (cs : List Cell) :
    (blanked cs).byteLength = (chars cs).byteLength := by
  induction cs with
  | nil => rfl
  | cons c cs ih => simp [Cell.byteLength_shown, ih]

theorem blanked_eq_nil {x : List Cell} (h : blanked x = []) : x = [] := by
  have := congrArg Text.byteLength h
  rw [byteLength_blanked, Text.byteLength_nil, Text.byteLength_eq_zero] at this
  exact List.map_eq_nil_iff.mp this

theorem eq_space_of_mem_blanked {cs : List Cell} (h : ∀ c ∈ cs, c.hidden = true) :
    ∀ c ∈ blanked cs, c = ' ' := by
  intro c hc
  obtain ⟨cell, hcell, hc⟩ := List.mem_flatMap.mp hc
  rw [Cell.shown, h cell hcell, if_pos rfl] at hc
  exact List.eq_of_mem_replicate hc

/-! ### Cuts of the masked text -/

theorem Cell.shown_of_hidden {cell : Cell} (h : cell.hidden = true) :
    cell.shown = List.replicate cell.char.utf8Size ' ' := by
  rw [shown, if_pos h]

theorem Cell.shown_of_not_hidden {cell : Cell} (h : cell.hidden = false) :
    cell.shown = [cell.char] := by
  simp [shown, h]

/-- The scan is behind a character of a line comment when the character was in it, or began it. -/
theorem read_line {place : Place} {c : Char} {next : Option Char}
    (h : (place.read c next).2 = .line) :
    (place = .line ∧ ((place.read c next).1 = false → next = none ∨ next = some '\n')) ∨
      (c = '/' ∧ (place.read c next).1 = true) := by
  cases place with
  | code letters =>
    unfold Place.read at h ⊢
    by_cases hblock : (c == '/' && next == some '*') = true
    · simp only [hblock, if_true] at h
      cases h
    by_cases hcomment : (c == '/' && next == some '/') = true
    · right
      simp only [hblock, hcomment, if_true]
      simp only [Bool.and_eq_true, beq_iff_eq] at hcomment
      exact ⟨hcomment.1, rfl⟩
    · simp only [hblock, hcomment] at h
      repeat' split at h
      all_goals cases h
  | line =>
    refine .inl ⟨rfl, fun hshown => ?_⟩
    unfold Place.read at h hshown
    by_cases hc : (c == '\n') = true
    · simp only [hc, if_true] at h
      cases h
    · simp only [hc] at hshown
      cases next <;> simp_all
  | opening => cases h
  | block =>
    simp only [Place.read] at h
    split at h <;> cases h
  | quoted | escaped | address =>
    simp only [Place.read] at h
    repeat' split at h
    all_goals cases h

/-- A hidden character is one of a line comment. -/
theorem line_of_hidden {place : Place} {c : Char} {next : Option Char}
    (h : (place.read c next).1 = true) : (place.read c next).2 = .line := by
  cases place with
  | code letters =>
    unfold Place.read at h ⊢
    repeat' split at h
    all_goals simp_all
  | line =>
    unfold Place.read at h ⊢
    by_cases hc : (c == '\n') = true
    · simp [hc] at h
    · simp [hc]
  | opening | block | quoted | escaped | address => simp [Place.read] at h

theorem cellsFrom_cons (place : Place) (c : Char) (cs : Text) :
    cellsFrom place (c :: cs) =
      ⟨c, (place.read c cs.head?).1⟩ :: cellsFrom (place.read c cs.head?).2 cs := rfl

/-- What is shown of a text whose scan begins at the end of a line comment. -/
theorem blanked_line_end {t : Text} (h : t.head? = none ∨ t.head? = some '\n') :
    (blanked (cellsFrom .line t)).head? ≠ some ' ' := by
  cases t with
  | nil => simp [cellsFrom]
  | cons c cs =>
    obtain rfl : c = '\n' := by simpa using h
    simp [cellsFrom_cons, Place.read, Cell.shown]

theorem replicate_two_more (n : Nat) :
    List.replicate n ' ' ++ [' ', ' '] = List.replicate (n + 2) ' ' :=
  List.replicate_append_replicate (n := n) (m := 2)

/-- A character that is cut in two is hidden. -/
theorem Cell.shown_cut {cell : Cell} {a b : Text} (h : cell.shown = a ++ b) (ha : a ≠ [])
    (hb : b ≠ []) : cell.hidden = true ∧ ∃ n m, a = List.replicate (n + 1) ' ' ∧
      b = List.replicate (m + 1) ' ' ∧ n + m + 2 = cell.char.utf8Size := by
  cases hhidden : cell.hidden with
  | false =>
    rw [Cell.shown_of_not_hidden hhidden] at h
    rcases List.append_eq_singleton_iff.mp h.symm with ⟨h, -⟩ | ⟨-, h⟩
    · exact absurd h ha
    · exact absurd h hb
  | true =>
    rw [Cell.shown_of_hidden hhidden] at h
    obtain ⟨hlen, haeq, hbeq⟩ := List.replicate_eq_append_iff.mp h
    obtain ⟨n, hn⟩ := Nat.exists_eq_succ_of_ne_zero (mt List.length_eq_zero_iff.mp ha)
    obtain ⟨m, hm⟩ := Nat.exists_eq_succ_of_ne_zero (mt List.length_eq_zero_iff.mp hb)
    rw [hn] at haeq
    rw [hm] at hbeq
    exact ⟨rfl, n, m, haeq, hbeq, by omega⟩

/-- **A cut inside a hidden character** has two blanks before it and one behind it, unless the
scan began in the comment. -/
theorem blanked_cut {place : Place} {t a b : Text} (h : blanked (cellsFrom place t) = a ++ b) :
    (∃ x y, cellsFrom place t = x ++ y ∧ blanked x = a ∧ blanked y = b) ∨
      (∃ l r, a = l ++ [' ', ' '] ∧ b = ' ' :: r) ∨
      (place = .line ∧ a = [' '] ∧ ∃ r, b = ' ' :: r) := by
  induction t generalizing place a with
  | nil =>
    obtain ⟨rfl, rfl⟩ := List.append_eq_nil_iff.mp h.symm
    exact .inl ⟨[], [], rfl, rfl, rfl⟩
  | cons c cs ih =>
    rw [cellsFrom_cons] at h ⊢
    generalize hread : place.read c cs.head? = read at h ⊢
    obtain ⟨hidden, place'⟩ := read
    have hline := @line_of_hidden place c cs.head?
    have hplace := @read_line place c cs.head?
    simp only [hread] at h hline hplace ⊢
    rw [blanked_cons] at h
    rcases List.append_eq_append_iff.mp h with ⟨a', rfl, hrest⟩ | ⟨x, hx, rfl⟩
    -- the cut is behind the first character
    · rcases ih hrest with ⟨x, y, hxy, rfl, rfl⟩ | ⟨l, r, rfl, rfl⟩ | ⟨rfl, rfl, r, rfl⟩
      · exact .inl ⟨_ :: x, y, by rw [hxy, List.cons_append], rfl, rfl⟩
      · exact .inr (.inl ⟨_ ++ l, r, (List.append_assoc ..).symm, rfl⟩)
      · cases hidden with
        | true =>
          obtain ⟨n, hn⟩ := Nat.exists_eq_succ_of_ne_zero c.utf8Size_pos.ne'
          refine .inr (.inl ⟨List.replicate n ' ', r, ?_, rfl⟩)
          rw [Cell.shown_of_hidden rfl, hn, replicate_two_more, List.replicate_succ' (n := n + 1)]
        | false =>
          rcases hplace rfl with ⟨rfl, hend⟩ | ⟨-, hhidden⟩
          · exact absurd (by rw [hrest]; rfl) (blanked_line_end (hend rfl))
          · cases hhidden
    -- the cut is in or before the first character
    · by_cases ha : a = []
      · subst ha
        exact .inl ⟨[], _, rfl, rfl, by rw [blanked_cons, hx]; simp⟩
      by_cases hx' : x = []
      · subst hx'
        exact .inl ⟨[_], _, rfl, by simpa using hx, rfl⟩
      obtain ⟨hhidden, n, m, rfl, rfl, hlen⟩ := Cell.shown_cut hx ha hx'
      obtain rfl : hidden = true := hhidden
      cases n with
      | zero =>
        rcases hplace (hline rfl) with ⟨rfl, -⟩ | ⟨rfl, -⟩
        · exact .inr (.inr ⟨rfl, rfl, _, rfl⟩)
        · -- a slash has one byte, so no cut falls inside it
          have hslash : ('/' : Char).utf8Size = 1 := by decide
          simp only [hslash] at hlen
          omega
      | succ n => exact .inr (.inl ⟨List.replicate n ' ', _, (replicate_two_more n).symm, rfl⟩)

/-- **Every token of the masked text covers whole characters** of the text. -/
theorem exists_cells_of_lex {t : Text} {a b : List Token} (h : Token.lex (masked t) = a ++ b) :
    ∃ x y, cells t = x ++ y ∧ blanked x = Token.source a ∧ blanked y = Token.source b := by
  have hcut := Token.source_of_lex h
  rcases blanked_cut hcut with hcells | ⟨l, r, hl, hr⟩ | ⟨hline, -⟩
  · exact hcells
  · exact absurd hr (Token.not_two_blanks h hl)
  · cases hline

/-! ### Texts without comments -/

/-- The cells of a text of which nothing is hidden. -/
def reveal (s : Text) : List Cell := s.map (⟨·, false⟩)

@[simp] theorem reveal_cons (d : Char) (s : Text) : reveal (d :: s) = ⟨d, false⟩ :: reveal s := rfl

@[simp] theorem reveal_append (a b : Text) : reveal (a ++ b) = reveal a ++ reveal b := by simp [reveal]

@[simp] theorem blanked_reveal (s : Text) : blanked (reveal s) = s := by
  induction s with
  | nil => rfl
  | cons c s ih => rw [reveal_cons, blanked_cons, ih, Cell.shown_of_not_hidden rfl, List.singleton_append]

theorem chars_reveal (s : Text) : chars (reveal s) = s := by
  induction s with
  | nil => rfl
  | cons c s ih => rw [reveal_cons, chars_cons, ih]

theorem reveal_chars {cs : List Cell} (h : ∀ cell ∈ cs, cell.hidden = false) : reveal (chars cs) = cs := by
  induction cs with
  | nil => rfl
  | cons cell cs ih =>
    obtain ⟨hcell, hcs⟩ := List.forall_mem_cons.mp h
    rw [chars_cons, reveal_cons, ih hcs, ← hcell]

theorem runs_reveal (pos : Nat) (s : Text) (cs : List Cell) :
    runs none pos (reveal s ++ cs) = runs none (pos + s.byteLength) cs := by
  induction s generalizing pos with
  | nil => rfl
  | cons d s ih => simp [runs, ih, Nat.add_assoc]

theorem cellsFrom_of_no_slash {place : Place} (hplace : place ≠ .line) {t : Text} (ht : '/' ∉ t) :
    cellsFrom place t = reveal t := by
  induction t generalizing place with
  | nil => rfl
  | cons c t ih =>
    rw [List.mem_cons, not_or] at ht
    have hnext : (place.read c t.head?).2 ≠ .line := fun hline =>
      (read_line hline).elim (fun h => hplace h.1) fun h => ht.1 h.1.symm
    have hshown : (place.read c t.head?).1 = false :=
      Bool.not_eq_true _ ▸ fun hhidden => hnext (line_of_hidden hhidden)
    rw [cellsFrom_cons, ih hnext ht.2, hshown, reveal_cons]

/-- **A text without slashes has no comments.** -/
theorem cells_of_no_slash {t : Text} (ht : '/' ∉ t) : cells t = reveal t :=
  cellsFrom_of_no_slash (by simp) ht

theorem masked_of_no_slash {t : Text} (ht : '/' ∉ t) : masked t = t := by
  rw [masked_eq_blanked, cells_of_no_slash ht, blanked_reveal]

/-! ### The cells of tokens -/

/-- The cells are, token by token, what the tokens were read from. -/
inductive Covers : List Cell → List Token → Prop
  | nil : Covers [] []
  | cons {x y token tokens} : blanked x = token.lexeme → Covers y tokens →
      Covers (x ++ y) (token :: tokens)

theorem Covers.blanked_eq {cs : List Cell} {tokens : List Token} (h : Covers cs tokens) :
    blanked cs = Token.source tokens := by
  induction h with
  | nil => rfl
  | cons hx _ ih => rw [blanked_append, hx, ih, Token.source_cons]

theorem Covers.byteLength_eq {cs : List Cell} {tokens : List Token} (h : Covers cs tokens) :
    (chars cs).byteLength = (Token.source tokens).byteLength := by
  rw [← byteLength_blanked, h.blanked_eq]

theorem Covers.append {x y : List Cell} {a b : List Token} (hx : Covers x a) (hy : Covers y b) :
    Covers (x ++ y) (a ++ b) := by
  induction hx with
  | nil => exact hy
  | cons hx _ ih =>
    rw [List.append_assoc]
    exact .cons hx ih

theorem Covers.exists_append {cs : List Cell} {a b : List Token} (h : Covers cs (a ++ b)) :
    ∃ x y, cs = x ++ y ∧ Covers x a ∧ Covers y b := by
  induction a generalizing cs with
  | nil => exact ⟨[], cs, rfl, .nil, h⟩
  | cons token a ih =>
    rcases h with _ | ⟨hx, hrest⟩
    obtain ⟨x', y, rfl, hx', hy⟩ := ih hrest
    exact ⟨_, y, (List.append_assoc ..).symm, .cons hx hx', hy⟩

/-- **The characters of a text are those of its tokens.** -/
theorem covers_lex (t : Text) : Covers (cells t) (Token.lex (masked t)) := by
  suffices h : ∀ a b x y, Token.lex (masked t) = a ++ b → cells t = x ++ y →
      blanked x = Token.source a → Covers y b from h [] _ [] _ rfl rfl rfl
  intro a b
  induction b generalizing a with
  | nil =>
    intro x y hlex hcells hx
    have hy : blanked y = [] := by
      have := Token.source_of_lex hlex
      rw [masked_eq_blanked, hcells, blanked_append, hx] at this
      simpa using this
    obtain rfl := blanked_eq_nil hy
    exact .nil
  | cons token b ih =>
    intro x y hlex hcells hx
    have hlex' : Token.lex (masked t) = (a ++ [token]) ++ b := by simpa using hlex
    obtain ⟨x', y', hcells', hx', -⟩ := exists_cells_of_lex hlex'
    have hlexeme : token.lexeme ≠ [] := Token.lexeme_ne_nil (t := masked t) (by rw [hlex]; simp)
    obtain ⟨z, rfl, rfl⟩ : ∃ z, x' = x ++ z ∧ y = z ++ y' := by
      apply (List.append_eq_append_iff.mp (hcells ▸ hcells')).resolve_right
      intro h
      rcases h with ⟨z, rfl, -⟩
      rw [Token.source_append, ← hx, blanked_append, List.append_assoc] at hx'
      simp [hlexeme] at hx'
    have hz : blanked z = token.lexeme := by
      rw [blanked_append, hx] at hx'
      simpa using hx'
    exact .cons hz (ih (a ++ [token]) (x ++ z) y' hlex' hcells' hx')

/-! ### Runs of hidden characters -/

/-- The hidden cells make up runs with these spans, from an offset on. -/
inductive Runs : Nat → List Cell → List Span → Prop
  | nil {pos} : Runs pos [] []
  | plain {pos cell rest spans} : cell.hidden = false →
      Runs (pos + cell.char.utf8Size) rest spans → Runs pos (cell :: rest) spans
  | hidden {pos run rest spans} : run ≠ [] → (∀ cell ∈ run, cell.hidden = true) →
      (∀ cell ∈ rest.head?, cell.hidden = false) →
      Runs (pos + (chars run).byteLength) rest spans →
      Runs pos (run ++ rest) (⟨pos, pos + (chars run).byteLength⟩ :: spans)

theorem runs_hidden {run rest : List Cell} (hrun : ∀ cell ∈ run, cell.hidden = true)
    (hrest : ∀ cell ∈ rest.head?, cell.hidden = false) (start pos : Nat) :
    runs (some start) pos (run ++ rest) =
      ⟨start, pos + (chars run).byteLength⟩ :: runs none (pos + (chars run).byteLength) rest := by
  induction run generalizing pos with
  | nil =>
    cases rest with
    | nil => rfl
    | cons cell rest => simp [runs, hrest cell rfl]
  | cons cell run ih =>
    obtain ⟨hcell, hrun⟩ := List.forall_mem_cons.mp hrun
    simp [runs, hcell, ih hrun, Nat.add_assoc]

theorem runs_none (pos : Nat) (cs : List Cell) : Runs pos cs (runs none pos cs) := by
  induction hn : cs.length using Nat.strongRecOn generalizing pos cs with
  | _ n ih =>
    cases cs with
    | nil => exact .nil
    | cons cell rest =>
      rw [List.length_cons] at hn
      cases hcell : cell.hidden with
      | false =>
        simp only [runs, hcell]
        exact .plain hcell (ih _ (by omega) _ rest rfl)
      | true =>
        have hsplit := List.takeWhile_append_dropWhile (p := Cell.hidden) (l := rest)
        have hrun : ∀ c ∈ rest.takeWhile Cell.hidden, c.hidden = true := fun c hc =>
          List.mem_takeWhile_imp hc
        have hrest : ∀ c ∈ (rest.dropWhile Cell.hidden).head?, c.hidden = false := by
          intro c hc
          have := List.head?_dropWhile_not Cell.hidden rest
          rw [Option.mem_def.mp hc] at this
          exact this
        have hlen : (rest.dropWhile Cell.hidden).length < n := by
          have := congrArg List.length hsplit
          rw [List.length_append] at this
          omega
        rw [← hsplit]
        generalize rest.takeWhile Cell.hidden = run at hrun
        generalize rest.dropWhile Cell.hidden = rest at hrest hlen
        have hread : runs none pos (cell :: (run ++ rest)) =
            ⟨pos, pos + (chars (cell :: run)).byteLength⟩ ::
              runs none (pos + (chars (cell :: run)).byteLength) rest := by
          simp [runs, hcell, runs_hidden hrun hrest, Nat.add_assoc]
        rw [hread]
        exact .hidden (List.cons_ne_nil cell run) (List.forall_mem_cons.mpr ⟨hcell, hrun⟩) hrest
          (ih _ hlen _ rest rfl)

/-- The comments of a text are its runs of hidden characters. -/
theorem runs_spans (t : Text) : Runs 0 (cells t) (spans t) := runs_none 0 _

/-- A run among the cells: the cells before and behind it are not hidden. -/
structure RunAt (cs : List Cell) (pos : Nat) (c : Span) (x run y : List Cell) : Prop where
  cells_eq : cs = x ++ (run ++ y)
  nonempty : run ≠ []
  hidden : ∀ cell ∈ run, cell.hidden = true
  before : ∀ cell ∈ x.getLast?, cell.hidden = false
  behind : ∀ cell ∈ y.head?, cell.hidden = false
  start : c.start = pos + (chars x).byteLength
  stop : c.stop = pos + (chars (x ++ run)).byteLength

theorem Runs.exists_of_mem {pos : Nat} {cs : List Cell} {spans : List Span} (h : Runs pos cs spans)
    {c : Span} (hc : c ∈ spans) : ∃ x run y, RunAt cs pos c x run y := by
  induction h with
  | nil => cases hc
  | @plain pos cell rest spans hcell _ ih =>
    obtain ⟨x, run, y, hat⟩ := ih hc
    refine ⟨cell :: x, run, y, by rw [hat.cells_eq]; rfl, hat.nonempty, hat.hidden, ?_, hat.behind,
      by simp [hat.start, Nat.add_assoc], by simp [hat.stop, Nat.add_assoc]⟩
    cases x with
    | nil => simpa using hcell
    | cons cell' x => exact hat.before
  | @hidden pos run rest spans hne hrun hrest _ ih =>
    rcases List.mem_cons.mp hc with rfl | hc
    · exact ⟨[], run, rest, rfl, hne, hrun, by simp, hrest, rfl, rfl⟩
    · obtain ⟨x, run', y, hat⟩ := ih hc
      have hx : x ≠ [] := by
        intro heq
        obtain ⟨cell, run', rfl⟩ := List.exists_cons_of_ne_nil hat.nonempty
        have := hrest cell (by rw [hat.cells_eq, heq]; rfl)
        rw [hat.hidden cell (List.mem_cons_self ..)] at this
        cases this
      refine ⟨run ++ x, run', y, by rw [hat.cells_eq]; simp, hat.nonempty, hat.hidden, ?_, hat.behind,
        by simp [hat.start, Nat.add_assoc], by simp [hat.stop, Nat.add_assoc]⟩
      rw [List.getLast?_append_of_ne_nil _ hx]
      exact hat.before

/-- A hidden cell belongs to one of the runs. -/
theorem Runs.exists_of_hidden {pos : Nat} {cs : List Cell} {spans : List Span}
    (h : Runs pos cs spans) {a b : List Cell} {cell : Cell} (hcs : cs = a ++ cell :: b)
    (hcell : cell.hidden = true) : ∃ c ∈ spans,
      c.start ≤ pos + (chars a).byteLength ∧ pos + (chars a).byteLength < c.stop := by
  induction h generalizing a with
  | nil => simp at hcs
  | @plain pos first rest spans hfirst _ ih =>
    cases a with
    | nil =>
      obtain ⟨rfl, -⟩ := List.cons.inj hcs
      rw [hfirst] at hcell
      cases hcell
    | cons _ a =>
      obtain ⟨rfl, hrest⟩ := List.cons.inj hcs
      obtain ⟨c, hc, hstart, hstop⟩ := ih hrest
      refine ⟨c, hc, ?_, ?_⟩
      · simpa [Nat.add_assoc] using hstart
      · simpa [Nat.add_assoc] using hstop
  | @hidden pos run rest spans _ _ _ _ ih =>
    rcases List.append_eq_append_iff.mp hcs with ⟨a', rfl, hrest⟩ | ⟨z, rfl, hz⟩
    · obtain ⟨c, hc, hstart, hstop⟩ := ih hrest
      refine ⟨c, List.mem_cons_of_mem _ hc, ?_, ?_⟩
      · simpa [Nat.add_assoc] using hstart
      · simpa [Nat.add_assoc] using hstop
    · cases z with
      | nil =>
        obtain ⟨c, hc, hstart, hstop⟩ := ih (a := []) hz.symm
        refine ⟨c, List.mem_cons_of_mem _ hc, ?_, ?_⟩
        · simpa using hstart
        · simpa using hstop
      | cons first z =>
        obtain ⟨rfl, -⟩ := List.cons.inj hz
        have := cell.char.utf8Size_pos
        exact ⟨_, List.mem_cons_self .., by simp, by simp; omega⟩

/-- A comment as characters of the text. -/
theorem exists_cells_of_mem_spans {t : Text} {c : Span} (hc : c ∈ spans t) :
    ∃ x run y, RunAt (cells t) 0 c x run y :=
  (runs_spans t).exists_of_mem hc

/-- Inside a comment a blank is shown. -/
theorem head?_of_inside {t u v : Text} (h : masked t = u ++ v) {c : Span} (hc : c ∈ spans t)
    (hstart : c.start ≤ u.byteLength) (hstop : u.byteLength < c.stop) : v.head? = some ' ' := by
  obtain ⟨x, run, y, hat⟩ := exists_cells_of_mem_spans hc
  rw [masked_eq_blanked, hat.cells_eq, blanked_append, blanked_append] at h
  rw [hat.start, Nat.zero_add] at hstart
  rw [hat.stop, Nat.zero_add, chars_append, Text.byteLength_append] at hstop
  obtain ⟨p, rfl, hrest⟩ := Text.exists_append_of_le h (by rw [byteLength_blanked]; exact hstart)
  rw [Text.byteLength_append, byteLength_blanked] at hstop
  obtain ⟨q, hq, rfl⟩ := Text.exists_append_of_le hrest.symm (by rw [byteLength_blanked]; omega)
  cases q with
  | nil =>
    rw [List.append_nil] at hq
    rw [← hq, byteLength_blanked] at hstop
    omega
  | cons d q =>
    rw [eq_space_of_mem_blanked hat.hidden d (by rw [hq]; simp)]
    rfl

/-- **A comment that begins in white space ends in it**, and so does one that begins before. -/
theorem stop_le_of_whitespace {t : Text} {a b : List Token} {token : Token}
    (h : Token.lex (masked t) = a ++ token :: b) (hkind : token.kind = .whitespace) {c : Span}
    (hc : c ∈ spans t) (hstarts : c.start < (Token.source (a ++ [token])).byteLength) :
    c.stop ≤ (Token.source (a ++ [token])).byteLength := by
  refine Nat.le_of_not_lt fun hlong => ?_
  -- otherwise the white space ends inside the comment, before a blank
  have hmasked := Token.source_of_lex (a := a ++ [token]) (b := b) (by rw [h]; simp)
  have hblank := head?_of_inside hmasked hc (Nat.le_of_lt hstarts) hlong
  have := (Token.whitespace_maximal (Token.lex_source_of_append h) hkind).2 ' ' hblank
  exact absurd this (by decide)

/-- **No other token begins in a comment.** -/
theorem starts_outside {t : Text} {a b : List Token} {token : Token}
    (h : Token.lex (masked t) = a ++ token :: b) (hkind : token.kind ≠ .whitespace) {c : Span}
    (hc : c ∈ spans t) :
    (Token.source a).byteLength < c.start ∨ c.stop ≤ (Token.source a).byteLength := by
  by_contra hin
  rw [not_or, Nat.not_lt, Nat.not_le] at hin
  have hblank := head?_of_inside (Token.source_of_lex h) hc hin.1 hin.2
  have hvisible := Token.head?_not_space (Token.lex_source_of_append h) (by simpa using hkind) ' ' hblank
  exact absurd hvisible (by decide)

end VendorSync.Css.LineComment
