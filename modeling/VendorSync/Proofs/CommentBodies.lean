import VendorSync.Proofs.Matching
import VendorSync.Proofs.Rescanning
import VendorSync.Proofs.Values

/-! What a line comment says does not matter.

The body of a line comment can be written anew, as long as it keeps its length and stays on its
line. The scan hides the new body as it hid the old one (`CommentAt.rewrite`), so the masked text
and with it the tokens are the same. Names, values and selectors are cut out of the text itself;
they begin outside of the comment, and so they are the same up to the slash that opens it
(`Rewrites.parted`). `matches_of_body` puts the two together. -/
namespace VendorSync

/-- Whether two spans have a byte in common. -/
def Span.Meets (a b : Span) : Prop :=
  ∃ offset, a.start ≤ offset ∧ offset < a.stop ∧ b.start ≤ offset ∧ offset < b.stop

theorem Text.takeBytes_append_of_le {n : Nat} {a : Text} (h : n ≤ byteLength a) (b : Text) :
    takeBytes n (a ++ b) = takeBytes n a := by
  induction a generalizing n with
  | nil => simp [Nat.le_zero.mp h]
  | cons c a ih =>
    cases n with
    | zero => simp
    | succ n =>
      rw [byteLength_cons] at h
      rw [List.cons_append, takeBytes, takeBytes, ih (by omega)]

namespace Css

namespace LineComment

/-! ### The scan over a comment -/

/-- The cells of a text that is hidden as a whole. -/
def hide (s : Text) : List Cell := s.map (⟨·, true⟩)

@[simp] theorem hide_cons (d : Char) (s : Text) : hide (d :: s) = ⟨d, true⟩ :: hide s := rfl

@[simp] theorem chars_hide (s : Text) : chars (hide s) = s := by
  simp [hide, chars, Function.comp_def]

theorem hidden_of_mem_hide {s : Text} : ∀ cell ∈ hide s, cell.hidden = true := by
  simp [hide]

theorem hide_chars {cs : List Cell} (h : ∀ cell ∈ cs, cell.hidden = true) : hide (chars cs) = cs := by
  induction cs with
  | nil => rfl
  | cons cell cs ih =>
    obtain ⟨hcell, hcs⟩ := List.forall_mem_cons.mp h
    rw [chars_cons, hide_cons, ih hcs, ← hcell]

theorem blanked_hide (s : Text) : blanked (hide s) = List.replicate s.byteLength ' ' := by
  induction s with
  | nil => rfl
  | cons d s ih =>
    rw [hide_cons, blanked_cons, ih, Cell.shown_of_hidden rfl, List.replicate_append_replicate,
      Text.byteLength_cons]

/-- The scan stays in a comment until it is behind the body, of which a carriage return is part
unless it is one of a line break. -/
theorem cellsFrom_body {body behind : Text} (hbreak : '\n' ∉ body)
    (hlast : body.getLast? = some '\r' → behind.head? ≠ none ∧ behind.head? ≠ some '\n') :
    cellsFrom .line (body ++ behind) = hide body ++ cellsFrom .line behind := by
  induction body with
  | nil => rfl
  | cons d body ih =>
    rw [List.mem_cons, not_or] at hbreak
    have hend : (d == '\r' && ((body ++ behind).head? == none || (body ++ behind).head? == some '\n')) =
        false := by
      by_cases hd : d = '\r'
      · cases body with
        | nil => simpa [hd] using hlast (by rw [hd]; rfl)
        | cons e body =>
          have he : e ≠ '\n' := fun heq => hbreak.2 (by simp [heq])
          simp [he]
      · simp [hd]
    have hread : Place.read .line d (body ++ behind).head? = (true, .line) := by
      simp only [Place.read, beq_eq_false_iff_ne.mpr (Ne.symm hbreak.1), hend]
      rfl
    rw [List.cons_append, cellsFrom_cons, hread, ih hbreak.2]
    · rfl
    · intro hr
      refine hlast ?_
      cases body with
      | nil => cases hr
      | cons e body => rw [List.getLast?_cons_cons, hr]

/-- Behind hidden characters of a comment the scan is still in it. -/
theorem cellsFrom_line_of_hidden {run y : List Cell} {t : Text} (h : cellsFrom .line t = run ++ y)
    (hrun : ∀ cell ∈ run, cell.hidden = true) : y = cellsFrom .line (chars y) := by
  induction run generalizing t with
  | nil =>
    have hchars : chars y = t := by
      rw [← List.nil_append y, ← h, chars, map_char_cellsFrom]
    rw [hchars, h, List.nil_append]
  | cons cell run ih =>
    obtain ⟨hcell, hrest⟩ := List.forall_mem_cons.mp hrun
    cases t with
    | nil => cases h
    | cons d t =>
      rw [cellsFrom_cons, List.cons_append, List.cons.injEq] at h
      obtain ⟨rfl, htail⟩ := h
      rw [line_of_hidden hcell] at htail
      exact ih htail hrest

/-- A hidden character is in a comment, or is the first slash of one. -/
theorem opens_of_hidden {place : Place} {d : Char} {next : Option Char}
    (h : (place.read d next).1 = true) :
    place = .line ∨ ((∃ letters, place = .code letters) ∧ d = '/' ∧ next = some '/') := by
  cases place with
  | code letters =>
    refine .inr ⟨⟨letters, rfl⟩, ?_⟩
    unfold Place.read at h
    by_cases hblock : (d == '/' && next == some '*') = true
    · simp [hblock] at h
    by_cases hcomment : (d == '/' && next == some '/') = true
    · simpa using hcomment
    · simp only [hblock, hcomment] at h
      repeat' split at h
      all_goals cases h
  | line => exact .inl rfl
  | opening | block | quoted | escaped | address => simp [Place.read] at h

theorem read_line_break (place : Place) (next : Option Char) : (place.read '\n' next).1 = false := by
  cases place <;> rfl

/-- Behind characters of which the last is shown, a hidden character is not in a comment yet. -/
theorem run_ne_line {x : Text} {d : Char} {next : Option Char}
    (hlast : ∀ cell ∈ (Place.cells (some d) (.code 0) x).getLast?, cell.hidden = false)
    (hhidden : ((Place.run (some d) (.code 0) x).read d next).1 = true) :
    Place.run (some d) (.code 0) x ≠ .line := by
  rcases List.eq_nil_or_concat x with rfl | ⟨x, e, rfl⟩
  · simp [Place.run]
  · rw [List.concat_eq_append, Place.cells_append] at hlast
    rw [List.concat_eq_append, Place.run_append] at hhidden ⊢
    intro hrun
    simp only [List.head?_cons, Option.some_or, Place.cells, Place.run, List.head?_nil,
      Option.none_or] at hlast hhidden hrun
    have hshown := hlast _ List.getLast?_concat
    rcases read_line hrun with ⟨-, hend⟩ | ⟨-, hslash⟩
    · obtain rfl : d = '\n' := by simpa using hend hshown
      rw [read_line_break] at hhidden
      cases hhidden
    · rw [hslash] at hshown
      cases hshown

/-! ### A comment of a text -/

theorem byteLength_slashes (s : Text) : Text.byteLength ('/' :: '/' :: s) = 2 + s.byteLength := by
  have hslash : ('/' : Char).utf8Size = 1 := by decide
  rw [Text.byteLength_cons, Text.byteLength_cons, hslash]
  omega

/-- The text has a line comment with this body at the span. -/
structure CommentAt (t : Text) (c : Span) (before body behind : Text) : Prop where
  text_eq : t = before ++ ('/' :: '/' :: body ++ behind)
  start : c.start = before.byteLength
  stop : c.stop = before.byteLength + (2 + body.byteLength)
  /-- The comment begins where the scan is outside of everything. -/
  place : ∃ letters, Place.run (some '/') (.code 0) before = .code letters
  cells_eq : cells t = Place.cells (some '/') (.code 0) before ++
    (hide ('/' :: '/' :: body) ++ cellsFrom .line behind)
  shown_behind : ∀ cell ∈ (cellsFrom .line behind).head?, cell.hidden = false

/-- The run of a comment begins with its two slashes and goes on with its body. -/
theorem exists_slashes {place : Place} {run y : List Cell} (hplace : place ≠ .line)
    (h : cellsFrom place (chars run ++ chars y) = run ++ y) (hne : run ≠ [])
    (hrun : ∀ cell ∈ run, cell.hidden = true) (hy : ∀ cell ∈ y.head?, cell.hidden = false) :
    (∃ letters, place = .code letters) ∧ ∃ body, chars run = '/' :: '/' :: body ∧
      y = cellsFrom .line (chars y) := by
  obtain ⟨cell, run, rfl⟩ := List.exists_cons_of_ne_nil hne
  obtain ⟨hcell, hrun⟩ := List.forall_mem_cons.mp hrun
  rw [chars_cons, List.cons_append, cellsFrom_cons, List.cons_append, List.cons.injEq] at h
  obtain ⟨hread, hrest⟩ := h
  rw [← hread] at hcell
  obtain ⟨hcode, hslash, hnext⟩ := (opens_of_hidden hcell).resolve_left hplace
  rw [line_of_hidden hcell] at hrest
  refine ⟨hcode, ?_⟩
  -- the second slash is hidden as well, so it is in the run
  cases run with
  | nil =>
    cases y with
    | nil => simp at hnext
    | cons cell' y =>
      obtain hnext : cell'.char = '/' := by simpa using hnext
      rw [chars_nil, List.nil_append, List.nil_append, chars_cons, cellsFrom_cons, List.cons.injEq,
        hnext] at hrest
      have := hy cell' rfl
      rw [← hrest.1] at this
      cases this
  | cons cell' run =>
    obtain hnext : cell'.char = '/' := by simpa using hnext
    refine ⟨chars run, ?_, cellsFrom_line_of_hidden hrest hrun⟩
    rw [chars_cons, chars_cons, hslash, hnext]

theorem exists_commentAt {t : Text} {c : Span} (hc : c ∈ spans t) :
    ∃ before body behind, CommentAt t c before body behind := by
  obtain ⟨x, run, y, hat⟩ := exists_cells_of_mem_spans hc
  have htext : t = chars x ++ (chars run ++ chars y) := by
    rw [← chars_append, ← chars_append, ← hat.cells_eq, chars_cells]
  have hcells := hat.cells_eq
  rw [cells, htext, Place.cellsFrom_append] at hcells
  obtain ⟨hx, hrun⟩ := List.append_inj hcells (by simp [chars])
  have hplace : Place.run (chars run ++ chars y).head? (.code 0) (chars x) ≠ .line := by
    obtain ⟨cell, rest, heq⟩ := List.exists_cons_of_ne_nil hat.nonempty
    simp only [heq, chars_cons, List.cons_append, List.head?_cons, cellsFrom_cons,
      List.cons.injEq] at hx hrun ⊢
    refine @run_ne_line _ _ (chars rest ++ chars y).head? (by rw [hx]; exact hat.before) ?_
    have := hat.hidden cell (heq ▸ List.mem_cons_self ..)
    rwa [← hrun.1] at this
  obtain ⟨⟨letters, hletters⟩, body, hbody, hy⟩ :=
    exists_slashes hplace hrun hat.nonempty hat.hidden hat.behind
  have hhide : run = hide ('/' :: '/' :: body) := by rw [← hbody, hide_chars hat.hidden]
  rw [hbody, List.cons_append, List.head?_cons] at hx hletters
  refine ⟨chars x, body, chars y, ?_, ?_, ?_, ⟨letters, hletters⟩, ?_, ?_⟩
  · rw [htext, hbody]
  · rw [hat.start, Nat.zero_add]
  · rw [hat.stop, Nat.zero_add, chars_append, Text.byteLength_append, hbody, byteLength_slashes]
  · rw [hat.cells_eq, ← hy, ← hhide, hx]
  · rw [← hy]
    exact hat.behind

/-- Two slashes open a comment. -/
theorem cellsFrom_slashes (letters : Nat) (t : Text) :
    cellsFrom (.code letters) ('/' :: '/' :: t) = hide ['/', '/'] ++ cellsFrom .line t := by
  simp [cellsFrom_cons, Place.read, hide]

variable {t : Text} {c : Span} {before body behind body' : Text}

/-- **The scan reads a new body as it read the old one.** -/
theorem CommentAt.rewrite (h : CommentAt t c before body behind) (hbreak : '\n' ∉ body')
    (hlast : body'.getLast? ≠ some '\r') (hlength : body'.byteLength = body.byteLength) :
    CommentAt (before ++ ('/' :: '/' :: body' ++ behind)) c before body' behind where
  text_eq := rfl
  start := h.start
  stop := by rw [h.stop, hlength]
  place := h.place
  cells_eq := by
    obtain ⟨letters, hletters⟩ := h.place
    rw [cells, Place.cellsFrom_append, List.cons_append, List.head?_cons, hletters, List.cons_append,
      cellsFrom_slashes, cellsFrom_body hbreak fun h => absurd h hlast]
    rfl
  shown_behind := h.shown_behind

/-- A hidden text is a run, which goes on with the one that has started. -/
theorem runs_hide {s : Text} (hs : s ≠ []) {y : List Cell} (hy : ∀ cell ∈ y.head?, cell.hidden = false)
    (started : Option Nat) (pos : Nat) : runs started pos (hide s ++ y) =
      ⟨started.getD pos, pos + s.byteLength⟩ :: runs none (pos + s.byteLength) y := by
  have hstarted : runs started pos (hide s ++ y) = runs (some (started.getD pos)) pos (hide s ++ y) := by
    obtain ⟨d, s, rfl⟩ := List.exists_cons_of_ne_nil hs
    simp [runs]
  rw [hstarted, runs_hidden hidden_of_mem_hide hy, chars_hide]

/-- The runs do not tell what is hidden. -/
theorem runs_append_hide {s s' : Text} (hs : s ≠ []) (hs' : s' ≠ [])
    (hlength : s.byteLength = s'.byteLength) {y : List Cell}
    (hy : ∀ cell ∈ y.head?, cell.hidden = false) (started : Option Nat) (pos : Nat) (x : List Cell) :
    runs started pos (x ++ (hide s ++ y)) = runs started pos (x ++ (hide s' ++ y)) := by
  induction x generalizing started pos with
  | nil => rw [List.nil_append, List.nil_append, runs_hide hs hy, runs_hide hs' hy, hlength]
  | cons cell x ih =>
    rw [List.cons_append, List.cons_append]
    cases hcell : cell.hidden <;> cases started <;> simp only [runs, hcell, ih]

/-- The comments and the masked text do not tell a comment's body. -/
theorem CommentAt.same {t' : Text} (h : CommentAt t c before body behind)
    (h' : CommentAt t' c before body' behind) : masked t' = masked t ∧ spans t' = spans t := by
  have hlength : Text.byteLength ('/' :: '/' :: body') = Text.byteLength ('/' :: '/' :: body) := by
    have hstop := h.stop
    rw [h'.stop] at hstop
    rw [byteLength_slashes, byteLength_slashes]
    omega
  constructor
  · rw [masked_eq_blanked, masked_eq_blanked, h.cells_eq, h'.cells_eq]
    simp only [blanked_append, blanked_hide, hlength]
  · rw [spans, spans, h.cells_eq, h'.cells_eq]
    exact runs_append_hide (by simp) (by simp) hlength h.shown_behind none 0 _

end LineComment

/-! ### What is cut out of the text -/

/-- The one text is the other with a new body for the comment at a span. -/
inductive Rewrites (c : Span) : Text → Text → Prop
  | mk {before body body' behind : Text} : c.start = before.byteLength →
      c.stop = before.byteLength + (2 + body.byteLength) → body'.byteLength = body.byteLength →
      Rewrites c (before ++ ('/' :: '/' :: body ++ behind)) (before ++ ('/' :: '/' :: body' ++ behind))

/-- What the two texts have at a span: the same, or the same up to the slash that opens the
comment, which the span covers then. -/
inductive Parted (c s : Span) : Text → Text → Prop
  | same {a} : Parted c s a a
  | slash {u v v'} : u ≠ [] → s.start + Text.byteLength u = c.start → s.Meets c →
      Parted c s (u ++ '/' :: v) (u ++ '/' :: v')

/-- An offset that is not in the comment, and not at its start either. -/
def Outside (c : Span) (offset : Nat) : Prop := offset < c.start ∨ c.stop ≤ offset

variable {c s : Span} {t t' : Text}

theorem takeBytes_slash {n : Nat} (u v : Text) (h : u.byteLength < n) :
    ∃ m, Text.takeBytes n (u ++ '/' :: v) = u ++ '/' :: Text.takeBytes m v := by
  obtain ⟨m, rfl⟩ : ∃ m, n = u.byteLength + (m + 1) := ⟨n - u.byteLength - 1, by omega⟩
  exact ⟨m + 1 - ('/' : Char).utf8Size, by rw [Text.takeBytes_append]; rfl⟩

/-- **What begins outside of the comment is the same up to its slash.** -/
theorem Rewrites.parted (h : Rewrites c t t') (hs : Outside c s.start)
    (hstart : t.isBoundary s.start = true) : Parted c s (Text.slice s t) (Text.slice s t') := by
  obtain @⟨before, body, body', behind, hcstart, hcstop, hlength⟩ := h
  rw [Text.slice, Text.slice]
  rcases hs with hs | hs
  · obtain ⟨x, z, hxz, hx⟩ := Text.isBoundary_iff.mp hstart
    obtain ⟨u, rfl, rfl⟩ := Text.exists_append_of_le hxz.symm (by omega)
    rw [List.append_assoc, List.append_assoc, hx, Text.dropBytes_byteLength_append,
      Text.dropBytes_byteLength_append, ← hx]
    rw [Text.byteLength_append] at hcstart hcstop
    by_cases hle : s.stop - s.start ≤ u.byteLength
    · rw [Text.takeBytes_append_of_le hle, Text.takeBytes_append_of_le hle]
      exact .same
    · obtain ⟨m, hm⟩ := takeBytes_slash (n := s.stop - s.start) u ('/' :: (body ++ behind)) (by omega)
      obtain ⟨m', hm'⟩ := takeBytes_slash (n := s.stop - s.start) u ('/' :: (body' ++ behind)) (by omega)
      simp only [List.cons_append, hm, hm']
      refine .slash ?_ (by omega) ⟨c.start, by omega, by omega, by omega, by omega⟩
      intro heq
      rw [heq, Text.byteLength_nil] at hcstart
      omega
  · obtain ⟨k, hk⟩ := Nat.exists_eq_add_of_le hs
    have hdrop : ∀ b : Text, b.byteLength = body.byteLength →
        Text.dropBytes s.start (before ++ ('/' :: '/' :: b ++ behind)) = Text.dropBytes k behind := by
      intro b hb
      have hlen : s.start = Text.byteLength (before ++ '/' :: '/' :: b) + k := by
        rw [Text.byteLength_append, LineComment.byteLength_slashes, hb, hk, hcstop]
      rw [hlen, ← List.append_assoc, Text.dropBytes_append]
    rw [hdrop body rfl, hdrop body' hlength]
    exact .same

theorem Rewrites.nonempty (h : Rewrites c t t') : c.start < c.stop := by
  obtain @⟨before, body, body', behind, hcstart, hcstop, -⟩ := h
  omega

/-! ### Names -/

open Statement

theorem trimEnd_slash (u v : Text) : Text.trimEnd (u ++ '/' :: v) = u ++ '/' :: Text.trimEnd v := by
  obtain ⟨blanks, hv, hblanks, hlast⟩ := trimEnd_eq_iff.mp (Eq.refl (Text.trimEnd v))
  refine trimEnd_eq_iff.mpr ⟨blanks, ?_, hblanks, ?_⟩
  · conv_lhs => rw [hv]
    simp
  · rw [List.getLast?_append_of_ne_nil _ (by simp)]
    cases hname : Text.trimEnd v with
    | nil =>
      intro d hd
      obtain rfl : '/' = d := by simpa using hd
      decide
    | cons d name =>
      rw [List.getLast?_cons_cons]
      exact hname ▸ hlast

/-- The name before a colon, when it is read from its start on. -/
theorem Parted.same_trimEnd {a a' : Text} (h : Parted c s a a') (hc : c.start < c.stop) :
    (Text.trimEnd a = [] ↔ Text.trimEnd a' = []) ∧
      (¬ Span.Meets ⟨s.start, s.start + (Text.trimEnd a).byteLength⟩ c →
        Text.trimEnd a = Text.trimEnd a') := by
  cases h with
  | same => exact ⟨Iff.rfl, fun _ => rfl⟩
  | @slash u v v' hne hu hmeets =>
    rw [trimEnd_slash, trimEnd_slash]
    refine ⟨by simp, fun hout => absurd ⟨c.start, ?_⟩ hout⟩
    have := ('/' : Char).utf8Size_pos
    simp only [Text.byteLength_append, Text.byteLength_cons]
    omega

theorem endsAtRuleName_slash : endsAtRuleName '/' = false := by decide

theorem takeWhile_append_cases (p : Char → Bool) (u v : Text) :
    (u ++ v).takeWhile p = u ++ v.takeWhile p ∨ ∀ v' : Text, (u ++ v').takeWhile p = u.takeWhile p := by
  by_cases h : (u.takeWhile p).length = u.length
  · exact .inl (by rw [List.takeWhile_append, if_pos h])
  · exact .inr fun v' => by rw [List.takeWhile_append, if_neg h]

/-- Headers are of at-rules with the same name, if the name is not read from the comment. -/
theorem Parted.same_atRule {a a' : Text} (h : Parted c s a a') (hc : c.start < c.stop) :
    Option.Rel (fun r r' : Text × Text =>
      ¬ Span.Meets ⟨s.start + 1, s.start + 1 + r.1.byteLength⟩ c → r.1 = r'.1)
      (atRule? a) (atRule? a') := by
  cases h with
  | same =>
    cases atRule? a with
    | none => exact .none
    | some r => exact .some fun _ => rfl
  | @slash u v v' hne hu hmeets =>
    obtain ⟨d, u, rfl⟩ := List.exists_cons_of_ne_nil hne
    by_cases hd : d = '@'
    · subst hd
      simp only [List.cons_append, atRule?, List.span_eq_takeWhile_dropWhile]
      refine .some fun hout => ?_
      rcases takeWhile_append_cases (fun e => !endsAtRuleName e) u ('/' :: v) with hname | hname
      · refine absurd ⟨c.start, ?_⟩ hout
        have hat : ('@' : Char).utf8Size = 1 := by decide
        have := ('/' : Char).utf8Size_pos
        rw [List.takeWhile_cons_of_pos (by rw [endsAtRuleName_slash]; rfl)] at hname
        simp only [hname, Text.byteLength_append, Text.byteLength_cons] at hu ⊢
        omega
      · exact (hname _).trans (hname _).symm
    · have hnone : ∀ w : Text, atRule? (d :: w) = none := fun w =>
        atRule?_eq_none_iff.mpr (by simpa using hd)
      simp only [List.cons_append, hnone]
      exact .none

/-! ### Nodes -/

/-- A node and one in its place, with all that is not read from the bytes of the comment. -/
inductive Item.SameOutside (c : Span) : Item → Item → Prop
  | root {span} : SameOutside c ⟨.root, span⟩ ⟨.root, span⟩
  | rule {selector selector' header span} : (¬ header.Meets c → selector = selector') →
      SameOutside c ⟨.rule selector header, span⟩ ⟨.rule selector' header, span⟩
  /-- The name stands behind the at sign with which the node begins. -/
  | atRule {name name' prelude prelude' hasBlock span} :
      (¬ Span.Meets ⟨span.start + 1, span.start + 1 + Text.byteLength name⟩ c → name = name') →
      SameOutside c ⟨.atRule name prelude hasBlock, span⟩ ⟨.atRule name' prelude' hasBlock, span⟩
  | declaration {d d' span} : d.valueSpan = d'.valueSpan → (¬ d.nameSpan.Meets c → d.name = d'.name) →
      (¬ d.valueSpan.Meets c → d.value = d'.value) →
      SameOutside c ⟨.declaration d, span⟩ ⟨.declaration d', span⟩
  | comment {span} : SameOutside c ⟨.comment, span⟩ ⟨.comment, span⟩
  | other {span} : SameOutside c ⟨.other, span⟩ ⟨.other, span⟩

/-- A part that begins where the texts can be compared. -/
structure Part.Visible (t : Text) (c : Span) (p : Part) : Prop where
  outside : Outside c p.span.start
  boundary : t.isBoundary p.span.start = true

section Statements
variable {parts : List Part}

theorem Parted.eq_of_not_meets {a a' : Text} (h : Parted c s a a') (hout : ¬ s.Meets c) : a = a' := by
  cases h with
  | same => rfl
  | slash _ _ hmeets => exact absurd hmeets hout

theorem Rewrites.parted_header (h : Rewrites c t t') (hparts : ∀ p ∈ parts, p.Visible t c)
    (brace : Nat) : Parted c (headerSpan parts brace) (Text.slice (headerSpan parts brace) t)
      (Text.slice (headerSpan parts brace) t') := by
  cases parts with
  | nil =>
    have hempty : ∀ w : Text, Text.slice (headerSpan [] brace) w = [] := fun w => by
      simp [Text.slice, headerSpan, Span.empty]
    rw [hempty, hempty]
    exact .same
  | cons first others =>
    obtain ⟨hfirst, -⟩ := List.forall_mem_cons.mp hparts
    exact h.parted hfirst.outside hfirst.boundary

theorem Rewrites.sameOutside_declaration {first colon : Part} {value : List Part} {stop : Nat}
    (h : Rewrites c t t') (hfirst : first.Visible t c) (hvalue : ∀ p ∈ value, p.Visible t c) :
    Item.SameOutside c
      ⟨((declaration? t first colon value).map .declaration).getD .other, ⟨first.span.start, stop⟩⟩
      ⟨((declaration? t' first colon value).map .declaration).getD .other, ⟨first.span.start, stop⟩⟩ := by
  have hheader := h.parted_header hvalue (colon.span.start + 1)
  have hname := h.parted (s := ⟨first.span.start, colon.span.start⟩) hfirst.outside hfirst.boundary
  obtain ⟨hempty, hsame⟩ := hname.same_trimEnd h.nonempty
  rw [declaration?_eq, declaration?_eq]
  by_cases hnil : Text.trimEnd (Text.slice ⟨first.span.start, colon.span.start⟩ t) = []
  · simp only [hnil, hempty.mp hnil, if_true, Option.map_none, Option.getD_none]
    exact .other
  · simp only [hnil, mt hempty.mpr hnil, if_false, Option.map_some, Option.getD_some]
    exact .declaration rfl hsame hheader.eq_of_not_meets

theorem Rewrites.sameOutside_kind {first : Part} {others : List Part} {stop : Nat}
    (h : Rewrites c t t') (hparts : ∀ p ∈ first :: others, p.Visible t c) :
    Item.SameOutside c ⟨kind t first others, ⟨first.span.start, stop⟩⟩
      ⟨kind t' first others, ⟨first.span.start, stop⟩⟩ := by
  rcases colon_or_none others with hno | ⟨before, colon, value, rfl, hbefore, hcolon⟩
  · have hat := (h.parted_header hparts 0).same_atRule h.nonempty
    rw [kind_of_no_colon hno, kind_of_no_colon hno]
    rw [headerSpan] at hat
    generalize atRule? (Text.slice _ t) = r, atRule? (Text.slice _ t') = r' at hat ⊢
    cases hat with
    | none => exact .other
    | some hname => exact .atRule hname
  · rw [kind_of_colon hbefore hcolon, kind_of_colon hbefore hcolon]
    obtain ⟨hfirst, hothers⟩ := List.forall_mem_cons.mp hparts
    exact h.sameOutside_declaration hfirst fun p hp => hothers p (by simp [hp])

theorem Rewrites.sameOutside_blockKind {brace stop : Nat} (h : Rewrites c t t')
    (hparts : ∀ p ∈ parts, p.Visible t c) :
    Item.SameOutside c ⟨blockKind t (headerSpan parts brace), ⟨(headerSpan parts brace).start, stop⟩⟩
      ⟨blockKind t' (headerSpan parts brace), ⟨(headerSpan parts brace).start, stop⟩⟩ := by
  have hheader := h.parted_header hparts brace
  have hat := hheader.same_atRule h.nonempty
  unfold blockKind
  generalize atRule? (Text.slice _ t) = r, atRule? (Text.slice _ t') = r' at hat ⊢
  cases hat with
  | none => exact .rule hheader.eq_of_not_meets
  | some hname => exact .atRule hname

theorem Rewrites.matches_conclude {cut : Option Nat} {f g : Forest} (h : Rewrites c t t')
    (hparts : ∀ p ∈ parts, p.Visible t c) (hfg : f.Matches (Item.SameOutside c) g) :
    (conclude t parts cut f).Matches (Item.SameOutside c) (conclude t' parts cut g) := by
  cases parts with
  | nil => exact hfg
  | cons first others => exact .cons (h.sameOutside_kind hparts) .nil hfg

end Statements

/-! ### Levels -/

theorem Item.sameOutside_refl (item : Item) : item.SameOutside c item := by
  obtain ⟨kind, span⟩ := item
  cases kind with
  | root => exact .root
  | rule => exact .rule fun _ => rfl
  | atRule => exact .atRule fun _ => rfl
  | declaration => exact .declaration rfl (fun _ => rfl) fun _ => rfl
  | comment => exact .comment
  | other => exact .other

section Levels
variable {comments : List Span} {pos : Nat} {parts : List Part}

theorem Source.Fits.visible_part {token : Token} {tokens : List Token} {stop : Nat} {isColon : Bool}
    (h : Source.Fits ⟨t, comments⟩ pos (token :: tokens)) (hc : c ∈ comments)
    (hkind : token.kind ≠ .whitespace) : Part.Visible t c ⟨⟨pos, stop⟩, isColon⟩ where
  outside := h.visible [] token tokens rfl hkind c hc
  boundary := h.start

theorem visible_concat {p : Part} (hparts : ∀ p ∈ parts, p.Visible t c) (hp : p.Visible t c) :
    ∀ q ∈ parts ++ [p], q.Visible t c := by
  simpa [or_imp, forall_and] using ⟨hparts, hp⟩

/-- **The same units give nodes in the same places.** The parts of the statement that has begun are
carried along, as they are what a node is made of. -/
theorem Rewrites.matches_ofUnits (h : Rewrites c t t') (hc : c ∈ comments) {u : Units}
    {around : Option Bracket} {marked : Bool} (hnested : Units.Nested around marked u)
    (hfits : Source.Fits ⟨t, comments⟩ pos u.toTokens) (hparts : ∀ p ∈ parts, p.Visible t c) :
    (Forest.ofUnits ⟨t, comments⟩ pos parts u).Matches (Item.SameOutside c)
      (Forest.ofUnits ⟨t', comments⟩ pos parts u) := by
  induction hnested generalizing pos parts with
  | nil => exact h.matches_conclude hparts .nil
  | @leaf around marked token rest _ _ _ ih =>
    have hrest := hfits.behind_leaf
    cases hrole : Role.ofKind token.kind with
    | space =>
      simp only [Forest.ofUnits, hrole, Forest.lineComments_eq]
      split
      · exact (Forest.matches_refl Item.sameOutside_refl _).append (ih hrest hparts)
      · exact ih hrest hparts
    | comment =>
      simp only [Forest.ofUnits, hrole]
      split
      · exact .cons .comment .nil (ih hrest hparts)
      · exact ih hrest hparts
    | semicolon | strayBrace =>
      simp only [Forest.ofUnits, hrole]
      exact h.matches_conclude hparts (ih hrest (by simp))
    | part isColon =>
      simp only [Forest.ofUnits, hrole]
      refine ih hrest (visible_concat hparts (hfits.visible_part hc ?_))
      intro hkind
      rw [hkind] at hrole
      cases hrole
  | @group around marked opener bracket inside closer rest ho _ _ _ _ _ ih =>
    refine ih hfits.behind_group (visible_concat hparts (hfits.visible_part hc fun hkind => ?_))
    simp [Token.opens, hkind] at ho
  | @block around opener inside closer rest ho _ _ _ ih₁ ih₂ =>
    exact .cons (h.sameOutside_blockKind hparts) (ih₁ hfits.inside_block (by simp))
      (ih₂ hfits.behind_block (by simp))

end Levels

/-! ### Sheets -/

/-- The text with a new body for a comment, as it is cut out of the text. -/
theorem LineComment.CommentAt.splice {before old behind : Text}
    (h : CommentAt t c before old behind) (body : Text) :
    t.takeBytes (c.start + 2) ++ (body ++ t.dropBytes c.stop) =
      before ++ ('/' :: '/' :: body ++ behind) := by
  have htake : t.takeBytes (c.start + 2) = before ++ ['/', '/'] := by
    have hlen : c.start + 2 = Text.byteLength (before ++ ['/', '/']) := by
      rw [Text.byteLength_append, byteLength_slashes, h.start]
      rfl
    have ht : t = (before ++ ['/', '/']) ++ (old ++ behind) := by rw [h.text_eq]; simp
    rw [hlen, ht, Text.takeBytes_byteLength_append]
  have hdrop : t.dropBytes c.stop = behind := by
    have hlen : c.stop = Text.byteLength (before ++ '/' :: '/' :: old) := by
      rw [Text.byteLength_append, byteLength_slashes, h.stop]
    rw [hlen, h.text_eq, ← List.append_assoc, Text.dropBytes_byteLength_append]
  rw [htake, hdrop]
  simp

/-- Sheets of the same masked text with the same comments. -/
theorem Rewrites.matches_ofText (h : Rewrites c t t') (hc : c ∈ LineComment.spans t)
    (hmasked : LineComment.masked t' = LineComment.masked t)
    (hspans : LineComment.spans t' = LineComment.spans t) :
    (Sheet.ofText t).Matches (Item.SameOutside c) (Sheet.ofText t') := by
  refine Sheet.matches_of_forest ?_ ?_
  · have hlength : t'.byteLength = t.byteLength := by
      rw [← LineComment.byteLength_masked t', hmasked, LineComment.byteLength_masked]
    simp only [Sheet.ofText, hlength]
    exact .root
  · simp only [Sheet.ofText, Source.ofText, hmasked, hspans]
    refine h.matches_ofUnits hc (Units.nested_ofTokens _) ?_ (by simp)
    rw [Units.toTokens_ofTokens]
    exact fits_ofText t

namespace Sheet

/-- **The body of a line comment has no effect** on what nodes there are and where they stand, nor on
any name, value or selector outside of the comment. -/
theorem matches_of_body {t : Text} {c : Span} (hc : c ∈ LineComment.spans t) {body : Text}
    (hlength : body.byteLength = c.stop - c.start - 2) (hbreak : '\n' ∉ body)
    (hlast : body.getLast? ≠ some '\r') :
    (ofText t).Matches (Item.SameOutside c)
      (ofText (t.takeBytes (c.start + 2) ++ (body ++ t.dropBytes c.stop))) := by
  obtain ⟨before, old, behind, hat⟩ := LineComment.exists_commentAt hc
  have hold : body.byteLength = old.byteLength := by
    rw [hlength, hat.start, hat.stop]
    omega
  obtain ⟨hmasked, hspans⟩ := hat.same (hat.rewrite hbreak hlast hold)
  have hrewrites : Rewrites c t (before ++ ('/' :: '/' :: body ++ behind)) :=
    hat.text_eq ▸ .mk hat.start hat.stop hold
  rw [hat.splice]
  exact hrewrites.matches_ofText hc hmasked hspans

/-- Nothing changes around the comment, whatever its new body would open or begin. -/
theorem matches_of_body_of_openers :
    (ofText "a\x7bb:1//123456789\n;c:2\x7d".toList).Matches (Item.SameOutside ⟨5, 16⟩)
      (ofText "a\x7bb:1///*\x7d\x7b\"url(\n;c:2\x7d".toList) := by
  have h := @matches_of_body "a\x7bb:1//123456789\n;c:2\x7d".toList ⟨5, 16⟩ (by decide +kernel)
    "/*\x7d\x7b\"url(".toList (by decide +kernel) (by decide +kernel) (by decide +kernel)
  have htext : Text.takeBytes 7 "a\x7bb:1//123456789\n;c:2\x7d".toList ++
      ("/*\x7d\x7b\"url(".toList ++ Text.dropBytes 16 "a\x7bb:1//123456789\n;c:2\x7d".toList) =
        "a\x7bb:1///*\x7d\x7b\"url(\n;c:2\x7d".toList := by decide +kernel
  exact Eq.mp (congrArg (fun s => (ofText _).Matches _ (ofText s)) htext) h

end Sheet

end Css
end VendorSync
