import Mathlib.Data.List.Basic
import Mathlib.Data.List.Induction
import Mathlib.Order.Bounds.Basic
import VendorSync.Proofs.Offsets
import VendorSync.Text.Position

/-! Lines, and the positions on them.

A line is what stands between two line breaks (`IsLine`). An offset before a character of a line, or at
its end, has a position of its own (`IsLine.positionAt_eq`), and `offsetAt` leads from there back to the
offset (`IsLine.offsetAt_eq`). All other offsets lie inside of a character or of a line break, or behind
the text, and all other positions behind the end of a line or of the text; they stand for the one before
them (`positionAt_of_floor`, `positionAt_of_cutsBreak`, `offsetAt_of_le`). -/
namespace VendorSync

namespace Position

/-- The position when a text stands before the one that it is in. -/
def behind (x : Text) (p : Position) : Position :=
  x.foldr (fun c p => if c = '\n' then p.nextLine else p.nextCharacter) p

@[simp] theorem behind_nil (p : Position) : p.behind [] = p := rfl

@[simp] theorem behind_cons (c : Char) (x : Text) (p : Position) :
    p.behind (c :: x) = if c = '\n' then (p.behind x).nextLine else (p.behind x).nextCharacter := rfl

theorem behind_append (x y : Text) (p : Position) : p.behind (x ++ y) = (p.behind y).behind x :=
  List.foldr_append

/-- Characters that break no line count on the line of the position. -/
theorem behind_of_no_break {u : Text} (h : '\n' ∉ u) : origin.behind u = ⟨0, u.length⟩ := by
  induction u with
  | nil => rfl
  | cons c u ih =>
    rw [List.mem_cons, not_or] at h
    rw [behind_cons, if_neg (Ne.symm h.1), ih h.2]
    rfl

/-- Lines above count on no line but their own. -/
theorem behind_of_begins {before : Text} (h : ∀ c ∈ before.getLast?, c = '\n') (p : Position) :
    p.behind before = ⟨before.count '\n' + p.line, p.character⟩ := by
  induction before with
  | nil => simp
  | cons c before ih =>
    cases before with
    | nil =>
      obtain rfl : c = '\n' := h c rfl
      simp [nextLine, Nat.add_comm]
    | cons d before =>
      have hrest := ih fun e he => h e (by rwa [List.getLast?_cons_cons])
      rw [behind_cons, hrest]
      by_cases hc : c = '\n'
      · rw [if_pos hc, hc, List.count_cons_self, nextLine]
        simp only [Position.mk.injEq, and_true]
        omega
      · -- a line break stands behind the character, so it is not on the line of the position
        have hbreak : '\n' ∈ d :: before := by
          obtain ⟨e, he⟩ := Option.ne_none_iff_exists'.mp (mt List.getLast?_eq_none_iff.mp
            (List.cons_ne_nil d before))
          have := List.mem_of_getLast? he
          rwa [h e (by rw [List.getLast?_cons_cons]; exact he)] at this
        have hpos := List.count_pos_iff.mpr hbreak
        rw [if_neg hc, List.count_cons_of_ne hc, nextCharacter, if_neg (by simp only; omega)]

/-! ### Order -/

theorem le_iff {p q : Position} :
    p.le q = true ↔ p.line < q.line ∨ p.line = q.line ∧ p.character ≤ q.character := by
  simp [le]

theorem origin_le (p : Position) : origin.le p = true := by
  rw [le_iff, origin]
  simp only
  omega

theorem nextLine_le {p q : Position} (h : p.le q = true) : p.nextLine.le q.nextLine = true := by
  rw [le_iff] at h ⊢
  simp only [nextLine]
  omega

theorem nextCharacter_le {p q : Position} (h : p.le q = true) :
    p.nextCharacter.le q.nextCharacter = true := by
  rw [le_iff] at h ⊢
  unfold nextCharacter
  by_cases hp : p.line = 0 <;> by_cases hq : q.line = 0
  all_goals simp only [hp, hq, if_true, if_false, true_and, false_and] at h ⊢
  all_goals omega

end Position

namespace Text

/-! ### Offsets and line breaks -/

/-- A cut between the texts goes through a line break. -/
def CutsBreak (x y : Text) : Prop := x.getLast? = some '\r' ∧ y.head? = some '\n'

/-- The offset lies between the two characters of a line break. -/
def SplitsBreak (t : Text) (n : Nat) : Prop := ∃ x y, t = x ++ y ∧ n = byteLength x ∧ CutsBreak x y

theorem splitsBreak_append {x y : Text} : SplitsBreak (x ++ y) (byteLength x) ↔ CutsBreak x y := by
  constructor
  · rintro ⟨x', y', heq, hlen, hcuts⟩
    obtain ⟨rfl, rfl⟩ := append_inj_of_byteLength heq hlen
    exact hcuts
  · intro h
    exact ⟨x, y, rfl, rfl, h⟩

/-- The position of an offset, by the first character of the text. -/
theorem positionAt_cons (o : Nat) (c : Char) (t : Text) : positionAt o (c :: t) =
    if o < c.utf8Size ∨ o < 2 ∧ c = '\r' ∧ t.head? = some '\n' then .origin
    else if c = '\n' then (positionAt (o - c.utf8Size) t).nextLine
    else (positionAt (o - c.utf8Size) t).nextCharacter := by
  have hfeed : ('\n' : Char).utf8Size = 1 := by decide
  have hreturn : ('\r' : Char).utf8Size = 1 := by decide
  conv_lhs => unfold positionAt
  split
  · rename_i heq
    cases heq
  · -- behind a carriage return the line feed makes a line, on which no character is counted
    rename_i cs heq
    obtain ⟨rfl, rfl⟩ := List.cons.inj heq
    by_cases ho : o < 2
    · simp [ho]
    · have hinner : positionAt (o - 1) ('\n' :: cs) = (positionAt (o - 2) cs).nextLine := by
        rw [positionAt, if_neg (by omega), Nat.sub_sub]
      rw [if_neg ho, if_neg (by rw [hreturn]; omega), if_neg (by decide), hreturn, hinner]
      rfl
  · rename_i cs heq
    obtain ⟨rfl, rfl⟩ := List.cons.inj heq
    simp [hfeed]
  · rename_i c' cs hcrlf hlf heq
    obtain ⟨rfl, rfl⟩ := List.cons.inj heq
    have hbreak : ¬ (c = '\r' ∧ t.head? = some '\n') := by
      rintro ⟨rfl, hhead⟩
      obtain ⟨rest, rfl⟩ := List.head?_eq_some_iff.mp hhead
      exact hcrlf rest rfl rfl
    rw [if_neg (fun h => hlf h)]
    simp only [hbreak, and_false, or_false]

/-- The beginning of a text is the origin, and so is its first character. -/
theorem positionAt_of_lt {k : Nat} {y : Text} (h : ∀ c ∈ y.head?, k < c.utf8Size) :
    positionAt k y = .origin := by
  cases y with
  | nil => rfl
  | cons c y => rw [positionAt_cons, if_pos (.inl (h c rfl))]

/-- A position behind a beginning of the text, unless a line break goes on there. -/
theorem positionAt_append {x y : Text} {k : Nat} (h : CutsBreak x y → k ≠ 0) :
    positionAt (byteLength x + k) (x ++ y) = (positionAt k y).behind x := by
  induction x with
  | nil => simp
  | cons c x ih =>
    have hih : positionAt (byteLength x + k) (x ++ y) = (positionAt k y).behind x := by
      refine ih fun hcuts => h ⟨?_, hcuts.2⟩
      cases x with
      | nil => cases hcuts.1
      | cons d x => rw [List.getLast?_cons_cons, hcuts.1]
    have hpass : ¬ (byteLength (c :: x) + k < c.utf8Size ∨
        byteLength (c :: x) + k < 2 ∧ c = '\r' ∧ (x ++ y).head? = some '\n') := by
      rw [byteLength_cons, not_or]
      refine ⟨by omega, ?_⟩
      rintro ⟨hlt, rfl, hhead⟩
      have hreturn : ('\r' : Char).utf8Size = 1 := by decide
      rw [hreturn] at hlt
      obtain rfl : x = [] := byteLength_eq_zero.mp (by omega)
      exact h ⟨rfl, hhead⟩ (by omega)
    rw [List.cons_append, positionAt_cons, if_neg hpass, byteLength_cons, Nat.add_assoc,
      Nat.add_sub_cancel_left, hih, Position.behind_cons]

/-- **An offset inside of a character, or behind the text**, stands for the boundary before it. -/
theorem positionAt_of_floor {t : Text} {o b : Nat}
    (h : IsGreatest {n | t.isBoundary n = true ∧ n ≤ o} b) : positionAt o t = positionAt b t := by
  obtain ⟨⟨hb, hle⟩, hlast⟩ := h
  obtain ⟨x, y, rfl, rfl⟩ := isBoundary_iff.mp hb
  obtain ⟨k, rfl⟩ := Nat.exists_eq_add_of_le hle
  by_cases hk : k = 0
  · rw [hk, Nat.add_zero]
  have hinside : ∀ c ∈ y.head?, k < c.utf8Size := by
    intro c hc
    obtain ⟨rest, rfl⟩ := List.head?_eq_some_iff.mp hc
    by_contra hge
    have hnext := hlast ⟨isBoundary_iff.mpr ⟨x ++ [c], rest, by simp, rfl⟩, by simp; omega⟩
    have := c.utf8Size_pos
    simp at hnext
    omega
  -- a line feed has one byte, so no offset lies inside of it
  have hno : ¬ CutsBreak x y := fun hcuts => hk (Nat.lt_one_iff.mp (hinside '\n' hcuts.2))
  have hend := @positionAt_append x y 0 fun hcuts => absurd hcuts hno
  rw [positionAt_append fun _ => hk, positionAt_of_lt hinside]
  rw [positionAt_of_lt fun c _ => c.utf8Size_pos] at hend
  exact hend.symm

/-- **An offset inside of a line break** stands for the end of the line. -/
theorem positionAt_of_cutsBreak {x y : Text} (h : CutsBreak (x ++ ['\r']) y) :
    positionAt (byteLength (x ++ ['\r'])) (x ++ ['\r'] ++ y) =
      positionAt (byteLength x) (x ++ ['\r'] ++ y) := by
  have hreturn : ('\r' : Char).utf8Size = 1 := by decide
  have hno : ∀ k, CutsBreak x ('\r' :: y) → k ≠ 0 := fun k hcuts => absurd hcuts.2 (by simp)
  have hinside := positionAt_append (hno 1)
  have hend := positionAt_append (hno 0)
  rw [positionAt_cons, if_pos (.inr ⟨by omega, rfl, h.2⟩)] at hinside
  rw [positionAt_of_lt fun c _ => c.utf8Size_pos] at hend
  rw [byteLength_append, byteLength_cons, hreturn, List.append_assoc]
  exact hinside.trans hend.symm

/-! ### The offset of a position -/

/-- The offset of a position, by the first character of the text. -/
theorem offsetAt_cons (p : Position) (c : Char) (t : Text) : offsetAt p (c :: t) =
    if c = '\n' then if p.line = 0 then 0 else 1 + offsetAt ⟨p.line - 1, p.character⟩ t
    else if p.line ≠ 0 then c.utf8Size + offsetAt p t
    else if p.character = 0 ∨ c = '\r' ∧ t.head? = some '\n' then 0
    else c.utf8Size + offsetAt ⟨0, p.character - 1⟩ t := by
  conv_lhs => unfold offsetAt
  split
  · rename_i heq
    cases heq
  · -- the line break counts as one character here and one in the line feed
    rename_i cs heq
    obtain ⟨rfl, rfl⟩ := List.cons.inj heq
    have hone : ('\r' : Char).utf8Size = 1 := by decide
    by_cases hline : p.line = 0
    · simp [hline]
    · have hbreak : offsetAt p ('\n' :: cs) = 1 + offsetAt ⟨p.line - 1, p.character⟩ cs := by
        rw [offsetAt, if_neg hline]
      rw [if_neg hline, if_neg (by decide), if_pos hline, hbreak, hone]
      omega
  · rename_i cs heq
    obtain ⟨rfl, rfl⟩ := List.cons.inj heq
    rw [if_pos rfl]
  · rename_i c' cs hcrlf hlf heq
    obtain ⟨rfl, rfl⟩ := List.cons.inj heq
    have hbreak : ¬ (c = '\r' ∧ t.head? = some '\n') := by
      rintro ⟨rfl, hhead⟩
      obtain ⟨rest, rfl⟩ := List.head?_eq_some_iff.mp hhead
      exact hcrlf rest rfl rfl
    rw [if_neg (fun h => hlf h)]
    simp only [hbreak, or_false, ne_eq]
    split <;> simp_all

/-- What stands on the lines above a position is passed over. -/
theorem offsetAt_append {p : Position} {x : Text} (h : x.count '\n' < p.line) (r : Text) :
    offsetAt p (x ++ r) = x.byteLength + offsetAt ⟨p.line - x.count '\n', p.character⟩ r := by
  induction x generalizing p with
  | nil => simp
  | cons c x ih =>
    have hline : p.line ≠ 0 := by omega
    rw [List.cons_append, offsetAt_cons, byteLength_cons]
    by_cases hc : c = '\n'
    · subst hc
      have hone : ('\n' : Char).utf8Size = 1 := by decide
      rw [List.count_cons_self] at h ⊢
      rw [if_pos rfl, if_neg hline, ih (by simp only; omega), hone, Nat.sub_sub, Nat.add_comm 1 (x.count _)]
      simp only
      omega
    · rw [List.count_cons_of_ne hc] at h ⊢
      rw [if_neg hc, if_pos hline, ih h, Nat.add_assoc]

/-- **A position behind the last line** stands for the end of the text. -/
theorem offsetAt_of_le {t : Text} {p : Position} (h : t.lineCount ≤ p.line) :
    offsetAt p t = byteLength t := by
  have := @offsetAt_append p t (by rw [lineCount] at h; omega) []
  rwa [List.append_nil] at this

theorem offsetAt_le (t : Text) {p q : Position} (h : p.le q = true) : offsetAt p t ≤ offsetAt q t := by
  induction t generalizing p q with
  | nil => simp [offsetAt]
  | cons c t ih =>
    rw [Position.le_iff] at h
    rw [offsetAt_cons, offsetAt_cons]
    by_cases hc : c = '\n'
    · by_cases hp : p.line = 0
      · simp [hc, hp]
      · have hq : q.line ≠ 0 := by omega
        have := @ih ⟨p.line - 1, p.character⟩ ⟨q.line - 1, q.character⟩
          (Position.le_iff.mpr (by simp only; omega))
        simpa [hc, hp, hq] using this
    · by_cases hp : p.line = 0
      · by_cases hstop : p.character = 0 ∨ c = '\r' ∧ t.head? = some '\n'
        · simp [hc, hp, hstop]
        · by_cases hq : q.line = 0
          · have hcharacter : p.character ≤ q.character := by omega
            have hstop' : ¬ (q.character = 0 ∨ c = '\r' ∧ t.head? = some '\n') := by
              rw [not_or] at hstop ⊢
              exact ⟨by omega, hstop.2⟩
            have := @ih ⟨0, p.character - 1⟩ ⟨0, q.character - 1⟩
              (Position.le_iff.mpr (.inr ⟨rfl, Nat.sub_le_sub_right hcharacter 1⟩))
            simpa [hc, hp, hq, hstop, hstop'] using this
          · have := @ih ⟨0, p.character - 1⟩ q (Position.le_iff.mpr (by simp only; omega))
            simpa [hc, hp, hq, hstop] using this
      · have hq : q.line ≠ 0 := by omega
        simpa [hc, hp, hq] using ih (Position.le_iff.mpr h)

theorem positionAt_le (t : Text) {a b : Nat} (h : a ≤ b) : (positionAt a t).le (positionAt b t) = true := by
  induction t generalizing a b with
  | nil => exact Position.origin_le _
  | cons c t ih =>
    rw [positionAt_cons, positionAt_cons]
    by_cases ha : a < c.utf8Size ∨ a < 2 ∧ c = '\r' ∧ t.head? = some '\n'
    · rw [if_pos ha]
      exact Position.origin_le _
    · have hb : ¬ (b < c.utf8Size ∨ b < 2 ∧ c = '\r' ∧ t.head? = some '\n') := by
        rw [not_or] at ha ⊢
        exact ⟨by omega, fun hlt => ha.2 ⟨by omega, hlt.2⟩⟩
      have hrest : (positionAt (a - c.utf8Size) t).le (positionAt (b - c.utf8Size) t) = true :=
        ih (by omega)
      rw [if_neg ha, if_neg hb]
      split
      · exact Position.nextLine_le hrest
      · exact Position.nextCharacter_le hrest

/-! ### Lines -/

/-- What stands behind a line: the break that ends it and the lines below, or nothing. -/
inductive EndsLine (line : Text) : Text → Prop
  | lineFeed {below} : line.getLast? ≠ some '\r' → EndsLine line ('\n' :: below)
  | both {below} : EndsLine line ('\r' :: '\n' :: below)
  | text : EndsLine line []

/-- The line of that number, with all that stands before and behind it. Its line break is behind it. -/
structure IsLine (t : Text) (number : Nat) (before line behind : Text) : Prop where
  text_eq : t = before ++ (line ++ behind)
  number_eq : before.count '\n' = number
  begins : ∀ c ∈ before.getLast?, c = '\n'
  whole : '\n' ∉ line
  ends : EndsLine line behind

/-- No cut in a line goes through a line break. -/
theorem EndsLine.not_cutsBreak {u v behind : Text} (h : EndsLine (u ++ v) behind) (hv : '\n' ∉ v) :
    ¬ CutsBreak u (v ++ behind) := by
  rintro ⟨hlast, hhead⟩
  cases v with
  | cons c v =>
    obtain rfl : c = '\n' := by simpa using hhead
    exact hv (List.mem_cons_self ..)
  | nil =>
    cases h with
    | lineFeed hno => exact hno (by simpa using hlast)
    | both => simp at hhead
    | text => simp at hhead

/-- A text goes on up to the end of the line that stands before it. -/
theorem exists_endsLine (u y : Text) (hu : '\n' ∉ u) (hno : ¬ CutsBreak u y) :
    ∃ v behind, y = v ++ behind ∧ '\n' ∉ u ++ v ∧ EndsLine (u ++ v) behind := by
  induction y generalizing u with
  | nil => exact ⟨[], [], rfl, by simpa using hu, .text⟩
  | cons c y ih =>
    by_cases hc : c = '\n'
    · subst hc
      refine ⟨[], '\n' :: y, rfl, by simpa using hu, .lineFeed fun hlast => hno ⟨?_, rfl⟩⟩
      simpa using hlast
    by_cases hboth : c = '\r' ∧ y.head? = some '\n'
    · obtain ⟨rfl, hhead⟩ := hboth
      obtain ⟨below, rfl⟩ := List.head?_eq_some_iff.mp hhead
      exact ⟨[], '\r' :: '\n' :: below, rfl, by simpa using hu, .both⟩
    · have hcut : ¬ CutsBreak (u ++ [c]) y := fun hcuts => hboth ⟨by simpa using hcuts.1, hcuts.2⟩
      obtain ⟨v, behind, rfl, hwhole, hends⟩ := ih (u ++ [c]) (by simpa [Ne.symm hc] using hu) hcut
      exact ⟨c :: v, behind, rfl, by simpa using hwhole, by simpa using hends⟩

/-- A text ends with the beginning of a line. -/
theorem exists_begins (x : Text) :
    ∃ before u, x = before ++ u ∧ (∀ c ∈ before.getLast?, c = '\n') ∧ '\n' ∉ u := by
  induction x using List.reverseRecOn with
  | nil => exact ⟨[], [], rfl, by simp, by simp⟩
  | append_singleton x c ih =>
    by_cases hc : c = '\n'
    · exact ⟨x ++ [c], [], by simp, by simp [hc], by simp⟩
    · obtain ⟨before, u, rfl, hbegins, hu⟩ := ih
      exact ⟨before, u ++ [c], by simp, hbegins, by simpa [Ne.symm hc] using hu⟩

variable {t : Text} {number : Nat} {before line behind : Text}

/-- **Every cut that goes through no line break is a cut of a line.** -/
theorem exists_isLine {x y : Text} (h : ¬ CutsBreak x y) : ∃ number before u v behind,
    x = before ++ u ∧ y = v ++ behind ∧ IsLine (x ++ y) number before (u ++ v) behind := by
  obtain ⟨before, u, rfl, hbegins, hu⟩ := exists_begins x
  have hcut : ¬ CutsBreak u y := fun hcuts => h ⟨by simp [hcuts.1], hcuts.2⟩
  obtain ⟨v, behind, rfl, hwhole, hends⟩ := exists_endsLine u y hu hcut
  exact ⟨_, before, u, v, behind, rfl, rfl, by simp, rfl, hbegins, hwhole, hends⟩

/-- A line break of two characters that is cut stands behind a line. -/
theorem exists_isLine_of_cutsBreak {x y : Text} (h : CutsBreak (x ++ ['\r']) y) : ∃ number before u,
    x = before ++ u ∧ IsLine (x ++ '\r' :: y) number before u ('\r' :: y) := by
  obtain ⟨number, before, u, v, behind, hx, hy, hline⟩ :=
    @exists_isLine x ('\r' :: y) fun hcuts => absurd hcuts.2 (by simp)
  refine ⟨number, before, u, hx, ?_⟩
  cases v with
  | nil =>
    obtain rfl : '\r' :: y = behind := hy
    rwa [List.append_nil] at hline
  | cons c v =>
    obtain ⟨rfl, rfl⟩ := List.cons.inj hy
    have hends : EndsLine ((u ++ ['\r']) ++ v) behind := by simpa using hline.ends
    exact absurd ⟨by simp, h.2⟩ (hends.not_cutsBreak fun hv => hline.whole (by simp [hv]))

/-- As many line feeds as the text has stand before some line. -/
theorem exists_before {t : Text} {n : Nat} (h : n ≤ t.count '\n') : ∃ before rest, t = before ++ rest ∧
    before.count '\n' = n ∧ ∀ c ∈ before.getLast?, c = '\n' := by
  induction t generalizing n with
  | nil => exact ⟨[], [], rfl, by simp at h; simp [h], by simp⟩
  | cons c t ih =>
    by_cases hn : n = 0
    · exact ⟨[], c :: t, rfl, by simp [hn], by simp⟩
    by_cases hc : c = '\n'
    · subst hc
      rw [List.count_cons_self] at h
      obtain ⟨before, rest, rfl, hcount, hbegins⟩ := @ih (n - 1) (by omega)
      refine ⟨'\n' :: before, rest, rfl, by rw [List.count_cons_self]; omega, ?_⟩
      cases before with
      | nil => simp
      | cons d before => rwa [List.getLast?_cons_cons]
    · rw [List.count_cons_of_ne hc] at h
      obtain ⟨before, rest, rfl, hcount, hbegins⟩ := ih h
      refine ⟨c :: before, rest, rfl, by rw [List.count_cons_of_ne hc, hcount], ?_⟩
      cases before with
      | nil => exact absurd hcount.symm hn
      | cons d before => rwa [List.getLast?_cons_cons]

theorem exists_isLine_iff {number : Nat} :
    (∃ before line behind, IsLine t number before line behind) ↔ number < t.lineCount := by
  constructor
  · rintro ⟨before, line, behind, h⟩
    rw [lineCount, h.text_eq, List.count_append, h.number_eq]
    omega
  · intro h
    obtain ⟨before, rest, rfl, hcount, hbegins⟩ := exists_before (Nat.le_of_lt_succ h)
    obtain ⟨line, behind, rfl, hwhole, hends⟩ := exists_endsLine [] rest (by simp) fun hcuts => by
      cases hcuts.1
    exact ⟨before, line, behind, rfl, hcount, hbegins, hwhole, hends⟩

/-- The last line goes up to the end of the text. -/
theorem IsLine.behind_eq_nil (h : IsLine t number before line behind) (hlast : number + 1 = t.lineCount) :
    behind = [] := by
  have hcount : behind.count '\n' = 0 := by
    rw [lineCount, h.text_eq, List.count_append, List.count_append, h.number_eq] at hlast
    omega
  cases h.ends with
  | lineFeed | both => simp at hcount
  | text => rfl

theorem EndsLine.tail {c : Char} (h : EndsLine (c :: line) behind) : EndsLine line behind := by
  cases h with
  | lineFeed hlast =>
    refine .lineFeed fun hr => hlast ?_
    cases line with
    | nil => cases hr
    | cons d line => rw [List.getLast?_cons_cons, hr]
  | both => exact .both
  | text => exact .text

/-- Positions on the first line. -/
theorem EndsLine.offsetAt_eq (h : EndsLine line behind) (hwhole : '\n' ∉ line) (k : Nat) :
    offsetAt ⟨0, k⟩ (line ++ behind) = byteLength (line.take k) := by
  induction line generalizing k with
  | nil => cases h <;> simp [offsetAt]
  | cons c line ih =>
    rw [List.mem_cons, not_or] at hwhole
    rw [List.cons_append, offsetAt_cons, if_neg (Ne.symm hwhole.1), if_neg (by simp)]
    cases k with
    | zero => simp
    | succ k =>
      have hno : ¬ (c = '\r' ∧ (line ++ behind).head? = some '\n') := by
        rintro ⟨rfl, hhead⟩
        exact @EndsLine.not_cutsBreak ['\r'] line behind h hwhole.2 ⟨rfl, hhead⟩
      rw [if_neg (by simpa using hno)]
      simp [ih h.tail hwhole.2]

/-- **The offset of a position on a line.** -/
theorem IsLine.offsetAt_eq (h : IsLine t number before line behind) (k : Nat) :
    offsetAt ⟨number, k⟩ t = byteLength (before ++ line.take k) := by
  have hline := h.ends.offsetAt_eq h.whole k
  rw [h.text_eq, ← h.number_eq, byteLength_append, ← hline]
  rcases List.eq_nil_or_concat' before with rfl | ⟨above, c, rfl⟩
  · simp
  · obtain rfl : c = '\n' := h.begins c (by simp)
    have hone : ('\n' : Char).utf8Size = 1 := by decide
    have habove := @offsetAt_append ⟨(above ++ ['\n']).count '\n', k⟩ above (by simp)
      ('\n' :: (line ++ behind))
    rw [List.append_assoc, List.singleton_append, habove, offsetAt_cons, if_pos rfl, if_neg (by simp)]
    simp [hone, Nat.add_assoc]

theorem IsLine.not_cutsBreak {u v : Text} (h : IsLine t number before (u ++ v) behind) :
    ¬ CutsBreak (before ++ u) (v ++ behind) := by
  rintro ⟨hlast, hhead⟩
  rcases List.eq_nil_or_concat' u with rfl | ⟨u, c, rfl⟩
  · exact absurd (h.begins '\r' (by simpa using hlast)) (by decide)
  · exact h.ends.not_cutsBreak (fun hv => h.whole (List.mem_append_right _ hv)) ⟨by simpa using hlast, hhead⟩

/-- **The position of an offset in a line.** -/
theorem IsLine.positionAt_eq {u v : Text} (h : IsLine t number before (u ++ v) behind) :
    positionAt (byteLength (before ++ u)) t = ⟨number, u.length⟩ := by
  have hu : '\n' ∉ u := fun hu => h.whole (List.mem_append_left _ hu)
  have hat := @positionAt_append (before ++ u) (v ++ behind) 0 fun hcuts => absurd hcuts h.not_cutsBreak
  rw [positionAt_of_lt fun c _ => c.utf8Size_pos, Position.behind_append,
    Position.behind_of_no_break hu, Position.behind_of_begins h.begins, Nat.add_zero] at hat
  rw [h.text_eq, ← h.number_eq]
  simpa using hat

/-- A position leads to an offset between characters that splits no line break. -/
theorem offsetAt_sound (t : Text) (p : Position) : offsetAt p t ≤ byteLength t ∧
    isBoundary (offsetAt p t) t = true ∧ ¬ SplitsBreak t (offsetAt p t) := by
  obtain ⟨x, y, rfl, hx, hno⟩ : ∃ x y, t = x ++ y ∧ offsetAt p t = byteLength x ∧ ¬ CutsBreak x y := by
    by_cases hp : p.line < t.lineCount
    · obtain ⟨before, line, behind, h⟩ := exists_isLine_iff.mpr hp
      have hsplit : IsLine t p.line before (line.take p.character ++ line.drop p.character) behind := by
        rwa [List.take_append_drop]
      refine ⟨_, _, ?_, h.offsetAt_eq p.character, hsplit.not_cutsBreak⟩
      rw [hsplit.text_eq]
      simp only [List.append_assoc]
    · exact ⟨t, [], by simp, offsetAt_of_le (Nat.le_of_not_lt hp), fun hcuts => by cases hcuts.2⟩
  rw [hx, byteLength_append, splitsBreak_append]
  exact ⟨Nat.le_add_right .., isBoundary_byteLength_append x y, hno⟩

/-! ### Round trips -/

/-- The boundary at an offset, or else the last one before it. -/
def floor (t : Text) : Nat → Nat
  | 0 => 0
  | o + 1 => if t.isBoundary (o + 1) then o + 1 else floor t o

theorem isGreatest_floor (t : Text) (o : Nat) :
    IsGreatest {n | t.isBoundary n = true ∧ n ≤ o} (floor t o) := by
  induction o with
  | zero => exact ⟨⟨isBoundary_zero t, Nat.le_refl 0⟩, fun n hn => hn.2⟩
  | succ o ih =>
    rw [floor]
    split
    · rename_i hboundary
      exact ⟨⟨hboundary, Nat.le_refl _⟩, fun n hn => hn.2⟩
    · rename_i hboundary
      refine ⟨⟨ih.1.1, Nat.le_succ_of_le ih.1.2⟩, fun n hn => ih.2 ⟨hn.1, ?_⟩⟩
      have hne : n ≠ o + 1 := fun heq => hboundary (heq ▸ hn.1)
      have := hn.2
      omega

/-- All boundaries are within the text. -/
theorem boundaries_min (t : Text) (o : Nat) :
    {n | t.isBoundary n = true ∧ n ≤ min o t.byteLength} = {n | t.isBoundary n = true ∧ n ≤ o} := by
  ext n
  refine and_congr_right fun hn => ?_
  obtain ⟨a, b, rfl, rfl⟩ := isBoundary_iff.mp hn
  rw [byteLength_append]
  omega

theorem offsetAt_positionAt {x y : Text} (h : ¬ CutsBreak x y) :
    offsetAt (positionAt (byteLength x) (x ++ y)) (x ++ y) = byteLength x := by
  obtain ⟨number, before, u, v, behind, rfl, rfl, hline⟩ := exists_isLine h
  rw [hline.positionAt_eq, hline.offsetAt_eq, List.take_left]

/-- From inside of a line break the position leads to the end of the line. -/
theorem offsetAt_positionAt_of_cutsBreak {x y : Text} (h : CutsBreak x y) :
    offsetAt (positionAt (byteLength x) (x ++ y)) (x ++ y) = byteLength x - 1 := by
  obtain ⟨x, rfl⟩ := List.getLast?_eq_some_iff.mp h.1
  have hreturn : ('\r' : Char).utf8Size = 1 := by decide
  have hno : ¬ CutsBreak x ('\r' :: y) := fun hcuts => absurd hcuts.2 (by simp)
  rw [positionAt_of_cutsBreak h, List.append_assoc, List.singleton_append, offsetAt_positionAt hno]
  simp [hreturn]

theorem IsLine.positionAt_offsetAt (h : IsLine t number before line behind) (k : Nat) :
    positionAt (offsetAt ⟨number, k⟩ t) t = ⟨number, min k line.length⟩ := by
  have hsplit : IsLine t number before (line.take k ++ line.drop k) behind := by
    rwa [List.take_append_drop]
  rw [h.offsetAt_eq, hsplit.positionAt_eq, List.length_take]

theorem IsLine.positionAt_offsetAt_of_le (h : IsLine t number before line behind)
    (hlast : number + 1 = t.lineCount) {p : Position} (hp : t.lineCount ≤ p.line) :
    positionAt (offsetAt p t) t = ⟨number, line.length⟩ := by
  obtain rfl := h.behind_eq_nil hlast
  have hwhole : IsLine t number before (line ++ []) [] := by rwa [List.append_nil]
  have hend := hwhole.positionAt_eq
  rw [offsetAt_of_le hp]
  rwa [← List.append_nil (before ++ line), List.append_assoc, ← h.text_eq] at hend

/-- **Offsets and positions round-trip**, up to the rounding of those that have none of their own: an
offset comes back as the last boundary before it, or as the one before the line break that it splits, and
a position as the last one on its line, or in the text, that is not behind it. -/
theorem positions_round_trip (t : Text) :
    (∀ o, ∃ b, IsGreatest {n | t.isBoundary n = true ∧ n ≤ min o t.byteLength} b ∧
      (SplitsBreak t b → t.offsetAt (t.positionAt o) = b - 1) ∧
      (¬ SplitsBreak t b → t.offsetAt (t.positionAt o) = b)) ∧
    (∀ o, t.isBoundary o = true → ¬ SplitsBreak t o → t.offsetAt (t.positionAt o) = o) ∧
    (∀ number, number < t.lineCount ↔ ∃ before line behind, IsLine t number before line behind) ∧
    ∀ number before line behind, IsLine t number before line behind →
      (∀ k, t.positionAt (t.offsetAt ⟨number, k⟩) = ⟨number, min k line.length⟩) ∧
      (number + 1 = t.lineCount → ∀ p : Position, t.lineCount ≤ p.line →
        t.positionAt (t.offsetAt p) = ⟨number, line.length⟩) := by
  refine ⟨fun o => ?_, fun o hboundary hno => ?_, fun _ => exists_isLine_iff.symm,
    fun _ _ _ _ hline => ⟨hline.positionAt_offsetAt, fun hlast _ => hline.positionAt_offsetAt_of_le hlast⟩⟩
  · have hfloor := isGreatest_floor t o
    refine ⟨floor t o, by rwa [boundaries_min], ?_⟩
    rw [positionAt_of_floor hfloor]
    obtain ⟨x, y, ht, hlen⟩ := isBoundary_iff.mp hfloor.1.1
    rw [hlen, ht, splitsBreak_append]
    exact ⟨offsetAt_positionAt_of_cutsBreak, offsetAt_positionAt⟩
  · obtain ⟨x, y, rfl, rfl⟩ := isBoundary_iff.mp hboundary
    exact offsetAt_positionAt (mt splitsBreak_append.mpr hno)

end Text
end VendorSync
