import VendorSync.Proofs.Lexemes

/-! White space and comments.

A text of blanks and closed comments is read by itself wherever it stands before something that
is not blank (`lex_skipped_append`), and two such texts in a row make up another. So when a value
gives way to another, what stood around it is read as white space and comments again
(`exists_regaps`). -/
namespace VendorSync.Css.Token

/-- White space or a comment. -/
def Gap (token : Token) : Prop := token.kind = .whitespace ∨ token.kind = .comment

/-- Blanks and comments that are closed. -/
inductive Skipped : Text → Prop
  | nil : Skipped []
  | blank {c t} : isSpace c = true → Skipped t → Skipped (c :: t)
  | comment {body t} : (∀ rest, commentLength (body ++ rest) = body.length) → Skipped t →
      Skipped ('/' :: '*' :: (body ++ t))

theorem Skipped.append {a b : Text} (ha : Skipped a) (hb : Skipped b) : Skipped (a ++ b) := by
  induction ha with
  | nil => exact hb
  | blank hc _ ih => exact .blank hc ih
  | comment hbody _ ih =>
    rw [List.cons_append, List.cons_append, List.append_assoc]
    exact .comment hbody ih

theorem Skipped.blanks {run t : Text} (hrun : ∀ c ∈ run, isSpace c = true) (ht : Skipped t) :
    Skipped (run ++ t) := by
  induction run with
  | nil => exact ht
  | cons c run ih =>
    obtain ⟨hc, hrun⟩ := List.forall_mem_cons.mp hrun
    exact .blank hc (ih hrun)

theorem Skipped.dropWhile {t : Text} (h : Skipped t) : Skipped (t.dropWhile isSpace) := by
  induction h with
  | nil => exact .nil
  | blank hc _ ih => rwa [List.dropWhile_cons_of_pos hc]
  | comment hbody ht =>
    rw [List.dropWhile_cons_of_neg (by decide)]
    exact .comment hbody ht

/-- A comment with something behind it is the same whatever this is. -/
theorem commentLength_closed {t : Text} (h : t.drop (commentLength t) ≠ []) (rest : Text) :
    commentLength (t.take (commentLength t) ++ rest) = (t.take (commentLength t)).length := by
  fun_induction commentLength t with
  | case1 => simp at h
  | case2 c cs hc =>
    simp only [Bool.and_eq_true, beq_iff_eq] at hc
    obtain ⟨rfl, hc⟩ := hc
    obtain ⟨ds, rfl⟩ := eq_cons_of_head? hc
    rfl
  | case3 c cs hc ih =>
    rw [Nat.add_comm, List.drop_succ_cons] at h
    rw [Nat.add_comm, List.take_succ_cons, List.cons_append, commentLength, List.length_cons, ih h,
      if_neg, Nat.add_comm]
    cases cs with
    | nil => simp [commentLength] at h
    | cons d ds =>
      have hpos : ∃ n, commentLength (d :: ds) = n + 1 := by
        rw [commentLength]
        split
        · exact ⟨1, rfl⟩
        · exact ⟨_, Nat.add_comm ..⟩
      obtain ⟨n, hn⟩ := hpos
      rw [hn, List.take_succ_cons]
      simpa using hc

theorem lex_blank {c : Char} (hc : isSpace c = true) (cs : Text) :
    lex (c :: cs) = ⟨.whitespace, c :: cs.takeWhile isSpace⟩ :: lex (cs.dropWhile isSpace) := by
  have hscan : scan c cs = (.whitespace, (cs.takeWhile isSpace).length) := by
    unfold scan
    rw [if_pos hc]
  rw [lex_cons, hscan, drop_length_takeWhile,
    ← List.prefix_iff_eq_take.mp (List.takeWhile_prefix isSpace)]

theorem lex_comment (cs : Text) :
    lex ('/' :: '*' :: cs) = ⟨.comment, '/' :: '*' :: cs.take (commentLength cs)⟩ ::
      lex (cs.drop (commentLength cs)) := by
  have hscan : scan '/' ('*' :: cs) = (.comment, 1 + commentLength cs) := rfl
  rw [lex_cons, hscan, Nat.add_comm, List.take_succ_cons, List.drop_succ_cons]

theorem takeWhile_append_of_head {x y : Text} (hy : ∀ c ∈ y.head?, isSpace c = false) :
    (x ++ y).takeWhile isSpace = x.takeWhile isSpace ∧
      (x ++ y).dropWhile isSpace = x.dropWhile isSpace ++ y := by
  cases y with
  | nil => simp
  | cons c y =>
    have hc := hy c rfl
    induction x with
    | nil => simp [hc]
    | cons d x ih =>
      simp only [List.cons_append, List.takeWhile_cons, List.dropWhile_cons, ih.1, ih.2, true_and]
      split <;> rfl

/-- Such a text is read by itself before something that is not blank. -/
theorem lex_skipped_append {x : Text} (hx : Skipped x) {y : Text}
    (hy : ∀ c ∈ y.head?, isSpace c = false) : lex (x ++ y) = lex x ++ lex y := by
  induction hn : x.length using Nat.strongRecOn generalizing x with
  | _ n ih =>
    cases hx with
    | nil => rfl
    | @blank c t hc ht =>
      obtain ⟨htake, hdrop⟩ := takeWhile_append_of_head (x := t) hy
      have hlen : (t.dropWhile isSpace).length < n := by
        have := (List.dropWhile_suffix isSpace (l := t)).length_le
        rw [List.length_cons] at hn
        omega
      rw [List.cons_append, lex_blank hc, lex_blank hc, htake, hdrop, ih _ hlen ht.dropWhile rfl,
        List.cons_append]
    | @comment body t hbody ht =>
      have hlen : t.length < n := by
        simp only [List.length_cons, List.length_append] at hn
        omega
      simp only [List.cons_append, List.append_assoc, lex_comment, hbody, List.take_left,
        List.drop_left, ih _ hlen ht rfl]

/-- All tokens of a text are white space and comments. -/
def AllGaps (t : Text) : Prop := ∀ token ∈ lex t, token.Gap

theorem AllGaps.dropWhile {t : Text} (h : AllGaps t) : AllGaps (t.dropWhile isSpace) := by
  cases t with
  | nil => exact h
  | cons c t =>
    by_cases hc : isSpace c = true
    · rw [List.dropWhile_cons_of_pos hc]
      rw [AllGaps, lex_blank hc, List.forall_mem_cons] at h
      exact h.2
    · rwa [List.dropWhile_cons_of_neg hc]

theorem Skipped.allGaps_append {x : Text} (hx : Skipped x) {y : Text} (hy : AllGaps y) :
    AllGaps (x ++ y) := by
  induction hn : x.length using Nat.strongRecOn generalizing x y with
  | _ n ih =>
    cases hx with
    | nil => exact hy
    | @blank c t hc ht =>
      rw [List.length_cons] at hn
      rw [AllGaps, List.cons_append, lex_blank hc, List.forall_mem_cons]
      exact ⟨.inl rfl, (ih _ (by omega) ht hy rfl).dropWhile⟩
    | @comment body t hbody ht =>
      simp only [List.length_cons, List.length_append] at hn
      rw [AllGaps, List.cons_append, List.cons_append, List.append_assoc, lex_comment, hbody,
        List.take_left, List.drop_left, List.forall_mem_cons]
      exact ⟨.inr rfl, ih _ (by omega) ht hy rfl⟩

/-- A comment with something behind it is closed. -/
theorem exists_of_comment {t : Text} {token : Token} {after : List Token}
    (h : lex t = token :: after) (hk : token.kind = .comment) (hafter : source after ≠ []) :
    ∃ body, token.lexeme = '/' :: '*' :: body ∧
      ∀ rest, commentLength (body ++ rest) = body.length := by
  obtain ⟨c, cs, n, rfl, hs, hlexeme, hsource⟩ := lex_eq_cons h
  rw [hk] at hs
  generalize hkind : Kind.comment = kind at hs
  cases hs with
  | @comment ds hc hcs =>
    subst hc hcs
    rw [Nat.add_comm, List.drop_succ_cons] at hsource
    rw [Nat.add_comm, List.take_succ_cons] at hlexeme
    exact ⟨_, hlexeme, commentLength_closed (hsource ▸ hafter)⟩
  | name =>
    have := scanName_kind (c :: cs)
    simp [← hkind] at this
  | single => exact absurd hkind.symm (single_ne c).2.2.1
  | _ => cases hkind

/-- Gaps with something behind them are closed. -/
theorem skipped_of_lex {gaps : List Token} (hgaps : ∀ token ∈ gaps, token.Gap) {rest : Text}
    (hrest : rest ≠ []) (h : lex (source gaps ++ rest) = gaps ++ lex rest) :
    Skipped (source gaps) := by
  induction gaps with
  | nil => exact .nil
  | cons token gaps ih =>
    obtain ⟨htoken, hgaps⟩ := List.forall_mem_cons.mp hgaps
    rw [List.cons_append] at h
    have hsource : source (gaps ++ lex rest) = source gaps ++ rest := by
      rw [source_append, source_lex]
    have hbehind : lex (source gaps ++ rest) = gaps ++ lex rest :=
      hsource ▸ lex_source_of_append (a := [token]) h
    have hskipped := ih hgaps hbehind
    rw [source_cons]
    rcases htoken with hk | hk
    · exact .blanks (whitespace_maximal h hk).1 hskipped
    · obtain ⟨body, hlexeme, hbody⟩ := exists_of_comment h hk (by
        rw [hsource]
        exact List.append_ne_nil_of_right_ne_nil _ hrest)
      rw [hlexeme, List.cons_append, List.cons_append]
      exact .comment hbody hskipped

/-- White space and comments before something that is not blank are read by themselves. -/
theorem lex_of_skipped {gaps : List Token} {rest : Text} (hgaps : Skipped (source gaps))
    (hrest : ∀ c ∈ rest.head?, isSpace c = false)
    (h : lex (source gaps ++ rest) = gaps ++ lex rest) : lex (source gaps) = gaps := by
  rw [lex_skipped_append hgaps hrest] at h
  exact List.append_cancel_right h

/-- The white space and comments that are read around a new value, in place of those around an
old one: they stay as they are unless the value is empty, and then all of them stand behind it. -/
structure Regaps (gap new tail gap' tail' : List Token) : Prop where
  gaps : ∀ token ∈ gap' ++ tail', token.Gap
  source_eq :
    source gap' ++ (source new ++ source tail') = source gap ++ (source new ++ source tail)
  close : new = [] → gap' = []
  keep : new ≠ [] → gap' = gap
  lex_eq : ∀ rest : Text, (∀ c ∈ rest.head?, isSpace c = false) →
    lex (source new ++ (source tail ++ rest)) = new ++ (tail ++ lex rest) →
    lex (source gap ++ (source new ++ (source tail ++ rest))) = gap' ++ (new ++ (tail' ++ lex rest))

/-- What stood around a value is read as white space and comments again around another. -/
theorem exists_regaps {gap tail new : List Token} {rest₀ : Text} (hgap : Skipped (source gap))
    (hself : lex (source gap) = gap) (htail : ∀ token ∈ tail, token.Gap)
    (hrest₀ : lex (source tail ++ rest₀) = tail ++ lex rest₀)
    (hnew : new = [] ∨ ∃ c cs, source new = c :: cs ∧ isSpace c = false) :
    ∃ gap' tail', Regaps gap new tail gap' tail' := by
  rcases hnew with rfl | ⟨c, cs, hsource, hc⟩
  · have hall : AllGaps (source tail) := by
      by_cases hrest : rest₀ = []
      · subst hrest
        rw [List.append_nil, lex_nil, List.append_nil] at hrest₀
        rw [AllGaps, hrest₀]
        exact htail
      · have := (skipped_of_lex htail hrest hrest₀).allGaps_append (y := []) (by simp [AllGaps])
        rwa [List.append_nil] at this
    refine ⟨[], lex (source gap ++ source tail), hgap.allGaps_append hall, ?_, fun _ => rfl,
      fun h => absurd rfl h, fun rest hrest h => ?_⟩
    · simp [source_lex]
    · simp only [source_nil, List.nil_append] at h ⊢
      by_cases hr : rest = []
      · simp [hr]
      · rw [← List.append_assoc]
        exact lex_skipped_append (hgap.append (skipped_of_lex htail hr h)) hrest
  · have hne : new ≠ [] := by
      intro heq
      subst heq
      cases hsource
    refine ⟨gap, tail, ?_, rfl, fun h => absurd h hne, fun _ => rfl, fun rest _ h => ?_⟩
    · have := hgap.allGaps_append (y := []) (by simp [AllGaps])
      rw [List.append_nil, AllGaps, hself] at this
      exact List.forall_mem_append.mpr ⟨this, htail⟩
    · rw [lex_skipped_append hgap, h, hself]
      rw [hsource]
      simpa using hc

end VendorSync.Css.Token
