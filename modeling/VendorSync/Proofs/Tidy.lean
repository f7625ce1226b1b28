import VendorSync.Proofs.Transfer

/-! Texts in which edits change values and nothing else.

A value without escapes and slashes, whose strings and brackets are closed, is read as the same
tokens wherever a value may stand. In a text that is `Tidy` all values are such, so that whatever
the edits of a declaration write, the text after them reads as the same sheet but for the values
that they replace (`becomes_of_tidy`). -/
namespace VendorSync.Css
open LineComment Token

/-- A text without escapes and slashes whose strings, addresses and brackets are all closed. -/
structure Tidy (t : Text) : Prop where
  backslash : '\\' ∉ t
  slash : '/' ∉ t
  closed : (Units.ofTokens (lex t)).isClosed = true

/-! ### Values that are closed -/

variable {cs y : List Cell} {value : List Segment}

/-- A closed value does not end with white space. -/
theorem Portable.kind_getLast? (h : Portable cs value) (hclosed : value.all Segment.isClosed = true) :
    ∀ token ∈ (value.flatMap Segment.toTokens).getLast?, token.kind ≠ .whitespace := by
  rcases List.eq_nil_or_concat' value with rfl | ⟨init, s, rfl⟩
  · simp
  intro token htoken
  rw [List.flatMap_append, List.flatMap_singleton] at htoken
  cases s with
  | leaf last =>
    obtain rfl : last = token := by simpa [Segment.toTokens] using htoken
    obtain ⟨isColon, hrole⟩ := h.tight.last (.leaf last) (by simp)
    intro hkind
    rw [Segment.role, hkind] at hrole
    cases hrole
  | group opener inside closer =>
    have hnested := h.nested
    rw [Units.prepend_append] at hnested
    obtain ⟨m, hgroup, -⟩ := hnested.behind
    cases hgroup with
    | group _ _ _ hends _ =>
      cases closer with
      | none => simp [Segment.isClosed] at hclosed
      | some last =>
        have htokens : (Segment.group opener inside (some last)).toTokens =
            opener :: inside.toTokens ++ [last] := rfl
        rw [htokens, ← List.append_assoc, List.getLast?_concat, Option.mem_some_iff] at htoken
        subst htoken
        simp [Units.kind_of_closes hends.1]

theorem Stands.sealed (h : Stands cs y (value.flatMap Segment.toTokens)) (hvalue : Portable cs value)
    (hclosed : value.all Segment.isClosed = true) : Sealed (value.flatMap Segment.toTokens) := by
  have hproper := h.proper
  have htokens : (Units.prepend value .nil).toTokens = value.flatMap Segment.toTokens := by
    rw [Units.toTokens_prepend, Units.toTokens, List.append_nil]
  rw [← htokens] at hproper ⊢
  refine sealed_toTokens hvalue.nested ?_ hproper
  rw [Units.isClosed_prepend, hclosed]
  rfl

/-! ### Values in a tidy text -/

namespace Tidy
variable {t : Text} {d : Declaration} {whole : Units}

theorem cells_eq (h : Tidy t) : cells t = reveal t := cells_of_no_slash h.slash

theorem isClosed (h : Tidy t) : (Units.ofTokens (lex (masked t))).isClosed = true := by
  rw [masked_of_no_slash h.slash]
  exact h.closed

/-- A value is the same tokens before everything that may stand behind a value. -/
theorem lex_value (h : Tidy t) (v : ValueCells (cells t) (Units.ofTokens (lex (masked t))) d) {e : Text}
    (he : Ended e) : lex (source (v.value.flatMap Segment.toTokens) ++ e) =
      v.value.flatMap Segment.toTokens ++ lex e := by
  have hclosed := v.closed h.isClosed
  have hmem : ∀ c ∈ source (v.value.flatMap Segment.toTokens), c ∈ t := by
    intro c hc
    rw [← v.stands.covers.blanked_eq] at hc
    rw [← masked_of_no_slash h.slash, masked_eq_blanked, v.eq, blanked_append, blanked_append]
    exact List.mem_append_right _ (List.mem_append_left _ hc)
  refine lex_sealed (v.stands.sealed v.portable hclosed) (v.portable.kind_getLast? hclosed)
    (fun hc => h.backslash (hmem _ hc)) (fun hc => h.slash (hmem _ hc)) v.ended he ?_
  rw [← v.stands.covers.blanked_eq, ← blanked_append]
  exact v.stands.lex

/-- A text in which values give way to one of them has no comments either. -/
theorem cells_swapped (h : Tidy t) {vc cs' : List Cell} {new tokens tokens' : List Token}
    {spans : List Span} (hvc : ∀ cell ∈ vc, cell ∈ cells t)
    (hswapped : Swapped vc new 0 (cells t) tokens spans cs' tokens') : cells (chars cs') = cs' := by
  have hmem : ∀ cell ∈ cs', cell ∈ reveal t := by
    intro cell hcell
    rw [← h.cells_eq]
    exact (hswapped.mem_cells cell hcell).elim id (hvc cell)
  have hslash : '/' ∉ chars cs' := by
    intro hslash
    obtain ⟨cell, hcell, hchar⟩ := List.mem_map.mp hslash
    obtain ⟨c, hc, rfl⟩ := List.mem_map.mp (hmem cell hcell)
    exact h.slash (hchar ▸ hc)
  rw [cells_of_no_slash hslash]
  refine reveal_chars fun cell hcell => ?_
  obtain ⟨c, -, rfl⟩ := List.mem_map.mp (hmem cell hcell)
  rfl

end Tidy

namespace Sheet
variable {t : Text}

/-- What the edits write is read in each of their places as where it stands. -/
theorem lex_value_of_edit (h : Tidy t) {d : Declaration}
    (v : ValueCells (cells t) (Units.ofTokens (lex (masked t))) d) {block : Nat} {name value : Text}
    {e : Edit} (he : e ∈ (ofText t).syncEdits block name value) {a r : Text} (har : masked t = a ++ r)
    (hstop : a.byteLength = e.span.stop) :
    lex (source (v.value.flatMap Segment.toTokens) ++ r) =
      v.value.flatMap Segment.toTokens ++ lex r := by
  obtain ⟨-, m, node, d', hnode, hd', hspan⟩ := exists_of_mem he
  obtain ⟨v'⟩ := (hasValue_ofText t).of_mem_nodes (mem_nodes_of_declaration hnode hd') d' hd'
  obtain ⟨-, rfl⟩ := Text.append_inj_of_byteLength (har.symm.trans v'.placed.texts.2)
    (by rw [hstop, hspan, v'.placed.stop, byteLength_blanked])
  exact h.lex_value v v'.ended

/-- **Edits change the values that they replace, and nothing else**: every other value is the same,
and so is every node's kind, text and parent. -/
theorem becomes_of_tidy (h : Tidy t) {n : Nat} {node : Node} {d : Declaration}
    (hnode : (ofText t).node? n = some node) (hd : node.kind = .declaration d) :
    ∃ edits t', (ofText t).syncEditsFrom n = some edits ∧ t.applyEdits edits = .ok t' ∧
      (ofText t).Becomes (fun s => ∃ e ∈ edits, e.span = s) d.value (ofText t') := by
  obtain ⟨block, -, hfrom⟩ := syncEditsFrom_of_node? hnode hd
  obtain ⟨v⟩ := (hasValue_ofText t).of_mem_nodes (mem_nodes_of_declaration hnode hd) d hd
  obtain ⟨spans, hspliced⟩ := exists_spliced_of_cells t
    (fun s => ∃ e ∈ (ofText t).syncEdits block d.name d.value, e.span = s) v.portable
    (isOpen_of_isClosed (v.closed h.isClosed))
    (fun _ _ _ _ hswapped => h.cells_swapped (fun cell hcell => by rw [v.eq]; simp [hcell]) hswapped)
    fun s ⟨e, he, hs⟩ a r har hstop => lex_value_of_edit h v he har (hs ▸ hstop)
  rw [chars_eq_value hnode hd v.placed] at hspliced
  obtain ⟨t', happly, hbecomes⟩ := exists_applied hspliced
  exact ⟨_, t', hfrom, happly, hbecomes⟩

/-- A value with a parenthesis and a semicolon in strings is written where there is none, and over
an address. -/
theorem becomes_of_quoted_marks :
    ∃ edits, edits.map Edit.span = [⟨9, 9⟩, ⟨16, 22⟩] ∧
      (ofText "a\x7b-moz-x: ;-o-x:url(d);x:f(\")\") \"c;\"\x7d".toList).syncEditsFrom 4 = some edits ∧
      (ofText "a\x7b-moz-x: ;-o-x:url(d);x:f(\")\") \"c;\"\x7d".toList).Becomes
        (fun s => ∃ e ∈ edits, e.span = s) "f(\")\") \"c;\"".toList
        (ofText "a\x7b-moz-x:f(\")\") \"c;\" ;-o-x:f(\")\") \"c;\";x:f(\")\") \"c;\"\x7d".toList) := by
  obtain ⟨edits, t', hedits, happly, hbecomes⟩ :=
    @becomes_of_tidy "a\x7b-moz-x: ;-o-x:url(d);x:f(\")\") \"c;\"\x7d".toList
      ⟨by decide +kernel, by decide +kernel, by decide +kernel⟩ 4
      ⟨⟨.declaration ⟨['x'], ⟨23, 24⟩, "f(\")\") \"c;\"".toList, ⟨25, 36⟩⟩, ⟨23, 36⟩⟩, some 1⟩ _
      (by decide +kernel) rfl
  obtain rfl : edits = [⟨⟨9, 9⟩, "f(\")\") \"c;\"".toList⟩, ⟨⟨16, 22⟩, "f(\")\") \"c;\"".toList⟩] :=
    Option.some.inj (hedits.symm.trans (by decide +kernel))
  have htext := happly.symm.trans (by decide +kernel : _ = Except.ok
    "a\x7b-moz-x:f(\")\") \"c;\" ;-o-x:f(\")\") \"c;\";x:f(\")\") \"c;\"\x7d".toList)
  rw [Except.ok.injEq] at htext
  subst htext
  exact ⟨_, rfl, hedits, hbecomes⟩

end Sheet
end VendorSync.Css
