import VendorSync.Proofs.Counterparts
import VendorSync.Proofs.Ordering
import VendorSync.Proofs.Rescanning

/-! What a second run finds.

The value of a declaration is written in the place of its siblings' values, and the text is read
again. `Transfers` says that the value is read there as it was read where it comes from. If it is,
then nothing else changes, and a second run has nothing to do (`second_run`). -/
namespace VendorSync

namespace Edit

/-! ### Edits in order -/

/-- A batch that writes one text at different spans is, in order, that of the spans in order. -/
theorem inOrder_eq {edits : List Edit} {spans : List Span} {text : Text}
    (htext : ∀ e ∈ edits, e.replacement = text) (hnodup : edits.Nodup)
    (hspans : ∀ s, s ∈ spans ↔ ∃ e ∈ edits, e.span = s)
    (hordered : spans.Pairwise fun a b => a.start < b.start) :
    inOrder edits = spans.map (⟨·, text⟩) := by
  have hperm : (inOrder edits).Perm (spans.map (⟨·, text⟩)) := by
    refine (inOrder_perm edits).trans ((List.perm_ext_iff_of_nodup hnodup ?_).mpr fun e => ?_)
    · refine List.Pairwise.map _ (fun a b hab heq => ?_) hordered
      rw [Edit.mk.injEq] at heq
      rw [heq.1] at hab
      exact Nat.lt_irrefl _ hab
    · rw [List.mem_map]
      constructor
      · intro he
        exact ⟨e.span, (hspans _).mpr ⟨e, he, rfl⟩, by rw [← htext e he]⟩
      · intro h
        rcases h with ⟨s, hs, rfl⟩
        obtain ⟨e, he, rfl⟩ := (hspans s).mp hs
        rw [← htext e he]
        exact he
  refine hperm.eq_of_pairwise (fun a b ha hb hab hba => ?_) (pairwise_inOrder edits) ?_
  · obtain ⟨s, -, rfl⟩ := List.mem_map.mp hb
    obtain ⟨s', -, rfl⟩ := List.mem_map.mp (hperm.mem_iff.mp ha)
    exact congrArg (Edit.mk · text) (span_eq_of_le hab hba)
  · refine List.Pairwise.map _ (fun a b hab => ?_) hordered
    simp [le, hab]

end Edit

namespace Css
open LineComment Token

/-! ### Reading a text with other values -/

/-- What a sheet is read from. -/
theorem stands_ofText (t : Text) : Stands (cells t) [] (Units.ofTokens (lex (masked t))).toTokens where
  covers := by
    rw [Units.toTokens_ofTokens]
    exact covers_lex t
  lex := by
    rw [Units.toTokens_ofTokens, List.append_nil, masked_eq_blanked, blanked_nil, lex_nil,
      List.append_nil]

theorem reads_cells (t : Text) : Reads (.ofCells (cells t)) 0 (Units.ofTokens (lex (masked t)))
    (Sheet.ofText t).forest := by
  rw [← Source.ofText_eq]
  exact reads_ofUnits (.ofText t) 0 _

/-- The values of a sheet, with their cells. -/
theorem hasValue_ofText (t : Text) :
    (Sheet.ofText t).forest.All (HasValue (cells t) (Units.ofTokens (lex (masked t)))) :=
  (reads_cells t).hasValue (x := []) (y := []) (by simp) rfl (stands_ofText t)
    (Units.nested_ofTokens _) (by simp [Token.Ended]) id

/-- A text in which the values at these spans, in order, are replaced reads as the same sheet but
for these values, which are all those whose spans are asked for. The nodes move with the text. -/
structure Spliced (t : Text) (P : Span → Prop) (value : Text) (spans : List Span) : Prop where
  listed : ∀ s ∈ spans, P s
  spaced : Edit.Spaced (spans.map (⟨·, value⟩))
  complete : (Sheet.ofText t).forest.All fun item =>
    ∀ d, item.kind = .declaration d → P d.valueSpan → d.valueSpan ∈ spans
  moves : (Sheet.ofText t).forest.Moves P value (Edit.moved (spans.map (⟨·, value⟩))) 0 t.byteLength
    (Sheet.ofText (Edit.splice 0 t (spans.map (⟨·, value⟩)))).forest

theorem Spliced.ordered {t : Text} {P : Span → Prop} {value : Text} {spans : List Span}
    (h : Spliced t P value spans) : spans.Pairwise fun a b => a.start < b.start := by
  refine (List.pairwise_map.mp h.spaced.pairwise).imp_of_mem fun {a b} ha _ hab => ?_
  exact Nat.lt_of_le_of_lt (h.spaced.le _ (List.mem_map_of_mem ha)) hab

/-- **A text with some values replaced reads as the same sheet** but for these values, if the scan
for comments hides the same, and the tokens are the same in each of the places. -/
theorem exists_spliced_of_cells (t : Text) (P : Span → Prop) {vc : List Cell} {value : List Segment}
    (hvalue : Portable vc value) (hopen : value.any Segment.isOpen = false)
    (hcells : ∀ spans cs' tokens', (∀ s ∈ spans, P s) →
      Swapped vc (value.flatMap Segment.toTokens) 0 (cells t) (lex (masked t)) spans cs' tokens' →
      cells (chars cs') = cs')
    (htokens : ∀ s, P s → ∀ a r, masked t = a ++ r → a.byteLength = s.stop →
      lex (Token.source (value.flatMap Segment.toTokens) ++ r) =
        value.flatMap Segment.toTokens ++ lex r) :
    ∃ spans, Spliced t P (chars vc) spans := by
  obtain ⟨spans, cs', u', h⟩ := (reads_cells t).revaluable (P := P) hvalue hopen (x := []) (y := [])
    (by simp) rfl (stands_ofText t) (Units.nested_ofTokens _) (by simp) (.inl (by simp)) (by simp)
  have hswapped := h.swapped
  rw [Units.toTokens_ofTokens] at hswapped
  have hsplice : Edit.splice 0 t (spans.map (⟨·, chars vc⟩)) = chars cs' := by
    have := hswapped.splice_eq
    rwa [chars_cells] at this
  have hcells := hcells spans cs' _ h.listed hswapped
  have hlex : lex (masked (chars cs')) = u'.toTokens := by
    rw [masked_eq_blanked, hcells]
    refine (hswapped.lex_eq hvalue.covers.blanked_eq rfl fun s hs a r hr hstop => ?_).1
    exact htokens s (h.listed s hs) a r hr (by simpa using hstop)
  obtain ⟨f', hreads, hmoves⟩ := h.reads [] [] (.inl (by simp)) (by simp)
  refine ⟨spans, h.listed, hswapped.spaced _, h.complete, ?_⟩
  have hforest : (Sheet.ofText (chars cs')).forest = f' := by
    rw [eq_ofUnits_of_reads hreads]
    show Forest.ofUnits (.ofText (chars cs')) 0 [] (Units.ofTokens (lex (masked (chars cs')))) = _
    rw [hlex, Units.ofTokens_toTokens h.nested, Source.ofText_eq, hcells]
    simp
  rw [hsplice, hforest]
  refine hmoves.mono (Nat.zero_le _) (by simp [chars_cells]) fun q _ _ => ?_
  simp [moveTo]

/-- The scan hides the same if it reads on behind each new value as behind the old one. -/
theorem exists_spliced_of_rescans (t : Text) (P : Span → Prop) {vc : List Cell} {value : List Segment}
    (hvalue : Portable vc value) (hopen : value.any Segment.isOpen = false)
    (hscan : ∀ s, P s → ∀ a o b, t = a ++ (o ++ b) → a.byteLength = s.start →
      (a ++ o).byteLength = s.stop → Place.Rescans vc (.code 0) a o b)
    (htokens : ∀ s, P s → ∀ a r, masked t = a ++ r → a.byteLength = s.stop →
      lex (Token.source (value.flatMap Segment.toTokens) ++ r) =
        value.flatMap Segment.toTokens ++ lex r) :
    ∃ spans, Spliced t P (chars vc) spans := by
  refine exists_spliced_of_cells t P hvalue hopen (fun spans cs' tokens' hlisted hswapped => ?_) htokens
  refine hswapped.cells_eq (p := .code 0) (by rw [chars_cells]; rfl) (fun _ _ => rfl) ?_
  intro s hs a o b hab hstart hstop
  rw [chars_cells] at hab
  exact hscan s (hlisted s hs) a o b hab (by simpa using hstart) (by simpa using hstop)

/-! ### Values that are read alike in two places -/

/-- Where the cells of a span stand among those of a text. -/
structure At (t : Text) (s : Span) (before cs behind : List Cell) : Prop where
  cells_eq : cells t = before ++ (cs ++ behind)
  start : s.start = (chars before).byteLength
  stop : s.stop = (chars (before ++ cs)).byteLength

/-- The value at the span `own` is read at the span `place` as it is where it stands. -/
def Transfers (t : Text) (own place : Span) : Prop :=
  ∃ before vc behind before' old behind', At t own before vc behind ∧ At t place before' old behind' ∧
    -- the scan hides the same of it, and goes on behind it as it did behind the old value
    Place.Rescans vc (.code 0) (chars before') (chars old) (chars behind') ∧
    -- it is the same tokens before what follows it here and there, and they close all brackets
    ∃ tokens, lex (blanked (vc ++ behind)) = tokens ++ lex (blanked behind) ∧
      lex (blanked (vc ++ behind')) = tokens ++ lex (blanked behind') ∧
      (Units.ofTokens tokens).isOpen = false

theorem ValueCells.placed {t : Text} {whole : Units} {d : Declaration}
    (v : ValueCells (LineComment.cells t) whole d) : At t d.valueSpan v.before v.cells v.behind :=
  ⟨v.eq, by rw [v.span_eq], by rw [v.span_eq]⟩

theorem append_inj_of_chars {x y a b : List Cell} (h : x ++ y = a ++ b)
    (hlen : (chars x).byteLength = (chars a).byteLength) : x = a ∧ y = b := by
  have hchars : chars x ++ chars y = chars a ++ chars b := by
    rw [← chars_append, h, chars_append]
  have := congrArg List.length (Text.append_inj_of_byteLength hchars hlen).1
  exact List.append_inj h (by simpa [chars] using this)

theorem At.unique {t : Text} {s : Span} {a cs b a' cs' b' : List Cell} (h : At t s a cs b)
    (h' : At t s a' cs' b') : a = a' ∧ cs = cs' ∧ b = b' := by
  obtain ⟨rfl, hrest⟩ := append_inj_of_chars (h.cells_eq.symm.trans h'.cells_eq)
    (h.start.symm.trans h'.start)
  have hstop := h.stop.symm.trans h'.stop
  rw [chars_append, chars_append, Text.byteLength_append, Text.byteLength_append] at hstop
  exact ⟨rfl, append_inj_of_chars hrest (by omega)⟩

/-- The text and the masked text around a span. -/
theorem At.texts {t : Text} {s : Span} {a cs b : List Cell} (h : At t s a cs b) :
    t = chars a ++ (chars cs ++ chars b) ∧ masked t = blanked (a ++ cs) ++ blanked b := by
  constructor
  · rw [← chars_append, ← chars_append, ← h.cells_eq, chars_cells]
  · rw [masked_eq_blanked, h.cells_eq, ← blanked_append, List.append_assoc]

/-- What the scan and the tokens have to do with a value that transfers. -/
theorem Transfers.spec {t : Text} {own place : Span} (h : Transfers t own place)
    {before cs behind : List Cell} (hat : At t own before cs behind) {value : List Segment}
    (hstands : Stands cs behind (value.flatMap Segment.toTokens)) (hvalue : Portable cs value) :
    value.any Segment.isOpen = false ∧
      (∀ a o b, t = a ++ (o ++ b) → a.byteLength = place.start → (a ++ o).byteLength = place.stop →
        Place.Rescans cs (.code 0) a o b) ∧
      ∀ a r, masked t = a ++ r → a.byteLength = place.stop →
        lex (Token.source (value.flatMap Segment.toTokens) ++ r) =
          value.flatMap Segment.toTokens ++ lex r := by
  obtain ⟨before₀, vc, behind₀, before', old, behind', hown, hplace, hscan, tokens, hhere, hthere, hclosed⟩ := h
  obtain ⟨rfl, rfl, rfl⟩ := hat.unique hown
  obtain rfl : tokens = value.flatMap Segment.toTokens :=
    List.append_cancel_right (hhere.symm.trans hstands.lex)
  obtain ⟨htext, hmasked⟩ := hplace.texts
  refine ⟨?_, fun a o b hab hstart hstop => ?_, fun a r har hstop => ?_⟩
  · have hunits : Units.ofTokens (value.flatMap Segment.toTokens) = Units.prepend value .nil := by
      refine Units.ofTokens_eq_iff.mpr ⟨?_, hvalue.nested⟩
      rw [Units.toTokens_prepend, Units.toTokens, List.append_nil]
    rw [hunits, Units.isOpen_prepend, Units.isOpen, Bool.or_false] at hclosed
    exact hclosed
  · obtain ⟨rfl, hrest⟩ := Text.append_inj_of_byteLength (hab.symm.trans htext)
      (hstart.trans hplace.start)
    have hlen := hstop.trans hplace.stop
    rw [chars_append, Text.byteLength_append, Text.byteLength_append] at hlen
    obtain ⟨rfl, rfl⟩ := Text.append_inj_of_byteLength hrest (by omega)
    exact hscan
  · obtain ⟨-, rfl⟩ := Text.append_inj_of_byteLength (har.symm.trans hmasked)
      (by rw [hstop, hplace.stop, byteLength_blanked])
    rw [← hvalue.covers.blanked_eq, ← blanked_append]
    exact hthere

namespace Sheet
variable {t : Text}

/-- The edits replace values at different spans. -/
theorem nodup_syncEdits (t : Text) (block : Nat) (name value : Text) :
    ((ofText t).syncEdits block name value).Nodup := by
  have hnodup : (Vendor.all.filter (· ≠ Vendor.ofName name)).Nodup :=
    List.Nodup.filter _ (by decide)
  rw [syncEdits, List.Nodup, List.pairwise_filterMap]
  refine hnodup.imp fun {v w} hvw e he f hf heq => ?_
  subst heq
  obtain ⟨m, a, d, ha, hpa, hd, hname, -, rfl⟩ := exists_of_syncEdit he
  obtain ⟨n, b, d', hb, hpb, hd', hname', -, hspan⟩ := exists_of_syncEdit hf
  rw [Edit.mk.injEq] at hspan
  have hmn : m ≠ n := by
    intro heq
    subst heq
    rw [ha, Option.some.injEq] at hb
    subst hb
    rw [hd, Kind.declaration.injEq] at hd'
    rw [← hd', hname] at hname'
    exact hvw (Vendor.mark_injective (List.append_cancel_right hname'))
  have hdisjoint := (@wellFormed_of_within (ofText t) (within_ofText t)).disjoint hmn ha hb hpa hpb
  obtain ⟨hstart, hle, hstop, -⟩ := (sound_of_node? ha hd).value d hd
  obtain ⟨hstart', hle', hstop', -⟩ := (sound_of_node? hb hd').value d' hd'
  rw [← hspan.1] at hstart' hle' hstop'
  omega

/-- The edits are those of the values at their spans, all with one text. -/
theorem exists_of_mem {block : Nat} {name value : Text} {e : Edit}
    (h : e ∈ (ofText t).syncEdits block name value) : e.replacement = value ∧
      ∃ n node d, (ofText t).node? n = some node ∧ node.kind = .declaration d ∧ e.span = d.valueSpan := by
  obtain ⟨v, -, he⟩ := exists_of_mem_syncEdits h
  obtain ⟨n, node, d, hnode, -, hd, -, -, rfl⟩ := exists_of_syncEdit he
  exact ⟨rfl, n, node, d, hnode, hd, rfl⟩

theorem mem_nodes_of_declaration {n : Nat} {node : Node} {d : Declaration}
    (hnode : (ofText t).node? n = some node) (hd : node.kind = .declaration d) :
    node ∈ (ofText t).forest.nodes 0 1 := by
  obtain ⟨m, rfl⟩ := Nat.exists_eq_succ_of_ne_zero (ne_zero_of_declaration hnode hd)
  rw [Nat.succ_eq_add_one, node?_succ] at hnode
  exact List.mem_of_getElem? hnode

/-- The text after the edits is that with the values replaced. -/
theorem exists_moved {block : Nat} {name value : Text} {spans : List Span}
    (h : Spliced t (fun s => ∃ e ∈ (ofText t).syncEdits block name value, e.span = s) value spans) :
    ∃ t', t.applyEdits ((ofText t).syncEdits block name value) = .ok t' ∧
      Edit.Spaced (Edit.inOrder ((ofText t).syncEdits block name value)) ∧
      (ofText t).forest.Moves (fun s => ∃ e ∈ (ofText t).syncEdits block name value, e.span = s) value
        (Edit.moved (Edit.inOrder ((ofText t).syncEdits block name value))) 0 t.byteLength
        (ofText t').forest := by
  have hedits := Edit.applyEdits_of_applicable (applicable_syncEdits t block name value)
  have hspans : ∀ s, s ∈ spans ↔ ∃ e ∈ (ofText t).syncEdits block name value, e.span = s := by
    refine fun s => ⟨h.listed s, fun hs => ?_⟩
    obtain ⟨e, he, rfl⟩ := hs
    obtain ⟨-, m, a, d, ha, hd, hspan⟩ := exists_of_mem he
    rw [hspan]
    exact h.complete.of_mem_nodes (mem_nodes_of_declaration ha hd) d hd ⟨e, he, hspan⟩
  have horder := Edit.inOrder_eq (fun e he => (exists_of_mem he).1) (nodup_syncEdits t block name value)
    hspans h.ordered
  rw [horder] at hedits ⊢
  exact ⟨_, hedits, h.spaced, h.moves⟩

theorem exists_applied {block : Nat} {name value : Text} {spans : List Span}
    (h : Spliced t (fun s => ∃ e ∈ (ofText t).syncEdits block name value, e.span = s) value spans) :
    ∃ t', t.applyEdits ((ofText t).syncEdits block name value) = .ok t' ∧
      (ofText t).Becomes (fun s => ∃ e ∈ (ofText t).syncEdits block name value, e.span = s) value
        (ofText t') := by
  obtain ⟨t', happly, -, hmoves⟩ := exists_moved h
  exact ⟨t', happly, becomes_of_forest (hmoves.imp fun _ _ hitem => hitem.becomes)⟩

/-- The characters of a value's cells. -/
theorem chars_eq_value {n : Nat} {node : Node} {d : Declaration} {before vc behind : List Cell}
    (hnode : (ofText t).node? n = some node) (hd : node.kind = .declaration d)
    (hat : At t d.valueSpan before vc behind) : chars vc = d.value := by
  obtain ⟨-, -, -, -, -, hslice⟩ := (sound_of_node? hnode hd).value d hd
  rw [← hslice, hat.texts.1]
  exact (Text.slice_eq hat.start (by rw [hat.stop, chars_append])).symm

/-- The values that the edits replace can be replaced, if the value transfers to each of them. -/
theorem exists_spliced_of_transfers {n : Nat} {node : Node} {d : Declaration} {block : Nat}
    (hnode : (ofText t).node? n = some node) (hd : node.kind = .declaration d)
    (hne : (ofText t).syncEdits block d.name d.value ≠ [])
    (h : ∀ e ∈ (ofText t).syncEdits block d.name d.value, Transfers t d.valueSpan e.span) :
    ∃ spans, Spliced t (fun s => ∃ e ∈ (ofText t).syncEdits block d.name d.value, e.span = s) d.value
      spans := by
  obtain ⟨v⟩ := (hasValue_ofText t).of_mem_nodes (mem_nodes_of_declaration hnode hd) d hd
  have hspec := fun e he => (h e he).spec v.placed v.stands v.portable
  obtain ⟨e₀, he₀⟩ := List.exists_mem_of_ne_nil _ hne
  have hspliced := exists_spliced_of_rescans t
    (fun s => ∃ e ∈ (ofText t).syncEdits block d.name d.value, e.span = s) v.portable (hspec e₀ he₀).1
    (fun s ⟨e, he, hs⟩ => hs ▸ (hspec e he).2.1) (fun s ⟨e, he, hs⟩ => hs ▸ (hspec e he).2.2)
  rwa [chars_eq_value hnode hd v.placed] at hspliced

/-- The text after the edits reads as the sheet with the new values. -/
theorem becomes_of_transfers {n : Nat} {node : Node} {d : Declaration} {block : Nat}
    (hnode : (ofText t).node? n = some node) (hd : node.kind = .declaration d)
    (hne : (ofText t).syncEdits block d.name d.value ≠ [])
    (h : ∀ e ∈ (ofText t).syncEdits block d.name d.value, Transfers t d.valueSpan e.span) :
    ∃ t', t.applyEdits ((ofText t).syncEdits block d.name d.value) = .ok t' ∧
      (ofText t).Becomes (fun s => ∃ e ∈ (ofText t).syncEdits block d.name d.value, e.span = s) d.value
        (ofText t') := by
  obtain ⟨spans, hspliced⟩ := exists_spliced_of_transfers hnode hd hne h
  exact exists_applied hspliced

/-- **A second run on the edited text has nothing to do**, if the value is read in each of the
places as it is where it stands. -/
theorem second_run {n : Nat} {node : Node} {d : Declaration} {edits : List Edit}
    (hnode : (ofText t).node? n = some node) (hd : node.kind = .declaration d)
    (hedits : (ofText t).syncEditsFrom n = some edits)
    (h : ∀ e ∈ edits, Transfers t d.valueSpan e.span) :
    ∃ t', t.applyEdits edits = .ok t' ∧
      (∃ node' d', (ofText t').node? n = some node' ∧ node'.kind = .declaration d' ∧
        d'.name = d.name ∧ d'.value = d.value) ∧
      (ofText t').syncEditsFrom n = some [] := by
  obtain ⟨block, hparent, hfrom⟩ := syncEditsFrom_of_node? hnode hd
  rw [hedits, Option.some.injEq] at hfrom
  by_cases hnil : edits = []
  · subst hnil
    exact ⟨t, Text.applyEdits_nil t, ⟨node, d, hnode, hd, rfl, rfl⟩, hedits⟩
  subst hfrom
  obtain ⟨t', happly, hbecomes⟩ := becomes_of_transfers hnode hd hnil h
  obtain ⟨node', hnode', hkind, hparent'⟩ := hbecomes.node? hnode
  rw [hd] at hkind
  obtain ⟨d', hd', hname, hchanged, hkept⟩ := hkind.exists_right
  have hvalue : d'.value = d.value := by
    by_cases hP : ∃ e ∈ (ofText t).syncEdits block d.name d.value, e.span = d.valueSpan
    · exact hchanged hP
    · exact hkept hP
  refine ⟨t', happly, ⟨node', d', hnode', hd', hname, hvalue⟩, ?_⟩
  obtain ⟨block', hblock', hfrom'⟩ := syncEditsFrom_of_node? hnode' hd'
  rw [← hparent', hparent, Option.some.injEq] at hblock'
  subst hblock'
  rw [hfrom', hname, hvalue, Option.some.injEq]
  refine List.filterMap_eq_nil_iff.mpr fun v hv => syncEdit_eq_none.mpr fun d₂ hd₂ => ?_
  obtain ⟨d₁, hd₁, hchanged₁, hkept₁⟩ := firstDeclares_of_becomes (hbecomes.children block) hd₂
  by_cases hsame : d₁.value = d.value
  · by_cases hP : ∃ e ∈ (ofText t).syncEdits block d.name d.value, e.span = d₁.valueSpan
    · exact hchanged₁ hP
    · rw [hkept₁ hP, hsame]
  · refine hchanged₁ ⟨⟨d₁.valueSpan, d.value⟩, List.mem_filterMap.mpr ⟨v, hv, ?_⟩, rfl⟩
    exact syncEdit_eq_some.mpr ⟨d₁, hd₁, hsame, rfl⟩

/-- An address is read in the place of a number as it is where it stands, slashes and all. -/
theorem second_run_of_address :
    ∃ t', Text.applyEdits "a\x7b-moz-x:1;x:url(//)\x7d".toList [⟨⟨9, 10⟩, "url(//)".toList⟩] = .ok t' ∧
      (∃ node d, (ofText t').node? 3 = some node ∧ node.kind = .declaration d ∧
        d.name = ['x'] ∧ d.value = "url(//)".toList) ∧
      (ofText t').syncEditsFrom 3 = some [] := by
  have hnode : (ofText "a\x7b-moz-x:1;x:url(//)\x7d".toList).node? 3 =
      some ⟨⟨.declaration ⟨['x'], ⟨11, 12⟩, "url(//)".toList, ⟨13, 20⟩⟩, ⟨11, 20⟩⟩, some 1⟩ := by
    decide +kernel
  refine second_run hnode rfl (by decide +kernel) fun e he => ?_
  obtain rfl := List.mem_singleton.mp he
  refine ⟨cells "a\x7b-moz-x:1;x:".toList, cells "url(//)".toList, cells ['\x7d'],
    cells "a\x7b-moz-x:".toList, cells ['1'], cells ";x:url(//)\x7d".toList, ?_, ?_, ?_,
    lex "url(//)".toList, ?_⟩
  · exact ⟨by decide +kernel, by decide +kernel, by decide +kernel⟩
  · exact ⟨by decide +kernel, by decide +kernel, by decide +kernel⟩
  · exact ⟨by decide +kernel, by decide +kernel⟩
  · decide +kernel

/-- An escape at the end of the value takes in the blank that follows the place, so that the second
run finds a longer value there and writes again. -/
theorem second_run_of_escape :
    ∃ t', Text.applyEdits "a\x7bx:\\31;-moz-x:2 ;\x7d".toList [⟨⟨15, 16⟩, "\\31".toList⟩] = .ok t' ∧
      (ofText "a\x7bx:\\31;-moz-x:2 ;\x7d".toList).syncEditsFrom 2 =
        some [⟨⟨15, 16⟩, "\\31".toList⟩] ∧
      (ofText t').syncEditsFrom 2 = some [⟨⟨15, 19⟩, "\\31".toList⟩] := by
  refine ⟨"a\x7bx:\\31;-moz-x:\\31 ;\x7d".toList, ?_, ?_, ?_⟩
  all_goals decide +kernel

end Sheet
end Css
end VendorSync
