import VendorSync.Proofs.Transfer

/-! Finding a declaration again in the edited text.

The deepest node around an offset is the first one at each level that touches it. Where values are
replaced, the offset and the ends of the nodes come to stand elsewhere, but in the same order
(`Forest.outside_of_within`, `Edit.moved_le_iff`). So the node around an offset is found again at the
place to which this has moved (`Sheet.nodeAt_moved`). -/
namespace VendorSync.Css

namespace Forest
variable {f : Forest} {lo hi : Nat}

theorem All.forall {α : Type} {S : α → Prop} {Q : α → Item → Prop} (h : ∀ a, S a → f.All (Q a)) :
    f.All fun item => ∀ a, S a → Q a item := by
  induction f with
  | nil => trivial
  | cons item children rest ih₁ ih₂ =>
    exact ⟨fun a ha => (h a ha).1, ih₁ fun a ha => (h a ha).2.1, ih₂ fun a ha => (h a ha).2.2⟩

theorem Matches.and_all {R : Item → Item → Prop} {Q : Item → Prop} {f f' : Forest}
    (h : f.Matches R f') (hQ : f.All Q) : f.Matches (fun item item' => R item item' ∧ Q item) f' := by
  induction h with
  | nil => exact .nil
  | cons hitem _ _ ih₁ ih₂ => exact .cons ⟨hitem, hQ.1⟩ (ih₁ hQ.2.1) (ih₂ hQ.2.2)

theorem Within.all (hf : f.Within lo hi) :
    f.All fun item => lo ≤ item.span.start ∧ item.span.start < item.span.stop ∧ item.span.stop ≤ hi := by
  induction f generalizing lo with
  | nil => trivial
  | cons item children rest ih₁ ih₂ =>
    obtain ⟨hstart, hne, hstop, -, hchildren, hrest⟩ := hf
    refine ⟨⟨hstart, hne, hstop⟩, ?_, ?_⟩
    · exact ih₁ (hchildren.mono (by omega) hstop)
    · exact (ih₂ hrest).imp fun _ h => ⟨by omega, h.2⟩

/-- No node begins or ends inside of a part of a childless node. -/
theorem outside_of_within (hf : f.Within lo hi) {parent first : Nat} {node : Node}
    (hnode : node ∈ f.nodes parent first) (hleaf : node.kind.isContainer = false) {s : Span}
    (hstart : node.span.start < s.start) (hstop : s.stop ≤ node.span.stop) :
    f.All fun item => (item.span.start < s.start ∨ s.stop ≤ item.span.start) ∧
      (item.span.stop < s.start ∨ s.stop ≤ item.span.stop) := by
  induction f generalizing lo hi parent first with
  | nil => cases hnode
  | cons item children rest ih₁ ih₂ =>
    obtain ⟨hitem, hne, -, hkind, hchildren, hrest⟩ := hf
    rw [nodes, List.mem_cons, List.mem_append] at hnode
    rcases hnode with rfl | hnode | hnode
    · have hnil : children = nil := by
        by_contra h
        have := hkind h
        rw [show item.kind.isContainer = false from hleaf] at this
        cases this
      subst hnil
      refine ⟨⟨.inl hstart, .inr hstop⟩, trivial, hrest.all.imp fun _ h => ?_⟩
      simp only at hstop
      exact ⟨.inr (by omega), .inr (by omega)⟩
    · have hbounds := hchildren.all.of_mem_nodes hnode
      refine ⟨⟨.inl (by omega), .inr (by omega)⟩, ih₁ hchildren hnode, hrest.all.imp fun _ h => ?_⟩
      exact ⟨.inr (by omega), .inr (by omega)⟩
    · have hbounds := hrest.all.of_mem_nodes hnode
      refine ⟨⟨.inl (by omega), .inl (by omega)⟩, hchildren.all.imp fun _ h => ?_, ih₂ hrest hnode⟩
      exact ⟨.inl (by omega), .inl (by omega)⟩

end Forest

namespace Sheet
variable {sheet : Sheet} {parent first n lo hi : Nat} {f f' : Forest} {accepts accepts' : Span → Bool}

/-- The node that is found is accepted. -/
theorem Embeds.exists_of_search (h : sheet.Embeds parent first f)
    (hn : f.search accepts first = some n) : ∃ node, sheet.node? n = some node ∧
      accepts node.span = true := by
  induction f generalizing parent first with
  | nil => cases hn
  | cons item children rest ih₁ ih₂ =>
    rw [Forest.search] at hn
    split at hn
    · rename_i hitem
      cases hchild : children.search accepts (first + 1) with
      | none =>
        rw [hchild] at hn
        obtain rfl := Option.some.inj hn
        exact ⟨_, h.node?, hitem⟩
      | some m =>
        rw [hchild] at hn
        obtain rfl := Option.some.inj hn
        exact ih₁ h.inner hchild
    · exact ih₂ h.behind hn

section Matches
variable {R : Item → Item → Prop}

theorem search_eq_none (h : f.Matches R f')
    (hrefuse : ∀ item item', R item item' → accepts item.span = false → accepts' item'.span = false)
    (hnone : f.search accepts first = none) : f'.search accepts' first = none := by
  induction h generalizing first with
  | nil => rfl
  | cons hitem hchildren _ _ ih =>
    rw [Forest.search] at hnone ⊢
    split at hnone
    · cases hnone
    · rename_i hno
      rw [if_neg (by rw [hrefuse _ _ hitem (by simpa using hno)]; simp), ← hchildren.size_eq]
      exact ih hnone

/-- **The same search in a forest of the same shape finds the same number**, if there no more nodes
are accepted and no fewer, but for childless ones among which the node that was found is not. -/
theorem Embeds.search_eq (h : sheet.Embeds parent first f) (hf : f.Within lo hi)
    (hmatches : f.Matches R f') (Lost : Item → Prop)
    (hrefuse : ∀ item item', R item item' → accepts item.span = false → accepts' item'.span = false)
    (haccept : ∀ item item', R item item' → accepts item.span = true →
      accepts' item'.span = true ∨ Lost item)
    (hleaf : ∀ item, Lost item → item.kind.isContainer = false)
    (hkept : ∀ node, sheet.node? n = some node → ¬ Lost node.toItem)
    (hn : f.search accepts first = some n) : f'.search accepts' first = some n := by
  induction hmatches generalizing parent first lo hi with
  | nil => cases hn
  | @cons item item' children children' rest rest' hitem hchildren _ ih₁ ih₂ =>
    obtain ⟨-, -, -, hkind, hwithin, hbehind⟩ := hf
    rw [Forest.search] at hn ⊢
    split at hn
    · rename_i haccepted
      rcases haccept _ _ hitem haccepted with haccepted' | hlost
      · rw [if_pos haccepted']
        cases hchild : children.search accepts (first + 1) with
        | none =>
          rw [hchild] at hn
          rw [search_eq_none hchildren hrefuse hchild]
          exact hn
        | some m =>
          rw [hchild] at hn
          obtain rfl := Option.some.inj hn
          rw [ih₁ h.inner hwithin hchild]
          rfl
      · have hnil : children = .nil := by
          by_contra hne
          have := hkind hne
          rw [hleaf item hlost] at this
          cases this
        subst hnil
        obtain rfl := Option.some.inj hn
        exact absurd hlost (hkept _ h.node?)
    · rename_i hno
      rw [if_neg (by rw [hrefuse _ _ hitem (by simpa using hno)]; simp), ← hchildren.size_eq]
      exact ih₂ h.behind hbehind hn

end Matches

section Read
variable {t t' : Text} {P : Span → Prop} {value : Text} {edits : List Edit}

/-- Edits that replace values of declarations leave the ends of the nodes outside. -/
theorem clear_of_values (hvalues : ∀ e ∈ edits, ∃ m node d, (ofText t).node? m = some node ∧
      node.kind = .declaration d ∧ e.span = d.valueSpan) :
    (ofText t).forest.All fun item =>
      Edit.Clear edits item.span.start ∧ Edit.Clear edits item.span.stop := by
  have houtside : (ofText t).forest.All fun item => ∀ e, e ∈ edits →
      (item.span.start < e.span.start ∨ e.span.stop ≤ item.span.start) ∧
        (item.span.stop < e.span.start ∨ e.span.stop ≤ item.span.stop) := by
    refine Forest.All.forall fun e he => ?_
    obtain ⟨m, node, d, hnode, hd, hspan⟩ := hvalues e he
    obtain ⟨hstart, -, hstop, -⟩ := (sound_of_node? hnode hd).value d hd
    rw [hspan]
    exact Forest.outside_of_within (within_ofText t) (mem_nodes_of_declaration hnode hd)
      (by rw [hd]; rfl) hstart hstop
  exact houtside.imp fun item h => ⟨fun e he => (h e he).1, fun e he => (h e he).2⟩

/-- **The declaration around an offset is found again** where the offset comes to stand. -/
theorem nodeAt_moved (hspaced : Edit.Spaced edits)
    (hmoves : (ofText t).forest.Moves P value (Edit.moved edits) 0 t.byteLength (ofText t').forest)
    (hvalues : ∀ e ∈ edits, ∃ m node d, (ofText t).node? m = some node ∧
      node.kind = .declaration d ∧ e.span = d.valueSpan) {q q' n : Nat} (hq : Edit.Clear edits q)
    (hq' : (q' : Int) = Edit.moved edits q) (hn : (ofText t).nodeAt q true = some n)
    (hkept : ∀ node d, (ofText t).node? n = some node → node.kind = .declaration d → ¬ P d.valueSpan) :
    (ofText t').nodeAt q' true = some n := by
  simp only [nodeAt, if_true] at hn ⊢
  refine (ofText t).embeds_forest.search_eq (within_ofText t) (hmoves.and_all (clear_of_values hvalues))
    (fun item => ∃ d, item.kind = .declaration d ∧ P d.valueSpan) ?_ ?_ ?_ ?_ hn
  · rintro item item' ⟨hitem, hstart, hstop⟩ hno
    have hle := Edit.moved_le_iff hspaced hstart hq
    have hge := Edit.moved_le_iff hspaced hq hstop
    have := hitem.start
    have := hitem.stop_le
    simp only [Span.touches, Bool.and_eq_false_iff, decide_eq_false_iff_not] at hno ⊢
    omega
  · rintro item item' ⟨hitem, hstart, hstop⟩ hyes
    by_cases hlost : ∃ d, item.kind = .declaration d ∧ P d.valueSpan
    · exact .inr hlost
    · left
      have hle := Edit.moved_le_iff hspaced hstart hq
      have hge := Edit.moved_le_iff hspaced hq hstop
      have := hitem.start
      have := hitem.stop fun d hd hP => hlost ⟨d, hd, hP⟩
      simp only [Span.touches, Bool.and_eq_true, decide_eq_true_eq] at hyes ⊢
      omega
  · rintro item ⟨d, hd, _⟩
    rw [hd]
    rfl
  · rintro node hnode ⟨d, hd, hP⟩
    exact hkept node d hnode hd hP

/-- The edits for a declaration stand before it or behind a further character. -/
theorem apart_of_mem {n block : Nat} {node : Node} {d : Declaration}
    (hnode : (ofText t).node? n = some node) (hparent : node.parent = some block)
    (hd : node.kind = .declaration d) {e : Edit} (he : e ∈ (ofText t).syncEdits block d.name value) :
    e.span.stop ≤ node.span.start ∨ node.span.stop < e.span.start := by
  obtain ⟨m, a, d', hmn, ha, hpa, hd', rfl⟩ := exists_sibling_of_mem hnode hd he
  have hdisjoint := (@wellFormed_of_within (ofText t) (within_ofText t)).disjoint hmn ha hnode hpa hparent
  obtain ⟨hstart, -, hstop, -⟩ := (sound_of_node? ha hd').value d' hd'
  simp only
  omega

/-- They do not reach over the offsets in it. -/
theorem clear_of_nodeAt {q n block : Nat} {node : Node} {d : Declaration}
    (hn : (ofText t).nodeAt q true = some n) (hnode : (ofText t).node? n = some node)
    (hparent : node.parent = some block) (hd : node.kind = .declaration d) :
    Edit.Clear ((ofText t).syncEdits block d.name value) q := by
  intro e he
  simp only [nodeAt, if_true] at hn
  obtain ⟨node', hnode', htouches⟩ := (ofText t).embeds_forest.exists_of_search hn
  obtain rfl := Option.some.inj (hnode'.symm.trans hnode)
  have hapart := apart_of_mem hnode hparent hd he
  simp only [Span.touches, Bool.and_eq_true, decide_eq_true_eq] at htouches
  omega

/-- The declaration around an offset of the old text is the one around the offset's place in the new
text, if its value transfers. -/
theorem nodeAt_of_transfers {q q' n block : Nat} {node : Node} {d : Declaration}
    (hn : (ofText t).nodeAt q true = some n) (hnode : (ofText t).node? n = some node)
    (hparent : node.parent = some block) (hd : node.kind = .declaration d)
    (hne : (ofText t).syncEdits block d.name d.value ≠ [])
    (htransfers : ∀ e ∈ (ofText t).syncEdits block d.name d.value, Transfers t d.valueSpan e.span)
    (happly : t.applyEdits ((ofText t).syncEdits block d.name d.value) = .ok t')
    (hq' : (q' : Int) = Edit.moved ((ofText t).syncEdits block d.name d.value) q) :
    (ofText t').nodeAt q' true = some n := by
  obtain ⟨spans, hspliced⟩ := exists_spliced_of_transfers hnode hd hne htransfers
  obtain ⟨t₁, happly₁, hspaced, hmoves⟩ := exists_moved hspliced
  obtain rfl := Except.ok.inj (happly.symm.trans happly₁)
  refine nodeAt_moved hspaced hmoves (fun e he => (exists_of_mem (Edit.mem_inOrder.mp he)).2) ?_ ?_ hn ?_
  · exact fun e he => clear_of_nodeAt hn hnode hparent hd e (Edit.mem_inOrder.mp he)
  · rw [hq', Edit.moved, Edit.moved, Edit.growth_perm (Edit.inOrder_perm _)]
  · rintro node' d₁ hnode' hd₁ ⟨e, he, hspan⟩
    obtain rfl := Option.some.inj (hnode.symm.trans hnode')
    obtain rfl := Kind.declaration.inj (hd.symm.trans hd₁)
    obtain ⟨hstart, hle, hstop, -⟩ := (sound_of_node? hnode hd).value d hd
    have hapart := apart_of_mem hnode hparent hd he
    rw [hspan] at hapart
    omega

end Read
end Sheet
end VendorSync.Css
