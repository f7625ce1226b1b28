import Mathlib.Data.List.Nodup
import Mathlib.Data.List.Pairwise
import VendorSync.Proofs.Numbering
import VendorSync.Proofs.Values
import VendorSync.Sync

/-! The edits that carry a value over to siblings.

`Carries` says which edits they are without naming the functions that compute them. Each of them
replaces the value of another child of one node, so a batch of them can always be applied
(`applyEdits_of_applicable`) and none touches the declaration that the value comes from. -/
namespace VendorSync

theorem Span.overlaps_eq_false {a b : Span} (h : a.stop ≤ b.start ∨ b.stop ≤ a.start) :
    a.overlaps b = false := by
  simp only [overlaps, Bool.and_eq_false_iff, decide_eq_false_iff_not]
  omega

/-! ### Batches that can be applied -/

/-- The spans of a batch are spans of the text between its characters, and no two overlap. -/
structure Edit.Applicable (t : Text) (edits : List Edit) : Prop where
  bounds : ∀ e ∈ edits, e.span.start ≤ e.span.stop ∧ e.span.stop ≤ t.byteLength
  boundary : ∀ e ∈ edits, t.isBoundary e.span.start = true ∧ t.isBoundary e.span.stop = true
  disjoint : edits.Pairwise fun a b => a.span.overlaps b.span = false

namespace Edit

theorem fault?_eq_none {t : Text} {e : Edit}
    (hbounds : e.span.start ≤ e.span.stop ∧ e.span.stop ≤ t.byteLength)
    (hboundary : t.isBoundary e.span.start = true ∧ t.isBoundary e.span.stop = true) :
    fault? t e = none := by
  simp [fault?, hboundary, Nat.not_lt.mpr hbounds.1, Nat.not_lt.mpr hbounds.2]

theorem overlap?_eq_none {edits : List Edit}
    (h : edits.Pairwise fun a b => a.span.overlaps b.span = false) : overlap? edits = none := by
  induction edits with
  | nil => rfl
  | cons e es ih =>
    obtain ⟨he, hes⟩ := List.pairwise_cons.mp h
    cases es with
    | nil => rfl
    | cons f fs => rw [overlap?, he f (List.mem_cons_self ..), if_neg (by simp), ih hes]

/-- A batch of such spans is not refused. -/
theorem applyEdits_of_applicable {t : Text} {edits : List Edit} (h : Applicable t edits) :
    t.applyEdits edits = .ok (splice 0 t (inOrder edits)) := by
  have hfault : (inOrder edits).findSome? (fault? t) = none := by
    rw [List.findSome?_eq_none_iff]
    intro e he
    exact fault?_eq_none (h.bounds e (mem_inOrder.mp he)) (h.boundary e (mem_inOrder.mp he))
  simp only [Text.applyEdits, hfault, overlap?_eq_none (disjoint_inOrder.mpr h.disjoint), Option.or_none]

end Edit

namespace Vendor

theorem mark_injective {v w : Vendor} (h : v.mark = w.mark) : v = w := by
  cases v <;> cases w <;> first | rfl | exact absurd h (by decide)

/-- The vendor of a name is the first whose mark the name begins with. -/
theorem ofName_eq_iff {name : Text} {w : Vendor} : ofName name = w ↔ ∃ before after,
    all = before ++ w :: after ∧ w.mark <+: name ∧ ∀ v ∈ before, ¬ v.mark <+: name := by
  have hfind : all.find? (·.mark.isPrefixOf name) = some (ofName name) := by
    rw [ofName]
    cases h : all.find? (·.mark.isPrefixOf name) with
    | some v => rfl
    | none =>
      have := List.find?_eq_none.mp h plain (mem_all plain)
      exact absurd (by rfl) this
  constructor
  · intro heq
    subst heq
    obtain ⟨hmark, before, after, hall, hbefore⟩ := List.find?_eq_some_iff_append.mp hfind
    exact ⟨before, after, hall, List.isPrefixOf_iff_prefix.mp hmark, fun v hv h => by
      simpa [List.isPrefixOf_iff_prefix.mpr h] using hbefore v hv⟩
  · intro h
    rcases h with ⟨before, after, hall, hmark, hbefore⟩
    have hfirst : all.find? (·.mark.isPrefixOf name) = some w :=
      List.find?_eq_some_iff_append.mpr ⟨List.isPrefixOf_iff_prefix.mpr hmark, before, after, hall,
        fun v hv => by
          rw [Bool.not_eq_true', Bool.eq_false_iff]
          exact fun h => hbefore v hv (List.isPrefixOf_iff_prefix.mp h)⟩
    rw [hfind, Option.some.injEq] at hfirst
    exact hfirst

end Vendor

namespace Css

/-! ### Which edits they are -/

/-- Of the nodes that declare the name, the first makes the declaration `d`. -/
def FirstDeclares (nodes : List Node) (name : Text) (d : Declaration) : Prop :=
  ∃ before node after, nodes = before ++ node :: after ∧ node.kind = .declaration d ∧ d.name = name ∧
    ∀ m ∈ before, ∀ d', m.kind = .declaration d' → d'.name ≠ name

/-- The edits that carry a value over to the declarations of these vendors among some nodes. -/
inductive Carries (nodes : List Node) (base value : Text) : List Vendor → List Edit → Prop
  | nil : Carries nodes base value [] []
  | edit {v vs d edits} : FirstDeclares nodes (v.mark ++ base) d → d.value ≠ value →
      Carries nodes base value vs edits →
      Carries nodes base value (v :: vs) (⟨d.valueSpan, value⟩ :: edits)
  | skip {v vs edits} : (∀ d, FirstDeclares nodes (v.mark ++ base) d → d.value = value) →
      Carries nodes base value vs edits → Carries nodes base value (v :: vs) edits

theorem Kind.declaration?_eq_some {k : Kind} {d : Declaration} :
    k.declaration? = some d ↔ k = .declaration d := by
  cases k <;> simp [declaration?]

namespace Sheet
variable {sheet : Sheet}

theorem findDeclaration_eq_some {n : Nat} {name : Text} {d : Declaration} :
    sheet.findDeclaration n name = some d ↔ FirstDeclares (sheet.children n) name d := by
  rw [findDeclaration, List.find?_filterMap, Option.bind_eq_some_iff]
  constructor
  · intro h
    rcases h with ⟨node, hnode, hd⟩
    obtain ⟨hany, before, after, hchildren, hbefore⟩ := List.find?_eq_some_iff_append.mp hnode
    rw [hd, Option.any_some, beq_iff_eq] at hany
    refine ⟨before, node, after, hchildren, Kind.declaration?_eq_some.mp hd, hany, ?_⟩
    intro m hm d' hd' hname
    have := hbefore m hm
    rw [Kind.declaration?_eq_some.mpr hd', Option.any_some, hname] at this
    simp at this
  · intro h
    rcases h with ⟨before, node, after, hchildren, hd, hname, hbefore⟩
    have hd := Kind.declaration?_eq_some.mpr hd
    refine ⟨node, List.find?_eq_some_iff_append.mpr ⟨?_, before, after, hchildren, ?_⟩, hd⟩
    · rw [hd, Option.any_some, hname, beq_self_eq_true]
    · intro m hm
      cases hd' : m.kind.declaration? with
      | none => rfl
      | some d' =>
        have := hbefore m hm d' (Kind.declaration?_eq_some.mp hd')
        simpa using this

theorem syncEdit_eq_some {block : Nat} {base value : Text} {v : Vendor} {e : Edit} :
    sheet.syncEdit block base value v = some e ↔ ∃ d,
      FirstDeclares (sheet.children block) (v.mark ++ base) d ∧ d.value ≠ value ∧
        e = ⟨d.valueSpan, value⟩ := by
  unfold syncEdit
  split
  · rename_i d hd
    split
    · rename_i hvalue
      constructor
      · intro h
        cases h
      · intro h
        rcases h with ⟨d', hd', hne, _⟩
        rw [← findDeclaration_eq_some, hd, Option.some.injEq] at hd'
        exact absurd (hd' ▸ hvalue) hne
    · rename_i hvalue
      constructor
      · intro heq
        cases heq
        exact ⟨d, findDeclaration_eq_some.mp hd, hvalue, rfl⟩
      · intro h
        rcases h with ⟨d', hd', -, rfl⟩
        rw [← findDeclaration_eq_some, hd, Option.some.injEq] at hd'
        rw [hd']
  · rename_i hnone
    constructor
    · intro h
      cases h
    · intro h
      rcases h with ⟨d, hd, _⟩
      rw [← findDeclaration_eq_some, hnone] at hd
      cases hd

theorem syncEdit_eq_none {block : Nat} {base value : Text} {v : Vendor} :
    sheet.syncEdit block base value v = none ↔ ∀ d,
      FirstDeclares (sheet.children block) (v.mark ++ base) d → d.value = value := by
  constructor
  · intro h d hd
    by_contra hne
    have := syncEdit_eq_some.mpr ⟨d, hd, hne, rfl⟩
    rw [h] at this
    cases this
  · intro h
    cases he : sheet.syncEdit block base value v with
    | none => rfl
    | some e =>
      obtain ⟨d, hd, hne, -⟩ := syncEdit_eq_some.mp he
      exact absurd (h d hd) hne

/-- The edits for some vendors are the ones that are carried over, and no others. -/
theorem filterMap_syncEdit_eq_iff {block : Nat} {base value : Text} {vs : List Vendor}
    {edits : List Edit} : vs.filterMap (sheet.syncEdit block base value) = edits ↔
      Carries (sheet.children block) base value vs edits := by
  constructor
  · intro heq
    subst heq
    induction vs with
    | nil => exact .nil
    | cons v vs ih =>
      cases he : sheet.syncEdit block base value v with
      | none =>
        rw [List.filterMap_cons_none he]
        exact .skip (syncEdit_eq_none.mp he) ih
      | some e =>
        rw [List.filterMap_cons_some he]
        obtain ⟨d, hd, hne, rfl⟩ := syncEdit_eq_some.mp he
        exact .edit hd hne ih
  · intro h
    induction h with
    | nil => rfl
    | edit hd hne _ ih => rw [List.filterMap_cons_some (syncEdit_eq_some.mpr ⟨_, hd, hne, rfl⟩), ih]
    | skip hno _ ih => rw [List.filterMap_cons_none (syncEdit_eq_none.mpr hno), ih]

theorem filter_others {before after : List Vendor} {w : Vendor}
    (h : Vendor.all = before ++ w :: after) :
    Vendor.all.filter (· ≠ w) = before ++ after := by
  have hnodup : Vendor.all.Nodup := by decide
  rw [h, List.nodup_middle, List.nodup_cons, List.mem_append, not_or] at hnodup
  obtain ⟨⟨hbefore, hafter⟩, -⟩ := hnodup
  rw [h, List.filter_append, List.filter_cons_of_neg (by simp), List.filter_eq_self.mpr,
    List.filter_eq_self.mpr]
  · intro v hv
    rw [decide_eq_true_eq]
    intro heq
    subst heq
    exact hafter hv
  · intro v hv
    rw [decide_eq_true_eq]
    intro heq
    subst heq
    exact hbefore hv

/-- The edits for a property are those that are carried over to the vendors other than its own. -/
theorem syncEdits_eq_iff {block : Nat} {name value : Text} {edits : List Edit} :
    sheet.syncEdits block name value = edits ↔ ∃ before w after base,
      Vendor.all = before ++ w :: after ∧ name = w.mark ++ base ∧
        (∀ v ∈ before, ¬ v.mark <+: name) ∧
        Carries (sheet.children block) base value (before ++ after) edits := by
  constructor
  · intro h
    obtain ⟨before, after, hall, -, hbefore⟩ := Vendor.ofName_eq_iff.mp (Eq.refl (Vendor.ofName name))
    refine ⟨before, _, after, Vendor.baseName name, hall, (Vendor.mark_append_base name).symm,
      hbefore, filterMap_syncEdit_eq_iff.mp ?_⟩
    rw [← filter_others hall]
    exact h
  · intro h
    rcases h with ⟨before, w, after, base, hall, rfl, hbefore, hcarries⟩
    have hname : Vendor.ofName (w.mark ++ base) = w :=
      Vendor.ofName_eq_iff.mpr ⟨before, after, hall, List.prefix_append .., hbefore⟩
    have hbase : Vendor.baseName (w.mark ++ base) = base := by
      rw [Vendor.baseName, hname, List.drop_left]
    rw [syncEdits, hname, hbase, filter_others hall]
    exact filterMap_syncEdit_eq_iff.mpr hcarries

/-! ### Where they stand -/

theorem exists_of_mem_children {r : Nat} {node : Node} (h : node ∈ sheet.children r) :
    ∃ n, sheet.node? n = some node ∧ node.parent = some r := by
  obtain ⟨hmem, hparent⟩ := List.mem_filter.mp h
  obtain ⟨n, hn⟩ := List.getElem?_of_mem hmem
  exact ⟨n, hn, by simpa using hparent⟩

/-- Different children of a node have no byte in common. -/
theorem WellFormed.disjoint {length : Nat} (h : sheet.WellFormed length) {r m n : Nat} {a b : Node}
    (hne : m ≠ n) (ha : sheet.node? m = some a) (hb : sheet.node? n = some b)
    (hpa : a.parent = some r) (hpb : b.parent = some r) :
    a.span.stop ≤ b.span.start ∨ b.span.stop ≤ a.span.start := by
  have hpairwise : (sheet.childNumbers r).Pairwise fun m n => ∀ a b, sheet.node? m = some a →
      sheet.node? n = some b → a.span.stop ≤ b.span.start ∨ b.span.stop ≤ a.span.start :=
    (h.siblings r).imp fun hmn a b ha hb => .inl (hmn a b ha hb)
  have : Std.Symm fun m n => ∀ a b, sheet.node? m = some a →
      sheet.node? n = some b → a.span.stop ≤ b.span.start ∨ b.span.stop ≤ a.span.start :=
    ⟨fun m n hmn a b ha hb => (hmn b a hb ha).symm⟩
  exact hpairwise.forall ((h.listed r m).mpr ⟨a, ha, hpa⟩)
    ((h.listed r n).mpr ⟨b, hb, hpb⟩) hne a b ha hb

theorem ne_zero_of_declaration {n : Nat} {node : Node} {d : Declaration}
    (hnode : sheet.node? n = some node) (hd : node.kind = .declaration d) : n ≠ 0 := by
  intro heq
  subst heq
  rw [node?_zero, Option.some.injEq] at hnode
  rw [← hnode] at hd
  cases hd

/-- The edit for a vendor replaces the value of a child that declares the vendor's name. -/
theorem exists_of_syncEdit {block : Nat} {base value : Text} {v : Vendor} {e : Edit}
    (h : sheet.syncEdit block base value v = some e) : ∃ n node d, sheet.node? n = some node ∧
      node.parent = some block ∧ node.kind = .declaration d ∧ d.name = v.mark ++ base ∧
      d.value ≠ value ∧ e = ⟨d.valueSpan, value⟩ := by
  obtain ⟨d, ⟨before, node, after, hchildren, hd, hname, -⟩, hne, rfl⟩ := syncEdit_eq_some.mp h
  obtain ⟨n, hn, hparent⟩ := exists_of_mem_children
    (show node ∈ sheet.children block by rw [hchildren]; simp)
  exact ⟨n, node, d, hn, hparent, hd, hname, hne, rfl⟩

theorem exists_of_mem_syncEdits {block : Nat} {name value : Text} {e : Edit}
    (h : e ∈ sheet.syncEdits block name value) : ∃ v, v ≠ Vendor.ofName name ∧
      sheet.syncEdit block (Vendor.baseName name) value v = some e := by
  obtain ⟨v, hv, he⟩ := List.mem_filterMap.mp h
  exact ⟨v, by simpa using (List.mem_filter.mp hv).2, he⟩

section Read
variable {t : Text}

theorem sound_of_node? {n : Nat} {node : Node} {d : Declaration}
    (hnode : (ofText t).node? n = some node) (hd : node.kind = .declaration d) :
    node.toItem.Sound t := by
  obtain ⟨m, rfl⟩ := Nat.exists_eq_succ_of_ne_zero (ne_zero_of_declaration hnode hd)
  rw [Nat.succ_eq_add_one, node?_succ] at hnode
  exact (sound_ofText t).of_mem_nodes (List.mem_of_getElem? hnode)

/-- Values of different children do not overlap, and neither do a value and another child. -/
theorem disjoint_ofText {r m n : Nat} {a b : Node} {d : Declaration} (hne : m ≠ n)
    (ha : (ofText t).node? m = some a) (hb : (ofText t).node? n = some b)
    (hpa : a.parent = some r) (hpb : b.parent = some r) (hd : a.kind = .declaration d) :
    d.valueSpan.stop ≤ b.span.start ∨ b.span.stop ≤ d.valueSpan.start := by
  have hwell := @wellFormed_of_within (ofText t) (within_ofText t)
  obtain ⟨hstart, -, hstop, -⟩ := (sound_of_node? ha hd).value d hd
  have := hwell.disjoint hne ha hb hpa hpb
  omega

theorem syncEdits_disjoint {block : Nat} {base value : Text} {v w : Vendor} {e f : Edit}
    (hvw : v ≠ w) (he : (ofText t).syncEdit block base value v = some e)
    (hf : (ofText t).syncEdit block base value w = some f) : e.span.overlaps f.span = false := by
  obtain ⟨m, a, d, ha, hpa, hd, hname, -, rfl⟩ := exists_of_syncEdit he
  obtain ⟨n, b, d', hb, hpb, hd', hname', -, rfl⟩ := exists_of_syncEdit hf
  have hmn : m ≠ n := by
    intro heq
    subst heq
    rw [ha, Option.some.injEq] at hb
    subst hb
    rw [hd, Kind.declaration.injEq] at hd'
    rw [← hd', hname] at hname'
    exact hvw (Vendor.mark_injective (List.append_cancel_right hname'))
  have hdisjoint := disjoint_ofText hmn ha hb hpa hpb hd
  obtain ⟨hstart, hle, hstop, -⟩ := (sound_of_node? hb hd').value d' hd'
  apply Span.overlaps_eq_false
  show d.valueSpan.stop ≤ d'.valueSpan.start ∨ d'.valueSpan.stop ≤ d.valueSpan.start
  omega

theorem applicable_syncEdits (t : Text) (block : Nat) (name value : Text) :
    Edit.Applicable t ((ofText t).syncEdits block name value) where
  bounds e he := by
    obtain ⟨v, -, hv⟩ := exists_of_mem_syncEdits he
    obtain ⟨n, node, d, hnode, -, hd, -, -, rfl⟩ := exists_of_syncEdit hv
    have hwell := @wellFormed_of_within (ofText t) (within_ofText t)
    obtain ⟨-, hle, hstop, -⟩ := (sound_of_node? hnode hd).value d hd
    exact ⟨hle, Nat.le_trans hstop
      (hwell.nonempty n node (ne_zero_of_declaration hnode hd) hnode).2⟩
  boundary e he := by
    obtain ⟨v, -, hv⟩ := exists_of_mem_syncEdits he
    obtain ⟨n, node, d, hnode, -, hd, -, -, rfl⟩ := exists_of_syncEdit hv
    obtain ⟨-, -, -, hstart, hstop, -⟩ := (sound_of_node? hnode hd).value d hd
    exact ⟨hstart, hstop⟩
  disjoint := by
    have hnodup : (Vendor.all.filter (· ≠ Vendor.ofName name)).Nodup :=
      List.Nodup.filter _ (by decide)
    rw [syncEdits, List.pairwise_filterMap]
    exact hnodup.imp fun hvw e he f hf => syncEdits_disjoint hvw he hf

/-- Each edit replaces the value of a sibling, and not of a declaration of the property's own name. -/
theorem exists_sibling_of_mem {block : Nat} {value : Text} {n : Nat} {node : Node} {d : Declaration}
    (hnode : (ofText t).node? n = some node) (hd : node.kind = .declaration d) {e : Edit}
    (he : e ∈ (ofText t).syncEdits block d.name value) : ∃ m a d', m ≠ n ∧
      (ofText t).node? m = some a ∧ a.parent = some block ∧ a.kind = .declaration d' ∧
      e = ⟨d'.valueSpan, value⟩ := by
  obtain ⟨v, hv, he⟩ := exists_of_mem_syncEdits he
  obtain ⟨m, a, d', ha, hpa, hd', hname, -, rfl⟩ := exists_of_syncEdit he
  refine ⟨m, a, d', ?_, ha, hpa, hd', rfl⟩
  intro heq
  subst heq
  rw [ha, Option.some.injEq] at hnode
  subst hnode
  rw [hd', Kind.declaration.injEq] at hd
  rw [hd] at hname
  exact hv (Vendor.mark_injective
    (List.append_cancel_right ((Vendor.mark_append_base d.name).trans hname)).symm)

/-- No edit touches a declaration that has the property's own name. -/
theorem syncEdits_overlaps_source {block : Nat} {value : Text} {n : Nat} {node : Node}
    {d : Declaration} (hnode : (ofText t).node? n = some node) (hparent : node.parent = some block)
    (hd : node.kind = .declaration d) {e : Edit}
    (he : e ∈ (ofText t).syncEdits block d.name value) : e.span.overlaps node.span = false := by
  obtain ⟨m, a, d', hmn, ha, hpa, hd', rfl⟩ := exists_sibling_of_mem hnode hd he
  exact Span.overlaps_eq_false (disjoint_ofText hmn ha hnode hpa hparent hd')

/-- A declaration of a sheet that is read has a block around it. -/
theorem syncEditsFrom_of_node? {n : Nat} {node : Node} {d : Declaration}
    (hnode : (ofText t).node? n = some node) (hd : node.kind = .declaration d) :
    ∃ block, node.parent = some block ∧
      (ofText t).syncEditsFrom n = some ((ofText t).syncEdits block d.name d.value) := by
  have hwell := @wellFormed_of_within (ofText t) (within_ofText t)
  obtain ⟨block, hlt, hparent⟩ := hwell.linked n node (ne_zero_of_declaration hnode hd) hnode
  obtain ⟨parent, hblock⟩ : ∃ parent, (ofText t).node? block = some parent := by
    have := lt_of_node? hnode
    rw [← length_nodes] at this
    exact ⟨_, List.getElem?_eq_getElem (by omega)⟩
  have hcontainer := hwell.containers block parent hblock
    (List.ne_nil_of_mem ((hwell.listed block n).mpr ⟨node, hnode, hparent⟩))
  refine ⟨block, hparent, ?_⟩
  simp [syncEditsFrom, hnode, Kind.declaration?_eq_some.mpr hd, hparent, hblock, hcontainer]

theorem isSome_syncEditsFrom (n : Nat) : ((ofText t).syncEditsFrom n).isSome = true ↔
    ∃ node d, (ofText t).node? n = some node ∧ node.kind = .declaration d := by
  constructor
  · intro h
    cases hnode : (ofText t).node? n with
    | none => simp [syncEditsFrom, hnode] at h
    | some node =>
      cases hd : node.kind.declaration? with
      | none => simp [syncEditsFrom, hnode, hd] at h
      | some d => exact ⟨node, d, rfl, Kind.declaration?_eq_some.mp hd⟩
  · intro h
    rcases h with ⟨node, d, hnode, hd⟩
    obtain ⟨block, -, hedits⟩ := syncEditsFrom_of_node? hnode hd
    rw [hedits]
    rfl

/-- **The edits for a property are the ones that are carried over to its siblings**, whatever node
has these siblings for children. They can be applied, they do not touch a declaration of the
property's own name, and every declaration has some, if only the empty list of them. -/
theorem syncEdits_spec (t : Text) :
    (∀ block name value edits, (ofText t).syncEdits block name value = edits ↔
      ∃ before w after base, Vendor.all = before ++ w :: after ∧ name = w.mark ++ base ∧
        (∀ v ∈ before, ¬ v.mark <+: name) ∧
        Carries ((ofText t).children block) base value (before ++ after) edits) ∧
    (∀ block name value, Edit.Applicable t ((ofText t).syncEdits block name value) ∧
      ∃ t', t.applyEdits ((ofText t).syncEdits block name value) = .ok t') ∧
    (∀ block value, ∀ node ∈ (ofText t).children block, ∀ d, node.kind = .declaration d →
      ∀ e ∈ (ofText t).syncEdits block d.name value, e.span.overlaps node.span = false) ∧
    ∀ n, ((ofText t).syncEditsFrom n).isSome = true ↔
      ∃ node d, (ofText t).node? n = some node ∧ node.kind = .declaration d := by
  refine ⟨fun block name value edits => syncEdits_eq_iff, fun block name value => ?_,
    fun block value node hnode d hd e he => ?_, isSome_syncEditsFrom⟩
  · have happlicable := applicable_syncEdits t block name value
    exact ⟨happlicable, _, Edit.applyEdits_of_applicable happlicable⟩
  · obtain ⟨n, hn, hparent⟩ := exists_of_mem_children hnode
    exact syncEdits_overlaps_source hn hparent hd he

end Read

end Sheet
end Css
end VendorSync
