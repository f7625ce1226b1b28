import VendorSync.Proofs.Revaluing
import VendorSync.Proofs.Siblings

/-! The nodes of two sheets that are the same but for some values.

Each node has its counterpart under the same number (`Becomes.node?`), so that the first child of
a block that declares a name is the first one there as well (`firstDeclares_of_becomes`). -/
namespace VendorSync.Css
variable {P : Span → Prop} {value : Text}

/-- A node and the one in its place. -/
abbrev Node.Becomes (P : Span → Prop) (value : Text) : Node → Node → Prop :=
  Node.Matches fun item item' => item.kind.Becomes P value item'.kind

theorem getElem?_of_forall₂ {α β : Type} {R : α → β → Prop} {as : List α} {bs : List β}
    (h : List.Forall₂ R as bs) {n : Nat} {a : α} (ha : as[n]? = some a) :
    ∃ b, bs[n]? = some b ∧ R a b := by
  induction h generalizing n with
  | nil => simp at ha
  | cons hab _ ih =>
    cases n with
    | zero =>
      obtain rfl := Option.some.inj ha
      exact ⟨_, rfl, hab⟩
    | succ n => exact ih ha

namespace Sheet
variable {sheet sheet' : Sheet}

/-- The nodes of the sheets have counterparts. -/
abbrev Becomes (P : Span → Prop) (value : Text) : Sheet → Sheet → Prop :=
  Sheet.Matches fun item item' => item.kind.Becomes P value item'.kind

theorem becomes_of_forest (h : sheet.forest.Becomes P value sheet'.forest) :
    sheet.Becomes P value sheet' :=
  matches_of_forest (.same (by simp)) h

theorem Becomes.node? (h : sheet.Becomes P value sheet') {n : Nat} {node : Node}
    (hnode : sheet.node? n = some node) :
    ∃ node', sheet'.node? n = some node' ∧ node.kind.Becomes P value node'.kind ∧
      node.parent = node'.parent :=
  getElem?_of_forall₂ h hnode

theorem Becomes.children (h : sheet.Becomes P value sheet') (n : Nat) :
    List.Forall₂ (Node.Becomes P value) (sheet.children n) (sheet'.children n) := by
  refine List.rel_filter (fun a b hab => ?_) h
  show (a.parent == some n) = true ↔ (b.parent == some n) = true
  rw [hab.2]

end Sheet

/-! ### Declarations -/

theorem firstDeclares_cons {node : Node} {nodes : List Node} {name : Text} {d : Declaration} :
    FirstDeclares (node :: nodes) name d ↔ (node.kind = .declaration d ∧ d.name = name) ∨
      ((∀ d', node.kind = .declaration d' → d'.name ≠ name) ∧ FirstDeclares nodes name d) := by
  constructor
  · intro h
    rcases h with ⟨before, found, after, heq, hd, hname, hbefore⟩
    cases before with
    | nil =>
      obtain ⟨rfl, rfl⟩ := List.cons.inj heq
      exact .inl ⟨hd, hname⟩
    | cons m before =>
      obtain ⟨rfl, rfl⟩ := List.cons.inj heq
      obtain ⟨hm, hbefore⟩ := List.forall_mem_cons.mp hbefore
      exact .inr ⟨hm, before, found, after, rfl, hd, hname, hbefore⟩
  · intro h
    rcases h with ⟨hd, hname⟩ | ⟨hno, before, found, after, rfl, hd, hname, hbefore⟩
    · exact ⟨[], node, nodes, rfl, hd, hname, by simp⟩
    · exact ⟨node :: before, found, after, rfl, hd, hname, List.forall_mem_cons.mpr ⟨hno, hbefore⟩⟩

theorem Kind.Becomes.exists_left {k : Kind} {d' : Declaration}
    (h : k.Becomes P value (.declaration d')) :
    ∃ d, k = .declaration d ∧ d'.name = d.name ∧
      (P d.valueSpan → d'.value = value) ∧ (¬ P d.valueSpan → d'.value = d.value) := by
  cases h with
  | kept hP hname hvalue => exact ⟨_, rfl, hname, fun h => absurd h hP, fun _ => hvalue⟩
  | changed hP hname hvalue => exact ⟨_, rfl, hname, fun _ => hvalue, fun h => absurd hP h⟩
  | same hno => exact absurd rfl (hno d')

theorem Kind.Becomes.exists_right {k' : Kind} {d : Declaration}
    (h : (Kind.declaration d).Becomes P value k') :
    ∃ d', k' = .declaration d' ∧ d'.name = d.name ∧
      (P d.valueSpan → d'.value = value) ∧ (¬ P d.valueSpan → d'.value = d.value) := by
  cases h with
  | kept hP hname hvalue => exact ⟨_, rfl, hname, fun h => absurd h hP, fun _ => hvalue⟩
  | changed hP hname hvalue => exact ⟨_, rfl, hname, fun _ => hvalue, fun h => absurd hP h⟩
  | same hno => exact absurd rfl (hno d)

/-- **The first declaration of a name has its counterpart**, with the new value or its own. -/
theorem firstDeclares_of_becomes {as bs : List Node} (h : List.Forall₂ (Node.Becomes P value) as bs)
    {name : Text} {d' : Declaration} (hd' : FirstDeclares bs name d') :
    ∃ d, FirstDeclares as name d ∧ (P d.valueSpan → d'.value = value) ∧
      (¬ P d.valueSpan → d'.value = d.value) := by
  induction h with
  | nil =>
    obtain ⟨before, _, _, heq, -⟩ := hd'
    simp at heq
  | @cons a b as bs hab _ ih =>
    rcases firstDeclares_cons.mp hd' with ⟨hb, hname⟩ | ⟨hno, hrest⟩
    · have hkind : a.kind.Becomes P value b.kind := hab.1
      rw [hb] at hkind
      obtain ⟨d, ha, hd, hvalues⟩ := hkind.exists_left
      exact ⟨d, firstDeclares_cons.mpr (.inl ⟨ha, hd ▸ hname⟩), hvalues⟩
    · obtain ⟨d, hd, hvalues⟩ := ih hrest
      refine ⟨d, firstDeclares_cons.mpr (.inr ⟨fun d₂ hd₂ hname => ?_, hd⟩), hvalues⟩
      have hkind : a.kind.Becomes P value b.kind := hab.1
      rw [hd₂] at hkind
      obtain ⟨d₃, hb, hd₃, -⟩ := hkind.exists_right
      exact hno d₃ hb (hd₃.trans hname)

end VendorSync.Css
