import Mathlib.Logic.Relation
import VendorSync.Proofs.Siblings

/-! Which node stands around an offset.

`nodeAt` goes down from the root and takes, at each level, the first sibling around the offset. It
never has to go back: the spans around one offset lie inside of each other (`Span.Nests`), so that a
node is found if and only if it is around the offset while none of its children is, and none of the
siblings before it (`Embeds.search_eq_some_iff`). `nodeAt_spec` says this for both ways to count the ends
of a node. -/
namespace VendorSync

/-- What accepts a span accepts those around it, and none that ends before it begins. -/
structure Span.Nests (accepts : Span → Bool) : Prop where
  outer : ∀ {a b : Span}, b.start ≤ a.start → a.stop ≤ b.stop → accepts a = true → accepts b = true
  before : ∀ {a b : Span}, a.stop < b.start → accepts b = true → accepts a = false

theorem Span.nests_contains (o : Nat) : Nests (·.contains o) where
  outer := by simp only [contains, Bool.and_eq_true, decide_eq_true_eq]; omega
  before := by
    simp only [contains, Bool.and_eq_true, Bool.and_eq_false_iff, decide_eq_true_eq,
      decide_eq_false_iff_not]
    omega

theorem Span.nests_touches (o : Nat) : Nests (·.touches o) where
  outer := by simp only [touches, Bool.and_eq_true, decide_eq_true_eq]; omega
  before := by
    simp only [touches, Bool.and_eq_true, Bool.and_eq_false_iff, decide_eq_true_eq,
      decide_eq_false_iff_not]
    omega

namespace Css.Sheet

/-! ### Parents and children -/

/-- The node `n` is a child of the node `p`. -/
def IsChild (sheet : Sheet) (p n : Nat) : Prop :=
  ∃ node, sheet.node? n = some node ∧ node.parent = some p

/-- There is a node of this number, and its span is accepted. -/
def Accepted (sheet : Sheet) (accepts : Span → Bool) (n : Nat) : Prop :=
  ∃ node, sheet.node? n = some node ∧ accepts node.span = true

/-- Of the siblings before a node, none with a number from `first` on is accepted. -/
def Foremost (sheet : Sheet) (accepts : Span → Bool) (first n : Nat) : Prop :=
  ∀ p m, first ≤ m → m < n → sheet.IsChild p n → sheet.IsChild p m → ¬ sheet.Accepted accepts m

variable {sheet : Sheet} {parent first n lo hi : Nat} {item : Item} {f children rest : Forest}
  {accepts : Span → Bool}

theorem IsChild.unique {p q : Nat} (hp : sheet.IsChild p n) (hq : sheet.IsChild q n) : p = q := by
  obtain ⟨a, ha, hpa⟩ := hp
  obtain ⟨b, hb, hqb⟩ := hq
  obtain rfl := Option.some.inj (ha.symm.trans hb)
  exact Option.some.inj (hpa.symm.trans hqb)

theorem ne_zero_of_isChild {p : Nat} (h : sheet.IsChild p n) : n ≠ 0 := by
  rintro rfl
  obtain ⟨node, hnode, hparent⟩ := h
  rw [node?_zero, Option.some.injEq] at hnode
  rw [← hnode] at hparent
  cases hparent

theorem accepted_iff {node : Node} (h : sheet.node? n = some node) :
    sheet.Accepted accepts n ↔ accepts node.span = true := by
  simp [Accepted, h]

namespace Embeds

theorem isChild (h : sheet.Embeds parent first (.cons item children rest)) :
    sheet.IsChild parent first := ⟨_, h.node?, rfl⟩

/-- A node of a forest is one of its siblings, or its parent is in the forest and begins before it. -/
theorem exists_parent (h : sheet.Embeds parent first f) (hf : f.Within lo hi) (hfirst : first ≤ n)
    (hlast : n < first + f.size) : ∃ node p, sheet.node? n = some node ∧ node.parent = some p ∧
      (p = parent ∧ lo ≤ node.span.start ∨
        first ≤ p ∧ p < first + f.size ∧ lo < node.span.start) ∧ node.span.stop ≤ hi := by
  induction f generalizing parent first lo hi with
  | nil => simp only [Forest.size] at hlast; omega
  | cons item children rest ih₁ ih₂ =>
    obtain ⟨hstart, hne, hstop, -, hchildren, hrest⟩ := hf
    rw [Forest.size] at hlast ⊢
    by_cases heq : n = first
    · subst heq
      exact ⟨_, parent, h.node?, rfl, .inl ⟨rfl, hstart⟩, hstop⟩
    by_cases hinner : n < first + 1 + children.size
    · obtain ⟨node, p, hnode, hp, hplace, hle⟩ := ih₁ h.inner hchildren (by omega) hinner
      exact ⟨node, p, hnode, hp, .inr (by omega), by omega⟩
    · obtain ⟨node, p, hnode, hp, hplace, hle⟩ := ih₂ h.behind hrest (by omega) (by omega)
      exact ⟨node, p, hnode, hp, by omega, hle⟩

/-- The nodes of a forest stand below its parent. -/
theorem descends (h : sheet.Embeds parent first f) (hfirst : first ≤ n)
    (hlast : n < first + f.size) : Relation.ReflTransGen sheet.IsChild parent n := by
  induction f generalizing parent first with
  | nil => simp only [Forest.size] at hlast; omega
  | cons item children rest ih₁ ih₂ =>
    rw [Forest.size] at hlast
    by_cases heq : n = first
    · subst heq
      exact .single h.isChild
    by_cases hinner : n < first + 1 + children.size
    · exact .head h.isChild (ih₁ h.inner (by omega) hinner)
    · exact ih₂ h.behind (by omega) (by omega)

/-! ### Siblings before a node -/

section Cons
variable (h : sheet.Embeds parent first (.cons item children rest))
  (hf : (Forest.cons item children rest).Within lo hi)
include h hf

/-- The first of the siblings is none of a node inside of it. -/
theorem foremost_inner (hparent : parent < first) (hfirst : first + 1 ≤ n) (hlast : n < first + 1 + children.size) :
    sheet.Foremost accepts first n ↔ sheet.Foremost accepts (first + 1) n := by
  obtain ⟨-, -, -, -, hchildren, -⟩ := hf
  obtain ⟨node, q, hnode, hq, hplace, -⟩ := h.inner.exists_parent hchildren hfirst hlast
  constructor
  · exact fun hfore p m hm => hfore p m (by omega)
  · intro hfore p m hm hmn hpn hpm
    by_cases heq : m = first
    · subst heq
      have hp : p = parent := hpm.unique h.isChild
      have hpq : p = q := hpn.unique ⟨node, hnode, hq⟩
      omega
    · exact hfore p m (by omega) hmn hpn hpm

/-- Behind the first of the siblings, it is one of theirs alone, and the nodes inside of it of none. -/
theorem foremost_behind (hparent : parent < first)
    (hfirst : first + 1 + children.size ≤ n)
    (hlast : n < first + 1 + children.size + rest.size) :
    sheet.Foremost accepts first n ↔
      (sheet.IsChild parent n → accepts item.span = false) ∧
        sheet.Foremost accepts (first + 1 + children.size) n := by
  obtain ⟨-, -, -, -, hchildren, hrest⟩ := hf
  obtain ⟨node, q, hnode, hq, hplace, -⟩ := h.behind.exists_parent hrest hfirst hlast
  constructor
  · intro hfore
    refine ⟨fun hpn => ?_, fun p m hm => hfore p m (by omega)⟩
    have := hfore parent first (Nat.le_refl _) (by omega) hpn h.isChild
    rwa [accepted_iff h.node?, Bool.not_eq_true] at this
  · rintro ⟨hitem, hfore⟩ p m hm hmn hpn hpm
    have hpq : p = q := hpn.unique ⟨node, hnode, hq⟩
    by_cases heq : m = first
    · subst heq
      rw [accepted_iff h.node?, Bool.not_eq_true]
      exact hitem (hpm.unique h.isChild ▸ hpn)
    by_cases hinner : m < first + 1 + children.size
    · obtain ⟨a, r, ha, hr, hplace', -⟩ := h.inner.exists_parent hchildren (by omega) hinner
      have hpr : p = r := hpm.unique ⟨a, ha, hr⟩
      omega
    · exact hfore p m (by omega) hmn hpn hpm

/-- A node inside of the first of the siblings is accepted only with it. -/
theorem accepts_of_inner (hnests : Span.Nests accepts) (hfirst : first + 1 ≤ n)
    (hlast : n < first + 1 + children.size) (hn : sheet.Accepted accepts n) :
    accepts item.span = true := by
  obtain ⟨-, -, -, -, hchildren, -⟩ := hf
  obtain ⟨node, q, hnode, hq, hplace, hle⟩ := h.inner.exists_parent hchildren hfirst hlast
  exact hnests.outer (by omega) hle ((accepted_iff hnode).mp hn)

/-- A node behind the first of the siblings is accepted without it, unless the two touch. -/
theorem refuses_of_behind (hnests : Span.Nests accepts) (hfirst : first + 1 + children.size ≤ n)
    (hlast : n < first + 1 + children.size + rest.size) (hn : sheet.Accepted accepts n)
    (hchild : sheet.IsChild parent n → accepts item.span = false) : accepts item.span = false := by
  obtain ⟨-, -, -, -, -, hrest⟩ := hf
  obtain ⟨node, q, hnode, hq, ⟨rfl, -⟩ | ⟨-, -, hlt⟩, -⟩ := h.behind.exists_parent hrest hfirst hlast
  · exact hchild ⟨node, hnode, hq⟩
  · exact hnests.before hlt ((accepted_iff hnode).mp hn)

end Cons

/-! ### The search -/

theorem search_eq_none_iff (h : sheet.Embeds parent first f) :
    f.search accepts first = none ↔ ∀ m ∈ f.roots first, ¬ sheet.Accepted accepts m := by
  induction f generalizing parent first with
  | nil => simp [Forest.search, Forest.roots]
  | cons item children rest _ ih =>
    rw [Forest.search, Forest.roots, List.forall_mem_cons, accepted_iff h.node?, ← ih h.behind]
    by_cases hitem : accepts item.span = true <;> simp [hitem]

/-- **The node that a search finds**: it is accepted, but none of its children is, and none of the
siblings before it. -/
theorem search_eq_some_iff (h : sheet.Embeds parent first f) (hf : f.Within lo hi)
    (hparent : parent < first) (hnests : Span.Nests accepts) :
    f.search accepts first = some n ↔ (first ≤ n ∧ n < first + f.size) ∧ sheet.Accepted accepts n ∧
      sheet.Foremost accepts first n ∧ ∀ m ∈ sheet.childNumbers n, ¬ sheet.Accepted accepts m := by
  induction f generalizing parent first lo hi with
  | nil => simp only [Forest.search, Forest.size]; constructor <;> intro h <;> simp at h; omega
  | cons item children rest ih₁ ih₂ =>
    have hchildren := hf.2.2.2.2.1
    have hrest := hf.2.2.2.2.2
    rw [Forest.search, Forest.size]
    constructor
    · intro hn
      split at hn
      · rename_i hitem
        cases hchild : children.search accepts (first + 1) with
        | none =>
          rw [hchild] at hn
          obtain rfl : first = n := Option.some.inj hn
          refine ⟨by omega, (accepted_iff h.node?).mpr hitem, fun p m => by omega, ?_⟩
          rw [h.childNumbers]
          exact h.inner.search_eq_none_iff.mp hchild
        | some m =>
          rw [hchild] at hn
          obtain rfl : m = n := Option.some.inj hn
          obtain ⟨hrange, haccepted, hfore, hbelow⟩ :=
            (ih₁ h.inner hchildren (Nat.lt_succ_self _)).mp hchild
          exact ⟨by omega, haccepted, (h.foremost_inner hf hparent hrange.1 hrange.2).mpr hfore, hbelow⟩
      · rename_i hitem
        obtain ⟨hrange, haccepted, hfore, hbelow⟩ := (ih₂ h.behind hrest (by omega)).mp hn
        refine ⟨by omega, haccepted, ?_, hbelow⟩
        exact (h.foremost_behind hf hparent hrange.1 hrange.2).mpr ⟨fun _ => by simpa using hitem, hfore⟩
    · rintro ⟨hrange, haccepted, hfore, hbelow⟩
      by_cases heq : n = first
      · subst heq
        rw [h.childNumbers] at hbelow
        rw [if_pos ((accepted_iff h.node?).mp haccepted), h.inner.search_eq_none_iff.mpr hbelow]
        rfl
      by_cases hinner : n < first + 1 + children.size
      · have hfore' := (h.foremost_inner hf hparent (by omega) hinner).mp hfore
        rw [if_pos (h.accepts_of_inner hf hnests (by omega) hinner haccepted),
          (ih₁ h.inner hchildren (Nat.lt_succ_self _)).mpr ⟨by omega, haccepted, hfore', hbelow⟩]
        rfl
      · obtain ⟨hitem, hfore'⟩ := (h.foremost_behind hf hparent (by omega) (by omega)).mp hfore
        have hno := h.refuses_of_behind hf hnests (by omega) (by omega) haccepted hitem
        rw [if_neg (by simp [hno])]
        exact (ih₂ h.behind hrest (by omega)).mpr ⟨by omega, haccepted, hfore', hbelow⟩

/-- Where a node is accepted, one of the siblings around it is. -/
theorem search_ne_none (h : sheet.Embeds parent first f) (hf : f.Within lo hi)
    (hparent : parent < first) (hnests : Span.Nests accepts) (hfirst : first ≤ n)
    (hlast : n < first + f.size) (hn : sheet.Accepted accepts n) : f.search accepts first ≠ none := by
  induction f generalizing parent first lo hi with
  | nil => simp only [Forest.size] at hlast; omega
  | cons item children rest _ ih =>
    rw [Forest.search]
    rw [Forest.size] at hlast
    split
    · exact Option.some_ne_none _
    · rename_i hitem
      by_cases heq : n = first
      · subst heq
        exact absurd ((accepted_iff h.node?).mp hn) hitem
      by_cases hinner : n < first + 1 + children.size
      · exact absurd (h.accepts_of_inner hf hnests (by omega) hinner hn) hitem
      · exact ih h.behind hf.2.2.2.2.2 (by omega) (by omega) (by omega)

/-- A search that accepts more comes through the node that a search finds, if what it accepts besides
does not end before such a node begins. -/
theorem exists_search (h : sheet.Embeds parent first f) (hf : f.Within lo hi) (hparent : parent < first)
    {wider : Span → Bool} (hnests : Span.Nests accepts) (hnests' : Span.Nests wider)
    (hwider : ∀ a, accepts a = true → wider a = true)
    (hbefore : ∀ a b : Span, a.stop ≤ b.start → accepts b = true → wider a = false)
    (hn : f.search accepts first = some n) :
    ∃ m, f.search wider first = some m ∧ Relation.ReflTransGen sheet.IsChild n m := by
  induction f generalizing parent first lo hi with
  | nil => cases hn
  | cons item children rest ih₁ ih₂ =>
    obtain ⟨-, -, -, -, hchildren, hrest⟩ := hf
    rw [Forest.search] at hn ⊢
    split at hn
    · rename_i hitem
      rw [if_pos (hwider _ hitem)]
      cases hchild : children.search accepts (first + 1) with
      | none =>
        rw [hchild] at hn
        obtain rfl : first = n := Option.some.inj hn
        refine ⟨_, rfl, ?_⟩
        cases hchild' : children.search wider (first + 1) with
        | none => exact .refl
        | some m =>
          obtain ⟨⟨hfirst, hlast⟩, -⟩ :=
            (h.inner.search_eq_some_iff hchildren (Nat.lt_succ_self _) hnests').mp hchild'
          exact h.inner.descends hfirst hlast
      | some k =>
        rw [hchild] at hn
        obtain rfl : k = n := Option.some.inj hn
        obtain ⟨m, hm, hdescends⟩ := ih₁ h.inner hchildren (Nat.lt_succ_self _) hchild
        exact ⟨m, by rw [hm]; rfl, hdescends⟩
    · obtain ⟨⟨hfirst, hlast⟩, haccepted, -⟩ :=
        (h.behind.search_eq_some_iff hrest (by omega) hnests).mp hn
      obtain ⟨node, q, hnode, hq, hplace, -⟩ := h.behind.exists_parent hrest hfirst hlast
      rw [if_neg (by simp [hbefore item.span node.span (by omega) ((accepted_iff hnode).mp haccepted)])]
      exact ih₂ h.behind hrest (by omega) hn

end Embeds

/-! ### The node around an offset -/

/-- A sibling with a lower number ends before a node begins. -/
theorem WellFormed.stop_le_start {length : Nat} (h : sheet.WellFormed length) {p m : Nat} {a b : Node}
    (hlt : m < n) (ha : sheet.node? m = some a) (hb : sheet.node? n = some b)
    (hpa : a.parent = some p) (hpb : b.parent = some p) : a.span.stop ≤ b.span.start := by
  have hstart := h.starts m n a b (ne_zero_of_isChild ⟨a, ha, hpa⟩) hlt ha hb
  have hne := h.nonempty n b (Nat.ne_zero_of_lt hlt) hb
  have hdisjoint := h.disjoint (Nat.ne_of_lt hlt) ha hb hpa hpb
  omega

section Read
variable {t : Text} {o : Nat}

/-- The node that the search through a sheet finds. -/
theorem search_ofText_iff (hnests : Span.Nests accepts) :
    (ofText t).forest.search accepts 1 = some n ↔ n ≠ 0 ∧ (ofText t).Accepted accepts n ∧
      (ofText t).Foremost accepts 1 n ∧
        ∀ m, (ofText t).IsChild n m → ¬ (ofText t).Accepted accepts m := by
  have hlisted : (∀ m ∈ (ofText t).childNumbers n, ¬ (ofText t).Accepted accepts m) ↔
      ∀ m, (ofText t).IsChild n m → ¬ (ofText t).Accepted accepts m :=
    forall_congr' fun m => imp_congr ((wellFormed_ofText t).listed n m) Iff.rfl
  rw [(ofText t).embeds_forest.search_eq_some_iff (within_ofText t) Nat.zero_lt_one hnests, hlisted]
  constructor
  · exact fun ⟨hrange, h⟩ => ⟨by omega, h⟩
  · rintro ⟨hn, haccepted, h⟩
    obtain ⟨node, hnode, -⟩ := id haccepted
    exact ⟨⟨by omega, lt_of_node? hnode⟩, haccepted, h⟩

/-- A sibling before a node touches an offset that is not before the node only with its end. -/
theorem touches_iff_stop_eq {p m : Nat} {a b : Node} (hmn : m < n) (ha : (ofText t).node? m = some a)
    (hb : (ofText t).node? n = some b) (hpa : a.parent = some p) (hpb : b.parent = some p)
    (ho : b.span.start ≤ o) : a.span.touches o = true ↔ a.span.stop = o := by
  have hwell := wellFormed_ofText t
  have hle := hwell.stop_le_start hmn ha hb hpa hpb
  have hne := hwell.nonempty m a (ne_zero_of_isChild ⟨a, ha, hpa⟩) ha
  simp only [Span.touches, Bool.and_eq_true, decide_eq_true_eq]
  omega

theorem foremost_contains (hn : (ofText t).Accepted (·.contains o) n) :
    (ofText t).Foremost (·.contains o) 1 n := by
  rintro p m - hmn ⟨b, hb, hpb⟩ ⟨a, ha, hpa⟩ haccepted
  rw [accepted_iff hb] at hn
  rw [accepted_iff ha] at haccepted
  have hle := (wellFormed_ofText t).stop_le_start hmn ha hb hpa hpb
  simp only [Span.contains, Bool.and_eq_true, decide_eq_true_eq] at hn haccepted
  omega

theorem foremost_touches_iff (hn : (ofText t).Accepted (·.touches o) n) :
    (ofText t).Foremost (·.touches o) 1 n ↔ ∀ p m, m < n → (ofText t).IsChild p n →
      (ofText t).IsChild p m → ¬ (ofText t).Accepted (·.stop == o) m := by
  have hsibling : ∀ p m, m < n → (ofText t).IsChild p n → (ofText t).IsChild p m →
      ((ofText t).Accepted (·.touches o) m ↔ (ofText t).Accepted (·.stop == o) m) := by
    rintro p m hmn ⟨b, hb, hpb⟩ ⟨a, ha, hpa⟩
    rw [accepted_iff hb] at hn
    simp only [Span.touches, Bool.and_eq_true, decide_eq_true_eq] at hn
    rw [accepted_iff ha, accepted_iff ha, beq_iff_eq]
    exact touches_iff_stop_eq hmn ha hb hpa hpb hn.1
  constructor
  · intro hfore p m hmn hpn hpm
    have hm := Nat.pos_of_ne_zero (ne_zero_of_isChild hpm)
    exact fun h => hfore p m hm hmn hpn hpm ((hsibling p m hmn hpn hpm).mpr h)
  · intro hfore p m _ hmn hpn hpm h
    exact hfore p m hmn hpn hpm ((hsibling p m hmn hpn hpm).mp h)

/-- The node strictly around an offset. -/
theorem nodeAt_false_iff : (ofText t).nodeAt o false = some n ↔
    n ≠ 0 ∧ (ofText t).Accepted (·.contains o) n ∧
      ∀ m, (ofText t).IsChild n m → ¬ (ofText t).Accepted (·.contains o) m := by
  simp only [nodeAt, Bool.false_eq_true, if_false]
  rw [search_ofText_iff (Span.nests_contains o)]
  constructor
  · exact fun ⟨hn, haccepted, _, hbelow⟩ => ⟨hn, haccepted, hbelow⟩
  · exact fun ⟨hn, haccepted, hbelow⟩ => ⟨hn, haccepted, foremost_contains haccepted, hbelow⟩

/-- The node around an offset that may be at its ends. -/
theorem nodeAt_true_iff : (ofText t).nodeAt o true = some n ↔
    n ≠ 0 ∧ (ofText t).Accepted (·.touches o) n ∧
      (∀ p m, m < n → (ofText t).IsChild p n → (ofText t).IsChild p m →
        ¬ (ofText t).Accepted (·.stop == o) m) ∧
      ∀ m, (ofText t).IsChild n m → ¬ (ofText t).Accepted (·.touches o) m := by
  simp only [nodeAt, if_true]
  rw [search_ofText_iff (Span.nests_touches o)]
  constructor
  · exact fun ⟨hn, haccepted, hfore, hbelow⟩ =>
      ⟨hn, haccepted, (foremost_touches_iff haccepted).mp hfore, hbelow⟩
  · exact fun ⟨hn, haccepted, hfore, hbelow⟩ =>
      ⟨hn, haccepted, (foremost_touches_iff haccepted).mpr hfore, hbelow⟩

theorem nodeAt_false_eq_none_iff : (ofText t).nodeAt o false = none ↔
    ∀ n, n ≠ 0 → ¬ (ofText t).Accepted (·.contains o) n := by
  constructor
  · intro hnone n hn haccepted
    obtain ⟨node, hnode, -⟩ := id haccepted
    simp only [nodeAt, Bool.false_eq_true, if_false] at hnone
    exact (ofText t).embeds_forest.search_ne_none (within_ofText t) Nat.zero_lt_one
      (Span.nests_contains o) (Nat.pos_of_ne_zero hn) (lt_of_node? hnode) haccepted hnone
  · intro hno
    rw [Option.eq_none_iff_forall_ne_some]
    intro n hn
    obtain ⟨hn, haccepted, -⟩ := nodeAt_false_iff.mp hn
    exact hno n hn haccepted

/-- A declaration is found from every offset between its ends. -/
theorem nodeAt_of_declaration {node : Node} {d : Declaration} (hnode : (ofText t).node? n = some node)
    (hd : node.kind = .declaration d) (ho : node.span.contains o = true) (inclusive : Bool) :
    (ofText t).nodeAt o inclusive = some n := by
  have hn := ne_zero_of_declaration hnode hd
  have hwell := wellFormed_ofText t
  have hchildless : ∀ m, ¬ (ofText t).IsChild n m := by
    intro m hm
    have := hwell.containers n node hnode (List.ne_nil_of_mem ((hwell.listed n m).mpr hm))
    rw [hd] at this
    cases this
  cases inclusive with
  | false =>
    exact nodeAt_false_iff.mpr ⟨hn, (accepted_iff hnode).mpr ho, fun m hm => absurd hm (hchildless m)⟩
  | true =>
    simp only [Span.contains, Bool.and_eq_true, decide_eq_true_eq] at ho
    refine nodeAt_true_iff.mpr ⟨hn, (accepted_iff hnode).mpr ?_, ?_, fun m hm => absurd hm (hchildless m)⟩
    · simp only [Span.touches, Bool.and_eq_true, decide_eq_true_eq]
      omega
    · rintro p m hmn ⟨b, hb, hpb⟩ ⟨a, ha, hpa⟩ hstop
      obtain rfl := Option.some.inj (hnode.symm.trans hb)
      rw [accepted_iff ha, beq_iff_eq] at hstop
      have := hwell.stop_le_start hmn ha hb hpa hpb
      omega

/-- With the ends of nodes counted as inside, the search comes to the node that it finds without. -/
theorem exists_nodeAt_true (hn : (ofText t).nodeAt o false = some n) :
    ∃ m, (ofText t).nodeAt o true = some m ∧ Relation.ReflTransGen (ofText t).IsChild n m := by
  simp only [nodeAt, Bool.false_eq_true, if_false, if_true] at hn ⊢
  refine (ofText t).embeds_forest.exists_search (within_ofText t) Nat.zero_lt_one
    (Span.nests_contains o) (Span.nests_touches o) ?_ ?_ hn
  · intro a ha
    simp only [Span.contains, Span.touches, Bool.and_eq_true, decide_eq_true_eq] at ha ⊢
    omega
  · intro a b hle hb
    simp only [Span.contains, Span.touches, Bool.and_eq_true, Bool.and_eq_false_iff,
      decide_eq_true_eq, decide_eq_false_iff_not] at hb ⊢
    omega

/-- **The node around an offset is the deepest one**, and there is none only where no node is around the
offset. With the ends of nodes counted as inside, an offset may be in two siblings, of which the first is
taken, and the search may lead further down. -/
theorem nodeAt_spec (t : Text) (o : Nat) :
    (∀ n, (ofText t).nodeAt o false = some n ↔ n ≠ 0 ∧ (ofText t).Accepted (·.contains o) n ∧
      ∀ m, (ofText t).IsChild n m → ¬ (ofText t).Accepted (·.contains o) m) ∧
    ((ofText t).nodeAt o false = none ↔
      ∀ n, n ≠ 0 → ¬ (ofText t).Accepted (·.contains o) n) ∧
    (∀ n, (ofText t).nodeAt o true = some n ↔ n ≠ 0 ∧ (ofText t).Accepted (·.touches o) n ∧
      (∀ p m, m < n → (ofText t).IsChild p n → (ofText t).IsChild p m →
        ¬ (ofText t).Accepted (·.stop == o) m) ∧
      ∀ m, (ofText t).IsChild n m → ¬ (ofText t).Accepted (·.touches o) m) ∧
    (∀ n node d, (ofText t).node? n = some node → node.kind = .declaration d →
      node.span.contains o = true → ∀ inclusive, (ofText t).nodeAt o inclusive = some n) ∧
    ∀ n, (ofText t).nodeAt o false = some n → ∃ m, (ofText t).nodeAt o true = some m ∧
      Relation.ReflTransGen (ofText t).IsChild n m :=
  ⟨fun _ => nodeAt_false_iff, nodeAt_false_eq_none_iff, fun _ => nodeAt_true_iff,
    fun _ _ _ hnode hd ho => nodeAt_of_declaration hnode hd ho, fun _ => exists_nodeAt_true⟩

/-- Between two declarations stands the rule, or else the first of them. -/
example : let sheet := ofText "a\x7bx:1;y:2\x7d".toList
    sheet.nodeAt 6 false = some 1 ∧ sheet.nodeAt 6 true = some 2 := by decide +kernel

end Read
end Css.Sheet
end VendorSync
