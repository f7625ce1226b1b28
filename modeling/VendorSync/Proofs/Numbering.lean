import VendorSync.Proofs.Layout

/-! The numbers of nodes, their child lists and their parent links.

`WellFormed` lists what holds of every sheet that is read (`wellFormed_ofText`). The nodes and the
child lists of a forest inside of a sheet are stretches of those of the sheet (`Embeds`), so
that each fact about all nodes is an induction on the forest. -/
namespace VendorSync.Css

namespace Forest

/-- The numbers of siblings that are numbered from `first` on. -/
def roots (first : Nat) : Forest → List Nat
  | nil => []
  | cons _ children rest => first :: rest.roots (first + 1 + children.size)

/-- The numbers of the children of each node, in the order of the nodes. -/
def childLists (first : Nat) : Forest → List (List Nat)
  | nil => []
  | cons _ children rest =>
    children.roots (first + 1) ::
      (children.childLists (first + 1) ++ rest.childLists (first + 1 + children.size))

@[simp] theorem length_childLists (first : Nat) (f : Forest) :
    (f.childLists first).length = f.size := by
  induction f generalizing first with
  | nil => rfl
  | cons item children rest ih₁ ih₂ => simp [childLists, size, ih₁, ih₂]; omega

/-- The siblings have increasing numbers. -/
theorem pairwise_roots (first : Nat) (f : Forest) :
    (f.roots first).Pairwise (· < ·) ∧ ∀ n ∈ f.roots first, first ≤ n ∧ n < first + f.size := by
  induction f generalizing first with
  | nil => simp [roots]
  | cons item children rest _ ih =>
    obtain ⟨hpairwise, hbounds⟩ := ih (first + 1 + children.size)
    simp only [roots, size, List.pairwise_cons, List.forall_mem_cons]
    refine ⟨⟨fun n hn => ?_, hpairwise⟩, by omega, fun n hn => ?_⟩
    · have := hbounds n hn
      omega
    · have := hbounds n hn
      omega

end Forest

/-- A walk over nodes that comes to each node before its children, by their lists, and to
these before the next. -/
inductive Visits (below : Nat → List Nat) : List Nat → List Nat → Prop
  | nil : Visits below [] []
  | cons {n ns inner after} : Visits below (below n) inner → Visits below ns after →
      Visits below (n :: ns) (n :: (inner ++ after))

namespace Sheet

/-- The child lists of all nodes. -/
def childLists (sheet : Sheet) : List (List Nat) :=
  sheet.forest.roots 1 :: sheet.forest.childLists 1

/-- The child list of a node. -/
def childNumbers (sheet : Sheet) (n : Nat) : List Nat := sheet.childLists[n]?.getD []

/-- The tree of a text of this length. -/
structure WellFormed (sheet : Sheet) (length : Nat) : Prop where
  root : sheet.node? 0 = some ⟨⟨.root, ⟨0, length⟩⟩, none⟩
  /-- Every node but the root has bytes, all of them in the text. -/
  nonempty : ∀ n node, n ≠ 0 → sheet.node? n = some node →
    node.span.start < node.span.stop ∧ node.span.stop ≤ length
  containers : ∀ n node, sheet.node? n = some node → sheet.childNumbers n ≠ [] →
    node.kind.isContainer = true
  /-- Every node but the root has a parent, which comes before it. -/
  linked : ∀ n node, n ≠ 0 → sheet.node? n = some node → ∃ p < n, node.parent = some p
  /-- A node is in the child list of its parent and in no other. -/
  listed : ∀ p n, n ∈ sheet.childNumbers p ↔
    ∃ node, sheet.node? n = some node ∧ node.parent = some p
  once : ∀ p, (sheet.childNumbers p).Nodup
  /-- Each sibling ends before the next begins. -/
  siblings : ∀ p, (sheet.childNumbers p).Pairwise fun m n => ∀ a b, sheet.node? m = some a →
    sheet.node? n = some b → a.span.stop ≤ b.span.start
  /-- A child stands behind the start of its parent and ends in it. -/
  nested : ∀ p n parent node, p ≠ 0 → n ∈ sheet.childNumbers p → sheet.node? p = some parent →
    sheet.node? n = some node →
      parent.span.start < node.span.start ∧ node.span.stop ≤ parent.span.stop
  /-- The numbers are those of the walk from the root. -/
  preorder : Visits sheet.childNumbers [0] (List.range sheet.nodes.length)
  starts : ∀ m n a b, m ≠ 0 → m < n → sheet.node? m = some a → sheet.node? n = some b →
    a.span.start < b.span.start
  declared : ∀ n d, (n, d) ∈ sheet.declarations ↔
    ∃ node, sheet.node? n = some node ∧ node.kind = .declaration d
  declarations_order : sheet.declarations.Pairwise fun x y => ∀ a b, sheet.node? x.1 = some a →
    sheet.node? y.1 = some b → a.span.start < b.span.start

/-! ### Forests inside of a sheet -/

/-- The forest is part of the sheet, under the node `parent` and from the number `first` on. -/
structure Embeds (sheet : Sheet) (parent first : Nat) (f : Forest) : Prop where
  nodes : ∃ a b, sheet.nodes = a ++ (f.nodes parent first ++ b) ∧ a.length = first
  lists : ∃ a b, sheet.childLists = a ++ (f.childLists first ++ b) ∧ a.length = first

variable {sheet : Sheet} {parent first : Nat} {item : Item} {children rest : Forest}

theorem embeds_forest (sheet : Sheet) : sheet.Embeds 0 1 sheet.forest where
  nodes := ⟨[_], [], by rw [List.append_nil]; exact sheet.nodes_eq, rfl⟩
  lists := ⟨[_], [], by rw [List.append_nil]; rfl, rfl⟩

theorem Embeds.inner (h : sheet.Embeds parent first (.cons item children rest)) :
    sheet.Embeds first (first + 1) children where
  nodes := by
    obtain ⟨a, b, hab, rfl⟩ := h.nodes
    refine ⟨a ++ [{ item with parent := some parent }],
      rest.nodes parent (a.length + 1 + children.size) ++ b, ?_, List.length_append⟩
    simp [hab, Forest.nodes]
  lists := by
    obtain ⟨a, b, hab, rfl⟩ := h.lists
    refine ⟨a ++ [children.roots (a.length + 1)],
      rest.childLists (a.length + 1 + children.size) ++ b, ?_, List.length_append⟩
    simp [hab, Forest.childLists]

theorem Embeds.behind (h : sheet.Embeds parent first (.cons item children rest)) :
    sheet.Embeds parent (first + 1 + children.size) rest where
  nodes := by
    obtain ⟨a, b, hab, rfl⟩ := h.nodes
    refine ⟨a ++ { item with parent := some parent } :: children.nodes a.length (a.length + 1), b,
      ?_, ?_⟩
    · simp [hab, Forest.nodes]
    · rw [List.length_append, List.length_cons, Forest.length_nodes]
      omega
  lists := by
    obtain ⟨a, b, hab, rfl⟩ := h.lists
    refine ⟨a ++ children.roots (a.length + 1) :: children.childLists (a.length + 1), b, ?_, ?_⟩
    · simp [hab, Forest.childLists]
    · rw [List.length_append, List.length_cons, Forest.length_childLists]
      omega

theorem Embeds.node? (h : sheet.Embeds parent first (.cons item children rest)) :
    sheet.node? first = some { item with parent := some parent } := by
  obtain ⟨a, b, hab, rfl⟩ := h.nodes
  simp [Sheet.node?, hab, Forest.nodes]

theorem Embeds.childNumbers (h : sheet.Embeds parent first (.cons item children rest)) :
    sheet.childNumbers first = children.roots (first + 1) := by
  obtain ⟨a, b, hab, rfl⟩ := h.lists
  simp [Sheet.childNumbers, hab, Forest.childLists]

section Forests
variable {f : Forest} {lo hi : Nat}

/-- The siblings of a forest are nodes under its parent. -/
theorem Embeds.exists_of_mem_roots (h : sheet.Embeds parent first f) (hf : f.Within lo hi) {n : Nat}
    (hn : n ∈ f.roots first) : ∃ node, sheet.node? n = some node ∧ node.parent = some parent ∧
      lo ≤ node.span.start ∧ node.span.stop ≤ hi := by
  induction f generalizing first lo with
  | nil => cases hn
  | cons item children rest _ ih =>
    obtain ⟨hstart, hne, hstop, -, -, hrest⟩ := hf
    rcases List.mem_cons.mp hn with rfl | hn
    · exact ⟨_, h.node?, rfl, hstart, hstop⟩
    · obtain ⟨node, hnode, hparent, hlo, hhi⟩ := ih h.behind hrest hn
      exact ⟨node, hnode, hparent, by omega, hhi⟩

theorem Embeds.pairwise_roots (h : sheet.Embeds parent first f) (hf : f.Within lo hi) :
    (f.roots first).Pairwise fun m n => ∀ a b, sheet.node? m = some a → sheet.node? n = some b →
      a.span.stop ≤ b.span.start := by
  induction f generalizing first lo with
  | nil => exact .nil
  | cons item children rest _ ih =>
    obtain ⟨-, -, -, -, -, hrest⟩ := hf
    refine .cons (fun n hn a b ha hb => ?_) (ih h.behind hrest)
    obtain ⟨node, hnode, -, hlo, -⟩ := h.behind.exists_of_mem_roots hrest hn
    rw [h.node?, Option.some.injEq] at ha
    rw [hnode, Option.some.injEq] at hb
    rw [← ha, ← hb]
    exact hlo

/-- Walking over the siblings of a forest comes to the numbers of all its nodes in order. -/
theorem Embeds.visits (h : sheet.Embeds parent first f) :
    Visits sheet.childNumbers (f.roots first) (List.range' first f.size) := by
  induction f generalizing parent first with
  | nil => exact .nil
  | cons item children rest ih₁ ih₂ =>
    have hrange : List.range' first (1 + children.size + rest.size) = first ::
        (List.range' (first + 1) children.size ++
          List.range' (first + 1 + children.size) rest.size) := by
      rw [Nat.add_assoc, Nat.add_comm, List.range'_succ, List.range'_append_1]
    show Visits _ (first :: _) (List.range' first (1 + children.size + rest.size))
    rw [hrange]
    exact .cons (by rw [h.childNumbers]; exact ih₁ h.inner) (ih₂ h.behind)

/-- Every number of a forest belongs to one of its nodes, which is in its parent's list. -/
theorem Embeds.exists_of_lt (h : sheet.Embeds parent first f) (hf : f.Within lo hi)
    (hparent : parent < first) (hlisted : ∀ k ∈ f.roots first, k ∈ sheet.childNumbers parent) {n : Nat}
    (hfirst : first ≤ n) (hlast : n < first + f.size) : ∃ above item children rest lo hi,
      sheet.Embeds above n (.cons item children rest) ∧
      (Forest.cons item children rest).Within lo hi ∧ above < n ∧ n ∈ sheet.childNumbers above := by
  induction f generalizing parent first lo hi with
  | nil => simp only [Forest.size] at hlast; omega
  | cons item children rest ih₁ ih₂ =>
    obtain ⟨-, -, -, -, hchildren, hrest⟩ := id hf
    rw [Forest.size] at hlast
    by_cases heq : n = first
    · subst heq
      exact ⟨parent, item, children, rest, lo, hi, h, hf, hparent,
        hlisted n (List.mem_cons_self ..)⟩
    by_cases hinner : n < first + 1 + children.size
    · exact ih₁ h.inner hchildren (by omega) (by rw [h.childNumbers]; simp) (by omega) (by omega)
    · exact ih₂ h.behind hrest (by omega)
        (fun k hk => hlisted k (List.mem_cons_of_mem _ hk)) (by omega) (by omega)

/-- The nodes of a forest stand between its ends, and each begins before the next. -/
theorem starts_of_within (hf : f.Within lo hi) (parent first : Nat) :
    (f.nodes parent first).Pairwise (fun a b => a.span.start < b.span.start) ∧
      ∀ node ∈ f.nodes parent first,
        lo ≤ node.span.start ∧ node.span.start < node.span.stop ∧ node.span.stop ≤ hi := by
  induction f generalizing parent first lo hi with
  | nil => simp [Forest.nodes]
  | cons item children rest ih₁ ih₂ =>
    obtain ⟨hstart, hne, hstop, -, hchildren, hrest⟩ := hf
    obtain ⟨horder₁, hbounds₁⟩ := ih₁ hchildren first (first + 1)
    obtain ⟨horder₂, hbounds₂⟩ := ih₂ hrest parent (first + 1 + children.size)
    simp only [Forest.nodes, List.pairwise_cons, List.pairwise_append, List.forall_mem_cons,
      List.mem_append]
    refine ⟨⟨fun b hb => ?_, horder₁, horder₂, fun a ha b hb => ?_⟩, ⟨hstart, hne, hstop⟩,
      fun node hnode => ?_⟩
    · rcases hb with hb | hb
      · have := hbounds₁ b hb
        show item.span.start < b.span.start
        omega
      · have := hbounds₂ b hb
        show item.span.start < b.span.start
        omega
    · have := hbounds₁ a ha
      have := hbounds₂ b hb
      omega
    · rcases hnode with hnode | hnode
      · have := hbounds₁ node hnode
        omega
      · have := hbounds₂ node hnode
        omega

end Forests

/-! ### Sheets that are read -/

theorem node?_zero (sheet : Sheet) :
    sheet.node? 0 = some ⟨⟨.root, ⟨0, sheet.length⟩⟩, none⟩ := by
  simp [Sheet.node?, sheet.nodes_eq]

theorem node?_succ (sheet : Sheet) (n : Nat) :
    sheet.node? (n + 1) = (sheet.forest.nodes 0 1)[n]? := by
  simp [Sheet.node?, sheet.nodes_eq]

theorem lt_of_node? {sheet : Sheet} {n : Nat} {node : Node} (h : sheet.node? n = some node) :
    n < 1 + sheet.forest.size := by
  rw [← sheet.length_nodes]
  exact (List.getElem?_eq_some_iff.mp h).1

theorem mem_declarations {n : Nat} {d : Declaration} :
    (n, d) ∈ sheet.declarations ↔
      ∃ node, sheet.node? n = some node ∧ node.kind = .declaration d := by
  simp only [declarations, List.mem_filterMap, Prod.exists, List.mem_zipIdx_iff_getElem?,
    Option.map_eq_some_iff, Prod.mk.injEq]
  constructor
  · intro h
    rcases h with ⟨node, m, hnode, d', hd, rfl, rfl⟩
    refine ⟨node, hnode, ?_⟩
    unfold Kind.declaration? at hd
    split at hd <;> simp_all
  · intro h
    rcases h with ⟨node, hnode, hkind⟩
    exact ⟨node, n, hnode, d, by rw [hkind]; rfl, rfl, rfl⟩

theorem pairwise_declarations (sheet : Sheet) :
    sheet.declarations.Pairwise fun x y => x.1 < y.1 := by
  have hnumbers : sheet.nodes.zipIdx.Pairwise fun a b => a.2 < b.2 := by
    rw [List.pairwise_iff_getElem]
    intro i j hi hj hij
    rw [List.getElem_zipIdx, List.getElem_zipIdx]
    show 0 + i < 0 + j
    omega
  rw [declarations, List.pairwise_filterMap]
  apply hnumbers.imp
  intro a b hlt x hx y hy
  obtain ⟨_, -, rfl⟩ := Option.map_eq_some_iff.mp hx
  obtain ⟨_, -, rfl⟩ := Option.map_eq_some_iff.mp hy
  exact hlt

section Read
variable {length : Nat}

/-- Every node but the root is one of the forest, with its children inside of it. -/
theorem exists_of_ne_zero (h : sheet.forest.Within 0 length) {n : Nat} (hn : n ≠ 0)
    (hlt : n < 1 + sheet.forest.size) : ∃ above item children rest lo hi,
      sheet.Embeds above n (.cons item children rest) ∧
      (Forest.cons item children rest).Within lo hi ∧ above < n ∧ n ∈ sheet.childNumbers above :=
  sheet.embeds_forest.exists_of_lt h Nat.zero_lt_one (fun _ hk => hk) (by omega) hlt

/-- The child list of a node is that of a forest inside of its span. -/
theorem exists_children (h : sheet.forest.Within 0 length) {p : Nat}
    (hp : p < 1 + sheet.forest.size) : ∃ children lo hi, sheet.childNumbers p = children.roots (p + 1) ∧
      sheet.Embeds p (p + 1) children ∧ children.Within lo hi ∧
      ∀ node, p ≠ 0 → sheet.node? p = some node → lo = node.span.start + 1 ∧ hi = node.span.stop ∧
        (children ≠ .nil → node.kind.isContainer = true) := by
  by_cases h0 : p = 0
  · subst h0
    exact ⟨_, _, _, rfl, sheet.embeds_forest, h, fun _ h => absurd rfl h⟩
  · obtain ⟨above, item, children, rest, lo, hi, hembeds, hwithin, -, -⟩ := exists_of_ne_zero h h0 hp
    obtain ⟨-, -, -, hkind, hchildren, -⟩ := hwithin
    refine ⟨children, _, _, hembeds.childNumbers, hembeds.inner, hchildren, fun node _ hnode => ?_⟩
    rw [hembeds.node?, Option.some.injEq] at hnode
    rw [← hnode]
    exact ⟨rfl, rfl, hkind⟩

theorem childNumbers_of_le {p : Nat} (hp : 1 + sheet.forest.size ≤ p) : sheet.childNumbers p = [] := by
  have : sheet.childLists.length ≤ p := by
    rw [childLists, List.length_cons, Forest.length_childLists]
    omega
  rw [childNumbers, List.getElem?_eq_none this]
  rfl

theorem listed_iff (h : sheet.forest.Within 0 length) (p n : Nat) :
    n ∈ sheet.childNumbers p ↔ ∃ node, sheet.node? n = some node ∧ node.parent = some p := by
  constructor
  · intro hn
    by_cases hp : p < 1 + sheet.forest.size
    · obtain ⟨children, lo, hi, hlist, hembeds, hwithin, -⟩ := exists_children h hp
      rw [hlist] at hn
      obtain ⟨node, hnode, hparent, -⟩ := hembeds.exists_of_mem_roots hwithin hn
      exact ⟨node, hnode, hparent⟩
    · rw [childNumbers_of_le (by omega)] at hn
      cases hn
  · intro h
    rcases h with ⟨node, hnode, hparent⟩
    have hn : n ≠ 0 := by
      intro heq
      subst heq
      rw [node?_zero, Option.some.injEq] at hnode
      rw [← hnode] at hparent
      cases hparent
    obtain ⟨above, item, children, rest, lo, hi, hembeds, -, -, hlisted⟩ :=
      exists_of_ne_zero h hn (lt_of_node? hnode)
    rw [hembeds.node?, Option.some.injEq] at hnode
    rw [← hnode, Option.some.injEq] at hparent
    exact hparent ▸ hlisted

theorem bounds_of_node? (h : sheet.forest.Within 0 length) {n : Nat} {node : Node} (hn : n ≠ 0)
    (hnode : sheet.node? n = some node) :
    node.span.start < node.span.stop ∧ node.span.stop ≤ length := by
  obtain ⟨m, rfl⟩ := Nat.exists_eq_succ_of_ne_zero hn
  rw [Nat.succ_eq_add_one, node?_succ] at hnode
  exact ((starts_of_within h 0 1).2 node (List.mem_of_getElem? hnode)).2

theorem starts_lt (h : sheet.forest.Within 0 length) {m n : Nat} {a b : Node} (hm : m ≠ 0)
    (hlt : m < n) (ha : sheet.node? m = some a) (hb : sheet.node? n = some b) :
    a.span.start < b.span.start := by
  obtain ⟨m, rfl⟩ := Nat.exists_eq_succ_of_ne_zero hm
  obtain ⟨n, rfl⟩ := Nat.exists_eq_succ_of_ne_zero (Nat.ne_zero_of_lt hlt)
  rw [Nat.succ_eq_add_one, node?_succ, List.getElem?_eq_some_iff] at ha hb
  obtain ⟨hm', rfl⟩ := ha
  obtain ⟨hn', rfl⟩ := hb
  exact List.pairwise_iff_getElem.mp (starts_of_within h 0 1).1 m n hm' hn' (by omega)

/-- A sheet whose nodes stand inside of each other is a tree in the order of its numbers. -/
theorem wellFormed_of_within (h : sheet.forest.Within 0 sheet.length) :
    sheet.WellFormed sheet.length where
  root := node?_zero sheet
  nonempty n node hn hnode := bounds_of_node? h hn hnode
  containers n node hnode hchildren := by
    by_cases hn : n = 0
    · subst hn
      rw [node?_zero, Option.some.injEq] at hnode
      rw [← hnode]
      rfl
    · obtain ⟨children, lo, hi, hlist, -, -, hinside⟩ := exists_children h (lt_of_node? hnode)
      apply (hinside node hn hnode).2.2
      intro heq
      subst heq
      exact hchildren hlist
  linked n node hn hnode := by
    obtain ⟨above, item, children, rest, lo, hi, hembeds, -, hlt, -⟩ :=
      exists_of_ne_zero h hn (lt_of_node? hnode)
    rw [hembeds.node?, Option.some.injEq] at hnode
    exact ⟨above, hlt, by rw [← hnode]⟩
  listed := listed_iff h
  once p := by
    by_cases hp : p < 1 + sheet.forest.size
    · obtain ⟨children, lo, hi, hlist, -⟩ := exists_children h hp
      rw [hlist]
      exact (children.pairwise_roots (p + 1)).1.imp Nat.ne_of_lt
    · rw [childNumbers_of_le (by omega)]
      exact .nil
  siblings p := by
    by_cases hp : p < 1 + sheet.forest.size
    · obtain ⟨children, lo, hi, hlist, hembeds, hwithin, -⟩ := exists_children h hp
      rw [hlist]
      exact hembeds.pairwise_roots hwithin
    · rw [childNumbers_of_le (by omega)]
      exact .nil
  nested p n parent node hp hn hparent hnode := by
    obtain ⟨children, lo, hi, hlist, hembeds, hwithin, hinside⟩ := exists_children h (lt_of_node? hparent)
    obtain ⟨rfl, rfl, -⟩ := hinside parent hp hparent
    rw [hlist] at hn
    obtain ⟨node', hnode', -, hlo, hhi⟩ := hembeds.exists_of_mem_roots hwithin hn
    rw [hnode, Option.some.injEq] at hnode'
    exact ⟨hnode' ▸ hlo, hnode' ▸ hhi⟩
  preorder := by
    have hrange : List.range sheet.nodes.length =
        0 :: (List.range' 1 sheet.forest.size ++ []) := by
      rw [sheet.length_nodes, List.append_nil, List.range_eq_range', Nat.add_comm, List.range'_succ]
    rw [hrange]
    exact .cons sheet.embeds_forest.visits .nil
  starts m n a b hm hlt ha hb := starts_lt h hm hlt ha hb
  declared n d := mem_declarations
  declarations_order := by
    refine sheet.pairwise_declarations.imp_of_mem fun {x y} hx _ hlt a b ha hb => starts_lt h ?_ hlt ha hb
    intro h0
    obtain ⟨node, hnode, hkind⟩ := mem_declarations.mp hx
    rw [h0, node?_zero, Option.some.injEq] at hnode
    rw [← hnode] at hkind
    cases hkind

end Read

/-- **Every text reads as a tree** whose nodes stand in its order, inside of each other. -/
theorem wellFormed_ofText (t : Text) : (ofText t).WellFormed t.byteLength :=
  wellFormed_of_within (within_ofText t)

end Sheet
end VendorSync.Css
