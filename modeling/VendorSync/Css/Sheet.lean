import VendorSync.Text.Span

/-! Style sheets as trees whose nodes know where they stand in the text.

A sheet is a forest under an implicit root. Nodes have numbers, given in the order of the
text with the root as number 0, so that a node comes before its children and these
before its later siblings. -/
namespace VendorSync.Css

/-- A property name with its value, such as `color: red`. -/
structure Declaration where
  name : Text
  nameSpan : Span
  /-- The source of the value, with everything up to the last significant token. -/
  value : Text
  valueSpan : Span
deriving DecidableEq, Repr

inductive Kind where
  | root
  | rule (selector : Text) (selectorSpan : Span)
  | atRule (name prelude : Text) (hasBlock : Bool)
  | declaration (d : Declaration)
  | comment
  /-- What is none of the others, so that its text still belongs to a node. -/
  | other
deriving DecidableEq, Repr

namespace Kind

def declaration? : Kind → Option Declaration
  | declaration d => some d
  | _ => none

/-- Whether a node of this kind has a block for children. -/
def isContainer : Kind → Bool
  | root | rule .. => true
  | atRule _ _ hasBlock => hasBlock
  | _ => false

end Kind

/-- A node without its place in the tree. -/
structure Item where
  kind : Kind
  span : Span
deriving DecidableEq, Repr

/-! ### Forests -/

/-- Siblings in order, each with its children. -/
inductive Forest where
  | nil
  | cons (item : Item) (children rest : Forest)
deriving DecidableEq, Repr

/-- A node that has its place: its parent's number. -/
structure Node extends Item where
  parent : Option Nat
deriving DecidableEq, Repr

namespace Forest

/-- How many nodes there are. -/
def size : Forest → Nat
  | nil => 0
  | cons _ children rest => 1 + children.size + rest.size

/-- The nodes of a forest under the node `parent`, numbered from `first` on. -/
def nodes (parent first : Nat) : Forest → List Node
  | nil => []
  | cons item children rest =>
    { item with parent := some parent } ::
      (children.nodes first (first + 1) ++ rest.nodes parent (first + 1 + children.size))

/-- The first sibling whose span is accepted, or the node that the same search finds among its
children. -/
def search (accepts : Span → Bool) (first : Nat) : Forest → Option Nat
  | nil => none
  | cons item children rest =>
    if accepts item.span then some ((children.search accepts (first + 1)).getD first)
    else rest.search accepts (first + 1 + children.size)

/-- Siblings in front of further siblings. -/
def append : Forest → Forest → Forest
  | nil, after => after
  | cons item children rest, after => cons item children (rest.append after)

@[simp] theorem length_nodes (parent first : Nat) (f : Forest) :
    (f.nodes parent first).length = f.size := by
  induction f generalizing parent first with
  | nil => rfl
  | cons item children rest ih₁ ih₂ => simp [nodes, size, ih₁, ih₂]; omega

@[simp] theorem append_nil (f : Forest) : f.append nil = f := by
  induction f with
  | nil => rfl
  | cons item children rest _ ih => rw [append, ih]

theorem append_assoc (f g h : Forest) : (f.append g).append h = f.append (g.append h) := by
  induction f with
  | nil => rfl
  | cons item children rest _ ih => simp only [append, ih]

@[simp] theorem size_append (f g : Forest) : (f.append g).size = f.size + g.size := by
  induction f with
  | nil => simp [append, size]
  | cons item children rest _ ih => simp only [append, size, ih]; omega

end Forest

/-! ### Sheets -/

/-- The root's children, and the list of all nodes by number that they determine. -/
structure Sheet where
  /-- The number of bytes of the text. -/
  length : Nat
  forest : Forest
  nodes : List Node := ⟨⟨.root, ⟨0, length⟩⟩, none⟩ :: forest.nodes 0 1
  nodes_eq : nodes = ⟨⟨.root, ⟨0, length⟩⟩, none⟩ :: forest.nodes 0 1 := by rfl
deriving DecidableEq

namespace Sheet

/-- The node of a number, if there is one. -/
def node? (sheet : Sheet) (n : Nat) : Option Node := sheet.nodes[n]?

/-- The children of a node in order. -/
def children (sheet : Sheet) (n : Nat) : List Node :=
  sheet.nodes.filter fun node => node.parent == some n

/-- The declarations of the sheet with their numbers. -/
def declarations (sheet : Sheet) : List (Nat × Declaration) :=
  sheet.nodes.zipIdx.filterMap fun (node, n) => node.kind.declaration?.map (n, ·)

/-- The first child of a node that declares exactly this property. -/
def findDeclaration (sheet : Sheet) (n : Nat) (name : Text) : Option Declaration :=
  ((sheet.children n).filterMap (·.kind.declaration?)).find? fun d => d.name == name

/-- The deepest node around an offset. At each level the first node around it wins; with
`inclusive` an offset at an end of a node counts as inside. The root is not found. -/
def nodeAt (sheet : Sheet) (offset : Nat) (inclusive : Bool) : Option Nat :=
  sheet.forest.search (fun span => if inclusive then span.touches offset else span.contains offset) 1

theorem length_nodes (sheet : Sheet) : sheet.nodes.length = 1 + sheet.forest.size := by
  simp [sheet.nodes_eq, Nat.add_comm]

end Sheet
end VendorSync.Css
