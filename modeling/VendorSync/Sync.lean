import VendorSync.Css.Reading
import VendorSync.Text.Edit
import VendorSync.Vendor

/-! Carrying the value of a declaration over to its siblings of other vendors.

The siblings of a declaration are, for each other vendor, the first child of the same block
that declares the same base name with that vendor's mark. Each gets the value, unless it has
it already; what is not there is not added. -/
namespace VendorSync.Css.Sheet

/-- The edit that gives the sibling of one vendor its value. -/
def syncEdit (sheet : Sheet) (block : Nat) (baseName value : Text) (v : Vendor) : Option Edit :=
  match sheet.findDeclaration block (v.mark ++ baseName) with
  | some d => if d.value = value then none else some ⟨d.valueSpan, value⟩
  | none => none

/-- The edits that give the siblings of a property in a block its value, in the order of the
vendors. -/
def syncEdits (sheet : Sheet) (block : Nat) (name value : Text) : List Edit :=
  (Vendor.all.filter (· ≠ Vendor.ofName name)).filterMap
    (sheet.syncEdit block (Vendor.baseName name) value)

/-- The edits that carry over the value of a node, or `none` if the node is no declaration in a
block. -/
def syncEditsFrom (sheet : Sheet) (n : Nat) : Option (List Edit) := do
  let node ← sheet.node? n
  let d ← node.kind.declaration?
  let block ← node.parent
  let parent ← sheet.node? block
  if parent.kind.isContainer then some (sheet.syncEdits block d.name d.value) else none

/-- The edits for the declaration around an offset of a text. -/
def syncEditsAt (t : Text) (offset : Nat) : Option (List Edit) := do
  let sheet := ofText t
  let n ← sheet.nodeAt offset true
  sheet.syncEditsFrom n

end VendorSync.Css.Sheet
