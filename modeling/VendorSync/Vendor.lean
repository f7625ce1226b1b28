import VendorSync.Text

/-! Vendor prefixes of property names.

A name is split at the first mark of the list that it starts with. Every name starts with
the empty mark of a plain property, which comes last, so each name has exactly one split
and is put together again by it (`mark_append_base`). -/
namespace VendorSync

inductive Vendor where
  | webkit | moz | ms | o
  /-- The property without a prefix. -/
  | plain
deriving DecidableEq, Repr

namespace Vendor

/-- What a property name of the vendor starts with. -/
def mark : Vendor → Text
  | webkit => ['-', 'w', 'e', 'b', 'k', 'i', 't', '-']
  | moz => ['-', 'm', 'o', 'z', '-']
  | ms => ['-', 'm', 's', '-']
  | o => ['-', 'o', '-']
  | plain => []

/-- All vendors in the order in which names are tried. -/
def all : List Vendor := [webkit, moz, ms, o, plain]

/-- The vendor of a property name. -/
def ofName (name : Text) : Vendor := (all.find? (·.mark.isPrefixOf name)).getD plain

/-- The property name without its vendor's mark. -/
def baseName (name : Text) : Text := name.drop (ofName name).mark.length

theorem mem_all (v : Vendor) : v ∈ all := by cases v <;> decide

theorem mark_isPrefixOf (name : Text) : (ofName name).mark.isPrefixOf name = true := by
  rw [ofName]
  cases h : all.find? (·.mark.isPrefixOf name) with
  | none => rfl
  | some v => simpa using List.find?_some h

/-- The split loses nothing of the name. -/
theorem mark_append_base (name : Text) : (ofName name).mark ++ baseName name = name := by
  obtain ⟨rest, h⟩ := List.isPrefixOf_iff_prefix.mp (mark_isPrefixOf name)
  have hbase : baseName name = rest := by
    rw [baseName]
    generalize (ofName name).mark = m at h
    rw [← h, List.drop_left]
  rw [hbase, h]

end Vendor
end VendorSync
