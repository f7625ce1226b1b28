import VendorSync.Proofs.Siblings

/-! Declarations of one property for several vendors.

No mark of a vendor is hidden by another, so a base name that begins with none of them is found again
under every mark (`ofName_mark_append`, `baseName_mark_append`). Declarations of a block that share such a
base name are therefore siblings of each other: each of them replaces the value of the other or neither
does (`replaces_symmetric`). -/
namespace VendorSync

namespace Vendor

/-- The base name begins with no vendor's mark. -/
def Unmarked (base : Text) : Prop := ∀ v : Vendor, v.mark <+: base → v = plain

/-- Only the empty mark is the beginning of another one. -/
theorem eq_of_prefix_mark {v w : Vendor} (h : v.mark <+: w.mark) (hv : v ≠ plain) : v = w := by
  revert h hv
  cases v <;> cases w <;> decide

/-- **A mark is detected before every unmarked base name.** -/
theorem ofName_mark_append {base : Text} (hbase : Unmarked base) (v : Vendor) :
    ofName (v.mark ++ base) = v := by
  obtain ⟨before, after, hall⟩ := List.append_of_mem (mem_all v)
  refine ofName_eq_iff.mpr ⟨before, after, hall, List.prefix_append .., fun w hw hmark => ?_⟩
  have hnodup : all.Nodup := by decide
  rw [hall, List.nodup_middle, List.nodup_cons, List.mem_append, not_or] at hnodup
  have hne : w ≠ v := fun heq => hnodup.1.1 (heq ▸ hw)
  -- the empty mark is the last of all, so it is not before another
  have hplain : w ≠ plain := by
    rintro rfl
    have hmem : plain ∈ all.dropLast := by
      rw [hall, List.dropLast_append_of_ne_nil (List.cons_ne_nil v after)]
      exact List.mem_append_left _ hw
    exact absurd hmem (by decide)
  rcases List.prefix_or_prefix_of_prefix hmark (List.prefix_append v.mark base) with h | h
  · exact hne (eq_of_prefix_mark h hplain)
  · by_cases hv : v = plain
    · subst hv
      exact hplain (hbase w hmark)
    · exact hne (eq_of_prefix_mark h hv).symm

theorem baseName_mark_append {base : Text} (hbase : Unmarked base) (v : Vendor) :
    baseName (v.mark ++ base) = base := by
  rw [baseName, ofName_mark_append hbase, List.drop_left]

end Vendor

namespace Css.Sheet

/-- The edits for a declaration replace what a span covers. -/
def Replaces (sheet : Sheet) (n : Nat) (s : Span) : Prop :=
  ∃ edits, sheet.syncEditsFrom n = some edits ∧ ∃ e ∈ edits, e.span = s

/-- The node is the first in its block to declare its name, and this has one mark at most. -/
structure Leads (sheet : Sheet) (block n : Nat) (d : Declaration) : Prop where
  declares : ∃ node, sheet.node? n = some node ∧ node.parent = some block ∧ node.kind = .declaration d
  first : FirstDeclares (sheet.children block) d.name d
  unmarked : Vendor.Unmarked (Vendor.baseName d.name)

section Read
variable {t : Text} {block m n : Nat} {a b : Node} {p q : Declaration}

/-- **A value stands at one place only**, also an empty one. -/
theorem eq_of_valueSpan (ha : (ofText t).node? m = some a) (hb : (ofText t).node? n = some b)
    (hpa : a.parent = some block) (hpb : b.parent = some block) (hp : a.kind = .declaration p)
    (hq : b.kind = .declaration q) (h : p.valueSpan = q.valueSpan) : m = n := by
  by_contra hne
  have hdisjoint := (wellFormed_ofText t).disjoint hne ha hb hpa hpb
  have hpbounds := (sound_of_node? ha hp).value p hp
  have hqbounds := (sound_of_node? hb hq).value q hq
  rw [h] at hpbounds
  omega

/-- The edits for a leading declaration replace the values of the leading ones that differ from it in
their vendor and in their value, and of no others. -/
theorem Leads.replaces_iff (hp : (ofText t).Leads block m p) (hq : (ofText t).Leads block n q) :
    (ofText t).Replaces m q.valueSpan ↔ Vendor.baseName p.name = Vendor.baseName q.name ∧
      Vendor.ofName p.name ≠ Vendor.ofName q.name ∧ p.value ≠ q.value := by
  obtain ⟨a, ha, hpa, hpkind⟩ := hp.declares
  obtain ⟨b, hb, hpb, hqkind⟩ := hq.declares
  obtain ⟨_, hparent, hedits⟩ := syncEditsFrom_of_node? ha hpkind
  obtain rfl := Option.some.inj (hpa.symm.trans hparent)
  constructor
  · rintro ⟨edits, hsome, e, he, hspan⟩
    obtain rfl := Option.some.inj (hedits.symm.trans hsome)
    obtain ⟨v, hv, he⟩ := exists_of_mem_syncEdits he
    obtain ⟨l, c, d, hc, hpc, hd, hname, hvalue, rfl⟩ := exists_of_syncEdit he
    -- the sibling whose value is replaced is the one that has its value there
    obtain rfl := eq_of_valueSpan hc hb hpc hpb hd hqkind hspan
    obtain rfl := Option.some.inj (hc.symm.trans hb)
    obtain rfl := Kind.declaration.inj (hd.symm.trans hqkind)
    rw [hname, Vendor.ofName_mark_append hp.unmarked, Vendor.baseName_mark_append hp.unmarked]
    exact ⟨rfl, hv.symm, hvalue.symm⟩
  · rintro ⟨hbase, hvendor, hvalue⟩
    have hname : (Vendor.ofName q.name).mark ++ Vendor.baseName p.name = q.name := by
      rw [hbase, Vendor.mark_append_base]
    have he : (ofText t).syncEdit block (Vendor.baseName p.name) p.value (Vendor.ofName q.name) =
        some ⟨q.valueSpan, p.value⟩ :=
      syncEdit_eq_some.mpr ⟨q, by rw [hname]; exact hq.first, hvalue.symm, rfl⟩
    refine ⟨_, hedits, _, List.mem_filterMap.mpr ⟨_, ?_, he⟩, rfl⟩
    rw [List.mem_filter]
    exact ⟨Vendor.mem_all _, decide_eq_true hvendor.symm⟩

/-- **Siblings replace each other's values or keep them.** -/
theorem replaces_symmetric (hp : (ofText t).Leads block m p) (hq : (ofText t).Leads block n q) :
    ((ofText t).Replaces m q.valueSpan ↔ (ofText t).Replaces n p.valueSpan) ∧
      ((ofText t).Replaces m q.valueSpan ↔ Vendor.baseName p.name = Vendor.baseName q.name ∧
        Vendor.ofName p.name ≠ Vendor.ofName q.name ∧ p.value ≠ q.value) := by
  refine ⟨?_, hp.replaces_iff hq⟩
  rw [hp.replaces_iff hq, hq.replaces_iff hp, eq_comm, ne_comm, @ne_comm _ p.value]

end Read

/-- Three of a family, one of which has an empty value. -/
theorem replaces_symmetric_of_empty :
    let sheet := ofText "a\x7bx:1;-ms-x:;-moz-x:2\x7d".toList
    let p : Declaration := ⟨"x".toList, ⟨2, 3⟩, "1".toList, ⟨4, 5⟩⟩
    let q : Declaration := ⟨"-ms-x".toList, ⟨6, 11⟩, [], ⟨12, 12⟩⟩
    sheet.Leads 1 2 p ∧ sheet.Leads 1 3 q ∧ (sheet.Replaces 2 ⟨12, 12⟩ ↔ sheet.Replaces 3 ⟨4, 5⟩) ∧
      (sheet.Replaces 2 ⟨12, 12⟩ ↔ Vendor.baseName "x".toList = Vendor.baseName "-ms-x".toList ∧
        Vendor.ofName "x".toList ≠ Vendor.ofName "-ms-x".toList ∧ "1".toList ≠ []) := by
  intro sheet p q
  have hunmarked : Vendor.Unmarked ['x'] := by
    intro v
    cases v <;> decide
  have hp : sheet.Leads 1 2 p :=
    ⟨⟨⟨⟨.declaration p, ⟨2, 6⟩⟩, some 1⟩, by decide +kernel, rfl, rfl⟩,
      findDeclaration_eq_some.mp (by decide +kernel), hunmarked⟩
  have hq : sheet.Leads 1 3 q :=
    ⟨⟨⟨⟨.declaration q, ⟨6, 13⟩⟩, some 1⟩, by decide +kernel, rfl, rfl⟩,
      findDeclaration_eq_some.mp (by decide +kernel), hunmarked⟩
  exact ⟨hp, hq, replaces_symmetric hp hq⟩

end Css.Sheet
end VendorSync
