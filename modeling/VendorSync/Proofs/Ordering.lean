import VendorSync.Text.Edit

/-! The order in which a batch is written.

`inOrder` sorts a batch by its spans and leaves edits of one span in their order (`filter_inOrder`).
This makes it the only order of its kind: lists that are sorted and agree on the edits of each span
are the same (`eq_of_sorted`). -/
namespace VendorSync

/-- The one span starts before the other, or with it and ends no later. -/
def Span.Precedes (a b : Span) : Prop := a.start < b.start ∨ a.start = b.start ∧ a.stop ≤ b.stop

namespace Edit

theorem le_iff {a b : Edit} : a.le b = true ↔ a.span.Precedes b.span := by
  simp [le, Span.Precedes]

theorem le_total (a b : Edit) : a.le b = true ∨ b.le a = true := by
  simp only [le, Bool.or_eq_true, Bool.and_eq_true, decide_eq_true_eq, beq_iff_eq]
  omega

theorem le_trans {a b c : Edit} (hab : a.le b = true) (hbc : b.le c = true) : a.le c = true := by
  simp only [le, Bool.or_eq_true, Bool.and_eq_true, decide_eq_true_eq, beq_iff_eq] at *
  omega

theorem span_eq_of_le {a b : Edit} (hab : a.le b = true) (hba : b.le a = true) : a.span = b.span := by
  obtain ⟨⟨start, stop⟩, _⟩ := a
  obtain ⟨⟨start', stop'⟩, _⟩ := b
  simp only [le, Bool.or_eq_true, Bool.and_eq_true, decide_eq_true_eq, beq_iff_eq] at hab hba
  simp only [Span.mk.injEq]
  omega

theorem le_of_span_eq {a b : Edit} (h : a.span = b.span) : a.le b = true := by
  simp [le, h]

/-! ### Sorted batches -/

theorem pairwise_place {e : Edit} {edits : List Edit} (h : edits.Pairwise fun a b => a.le b = true) :
    (place e edits).Pairwise fun a b => a.le b = true := by
  induction edits with
  | nil => simp [place]
  | cons f fs ih =>
    obtain ⟨hf, hfs⟩ := List.pairwise_cons.mp h
    rw [place]
    split
    · rename_i he
      refine List.pairwise_cons.mpr ⟨List.forall_mem_cons.mpr ⟨he, fun g hg => le_trans he (hf g hg)⟩, h⟩
    · rename_i he
      refine List.pairwise_cons.mpr ⟨fun g hg => ?_, ih hfs⟩
      rcases List.mem_cons.mp ((place_perm e fs).mem_iff.mp hg) with rfl | hg
      · exact (le_total f g).resolve_right he
      · exact hf g hg

theorem pairwise_inOrder (edits : List Edit) : (inOrder edits).Pairwise fun a b => a.le b = true := by
  induction edits with
  | nil => exact .nil
  | cons e edits ih => exact pairwise_place ih

/-- Sorted permutations of a batch have the same spans in the same order. -/
theorem spans_eq_of_sorted {a b : List Edit} (h : a.Perm b) (ha : a.Pairwise fun a b => a.le b = true)
    (hb : b.Pairwise fun a b => a.le b = true) : a.map span = b.map span := by
  have hspans : ∀ {l : List Edit}, l.Pairwise (fun a b => a.le b = true) →
      (l.map span).Pairwise Span.Precedes := fun hl => List.Pairwise.map _ (fun _ _ => le_iff.mp) hl
  refine (h.map span).eq_of_pairwise ?_ (hspans ha) (hspans hb)
  rintro ⟨start, stop⟩ ⟨start', stop'⟩ - - hab hba
  simp only [Span.Precedes] at hab hba
  simp only [Span.mk.injEq]
  omega

/-! ### Edits of one span -/

theorem filter_place (s : Span) (e : Edit) (edits : List Edit) :
    (place e edits).filter (·.span = s) = (e :: edits).filter (·.span = s) := by
  induction edits with
  | nil => rfl
  | cons f fs ih =>
    rw [place]
    split
    · rfl
    · rename_i he
      -- the edit goes behind `f`, which then has another span
      have hne : ¬ (e.span = s ∧ f.span = s) := fun h => he (le_of_span_eq (h.1.trans h.2.symm))
      rw [List.filter_cons, ih, List.filter_cons, List.filter_cons, List.filter_cons]
      by_cases hes : e.span = s <;> by_cases hfs : f.span = s <;> simp_all

/-- Edits of one span keep their order. -/
theorem filter_inOrder (s : Span) (edits : List Edit) :
    (inOrder edits).filter (·.span = s) = edits.filter (·.span = s) := by
  induction edits with
  | nil => rfl
  | cons e edits ih =>
    show (place e (inOrder edits)).filter (·.span = s) = _
    rw [filter_place, List.filter_cons, List.filter_cons, ih]

/-- **A batch has one order**: sorted lists that agree on the edits of each span are the same. -/
theorem eq_of_sorted {a b : List Edit} (ha : a.Pairwise fun a b => a.le b = true)
    (hb : b.Pairwise fun a b => a.le b = true)
    (h : ∀ s, a.filter (·.span = s) = b.filter (·.span = s)) : a = b := by
  induction a generalizing b with
  | nil =>
    cases b with
    | nil => rfl
    | cons y b => simpa using h y.span
  | cons x a ih =>
    cases b with
    | nil => simpa using h x.span
    | cons y b =>
      obtain ⟨hx, htail⟩ := List.pairwise_cons.mp ha
      obtain ⟨hy, htail'⟩ := List.pairwise_cons.mp hb
      -- each of the first edits is in the other list, so neither comes before the other
      have hmem : ∀ e, e ∈ x :: a ↔ e ∈ y :: b := fun e => by
        have := congrArg (e ∈ ·) (h e.span)
        simpa [List.mem_filter] using this
      have hspan : x.span = y.span := by
        refine span_eq_of_le ?_ ?_
        · rcases List.mem_cons.mp ((hmem y).mpr (List.mem_cons_self ..)) with heq | hmem
          · exact le_of_span_eq (by rw [heq])
          · exact hx y hmem
        · rcases List.mem_cons.mp ((hmem x).mp (List.mem_cons_self ..)) with heq | hmem
          · exact le_of_span_eq (by rw [heq])
          · exact hy x hmem
      have hfirst := h x.span
      rw [List.filter_cons_of_pos (by simp), List.filter_cons_of_pos (by simp [hspan])] at hfirst
      obtain ⟨rfl, -⟩ := List.cons.inj hfirst
      refine congrArg _ (ih htail htail' fun s => ?_)
      have hs := h s
      rw [List.filter_cons, List.filter_cons] at hs
      split at hs
      · exact (List.cons.inj hs).2
      · exact hs

/-! ### Batches in another order -/

/-- The same batch in another order, its insertions at one offset in the same. -/
structure Reorders (edits other : List Edit) : Prop where
  perm : other.Perm edits
  insertions : ∀ offset, other.filter (·.span = .empty offset) = edits.filter (·.span = .empty offset)

/-- The batch by the order of its spans. -/
structure Arranges (edits ordered : List Edit) : Prop extends Reorders edits ordered where
  sorted : ordered.Pairwise fun a b => a.span.Precedes b.span

theorem arranges_inOrder (edits : List Edit) : Arranges edits (inOrder edits) where
  perm := inOrder_perm edits
  insertions _ := filter_inOrder _ edits
  sorted := (pairwise_inOrder edits).imp le_iff.mp

section Disjoint
variable {edits other : List Edit}
  (hle : ∀ e ∈ edits, e.span.start ≤ e.span.stop)
  (hdisjoint : edits.Pairwise fun a b => a.span.overlaps b.span = false)
include hle hdisjoint

/-- Of edits that do not overlap, none but insertions have the same span. -/
theorem Reorders.filter_eq (h : Reorders edits other) (s : Span) :
    other.filter (·.span = s) = edits.filter (·.span = s) := by
  by_cases hempty : s.start = s.stop
  · obtain ⟨start, stop⟩ := s
    obtain rfl : start = stop := hempty
    exact h.insertions start
  have hperm := h.perm.filter (·.span = s)
  have hspan : ∀ e ∈ edits.filter (·.span = s), e ∈ edits ∧ e.span = s := fun e he => by
    simpa using List.mem_filter.mp he
  have hpairwise := hdisjoint.filter (·.span = s)
  cases hedits : edits.filter (·.span = s) with
  | nil => exact (hedits ▸ hperm).eq_nil
  | cons x rest =>
    cases rest with
    | nil => exact List.perm_singleton.mp (hedits ▸ hperm)
    | cons y rest =>
      -- two edits of one span that is not empty overlap
      rw [hedits] at hspan hpairwise
      obtain ⟨hx, hxs⟩ := hspan x (by simp)
      obtain ⟨-, hys⟩ := hspan y (by simp)
      have hlt := hle x hx
      have hxy := (List.pairwise_cons.mp hpairwise).1 y (List.mem_cons_self ..)
      rw [hxs] at hlt
      rw [hxs, hys, Span.overlaps, Bool.and_self, decide_eq_false_iff_not] at hxy
      omega

/-- Batches that differ in their order are written in the same one. -/
theorem Reorders.inOrder_eq (h : Reorders edits other) : inOrder other = inOrder edits := by
  refine eq_of_sorted (pairwise_inOrder other) (pairwise_inOrder edits) fun s => ?_
  rw [filter_inOrder, filter_inOrder, h.filter_eq hle hdisjoint]

theorem Arranges.eq_inOrder {ordered : List Edit} (h : Arranges edits ordered) :
    ordered = inOrder edits := by
  refine eq_of_sorted (h.sorted.imp le_iff.mpr) (pairwise_inOrder edits) fun s => ?_
  rw [filter_inOrder, h.toReorders.filter_eq hle hdisjoint]

end Disjoint

end Edit
end VendorSync
