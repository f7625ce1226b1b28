import VendorSync.Proofs.Bytes
import VendorSync.Proofs.Ordering
import VendorSync.Proofs.Siblings

/-! What becomes of a batch.

A batch is applied exactly if all of its spans cut the text and no two of them overlap
(`applyEdits_eq_ok_iff`): in the order of the spans it is enough to look at neighbours
(`disjoint_of_overlap?`). The edits of such a batch stand one behind another in the text (`Laid`), and
the one pass that writes them does what replacing one span after the other does. `applyEdits_spec`
says this together with what a fault tells, and `applyEdits_reorders` that the order in which the batch is
given does not matter. -/
namespace VendorSync.Edit

variable {t : Text} {edits : List Edit}

/-! ### Spans that cut the text -/

theorem fault?_eq_none_iff {e : Edit} : fault? t e = none ↔ e.span.Cuts t := by
  constructor
  · intro h
    simp only [fault?] at h
    split at h
    · cases h
    split at h
    · cases h
    rename_i hbounds hboundary
    simp only [gt_iff_lt, Bool.or_eq_true, decide_eq_true_eq, not_or, Nat.not_lt] at hbounds
    simp only [Bool.or_eq_true, Bool.not_eq_true', not_or, Bool.not_eq_false] at hboundary
    exact ⟨hbounds.1, hboundary.1, hboundary.2⟩
  · exact fun h => fault?_eq_none ⟨h.ordered, h.stop_le⟩ ⟨h.start, h.stop⟩

theorem applicable_iff : Applicable t edits ↔ (∀ e ∈ edits, e.span.Cuts t) ∧
    edits.Pairwise fun a b => a.span.overlaps b.span = false := by
  constructor
  · exact fun h => ⟨fun e he => ⟨(h.bounds e he).1, (h.boundary e he).1, (h.boundary e he).2⟩, h.disjoint⟩
  · exact fun ⟨hcuts, hdisjoint⟩ => ⟨fun e he => ⟨(hcuts e he).ordered, (hcuts e he).stop_le⟩,
      fun e he => ⟨(hcuts e he).start, (hcuts e he).stop⟩, hdisjoint⟩

/-! ### Overlaps -/

theorem overlap?_eq_some {l : List Edit} {fault : EditFault} (h : overlap? l = some fault) :
    ∃ a x y b, l = a ++ x :: y :: b ∧ x.span.overlaps y.span = true ∧
      fault = .overlapping x.span y.span := by
  induction l with
  | nil => cases h
  | cons e l ih =>
    cases l with
    | nil => cases h
    | cons f l =>
      rw [overlap?] at h
      split at h
      · rename_i hoverlaps
        exact ⟨[], e, f, l, rfl, hoverlaps, (Option.some.inj h).symm⟩
      · obtain ⟨a, x, y, b, hl, hoverlaps, hfault⟩ := ih h
        exact ⟨e :: a, x, y, b, by rw [hl]; rfl, hoverlaps, hfault⟩

/-- If no neighbours overlap in a batch in order, no two edits do. -/
theorem disjoint_of_overlap? {l : List Edit} (hle : ∀ e ∈ l, e.span.start ≤ e.span.stop)
    (hsorted : l.Pairwise fun a b => a.le b = true) (h : overlap? l = none) :
    l.Pairwise fun a b => a.span.overlaps b.span = false := by
  induction l with
  | nil => exact .nil
  | cons e l ih =>
    obtain ⟨-, hle'⟩ := List.forall_mem_cons.mp hle
    obtain ⟨he, hsorted'⟩ := List.pairwise_cons.mp hsorted
    cases l with
    | nil => simp
    | cons f l =>
      rw [overlap?] at h
      split at h
      · cases h
      rename_i hef
      refine List.pairwise_cons.mpr ⟨fun g hg => ?_, ih hle' hsorted' h⟩
      rcases List.mem_cons.mp hg with rfl | hgl
      · simpa using hef
      -- an edit that reaches over its neighbour into a later one overlaps the neighbour, too
      · have hf := he f (List.mem_cons_self ..)
        have hfg := (List.pairwise_cons.mp hsorted').1 g hgl
        have hfle := hle' f (List.mem_cons_self ..)
        simp only [le, Span.overlaps, Bool.or_eq_true, Bool.and_eq_true, Bool.and_eq_false_iff,
          decide_eq_true_eq, decide_eq_false_iff_not, beq_iff_eq] at hef hf hfg ⊢
        omega

/-! ### The outcome -/

/-- The first fault of a batch in order. -/
def firstFault? (t : Text) (l : List Edit) : Option EditFault :=
  (l.findSome? (fault? t)).or (overlap? l)

theorem applyEdits_eq (t : Text) (edits : List Edit) : t.applyEdits edits =
    match firstFault? t (inOrder edits) with
    | some fault => .error fault
    | none => .ok (splice 0 t (inOrder edits)) := rfl

theorem firstFault?_eq_none_iff : firstFault? t (inOrder edits) = none ↔ Applicable t edits := by
  constructor
  · intro h
    rw [firstFault?, Option.or_eq_none_iff, List.findSome?_eq_none_iff] at h
    have hcuts : ∀ e ∈ edits, e.span.Cuts t := fun e he =>
      fault?_eq_none_iff.mp (h.1 e (mem_inOrder.mpr he))
    have hdisjoint := disjoint_of_overlap?
      (fun e he => (hcuts e (mem_inOrder.mp he)).ordered) (pairwise_inOrder edits) h.2
    exact applicable_iff.mpr ⟨hcuts, disjoint_inOrder.mp hdisjoint⟩
  · intro h
    cases hfault : firstFault? t (inOrder edits) with
    | none => rfl
    | some fault =>
      have := applyEdits_of_applicable h
      rw [applyEdits_eq, hfault] at this
      cases this

/-- **A batch is applied exactly if** its spans are spans of the text and no two overlap. -/
theorem applyEdits_eq_ok_iff {text : Text} : t.applyEdits edits = .ok text ↔
    Applicable t edits ∧ text = splice 0 t (inOrder edits) := by
  rw [applyEdits_eq, ← firstFault?_eq_none_iff]
  cases firstFault? t (inOrder edits) with
  | none => simp [eq_comm]
  | some fault => simp

/-! ### Writing -/

/-- The text with the span of one edit replaced. -/
def replace (e : Edit) (t : Text) : Text :=
  t.takeBytes e.span.start ++ (e.replacement ++ t.dropBytes e.span.stop)

/-- As `splice`, with every slice checked: what stands between one edit and the next is cut out of the
text. -/
def copy? (t : Text) (cursor : Nat) : List Edit → Option Text
  | [] => t.rest? cursor
  | e :: edits => do
    let kept ← t.slice? ⟨cursor, e.span.start⟩
    let rest ← copy? t e.span.stop edits
    return kept ++ (e.replacement ++ rest)

/-- The spans of a batch in order stand one behind another. -/
theorem Applicable.ordered (h : Applicable t edits) :
    (inOrder edits).Pairwise fun a b => a.span.stop ≤ b.span.start := by
  have hdisjoint := disjoint_inOrder.mpr h.disjoint
  refine ((pairwise_inOrder edits).and hdisjoint).imp_of_mem fun {a b} ha hb ⟨hle, hab⟩ => ?_
  have hbounds := (h.bounds a (mem_inOrder.mp ha)).1
  have hbounds' := (h.bounds b (mem_inOrder.mp hb)).1
  simp only [le, Span.overlaps, Bool.or_eq_true, Bool.and_eq_true, Bool.and_eq_false_iff,
    decide_eq_true_eq, decide_eq_false_iff_not, beq_iff_eq] at hle hab
  omega

/-- The edits stand one behind another in the rest `t` of a text that begins with `pre`: each leaves what
is before it and takes out a part behind. -/
inductive Laid : (pre t : Text) → List Edit → Prop
  | nil {pre t} : Laid pre t []
  | cons {pre u old c : Text} {e l} : e.span.start = (pre ++ u).byteLength →
      e.span.stop = (pre ++ u ++ old).byteLength → Laid (pre ++ u ++ old) c l →
      Laid pre (u ++ (old ++ c)) (e :: l)

section Laid
variable {pre u old c : Text} {e : Edit} {l : List Edit}

theorem laid (hcuts : ∀ e ∈ l, e.span.Cuts (pre ++ t)) (hbehind : ∀ e ∈ l, pre.byteLength ≤ e.span.start)
    (hordered : l.Pairwise fun a b => a.span.stop ≤ b.span.start) : Laid pre t l := by
  induction l generalizing pre t with
  | nil => exact .nil
  | cons e l ih =>
    obtain ⟨hcut, hcuts⟩ := List.forall_mem_cons.mp hcuts
    obtain ⟨hpre, -⟩ := List.forall_mem_cons.mp hbehind
    obtain ⟨hfirst, hordered⟩ := List.pairwise_cons.mp hordered
    obtain ⟨a, c, habc, hstart, hstop⟩ := Text.eq_append_slice hcut.start hcut.stop hcut.ordered
    generalize Text.slice e.span (pre ++ t) = old at habc hstop
    rw [habc] at hcuts
    obtain ⟨u, rfl, rfl⟩ := Text.exists_append_of_le habc (hstart ▸ hpre)
    refine .cons hstart hstop (ih ?_ (fun f hf => hstop ▸ hfirst f hf) hordered)
    rwa [List.append_assoc (pre ++ u)]

/-- Each edit stands behind the beginning of the text. -/
theorem Laid.behind (h : Laid pre t l) :
    ∀ e ∈ l, pre.byteLength ≤ e.span.start ∧ e.span.start ≤ e.span.stop := by
  induction h with
  | nil => simp
  | @cons pre u old c e l hstart hstop _ ih =>
    simp only [Text.byteLength_append] at hstart hstop ih
    refine List.forall_mem_cons.mpr ⟨by omega, fun f hf => ?_⟩
    have := ih f hf
    omega

theorem Applicable.laid (h : Applicable t edits) : Laid [] t (inOrder edits) := by
  exact Edit.laid (fun e he => (applicable_iff.mp h).1 e (mem_inOrder.mp he)) (fun _ _ => Nat.zero_le _)
    h.ordered

theorem splice_cons (hstart : e.span.start = (pre ++ u).byteLength)
    (hstop : e.span.stop = (pre ++ u ++ old).byteLength) (l : List Edit) :
    splice pre.byteLength (u ++ (old ++ c)) (e :: l) =
      u ++ (e.replacement ++ splice (pre ++ u ++ old).byteLength c l) := by
  have htake : e.span.start - pre.byteLength = u.byteLength := by
    rw [hstart, Text.byteLength_append, Nat.add_sub_cancel_left]
  have hdrop : e.span.stop - pre.byteLength = (u ++ old).byteLength := by
    rw [hstop, List.append_assoc, Text.byteLength_append, Nat.add_sub_cancel_left]
  rw [splice, htake, hdrop, Text.takeBytes_byteLength_append, ← List.append_assoc u old,
    Text.dropBytes_byteLength_append, hstop, List.append_assoc]

theorem replace_eq (hstart : e.span.start = u.byteLength) (hstop : e.span.stop = (u ++ old).byteLength) :
    replace e (u ++ old ++ c) = u ++ (e.replacement ++ c) := by
  rw [replace, hstop, Text.dropBytes_byteLength_append, hstart, List.append_assoc,
    Text.takeBytes_byteLength_append]

/-- One pass over the text does what replacing one span after the other does, from the last on: what
stands before a span is not moved by the ones behind it. -/
theorem Laid.foldr_eq (h : Laid pre t l) :
    l.foldr replace (pre ++ t) = pre ++ splice pre.byteLength t l := by
  induction h with
  | nil => rfl
  | @cons pre u old c e l hstart hstop _ ih =>
    rw [splice_cons hstart hstop, List.foldr_cons, ← List.append_assoc pre, ← List.append_assoc (pre ++ u),
      ih, replace_eq hstart hstop, List.append_assoc]

theorem Laid.copy?_eq (h : Laid pre t l) :
    copy? (pre ++ t) pre.byteLength l = some (splice pre.byteLength t l) := by
  induction h with
  | @nil pre t => exact Text.rest?_append pre t
  | @cons pre u old c e l hstart hstop _ ih =>
    have hkept : Text.slice? ⟨pre.byteLength, e.span.start⟩ (pre ++ (u ++ (old ++ c))) = some u :=
      Text.slice?_append rfl hstart
    rw [List.append_assoc (pre ++ u), List.append_assoc pre, ← hstop] at ih
    rw [copy?, hkept, ih, splice_cons hstart hstop, hstop]
    rfl

end Laid

/-! ### Faults -/

/-- What a fault tells of a batch that cannot be applied. -/
inductive Refuses (t : Text) (edits : List Edit) : EditFault → Prop
  /-- Of the spans that are none of the text, the first goes backwards or beyond the end. -/
  | outOfBounds {e} : e ∈ edits → ¬ (e.span.start ≤ e.span.stop ∧ e.span.stop ≤ t.byteLength) →
      (∀ f ∈ edits, ¬ f.span.Cuts t → e.span.Precedes f.span) →
      Refuses t edits (.outOfBounds e.span t.byteLength)
  /-- Of the spans that are none of the text, the first has an end inside of a character. -/
  | notCharBoundary {e} : e ∈ edits → e.span.start ≤ e.span.stop ∧ e.span.stop ≤ t.byteLength →
      ¬ (t.isBoundary e.span.start = true ∧ t.isBoundary e.span.stop = true) →
      (∀ f ∈ edits, ¬ f.span.Cuts t → e.span.Precedes f.span) →
      Refuses t edits (.notCharBoundary e.span)
  /-- All spans are spans of the text, but two overlap. -/
  | overlapping {e f rest} : edits.Perm (e :: f :: rest) → (∀ e ∈ edits, e.span.Cuts t) →
      e.span.overlaps f.span = true → Refuses t edits (.overlapping e.span f.span)

/-- The fault of a span that is none of the text. -/
theorem refuses_of_fault? {e : Edit} {fault : EditFault} (h : fault? t e = some fault) (he : e ∈ edits)
    (hfirst : ∀ f ∈ edits, ¬ f.span.Cuts t → e.span.Precedes f.span) : Refuses t edits fault := by
  simp only [fault?] at h
  split at h
  · rename_i hbounds
    obtain rfl := Option.some.inj h
    simp only [gt_iff_lt, Bool.or_eq_true, decide_eq_true_eq] at hbounds
    refine .outOfBounds he (fun hends => ?_) hfirst
    rcases hbounds with hlt | hlt
    · exact Nat.not_lt.mpr hends.1 hlt
    · exact Nat.not_lt.mpr hends.2 hlt
  · rename_i hbounds
    split at h
    · rename_i hboundary
      obtain rfl := Option.some.inj h
      simp only [gt_iff_lt, Bool.or_eq_true, decide_eq_true_eq, not_or, Nat.not_lt] at hbounds
      refine .notCharBoundary he hbounds (fun hends => ?_) hfirst
      simp [hends.1, hends.2] at hboundary
    · cases h

theorem refuses_of_firstFault? {fault : EditFault} (h : firstFault? t (inOrder edits) = some fault) :
    Refuses t edits fault := by
  rw [firstFault?, Option.or_eq_some_iff] at h
  rcases h with hfault | ⟨hnone, hoverlap⟩
  · obtain ⟨a, e, b, hab, he, ha⟩ := List.findSome?_eq_some_iff.mp hfault
    have hsorted := hab ▸ pairwise_inOrder edits
    refine refuses_of_fault? he (mem_inOrder.mp (by rw [hab]; simp)) fun f hf hno => le_iff.mp ?_
    have hf := hab ▸ mem_inOrder.mpr hf
    rcases List.mem_append.mp hf with hf | hf
    · exact absurd (fault?_eq_none_iff.mp (ha f hf)) hno
    · rcases List.mem_cons.mp hf with rfl | hf
      · exact le_of_span_eq rfl
      · exact (List.pairwise_cons.mp (List.pairwise_append.mp hsorted).2.1).1 f hf
  · obtain ⟨a, x, y, b, hab, hxy, rfl⟩ := overlap?_eq_some hoverlap
    rw [List.findSome?_eq_none_iff] at hnone
    have hfront : (a ++ x :: y :: b).Perm (x :: y :: (a ++ b)) :=
      List.perm_middle.trans (List.perm_middle.cons x)
    refine .overlapping ((inOrder_perm edits).symm.trans (hab ▸ hfront)) (fun e he => ?_) hxy
    exact fault?_eq_none_iff.mp (hnone e (mem_inOrder.mpr he))

/-- **A batch is applied exactly if** all its spans are spans of the text and no two of them overlap. Then
its spans are replaced, in whatever order has the insertions at one offset as they are given, and in
one pass whose slices all have their ends in order. A fault names the first span that is none of the
text, or else two that overlap. -/
theorem applyEdits_spec (t : Text) (edits : List Edit) :
    ((∃ text, t.applyEdits edits = .ok text) ↔ Applicable t edits) ∧
    (∃ ordered, Arranges edits ordered) ∧
    (∀ text, t.applyEdits edits = .ok text → ∀ ordered, Arranges edits ordered →
      text = ordered.foldr replace t ∧ copy? t 0 ordered = some text) ∧
    ∀ fault, t.applyEdits edits = .error fault → Refuses t edits fault := by
  refine ⟨⟨fun ⟨text, h⟩ => (applyEdits_eq_ok_iff.mp h).1, fun h => ⟨_, applyEdits_of_applicable h⟩⟩,
    ⟨_, arranges_inOrder edits⟩, fun text h ordered hordered => ?_, fun fault h => ?_⟩
  · obtain ⟨happlicable, rfl⟩ := applyEdits_eq_ok_iff.mp h
    obtain rfl := hordered.eq_inOrder (fun e he => (happlicable.bounds e he).1) happlicable.disjoint
    exact ⟨happlicable.laid.foldr_eq.symm, happlicable.laid.copy?_eq⟩
  · rw [applyEdits_eq] at h
    split at h
    · rename_i hfault
      obtain rfl := Except.error.inj h
      exact refuses_of_firstFault? hfault
    · cases h

/-! ### Batches in another order -/

theorem overlap?_congr {a b : List Edit} (h : a.map span = b.map span) : overlap? a = overlap? b := by
  induction a generalizing b with
  | nil => rw [List.map_eq_nil_iff.mp h.symm]
  | cons x a ih =>
    obtain ⟨y, b, rfl, hxy, hab⟩ := List.map_eq_cons_iff.mp h.symm
    have ih := ih hab.symm
    cases a with
    | nil => rw [List.map_eq_nil_iff.mp hab]; rfl
    | cons x' a =>
      obtain ⟨y', b, rfl, hxy', -⟩ := List.map_eq_cons_iff.mp hab
      rw [overlap?, overlap?, ih, hxy, hxy']

/-- The fault of a batch depends on its spans alone. -/
theorem firstFault?_congr {a b : List Edit} (h : a.map span = b.map span) :
    firstFault? t a = firstFault? t b := by
  have hfault : ∀ l : List Edit, l.findSome? (fault? t) = (l.map span).findSome? fun s => fault? t ⟨s, []⟩ := by
    intro l
    rw [List.findSome?_map]
    rfl
  rw [firstFault?, firstFault?, hfault, hfault, h, overlap?_congr h]

/-- **The order of a batch does not matter**, but for that of insertions at one offset: neither to the
text that comes out nor to the fault. -/
theorem applyEdits_reorders {other : List Edit} (h : Reorders edits other) :
    t.applyEdits other = t.applyEdits edits := by
  have hperm := (inOrder_perm other).trans (h.perm.trans (inOrder_perm edits).symm)
  have hfault : firstFault? t (inOrder other) = firstFault? t (inOrder edits) :=
    firstFault?_congr (spans_eq_of_sorted hperm (pairwise_inOrder other) (pairwise_inOrder edits))
  rw [applyEdits_eq, applyEdits_eq, hfault]
  cases hnone : firstFault? t (inOrder edits) with
  | some fault => rfl
  | none =>
    have happlicable := firstFault?_eq_none_iff.mp hnone
    rw [h.inOrder_eq (fun e he => (happlicable.bounds e he).1) happlicable.disjoint]

/-- Two insertions between two replacements, which come in the other order. -/
theorem applyEdits_reorders_of_insertions :
    let t : Text := "é-d".toList
    let edits : List Edit := [⟨⟨2, 2⟩, ['x']⟩, ⟨⟨0, 2⟩, ['a']⟩, ⟨⟨2, 2⟩, ['y']⟩, ⟨⟨2, 3⟩, ['b', 'c']⟩]
    let other : List Edit := [⟨⟨2, 3⟩, ['b', 'c']⟩, ⟨⟨2, 2⟩, ['x']⟩, ⟨⟨2, 2⟩, ['y']⟩, ⟨⟨0, 2⟩, ['a']⟩]
    Reorders edits other ∧ t.applyEdits other = t.applyEdits edits ∧
      t.applyEdits edits = .ok "axybcd".toList := by
  intro t edits other
  have hreorders : Reorders edits other := by
    refine ⟨by decide, fun offset => ?_⟩
    by_cases h : offset = 2
    · subst h
      decide
    · have h' : 2 ≠ offset := fun heq => h heq.symm
      simp [edits, other, Span.empty, h']
  exact ⟨hreorders, applyEdits_reorders hreorders, by decide +kernel⟩

end VendorSync.Edit
