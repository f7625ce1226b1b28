import VendorSync.Proofs.Swapping

/-! Where the offsets of a text come to stand.

Edits move what stands behind them (`Edit.moved`). Offsets that no edit reaches over keep their
order (`Edit.moved_lt`), and those before and behind a part of a text in which values are replaced
move by nothing and by as much as the part has grown (`Swapped.growth_eq_zero`,
`Swapped.growth_eq`). -/
namespace VendorSync

namespace Edit

/-- By how many bytes the edits that end at an offset or before it make the text longer. -/
def growth (q : Nat) : List Edit → Int
  | [] => 0
  | e :: edits =>
    (if e.span.stop ≤ q then e.replacement.byteLength - ((e.span.stop : Int) - e.span.start) else 0) +
      growth q edits

/-- The offset in the new text of what stands behind an offset of the old one. -/
def moved (edits : List Edit) (q : Nat) : Int := q + growth q edits

theorem growth_append (q : Nat) (a b : List Edit) : growth q (a ++ b) = growth q a + growth q b := by
  induction a with
  | nil => simp [growth]
  | cons e a ih => simp only [List.cons_append, growth, ih, Int.add_assoc]

theorem growth_perm {a b : List Edit} (h : a.Perm b) (q : Nat) : growth q a = growth q b := by
  induction h with
  | nil => rfl
  | cons e _ ih => simp only [growth, ih]
  | swap e f edits => simp only [growth]; omega
  | trans _ _ ih₁ ih₂ => exact ih₁.trans ih₂

theorem growth_eq_zero {q : Nat} {edits : List Edit} (h : ∀ e ∈ edits, q < e.span.stop) :
    growth q edits = 0 := by
  induction edits with
  | nil => rfl
  | cons e edits ih =>
    obtain ⟨he, hedits⟩ := List.forall_mem_cons.mp h
    rw [growth, if_neg (by omega), ih hedits, Int.zero_add]

/-- The offset stands outside of the edits, and not where one starts. -/
def Clear (edits : List Edit) (q : Nat) : Prop := ∀ e ∈ edits, q < e.span.start ∨ e.span.stop ≤ q

/-- The spans of the edits stand one behind another, not next to each other. -/
structure Spaced (edits : List Edit) : Prop where
  le : ∀ e ∈ edits, e.span.start ≤ e.span.stop
  pairwise : edits.Pairwise fun a b => a.span.stop < b.span.start

/-- What stands behind the first edit grows by the others. -/
theorem Spaced.growth_stop {e : Edit} {edits : List Edit} (h : Spaced (e :: edits)) {p : Nat}
    (hp : p ≤ e.span.stop) : growth p edits = 0 := by
  refine growth_eq_zero fun f hf => ?_
  have hlt := (List.pairwise_cons.mp h.pairwise).1 f hf
  have hle := h.le f (List.mem_cons_of_mem e hf)
  omega

theorem Spaced.tail {e : Edit} {edits : List Edit} (h : Spaced (e :: edits)) : Spaced edits :=
  ⟨fun f hf => h.le f (List.mem_cons_of_mem e hf), (List.pairwise_cons.mp h.pairwise).2⟩

/-- **Offsets outside of the edits keep their order.** -/
theorem moved_lt {edits : List Edit} (h : Spaced edits) {p q : Nat} (hp : Clear edits p)
    (hq : Clear edits q) (hpq : p < q) : moved edits p < moved edits q := by
  induction edits generalizing p with
  | nil => simpa [moved, growth] using hpq
  | cons e edits ih =>
    have hle := h.le e (List.mem_cons_self ..)
    obtain ⟨hpe, hp⟩ := List.forall_mem_cons.mp hp
    obtain ⟨hqe, hq⟩ := List.forall_mem_cons.mp hq
    simp only [moved, growth] at ih ⊢
    rcases hqe with hqe | hqe
    · have := ih h.tail hp hq hpq
      rw [if_neg (by omega), if_neg (by omega)]
      omega
    · rcases hpe with hpe | hpe
      · -- the edit stands between the offsets: its own end is an offset between them
        have hstop := h.growth_stop (Nat.le_refl _)
        rw [h.growth_stop (p := p) (by omega), if_neg (by omega), if_pos hqe]
        rcases Nat.eq_or_lt_of_le hqe with heq | hlt
        · rw [heq] at hstop
          omega
        · have := ih h.tail (fun f hf => .inl ((List.pairwise_cons.mp h.pairwise).1 f hf)) hq hlt
          omega
      · have := ih h.tail hp hq hpq
        rw [if_pos hpe, if_pos hqe]
        omega

theorem moved_le_iff {edits : List Edit} (h : Spaced edits) {p q : Nat} (hp : Clear edits p)
    (hq : Clear edits q) : moved edits p ≤ moved edits q ↔ p ≤ q := by
  constructor
  · intro hle
    by_contra hlt
    have := moved_lt h hq hp (by omega)
    omega
  · intro hle
    rcases Nat.eq_or_lt_of_le hle with rfl | hlt
    · exact Int.le_refl _
    · exact Int.le_of_lt (moved_lt h hp hq hlt)

end Edit

namespace Css
open LineComment

namespace Swapped
variable {vc : List Cell} {new : List Token} {pos q : Nat} {cs cs' : List Cell}
  {tokens tokens' : List Token} {spans : List Span}

/-- Nothing before the cells is moved. -/
theorem growth_eq_zero (h : Swapped vc new pos cs tokens spans cs' tokens') (hq : q ≤ pos) :
    Edit.growth q (spans.map (⟨·, chars vc⟩)) = 0 := by
  refine Edit.growth_eq_zero fun e he => ?_
  obtain ⟨s, hs, rfl⟩ := List.mem_map.mp he
  have := h.ordered.1 s hs
  show q < s.stop
  omega

/-- What stands behind the cells moves with their end. -/
theorem growth_eq (h : Swapped vc new pos cs tokens spans cs' tokens')
    (hq : pos + (chars cs).byteLength ≤ q) : Edit.growth q (spans.map (⟨·, chars vc⟩)) =
      (chars cs').byteLength - (chars cs).byteLength := by
  induction h with
  | nil => simp [Edit.growth]
  | @token pos x _ cs _ spans cs' _ _ _ ih =>
    rw [chars_append, Text.byteLength_append] at hq
    rw [ih (by omega)]
    simp only [chars_append, Text.byteLength_append]
    omega
  | @value pos cg co ct _ _ _ _ _ cs _ spans cs' _ _ _ _ _ _ _ ih =>
    simp only [chars_append, chars_cons, Text.byteLength_append, Text.byteLength_cons] at hq ih ⊢
    simp only [List.map_cons, Edit.growth]
    rw [ih (by omega), if_pos (by omega)]
    omega

theorem spaced (h : Swapped vc new pos cs tokens spans cs' tokens') (value : Text) :
    Edit.Spaced (spans.map (⟨·, value⟩)) where
  le e he := by
    obtain ⟨s, hs, rfl⟩ := List.mem_map.mp he
    exact (h.ordered.1 s hs).2
  pairwise := List.Pairwise.map _ (fun _ _ hab => hab) h.ordered.2

end Swapped
end Css
end VendorSync
