import VendorSync.Proofs.Swapping

/-! The scan for line comments over a text in which values are replaced.

The scan may come out of the new value in another place than out of the old one, but as long as it
reads the next character in the same way it is back where it was (`Swapped.cells_eq`). -/
namespace VendorSync.Css
open LineComment

namespace LineComment.Place

/-! ### Scanning a text that something follows -/

/-- Where the scan is behind a text that `next` follows. -/
def run (next : Option Char) (place : Place) : Text → Place
  | [] => place
  | c :: cs => run next (place.read c (cs.head?.or next)).2 cs

/-- The cells of a text that `next` follows. -/
def cells (next : Option Char) (place : Place) : Text → List Cell
  | [] => []
  | c :: cs =>
    let (hidden, place) := place.read c (cs.head?.or next)
    ⟨c, hidden⟩ :: cells next place cs

/-- Both places read the first character of the text alike, if there is one. -/
def Alike (p q : Place) (t : Text) : Prop :=
  ∀ c ∈ t.head?, p.read c t.tail.head? = q.read c t.tail.head?

instance (p q : Place) : (t : Text) → Decidable (Alike p q t)
  | [] => .isTrue (by simp [Alike])
  | c :: t => decidable_of_iff (p.read c t.head? = q.read c t.head?) (by simp [Alike])

variable {p q : Place} {next : Option Char}

@[simp] theorem length_cells (next : Option Char) (p : Place) (t : Text) :
    (p.cells next t).length = t.length := by
  induction t generalizing p with
  | nil => rfl
  | cons c t ih => simp only [cells, List.length_cons, ih]

theorem run_append (a b : Text) :
    p.run next (a ++ b) = (p.run (b.head?.or next) a).run next b := by
  induction a generalizing p with
  | nil => rfl
  | cons c a ih => cases a <;> simp_all [run]

theorem cells_append (a b : Text) :
    p.cells next (a ++ b) = p.cells (b.head?.or next) a ++ (p.run (b.head?.or next) a).cells next b := by
  induction a generalizing p with
  | nil => rfl
  | cons c a ih => cases a <;> simp_all [run, cells]

theorem cellsFrom_append (a b : Text) :
    cellsFrom p (a ++ b) = p.cells b.head? a ++ cellsFrom (p.run b.head? a) b := by
  induction a generalizing p with
  | nil => rfl
  | cons c a ih =>
    rw [List.cons_append, cellsFrom_cons, ih]
    cases a <;> simp [run, cells]

/-- Behind the first character there is no difference any more. -/
theorem Alike.run_eq {c : Char} {a b : Text} (h : Alike p q (c :: (a ++ b))) :
    p.run b.head? (c :: a) = q.run b.head? (c :: a) ∧
      p.cells b.head? (c :: a) = q.cells b.head? (c :: a) := by
  have hread := h c rfl
  have hhead : (a ++ b).head? = a.head?.or b.head? := List.head?_append
  simp only [List.tail_cons, hhead] at hread
  simp only [run, cells, hread, and_self]

/-- A colon is read in the same way whatever follows it. -/
theorem read_colon (p : Place) (m n : Option Char) : p.read ':' m = p.read ':' n := by
  cases p <;> rfl

/-! ### Replacing a value -/

/-- The scan from a place reads a new value between `before` and `behind` as the cells `vc`, and
goes on as it does behind the old value. -/
structure Rescans (vc : List Cell) (p : Place) (before old behind : Text) : Prop where
  cells_eq : p.cells behind.head? (before ++ chars vc) = p.cells (old ++ behind).head? before ++ vc
  goes_on : Alike (p.run behind.head? (before ++ old)) (p.run behind.head? (before ++ chars vc)) behind

theorem Rescans.drop {vc : List Cell} {x before old behind : Text}
    (h : Rescans vc p (x ++ before) old behind) (hne : before ≠ []) :
    Rescans vc (p.run before.head? x) before old behind := by
  obtain ⟨c, a, rfl⟩ := List.exists_cons_of_ne_nil hne
  have hcells := h.cells_eq
  have hgoes := h.goes_on
  simp only [List.append_assoc, List.cons_append, cells_append, run_append, List.head?_cons,
    Option.some_or] at hcells hgoes
  exact ⟨List.append_cancel_left hcells, hgoes⟩

theorem Rescans.drop_of_ordered {vc : List Cell} {pos : Nat} {x before old behind : Text} {s : Span}
    {spans : List Span}
    (hordered : (∀ s ∈ spans, pos + x.byteLength < s.start ∧ s.start ≤ s.stop) ∧
      spans.Pairwise fun a b => a.stop < b.start) (hs : s ∈ spans)
    (hstart : pos + x.byteLength + before.byteLength = s.start)
    (h : Rescans vc p (x ++ before) old behind) :
    Rescans vc (p.run (before ++ (old ++ behind)).head? x) before old behind := by
  have hne : before ≠ [] := by
    intro heq
    subst heq
    have := (hordered.1 s hs).1
    rw [Text.byteLength_nil] at hstart
    omega
  rw [List.head?_append_of_ne_nil _ hne]
  exact h.drop hne

end LineComment.Place

open LineComment.Place

/-- The scan over a part that stays, from another place than before. -/
theorem cells_behind {p p' : Place} {x cs : List Cell} {t t' : Text}
    (hcells : cellsFrom p (chars x ++ t) = x ++ cs) (halike : Alike p p' (chars x ++ t))
    (hhead : t.head? = t'.head?) :
    cellsFrom (p.run t.head? (chars x)) t = cs ∧
      ∃ q, cellsFrom p' (chars x ++ t') = x ++ cellsFrom q t' ∧
        Alike (p.run t.head? (chars x)) q t := by
  rw [cellsFrom_append] at hcells
  obtain ⟨hx, hcs⟩ := List.append_inj hcells (by simp [chars])
  refine ⟨hcs, p'.run t.head? (chars x), ?_, ?_⟩
  · rw [cellsFrom_append, ← hhead]
    congr 1
    cases hchars : chars x with
    | nil =>
      rw [hchars] at hx
      exact hx
    | cons c a =>
      rw [hchars] at hx halike
      rw [← halike.run_eq.2, hx]
  · cases hchars : chars x with
    | nil =>
      rw [hchars] at halike
      exact halike
    | cons c a =>
      rw [hchars] at halike
      rw [← halike.run_eq.1]
      intro _ _
      rfl

/-- The scan over a value that is replaced, with the colon before it and what stands around it. The
colon brings it from the other place to where it was. -/
theorem cells_behind_value {p p' : Place} {vc cg co ct cs : List Cell} {t t' : Text}
    (hcells : cellsFrom p (':' :: (chars cg ++ (chars co ++ (chars ct ++ t)))) =
      ⟨':', false⟩ :: (cg ++ (co ++ (ct ++ cs))))
    (halike : Alike p p' (':' :: (chars cg ++ (chars co ++ (chars ct ++ t)))))
    (hrescan : Rescans vc p (':' :: chars cg) (chars co) (chars ct ++ t)) (hhead : t.head? = t'.head?) :
    cellsFrom (p.run t.head? (':' :: (chars cg ++ (chars co ++ chars ct)))) t = cs ∧
      ∃ q, cellsFrom p' (':' :: (chars cg ++ (chars vc ++ (chars ct ++ t')))) =
          ⟨':', false⟩ :: (cg ++ (vc ++ (ct ++ cellsFrom q t'))) ∧
        Alike (p.run t.head? (':' :: (chars cg ++ (chars co ++ chars ct)))) q t := by
  have hnext : (chars ct ++ t').head? = (chars ct ++ t).head? := by
    simp only [List.head?_append, hhead]
  have hbefore : p.cells (chars co ++ (chars ct ++ t)).head? (':' :: chars cg) =
      ⟨':', false⟩ :: cg := by
    rw [← List.cons_append, cellsFrom_append, ← List.cons_append] at hcells
    exact (List.append_inj hcells (by simp [chars])).1
  have hbehind : cellsFrom (p.run (chars ct ++ t).head? (':' :: chars cg ++ chars co))
      (chars ct ++ t) = ct ++ cs := by
    have hassoc : (⟨':', false⟩ : Cell) :: (cg ++ (co ++ (ct ++ cs))) =
        (⟨':', false⟩ :: (cg ++ co)) ++ (ct ++ cs) := by simp
    rw [← List.cons_append, ← List.append_assoc, cellsFrom_append, hassoc] at hcells
    exact (List.append_inj hcells (by simp [chars])).2
  have hcolon : Alike p p' (':' :: (chars cg ++ chars vc ++ (chars ct ++ t'))) := by
    intro _ heq
    cases heq
    rw [read_colon p _ (chars cg ++ (chars co ++ (chars ct ++ t))).head?,
      read_colon p' _ (chars cg ++ (chars co ++ (chars ct ++ t))).head?]
    exact halike ':' rfl
  obtain ⟨hrun, hsame⟩ := hcolon.run_eq
  obtain ⟨hcs, q, hq, halike'⟩ := cells_behind hbehind hrescan.goes_on hhead
  have hrun' : (p.run (chars ct ++ t).head? (':' :: chars cg ++ chars co)).run t.head? (chars ct) =
      p.run t.head? (':' :: (chars cg ++ (chars co ++ chars ct))) := by
    rw [List.head?_append, ← run_append, List.append_assoc, List.cons_append]
  rw [hrun'] at hcs halike'
  refine ⟨hcs, q, ?_, halike'⟩
  have hassoc : ':' :: (chars cg ++ (chars vc ++ (chars ct ++ t'))) =
      ':' :: (chars cg ++ chars vc) ++ (chars ct ++ t') := by simp
  rw [hassoc, cellsFrom_append, ← hsame, ← hrun, hnext, ← List.cons_append, hrescan.cells_eq, hbefore,
    hq]
  simp

/-- **The new text hides the same characters**, as long as this is so at each value that is
replaced. -/
theorem Swapped.cells_eq {vc : List Cell} {new : List Token} {pos : Nat} {cs cs' : List Cell}
    {tokens tokens' : List Token} {spans : List Span}
    (h : Swapped vc new pos cs tokens spans cs' tokens') {p p' : Place}
    (hcells : cellsFrom p (chars cs) = cs) (halike : Alike p p' (chars cs))
    (hsite : ∀ s ∈ spans, ∀ a o b, chars cs = a ++ (o ++ b) → pos + a.byteLength = s.start →
      pos + (a ++ o).byteLength = s.stop → Rescans vc p a o b) :
    cellsFrom p' (chars cs') = cs' := by
  induction h generalizing p p' with
  | nil => rfl
  | @token pos x token cs tokens spans cs' tokens' _ hrest ih =>
    have hhead : (chars cs).head? = (chars cs').head? := by
      simp only [chars, List.head?_map, hrest.head?_eq]
    rw [chars_append] at hcells halike
    obtain ⟨hcs, q, hq, halike'⟩ := cells_behind hcells halike hhead
    rw [chars_append, hq, ih hcs halike']
    intro s hs a o b hchars hstart hstop
    rw [hchars]
    refine Rescans.drop_of_ordered hrest.ordered hs hstart (hsite s hs (chars x ++ a) o b ?_ ?_ ?_)
    · rw [chars_append, hchars, List.append_assoc]
    · rw [Text.byteLength_append, ← Nat.add_assoc, hstart]
    · rw [List.append_assoc, Text.byteLength_append, ← Nat.add_assoc, hstop]
  | @value pos cg co ct gap old tail gap' tail' cs tokens spans cs' tokens' _ _ _ _ _ hrest ih =>
    have hhead : (chars cs).head? = (chars cs').head? := by
      simp only [chars, List.head?_map, hrest.head?_eq]
    have hrescan := hsite _ (List.mem_cons_self ..) (chars (⟨':', false⟩ :: cg)) (chars co)
      (chars ct ++ chars cs) (by simp) rfl (by simp)
    simp only [chars_cons, chars_append] at hcells halike hrescan hrest ih ⊢
    obtain ⟨hcs, q, hq, halike'⟩ := cells_behind_value hcells halike hrescan hhead
    rw [hq, ih hcs halike']
    intro s hs a o b hchars hstart hstop
    rw [hchars]
    refine Rescans.drop_of_ordered hrest.ordered hs hstart
      (hsite s (List.mem_cons_of_mem _ hs) _ o b ?_ ?_ ?_)
    · simp [hchars]
    · rw [Text.byteLength_append, ← Nat.add_assoc, hstart]
    · rw [List.append_assoc, Text.byteLength_append, ← Nat.add_assoc, hstop]

end VendorSync.Css
