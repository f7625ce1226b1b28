import Mathlib.Data.List.Forall2
import VendorSync.Proofs.Grammar

/-! Forests of the same shape.

A relation between nodes is carried over to forests of one shape (`Forest.Matches`) and from these to
the lists of their nodes (`Matches.nodes`), so that related nodes have the same number and parent. -/
namespace VendorSync.Css

/-- The forests have the same shape, and each node is related to the one in its place. -/
inductive Forest.Matches (R : Item → Item → Prop) : Forest → Forest → Prop
  | nil : Matches R .nil .nil
  | cons {item item' children children' rest rest'} : R item item' →
      Matches R children children' → Matches R rest rest' →
      Matches R (.cons item children rest) (.cons item' children' rest')

/-- Nodes in the same place: they are related and have the same parent. -/
def Node.Matches (R : Item → Item → Prop) (a b : Node) : Prop :=
  R a.toItem b.toItem ∧ a.parent = b.parent

namespace Forest
variable {R : Item → Item → Prop}

theorem Matches.append {f f' g g' : Forest} (hf : f.Matches R f') (hg : g.Matches R g') :
    (f.append g).Matches R (f'.append g') := by
  induction hf with
  | nil => exact hg
  | cons hitem hchildren _ _ ih => exact .cons hitem hchildren ih

theorem Matches.imp {S : Item → Item → Prop} {f g : Forest} (h : f.Matches R g)
    (hRS : ∀ item item', R item item' → S item item') : f.Matches S g := by
  induction h with
  | nil => exact .nil
  | cons hitem _ _ ih₁ ih₂ => exact .cons (hRS _ _ hitem) ih₁ ih₂

theorem Matches.size_eq {f g : Forest} (h : f.Matches R g) : f.size = g.size := by
  induction h with
  | nil => rfl
  | cons _ _ _ ih₁ ih₂ => simp only [size, ih₁, ih₂]

theorem Matches.nodes {f g : Forest} (h : f.Matches R g) (parent first : Nat) :
    List.Forall₂ (Node.Matches R) (f.nodes parent first) (g.nodes parent first) := by
  induction h generalizing parent first with
  | nil => exact .nil
  | cons hitem hchildren _ ih₁ ih₂ =>
    rw [Forest.nodes, Forest.nodes, ← hchildren.size_eq]
    exact .cons ⟨hitem, rfl⟩ (List.rel_append (ih₁ _ _) (ih₂ _ _))

theorem matches_refl (h : ∀ item, R item item) (f : Forest) : f.Matches R f := by
  induction f with
  | nil => exact .nil
  | cons item children rest ih₁ ih₂ => exact .cons (h item) ih₁ ih₂

/-- As many comments in the one place as in the other. -/
theorem matches_comments {a b : List Span}
    (h : List.Forall₂ (fun s s' => R ⟨.comment, s⟩ ⟨.comment, s'⟩) a b) :
    (comments a).Matches R (comments b) := by
  induction h with
  | nil => exact .nil
  | cons hs _ ih => exact .cons hs .nil ih

end Forest

namespace Sheet

/-- The nodes of the sheets are related number by number. -/
def Matches (R : Item → Item → Prop) (sheet sheet' : Sheet) : Prop :=
  List.Forall₂ (Node.Matches R) sheet.nodes sheet'.nodes

variable {R : Item → Item → Prop} {sheet sheet' : Sheet}

theorem matches_of_forest (hroot : R ⟨.root, ⟨0, sheet.length⟩⟩ ⟨.root, ⟨0, sheet'.length⟩⟩)
    (h : sheet.forest.Matches R sheet'.forest) : sheet.Matches R sheet' := by
  rw [Matches, sheet.nodes_eq, sheet'.nodes_eq]
  exact .cons ⟨hroot, rfl⟩ (h.nodes 0 1)

end Sheet
end VendorSync.Css
