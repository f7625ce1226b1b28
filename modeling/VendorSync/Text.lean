/-! Texts, measured in the bytes of their UTF-8 form.

Every offset of this library counts bytes. A cut that falls inside a character is
made after that character, so `takeBytes_append_dropBytes` holds of every offset:
the two halves of a cut always make up the text. `isBoundary` tells the offsets
where no character is moved by this. -/
namespace VendorSync

/-- A text is the list of its characters. -/
abbrev Text := List Char

namespace Text

/-! ### Length -/

def byteLength : Text → Nat
  | [] => 0
  | c :: cs => c.utf8Size + byteLength cs

@[simp] theorem byteLength_nil : byteLength [] = 0 := rfl

@[simp] theorem byteLength_cons (c : Char) (cs : Text) :
    byteLength (c :: cs) = c.utf8Size + byteLength cs := rfl

@[simp] theorem byteLength_append (a b : Text) :
    byteLength (a ++ b) = byteLength a + byteLength b := by
  induction a with
  | nil => simp
  | cons c cs ih => simp [ih, Nat.add_assoc]

@[simp] theorem byteLength_eq_zero {t : Text} : byteLength t = 0 ↔ t = [] := by
  cases t with
  | nil => simp
  | cons c cs => have := c.utf8Size_pos; simp; omega

/-! ### Cutting -/

def takeBytes : Nat → Text → Text
  | 0, _ => []
  | _ + 1, [] => []
  | n + 1, c :: cs => c :: takeBytes (n + 1 - c.utf8Size) cs

def dropBytes : Nat → Text → Text
  | 0, cs => cs
  | _ + 1, [] => []
  | n + 1, c :: cs => dropBytes (n + 1 - c.utf8Size) cs

@[simp] theorem takeBytes_zero (t : Text) : takeBytes 0 t = [] := by cases t <;> rfl

@[simp] theorem dropBytes_zero (t : Text) : dropBytes 0 t = t := by cases t <;> rfl

@[simp] theorem takeBytes_nil (n : Nat) : takeBytes n [] = [] := by cases n <;> rfl

@[simp] theorem dropBytes_nil (n : Nat) : dropBytes n [] = [] := by cases n <;> rfl

/-- The two halves of a cut make up the text, wherever it falls. -/
@[simp] theorem takeBytes_append_dropBytes (n : Nat) (t : Text) :
    takeBytes n t ++ dropBytes n t = t := by
  induction t generalizing n with
  | nil => simp
  | cons c cs ih => cases n <;> simp [takeBytes, dropBytes, ih]

/-- A cut between two texts gives them back. -/
theorem takeBytes_byteLength_append (a b : Text) : takeBytes (byteLength a) (a ++ b) = a := by
  induction a with
  | nil => simp
  | cons c cs ih =>
    obtain ⟨k, hk⟩ : ∃ k, c.utf8Size + byteLength cs = k + 1 :=
      ⟨c.utf8Size + byteLength cs - 1, by have := c.utf8Size_pos; omega⟩
    rw [byteLength_cons, hk, List.cons_append, takeBytes, ← hk, Nat.add_sub_cancel_left, ih]

theorem dropBytes_byteLength_append (a b : Text) : dropBytes (byteLength a) (a ++ b) = b := by
  have h := takeBytes_append_dropBytes (byteLength a) (a ++ b)
  rw [takeBytes_byteLength_append] at h
  exact List.append_cancel_left h

/-! ### Boundaries -/

/-- An offset is a boundary if it is the length of a text that the given one starts with. -/
def isBoundary : Nat → Text → Bool
  | 0, _ => true
  | _ + 1, [] => false
  | n + 1, c :: cs => c.utf8Size ≤ n + 1 && isBoundary (n + 1 - c.utf8Size) cs

@[simp] theorem isBoundary_zero (t : Text) : isBoundary 0 t = true := by cases t <;> rfl

theorem isBoundary_byteLength_append (a b : Text) :
    isBoundary (byteLength a) (a ++ b) = true := by
  induction a with
  | nil => simp
  | cons c cs ih =>
    obtain ⟨k, hk⟩ : ∃ k, c.utf8Size + byteLength cs = k + 1 :=
      ⟨c.utf8Size + byteLength cs - 1, by have := c.utf8Size_pos; omega⟩
    rw [byteLength_cons, hk, List.cons_append, isBoundary, ← hk, Nat.add_sub_cancel_left, ih]
    simp

/-- At a boundary a cut takes exactly the bytes asked for. -/
theorem byteLength_takeBytes {n : Nat} {t : Text} (h : isBoundary n t = true) :
    byteLength (takeBytes n t) = n := by
  induction t generalizing n with
  | nil => cases n <;> simp_all [isBoundary]
  | cons c cs ih =>
    cases n with
    | zero => simp
    | succ n =>
      simp only [isBoundary, Bool.and_eq_true, decide_eq_true_eq] at h
      simp only [takeBytes, byteLength_cons, ih h.2]
      omega

end Text
end VendorSync
