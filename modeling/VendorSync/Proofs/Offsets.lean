import VendorSync.Text.Span

/-! Offsets as lengths of beginnings of a text.

Where a text is known as one text behind another, cutting it at the length of the first needs
no arithmetic. `isBoundary_iff` says that the boundaries are these offsets. -/
namespace VendorSync.Text

/-- Of two beginnings of a text the shorter is a beginning of the longer. -/
theorem exists_append_of_le {a b c d : Text} (h : a ++ b = c ++ d)
    (hle : byteLength a ≤ byteLength c) : ∃ x, c = a ++ x ∧ b = x ++ d := by
  rcases List.append_eq_append_iff.mp h with ⟨x, hc, hb⟩ | ⟨x, ha, hd⟩
  · exact ⟨x, hc, hb⟩
  · have hx : x = [] := by
      rw [ha, byteLength_append] at hle
      exact byteLength_eq_zero.mp (by omega)
    subst hx
    exact ⟨[], by simpa using ha.symm, by simpa using hd.symm⟩

theorem append_inj_of_byteLength {a b c d : Text} (h : a ++ b = c ++ d)
    (hlen : byteLength a = byteLength c) : a = c ∧ b = d := by
  obtain ⟨x, hc, hb⟩ := exists_append_of_le h (by omega)
  have hx : x = [] := by
    rw [hc, byteLength_append] at hlen
    exact byteLength_eq_zero.mp (by omega)
  subst hx
  exact ⟨by simpa using hc.symm, by simpa using hb⟩

/-- A character that stands in a text between two others. -/
theorem mem_of_between {a m r u v : Text} {d : Char} (h : a ++ (m ++ r) = u ++ d :: v)
    (hlo : byteLength a ≤ byteLength u)
    (hhi : byteLength u < byteLength a + byteLength m) : d ∈ m := by
  obtain ⟨w, rfl, hw⟩ := exists_append_of_le h hlo
  rw [byteLength_append] at hhi
  obtain ⟨w', rfl, hrest⟩ := exists_append_of_le hw.symm (by omega)
  cases w' with
  | nil => simp at hhi
  | cons e w' =>
    obtain ⟨rfl, -⟩ := List.cons.inj hrest
    simp

theorem isBoundary_iff {n : Nat} {t : Text} :
    isBoundary n t = true ↔ ∃ a b, t = a ++ b ∧ n = byteLength a := by
  constructor
  · intro h
    exact ⟨takeBytes n t, dropBytes n t, (takeBytes_append_dropBytes n t).symm,
      (byteLength_takeBytes h).symm⟩
  · intro h
    rcases h with ⟨a, b, rfl, rfl⟩
    exact isBoundary_byteLength_append a b

theorem slice_eq {a b c : Text} {s : Span} (hstart : s.start = byteLength a)
    (hstop : s.stop = byteLength (a ++ b)) : slice s (a ++ (b ++ c)) = b := by
  obtain ⟨start, stop⟩ := s
  subst hstart hstop
  rw [byteLength_append, slice_append]

/-- A span between two boundaries cuts a text in three. -/
theorem eq_append_slice {t : Text} {s : Span} (hstart : isBoundary s.start t = true)
    (hstop : isBoundary s.stop t = true) (hle : s.start ≤ s.stop) :
    ∃ a c, t = a ++ (slice s t ++ c) ∧ s.start = byteLength a ∧
      s.stop = byteLength (a ++ slice s t) := by
  obtain ⟨a, x, rfl, ha⟩ := isBoundary_iff.mp hstart
  obtain ⟨y, c, hy, hyl⟩ := isBoundary_iff.mp hstop
  obtain ⟨b, rfl, rfl⟩ := exists_append_of_le hy (by omega)
  rw [slice_eq ha hyl]
  exact ⟨a, c, rfl, ha, hyl⟩

end VendorSync.Text
