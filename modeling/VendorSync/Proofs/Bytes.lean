import Mathlib.Data.List.Basic
import VendorSync.Proofs.Offsets

/-! The bytes of a text, and cuts of it that are checked.

A character of one byte is known by this byte, and no other character has it among its bytes
(`mem_utf8EncodeChar`): so the first and the last byte of a text, where it has one byte, tell its first
and last character. `slice?` cuts a text like `slice`, but only where the span begins and ends between
characters (`Span.Cuts`). -/
namespace VendorSync

namespace Text

/-! ### Bytes -/

/-- The UTF-8 form of a text. -/
def bytes (t : Text) : List UInt8 := t.flatMap String.utf8EncodeChar

@[simp] theorem bytes_nil : bytes [] = [] := rfl

@[simp] theorem bytes_cons (c : Char) (t : Text) :
    bytes (c :: t) = String.utf8EncodeChar c ++ bytes t := rfl

@[simp] theorem bytes_append (a b : Text) : bytes (a ++ b) = bytes a ++ bytes b := List.flatMap_append

@[simp] theorem length_bytes (t : Text) : (bytes t).length = byteLength t := by
  induction t with
  | nil => rfl
  | cons c t ih => rw [bytes_cons, List.length_append, String.length_utf8EncodeChar, ih, byteLength_cons]

/-- A character is a byte of its own, or none of its bytes is that of such a character. -/
theorem utf8EncodeChar_cases (c : Char) :
    c.utf8Size = 1 ∧ String.utf8EncodeChar c = [c.toUInt8] ∧ c.toUInt8 < 0x80 ∨
      c.utf8Size ≠ 1 ∧ ∀ byte ∈ String.utf8EncodeChar c, 0x80 ≤ byte := by
  by_cases hc : c.utf8Size = 1
  · have hle : c.val.toNat ≤ 127 := Char.utf8Size_eq_one_iff.mp hc
    refine .inl ⟨hc, String.utf8EncodeChar_eq_singleton hc, ?_⟩
    rw [UInt8.lt_iff_toNat_lt, Char.toUInt8, UInt32.toNat_toUInt8]
    show c.val.toNat % 256 < 128
    omega
  · have hlt : ¬ c.val.toNat ≤ 127 := fun h => hc (Char.utf8Size_eq_one_iff.mpr h)
    refine .inr ⟨hc, ?_⟩
    unfold String.utf8EncodeChar
    simp only [hlt, if_false]
    split
    · simp [UInt8.le_iff_toNat_le]; omega
    · split <;> simp [UInt8.le_iff_toNat_le] <;> omega

theorem toUInt8_inj {c d : Char} (hc : c.utf8Size = 1) (hd : d.utf8Size = 1) (h : c.toUInt8 = d.toUInt8) :
    c = d := by
  have hc' : c.val.toNat ≤ 127 := Char.utf8Size_eq_one_iff.mp hc
  have hd' : d.val.toNat ≤ 127 := Char.utf8Size_eq_one_iff.mp hd
  have := congrArg UInt8.toNat h
  simp only [Char.toUInt8, UInt32.toNat_toUInt8] at this
  exact Char.ext (UInt32.toNat_inj.mp (by omega))

theorem ne_toUInt8_of_high {d : Char} (hd : d.utf8Size = 1) {byte : UInt8} (h : 0x80 ≤ byte) :
    byte ≠ d.toUInt8 := by
  rcases utf8EncodeChar_cases d with ⟨-, -, hlt⟩ | ⟨hne, -⟩
  · exact fun heq => absurd hlt (UInt8.not_lt.mpr (heq ▸ h))
  · exact absurd hd hne

/-- The byte of such a character belongs to no other. -/
theorem mem_utf8EncodeChar {c d : Char} (hd : d.utf8Size = 1) :
    d.toUInt8 ∈ String.utf8EncodeChar c ↔ c = d := by
  constructor
  · intro h
    rcases utf8EncodeChar_cases c with ⟨hc, henc, -⟩ | ⟨-, hhigh⟩
    · rw [henc, List.mem_singleton] at h
      exact (toUInt8_inj hd hc h).symm
    · exact absurd rfl (ne_toUInt8_of_high hd (hhigh _ h))
  · rintro rfl
    rw [String.utf8EncodeChar_eq_singleton hd]
    exact List.mem_singleton_self _

theorem mem_bytes {t : Text} {d : Char} (hd : d.utf8Size = 1) : d.toUInt8 ∈ bytes t ↔ d ∈ t := by
  simp [bytes, mem_utf8EncodeChar hd]

theorem head?_bytes {t : Text} {d : Char} (hd : d.utf8Size = 1) :
    (bytes t).head? = some d.toUInt8 ↔ t.head? = some d := by
  cases t with
  | nil => simp
  | cons c t =>
    rw [bytes_cons, List.head?_append_of_ne_nil _ String.utf8EncodeChar_ne_nil, List.head?_cons]
    rcases utf8EncodeChar_cases c with ⟨hc, henc, -⟩ | ⟨hc, -⟩
    · rw [henc, List.head?_cons, Option.some.injEq, Option.some.injEq]
      exact ⟨toUInt8_inj hc hd, congrArg _⟩
    · have hne : c ≠ d := fun heq => hc (heq ▸ hd)
      constructor
      · intro h
        exact absurd ((mem_utf8EncodeChar hd).mp (List.mem_of_mem_head? h)) hne
      · intro h
        exact absurd (Option.some.inj h) hne

/-- The last byte of a text tells its last character, if that has one byte. -/
theorem reverse_bytes_concat (a : Text) (c : Char) : ∃ byte rest,
    (bytes (a ++ [c])).reverse = byte :: rest ∧
      (∀ d : Char, d.utf8Size = 1 → (byte = d.toUInt8 ↔ c = d)) ∧
      (c.utf8Size = 1 → rest = (bytes a).reverse) := by
  have hbytes : (bytes (a ++ [c])).reverse =
      (String.utf8EncodeChar c).reverse ++ (bytes a).reverse := by simp
  rcases utf8EncodeChar_cases c with ⟨hc, henc, -⟩ | ⟨hc, -⟩
  · refine ⟨c.toUInt8, (bytes a).reverse, by rw [hbytes, henc]; rfl, fun d hd => ?_, fun _ => rfl⟩
    exact ⟨toUInt8_inj hc hd, congrArg _⟩
  · obtain ⟨byte, rest, hrest⟩ := List.exists_cons_of_ne_nil
      (List.reverse_ne_nil_iff.mpr (@String.utf8EncodeChar_ne_nil c))
    refine ⟨byte, rest ++ (bytes a).reverse, by rw [hbytes, hrest]; rfl, fun d hd => ?_,
      fun h => absurd h hc⟩
    have hbyte : byte ∈ String.utf8EncodeChar c := List.mem_reverse.mp (by rw [hrest]; simp)
    have hne : c ≠ d := fun heq => hc (heq ▸ hd)
    refine ⟨fun heq => ?_, fun heq => absurd heq hne⟩
    exact (mem_utf8EncodeChar hd).mp (heq ▸ hbyte)

theorem getLast?_bytes {t : Text} {d : Char} (hd : d.utf8Size = 1) :
    (bytes t).getLast? = some d.toUInt8 ↔ t.getLast? = some d := by
  rcases List.eq_nil_or_concat' t with rfl | ⟨t, c, rfl⟩
  · simp
  · obtain ⟨byte, rest, hbytes, hbyte, -⟩ := reverse_bytes_concat t c
    rw [← List.head?_reverse, hbytes, List.head?_cons, List.getLast?_concat, Option.some.injEq,
      Option.some.injEq, hbyte d hd]

theorem getElem?_bytes (a b : Text) : (bytes (a ++ b))[byteLength a]? = (bytes b).head? := by
  rw [bytes_append, List.getElem?_append_right (Nat.le_of_eq (length_bytes a)), length_bytes,
    Nat.sub_self, List.head?_eq_getElem?]

theorem getElem?_bytes_pred {a : Text} (ha : a ≠ []) (b : Text) :
    (bytes (a ++ b))[byteLength a - 1]? = (bytes a).getLast? := by
  have hpos : 0 < byteLength a := Nat.pos_of_ne_zero (mt byteLength_eq_zero.mp ha)
  rw [bytes_append, List.getElem?_append_left (by rw [length_bytes]; omega), List.getLast?_eq_getElem?,
    length_bytes]

end Text

/-! ### Cuts -/

/-- The span begins and ends between characters of the text, and does not end before it begins. -/
structure Span.Cuts (s : Span) (t : Text) : Prop where
  ordered : s.start ≤ s.stop
  start : t.isBoundary s.start = true
  stop : t.isBoundary s.stop = true

instance (s : Span) (t : Text) : Decidable (s.Cuts t) :=
  decidable_of_iff (s.start ≤ s.stop ∧ t.isBoundary s.start = true ∧ t.isBoundary s.stop = true)
    ⟨fun h => ⟨h.1, h.2.1, h.2.2⟩, fun h => ⟨h.ordered, h.start, h.stop⟩⟩

theorem Span.Cuts.stop_le {s : Span} {t : Text} (h : s.Cuts t) : s.stop ≤ t.byteLength := by
  obtain ⟨a, b, rfl, hstop⟩ := Text.isBoundary_iff.mp h.stop
  rw [hstop, Text.byteLength_append]
  exact Nat.le_add_right ..

theorem Span.cuts_of_append {s : Span} {a b c : Text} (hstart : s.start = a.byteLength)
    (hstop : s.stop = Text.byteLength (a ++ b)) : s.Cuts (a ++ (b ++ c)) where
  ordered := by
    rw [hstart, hstop, Text.byteLength_append]
    exact Nat.le_add_right ..
  start := Text.isBoundary_iff.mpr ⟨a, b ++ c, rfl, hstart⟩
  stop := Text.isBoundary_iff.mpr ⟨a ++ b, c, (List.append_assoc ..).symm, hstop⟩

namespace Text

/-- What a span covers, if it cuts the text between characters. -/
def slice? (s : Span) (t : Text) : Option Text := if s.Cuts t then some (slice s t) else none

theorem slice?_of_cuts {s : Span} {t : Text} (h : s.Cuts t) : slice? s t = some (slice s t) := if_pos h

theorem slice?_append {s : Span} {a b c : Text} (hstart : s.start = byteLength a)
    (hstop : s.stop = byteLength (a ++ b)) : slice? s (a ++ (b ++ c)) = some b := by
  rw [slice?_of_cuts (Span.cuts_of_append hstart hstop), slice_eq hstart hstop]

/-- What stands behind an offset, if this is between characters. -/
def rest? (n : Nat) (t : Text) : Option Text := slice? ⟨n, byteLength t⟩ t

theorem rest?_append (a b : Text) : rest? (byteLength a) (a ++ b) = some b := by
  have := @slice?_append ⟨byteLength a, byteLength (a ++ b)⟩ a b [] rfl rfl
  rwa [List.append_nil] at this

/-- How many bytes stand before the first rest of the text that the test accepts. -/
def offset? (p : Text → Bool) : Text → Option Nat
  | [] => none
  | c :: cs => if p (c :: cs) then some 0 else (offset? p cs).map (c.utf8Size + ·)

/-- The first rest that begins with one of some characters. -/
def offsetOf? (q : Char → Bool) (t : Text) : Option Nat := offset? (fun r => r.head?.any q) t

theorem offsetOf?_append {q : Char → Bool} {u : Text} (hu : ∀ c ∈ u, q c = false) (v : Text) :
    offsetOf? q (u ++ v) = (offsetOf? q v).map (byteLength u + ·) := by
  induction u with
  | nil => simp
  | cons c u ih =>
    obtain ⟨hc, hu⟩ := List.forall_mem_cons.mp hu
    have hcons : offsetOf? q (c :: (u ++ v)) = (offsetOf? q (u ++ v)).map (c.utf8Size + ·) := by
      rw [offsetOf?, offset?, if_neg (by simp [hc])]
      rfl
    rw [List.cons_append, hcons, ih hu, Option.map_map]
    congr 1
    funext n
    simp [Nat.add_assoc]

/-- How many bytes stand before the first of some characters, if there is one. -/
theorem offsetOf?_eq {q : Char → Bool} {u v : Text} (hu : ∀ c ∈ u, q c = false)
    (hv : ∀ c ∈ v.head?, q c = true) : offsetOf? q (u ++ v) = v.head?.map fun _ => byteLength u := by
  rw [offsetOf?_append hu]
  cases v with
  | nil => rfl
  | cons d v =>
    rw [offsetOf?, offset?, if_pos (by simpa using hv d rfl)]
    rfl

end Text
end VendorSync
