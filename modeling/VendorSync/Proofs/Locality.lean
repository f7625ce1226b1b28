import VendorSync.Proofs.Values

/-! A piece is read from its own characters.

What the node of a piece says depends on where the piece stands only by the offsets of its spans
(`kind_shift`, `blockKind_shift`), and the comments before its statement are the runs of hidden
characters of its own (`leadingComments_local`), as long as no run crosses its ends. -/
namespace VendorSync

theorem Span.Ordered.right {lo hi : Nat} {a b : List Span} (h : Ordered lo hi (a ++ b)) :
    Ordered lo hi b := by
  induction a generalizing lo with
  | nil => exact h
  | cons s a ih =>
    obtain ⟨hstart, hne, -, hrest⟩ := h
    exact (ih hrest).mono (by omega) (Nat.le_refl _)

/-! ### Moving spans -/

@[simp] theorem Span.shift_start (k : Nat) (s : Span) : (s.shift k).start = s.start + k := rfl

@[simp] theorem Span.shift_stop (k : Nat) (s : Span) : (s.shift k).stop = s.stop + k := rfl

/-- A span of the middle part of a text. -/
theorem Text.slice_shift {x c y : Text} {s : Span} (hstart : isBoundary s.start c = true)
    (hstop : isBoundary s.stop c = true) (hle : s.start ≤ s.stop) :
    slice (s.shift x.byteLength) (x ++ (c ++ y)) = slice s c := by
  obtain ⟨a, b, hc, ha, hb⟩ := eq_append_slice hstart hstop hle
  generalize slice s c = middle at *
  subst hc
  have htext : x ++ (a ++ (middle ++ b) ++ y) = (x ++ a) ++ (middle ++ (b ++ y)) := by simp
  rw [htext]
  refine slice_eq ?_ ?_
  · rw [Span.shift_start, ha, byteLength_append, Nat.add_comm]
  · rw [Span.shift_stop, hb]
    simp only [byteLength_append]
    omega

theorem Text.slice_empty (n : Nat) (t : Text) : slice (.empty n) t = [] := by
  rw [slice, Span.empty, Nat.sub_self, takeBytes_zero]

namespace Css

def Declaration.shift (k : Nat) (d : Declaration) : Declaration :=
  { d with nameSpan := d.nameSpan.shift k, valueSpan := d.valueSpan.shift k }

def Kind.shift (k : Nat) : Kind → Kind
  | .rule selector span => .rule selector (span.shift k)
  | .declaration d => .declaration (d.shift k)
  | kind => kind

def Part.shift (k : Nat) (p : Part) : Part := ⟨p.span.shift k, p.isColon⟩

theorem Part.shift_start (k : Nat) (p : Part) : (p.shift k).span.start = p.span.start + k := rfl

theorem partsOf_shift (k pos : Nat) (body : List Segment) :
    partsOf (pos + k) body = (partsOf pos body).map (Part.shift k) := by
  induction body generalizing pos with
  | nil => rfl
  | cons s body ih =>
    have hpos : pos + k + s.byteLength = pos + s.byteLength + k := by omega
    cases hrole : s.role <;> simp [partsOf, hrole, hpos, ih, Part.shift, Span.shift]

namespace Statement
variable {x c y : Text} {first : Part} {others : List Part}

/-- Parts that stand in order in a text, between its characters. -/
structure Placed (text : Text) (parts : List Part) : Prop where
  ordered : Span.Ordered 0 text.byteLength (parts.map Part.span)
  sound : ∀ p ∈ parts, p.Sound text

theorem stop_shift (k : Nat) (first : Part) (others : List Part) :
    stop (first.shift k) (others.map (Part.shift k)) = stop first others + k := by
  induction others generalizing first with
  | nil => rfl
  | cons p ps ih =>
    have hcons : ∀ (p q : Part) (qs : List Part), stop p (q :: qs) = stop q qs := fun p q qs => by
      rw [stop, List.getLastD_cons, stop]
    rw [List.map_cons, hcons, hcons, ih]

theorem headerSpan_shift (k brace : Nat) (parts : List Part) :
    headerSpan (parts.map (Part.shift k)) (brace + k) = (headerSpan parts brace).shift k := by
  cases parts with
  | nil => rfl
  | cons first others =>
    show (⟨(first.shift k).span.start, stop (first.shift k) (others.map (Part.shift k))⟩ : Span) = _
    rw [stop_shift]
    rfl

/-- The text from the first part to the last. -/
theorem slice_headerSpan_shift {parts : List Part} (h : Placed c parts) (brace : Nat) :
    Text.slice ((headerSpan parts brace).shift x.byteLength) (x ++ (c ++ y)) =
      Text.slice (headerSpan parts brace) c := by
  cases parts with
  | nil =>
    show Text.slice (.empty (brace + x.byteLength)) _ = Text.slice (.empty brace) c
    rw [Text.slice_empty, Text.slice_empty]
  | cons first others =>
    exact Text.slice_shift (h.sound first (List.mem_cons_self ..)).start (stop_sound h.sound)
      (Nat.le_of_lt (stop_bounds h.ordered).1)

theorem blockKind_shift {parts : List Part} (h : Placed c parts) (brace : Nat) :
    blockKind (x ++ (c ++ y)) ((headerSpan parts brace).shift x.byteLength) =
      (blockKind c (headerSpan parts brace)).shift x.byteLength := by
  unfold blockKind
  rw [slice_headerSpan_shift h]
  split <;> rfl

theorem Placed.right {a b : List Part} (h : Placed c (a ++ b)) : Placed c b where
  ordered := by
    have hordered := h.ordered
    rw [List.map_append] at hordered
    exact hordered.right
  sound p hp := h.sound p (List.mem_append_right a hp)

theorem declaration?_shift {colon : Part} {value : List Part} (hfirst : first.Sound c)
    (hcolon : colon.Sound c) (hle : first.span.start ≤ colon.span.start) (hvalue : Placed c value) :
    declaration? (x ++ (c ++ y)) (first.shift x.byteLength) (colon.shift x.byteLength)
        (value.map (Part.shift x.byteLength)) =
      (declaration? c first colon value).map (Declaration.shift x.byteLength) := by
  rw [declaration?_eq, declaration?_eq]
  have hname : Text.slice ⟨(first.shift x.byteLength).span.start,
      (colon.shift x.byteLength).span.start⟩ (x ++ (c ++ y)) =
        Text.slice ⟨first.span.start, colon.span.start⟩ c :=
    Text.slice_shift (s := ⟨first.span.start, colon.span.start⟩) hfirst.start hcolon.start hle
  have hspan : headerSpan (value.map (Part.shift x.byteLength))
      ((colon.shift x.byteLength).span.start + 1) =
        (headerSpan value (colon.span.start + 1)).shift x.byteLength := by
    rw [← headerSpan_shift, Part.shift, Span.shift_start, Nat.add_right_comm]
  simp only [hname, hspan, slice_headerSpan_shift hvalue]
  split
  · rfl
  · simp [Declaration.shift, Part.shift, Span.shift, Nat.add_right_comm]

theorem kind_shift (h : Placed c (first :: others)) :
    kind (x ++ (c ++ y)) (first.shift x.byteLength) (others.map (Part.shift x.byteLength)) =
      (kind c first others).shift x.byteLength := by
  rcases colon_or_none others with hno | ⟨before, colon, value, rfl, hbefore, hcolon⟩
  · have hno' : ∀ p ∈ others.map (Part.shift x.byteLength), p.isColon = false := by
      intro p hp
      obtain ⟨q, hq, rfl⟩ := List.mem_map.mp hp
      exact hno q hq
    have hslice := slice_headerSpan_shift (x := x) (y := y) h 0
    have hheader : Text.slice ⟨(first.shift x.byteLength).span.start,
        stop (first.shift x.byteLength) (others.map (Part.shift x.byteLength))⟩ (x ++ (c ++ y)) =
          Text.slice ⟨first.span.start, stop first others⟩ c := by
      rw [stop_shift]
      exact hslice
    rw [kind_of_no_colon hno, kind_of_no_colon hno', hheader]
    split <;> rfl
  · have hbefore' : ∀ p ∈ before.map (Part.shift x.byteLength), p.isColon = false := by
      intro p hp
      obtain ⟨q, hq, rfl⟩ := List.mem_map.mp hp
      exact hbefore q hq
    have hordered := h.ordered
    have hmap : (first :: (before ++ colon :: value)).map Part.span =
        (first.span :: before.map Part.span) ++ colon.span :: value.map Part.span := by simp
    rw [hmap] at hordered
    have hle := hordered.split.1 first.span (List.mem_cons_self ..)
    have hne := h.ordered.2.1
    have hvalue : Placed c value := by
      have : first :: (before ++ colon :: value) = (first :: (before ++ [colon])) ++ value := by simp
      exact (this ▸ h).right
    have hcolon' : (colon.shift x.byteLength).isColon = true := hcolon
    rw [List.map_append, List.map_cons, kind_of_colon hbefore hcolon, kind_of_colon hbefore' hcolon',
      declaration?_shift (h.sound first (List.mem_cons_self ..)) (h.sound colon (by simp)) (by omega)
        hvalue]
    cases declaration? c first colon value <;> rfl

end Statement

/-! ### Runs of hidden characters -/

namespace LineComment

theorem runs_append_of_last {a : List Cell} (ha : ∀ c ∈ a.getLast?, c.hidden = false)
    (b : List Cell) (pos : Nat) :
    runs none pos (a ++ b) = runs none pos a ++ runs none (pos + (chars a).byteLength) b := by
  suffices h : ∀ started, (a = [] → started = none) → runs started pos (a ++ b) =
      runs started pos a ++ runs none (pos + (chars a).byteLength) b from h none fun _ => rfl
  induction a generalizing pos with
  | nil =>
    intro started hstarted
    rw [hstarted rfl]
    rfl
  | cons c a ih =>
    intro started _
    by_cases hnil : a = []
    · subst hnil
      have hc := ha c rfl
      cases started <;> simp [runs, hc]
    · have hlast : ∀ x ∈ a.getLast?, x.hidden = false := fun x hx => ha x (by
        rw [Option.mem_def, List.getLast?_cons, hx]
        rfl)
      have hrest := fun pos started => ih hlast pos started fun h => absurd h hnil
      cases hc : c.hidden <;> cases started <;> simp [runs, hc, hrest, Nat.add_assoc]

theorem runs_append_of_head {a b : List Cell} (hb : ∀ c ∈ b.head?, c.hidden = false)
    (started : Option Nat) (pos : Nat) :
    runs started pos (a ++ b) = runs started pos a ++ runs none (pos + (chars a).byteLength) b := by
  induction a generalizing started pos with
  | nil =>
    cases started with
    | none => rfl
    | some start =>
      cases b with
      | nil => rfl
      | cons c b => simp [runs, hb c rfl]
  | cons c a ih =>
    cases hc : c.hidden <;> cases started <;> simp [runs, hc, ih, Nat.add_assoc]

theorem runs_shift (k : Nat) (started : Option Nat) (pos : Nat) (cs : List Cell) :
    runs (started.map (· + k)) (pos + k) cs = (runs started pos cs).map (Span.shift k) := by
  induction cs generalizing started pos with
  | nil => cases started <;> rfl
  | cons c cs ih =>
    have hpos : pos + k + c.char.utf8Size = pos + c.char.utf8Size + k := by omega
    cases hc : c.hidden with
    | false =>
      have := ih none (pos + c.char.utf8Size)
      cases started <;> simp_all [runs, Span.shift]
    | true =>
      have := ih (some (started.getD pos)) (pos + c.char.utf8Size)
      cases started <;> simp_all [runs]

end LineComment

open LineComment

/-- The text of some cells with the comments among them. -/
def Source.ofCells (cs : List Cell) : Source := ⟨chars cs, runs none 0 cs⟩

theorem Source.ofText_eq (t : Text) : ofText t = ofCells (cells t) := by
  rw [ofText, ofCells, chars_cells]
  rfl

/-- Comments before and behind a piece have no part in it, and those in it move with it. -/
theorem leadingComments_window {text text' : Text} {l₁ l₂ l₃ : List Span} {k pos : Nat}
    {body : List Segment} (h₁ : ∀ s ∈ l₁, s.start < k)
    (h₃ : ∀ s ∈ l₃, pos + k + bodyLength body ≤ s.start) :
    leadingComments ⟨text, l₁ ++ (l₂.map (Span.shift k) ++ l₃)⟩ (pos + k) body =
      (leadingComments ⟨text', l₂⟩ pos body).map (Span.shift k) := by
  induction body generalizing pos with
  | nil => rfl
  | cons s body ih =>
    have hlen : bodyLength (s :: body) = s.byteLength + bodyLength body := rfl
    have hpos : pos + k + s.byteLength = pos + s.byteLength + k := by omega
    have hrest := @ih (pos + s.byteLength) fun c hc => by
      have := h₃ c hc
      omega
    cases hrole : s.role with
    | space =>
      simp only [leadingComments, hrole, hpos, hrest, List.map_append]
      congr 1
      have hleft : l₁.filter (fun c => pos + k ≤ c.start && c.start < pos + s.byteLength + k) = [] := by
        refine List.filter_eq_nil_iff.mpr fun c hc => ?_
        have := h₁ c hc
        simp
        omega
      have hright : l₃.filter (fun c => pos + k ≤ c.start && c.start < pos + s.byteLength + k) = [] := by
        refine List.filter_eq_nil_iff.mpr fun c hc => ?_
        have := h₃ c hc
        simp
        omega
      rw [List.filter_append, List.filter_append, hleft, hright, List.nil_append, List.append_nil,
        List.filter_map]
      congr 1
      refine List.filter_congr fun c _ => ?_
      simp only [Function.comp, Span.shift_start]
      congr 1 <;> exact decide_eq_decide.mpr (by omega)
    | comment =>
      simp only [leadingComments, hrole, hpos, hrest, List.map_cons]
      rfl
    | _ => simp [leadingComments, hrole]

/-- No run of hidden characters goes from the one to the other. -/
def LineComment.Apart (a b : List Cell) : Prop :=
  (∀ c ∈ a.getLast?, c.hidden = false) ∨ ∀ c ∈ b.head?, c.hidden = false

theorem LineComment.runs_append {a b : List Cell} (h : Apart a b) (pos : Nat) :
    runs none pos (a ++ b) = runs none pos a ++ runs none (pos + (chars a).byteLength) b := by
  rcases h with h | h
  · exact runs_append_of_last h b pos
  · exact runs_append_of_head h none pos

/-- The comments before the statement of a piece are runs of its own cells. -/
theorem leadingComments_local {x cs y : List Cell} (hx : Apart x (cs ++ y))
    (hy : ∀ c ∈ y.head?, c.hidden = false) {body : List Segment}
    (hlen : bodyLength body = (chars cs).byteLength) :
    leadingComments (.ofCells (x ++ (cs ++ y))) (chars x).byteLength body =
      (leadingComments (.ofCells cs) 0 body).map (Span.shift (chars x).byteLength) := by
  have hruns : runs none 0 (x ++ (cs ++ y)) = runs none 0 x ++
      ((runs none 0 cs).map (Span.shift (chars x).byteLength) ++
        runs none ((chars x).byteLength + (chars cs).byteLength) y) := by
    rw [runs_append hx, runs_append (.inr hy), ← runs_shift, Nat.zero_add]
    rfl
  rw [Source.ofCells, hruns]
  have := @leadingComments_window (chars (x ++ (cs ++ y))) (chars cs) (runs none 0 x) (runs none 0 cs)
    (runs none ((chars x).byteLength + (chars cs).byteLength) y) (chars x).byteLength 0 body
  rw [Nat.zero_add] at this
  refine this (fun s hs => ?_) (fun s hs => ?_)
  · have := (runs_none 0 x).ordered.of_mem hs
    omega
  · have := (runs_none ((chars x).byteLength + (chars cs).byteLength) y).ordered.of_mem hs
    omega

/-- The parts of a piece, in the text of the piece. -/
theorem placed_parts {cs : List Cell} {body : List Segment}
    (hcovers : Covers cs (body.flatMap Segment.toTokens))
    (hproper : ∀ token ∈ body.flatMap Segment.toTokens, token.Proper) :
    Statement.Placed (chars cs) (partsOf 0 body) := by
  have hfits : Source.Fits ⟨chars cs, []⟩ 0 (body.flatMap Segment.toTokens) := {
    nonempty := fun token ht => (hproper token ht).nonempty
    colon := fun token ht hkind => by
      rw [Token.byteLength, (hproper token ht).single ':' hkind]
      decide
    boundary := fun a b hab => by
      rw [hab] at hcovers
      obtain ⟨x, y, rfl, hx, -⟩ := hcovers.exists_append
      rw [Nat.zero_add, ← hx.byteLength_eq, chars_append]
      exact Text.isBoundary_byteLength_append _ _
    ordered := trivial
    comment_boundary := by simp
    inside := by simp
    visible := by simp }
  have hlen : (chars cs).byteLength = 0 + bodyLength body := by
    rw [hcovers.byteLength_eq, byteLength_body, Nat.zero_add]
  exact ⟨hlen ▸ ordered_parts hfits, sound_parts hfits⟩

end Css
end VendorSync
