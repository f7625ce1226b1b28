import VendorSync.Proofs.Fence
import VendorSync.Proofs.Gaps
import VendorSync.Proofs.Locality

/-! The units of a declaration.

A piece that declares something is made of the units up to its colon, the colon, and a value
with white space and comments on both sides of it (`exists_clause`). The name that it declares
depends on the units before the colon only, and the value is read from its own units alone
(`Declares.kind_eq`). -/
namespace VendorSync.Css

/-! ### Units in a row -/

theorem bodyLength_leaves (tokens : List Token) :
    bodyLength (tokens.map .leaf) = (Token.source tokens).byteLength := by
  induction tokens with
  | nil => rfl
  | cons token tokens ih =>
    rw [List.map_cons, bodyLength_cons, ih, Token.source_cons, Text.byteLength_append]
    rfl

theorem flatMap_toTokens_leaves (tokens : List Token) :
    (tokens.map Segment.leaf).flatMap Segment.toTokens = tokens := by
  induction tokens with
  | nil => rfl
  | cons token tokens ih =>
    rw [List.map_cons, List.flatMap_cons, ih]
    rfl

theorem partsOf_append (pos : Nat) (a b : List Segment) :
    partsOf pos (a ++ b) = partsOf pos a ++ partsOf (pos + bodyLength a) b := by
  induction a generalizing pos with
  | nil => rfl
  | cons s a ih =>
    have hpos : pos + s.byteLength + bodyLength a = pos + bodyLength (s :: a) := by
      rw [bodyLength_cons, Nat.add_assoc]
    cases hrole : s.role <;> simp only [List.cons_append, partsOf, hrole, ih, hpos]

/-- Whether the unit is a part of the statement that it stands in. -/
def Segment.IsPart (s : Segment) : Prop := ∃ isColon, s.role = .part isColon

theorem Segment.plain_of_isPart {s : Segment} (h : s.IsPart) : s.Plain := by
  obtain ⟨isColon, h⟩ := h
  simp [Plain, h]

/-- What is not a part is white space or a comment. -/
theorem Segment.Plain.exists_gap {s : Segment} (h : s.Plain) (hs : ¬ s.IsPart) :
    ∃ token : Token, s = .leaf token ∧ token.Gap := by
  cases s with
  | group opener inside closer => exact absurd ⟨false, rfl⟩ hs
  | leaf token =>
    refine ⟨token, rfl, ?_⟩
    rcases h.role_eq with hrole | hrole | hrole
    · exact .inl (Role.kind_of_space hrole)
    · exact .inr (Role.kind_of_comment hrole)
    · exact absurd hrole hs

theorem Token.Gap.role {token : Token} (h : token.Gap) :
    (Segment.leaf token).role = .space ∨ (Segment.leaf token).role = .comment := by
  rcases h with h | h
  · exact .inl (by rw [Segment.role, h]; rfl)
  · exact .inr (by rw [Segment.role, h]; rfl)

theorem Token.Gap.plain {token : Token} (h : token.Gap) : (Segment.leaf token).Plain := by
  rcases h.role with h | h <;> simp [Segment.Plain, h]

theorem partsOf_gaps {gaps : List Token} (h : ∀ token ∈ gaps, token.Gap) (pos : Nat) :
    partsOf pos (gaps.map .leaf) = [] := by
  induction gaps generalizing pos with
  | nil => rfl
  | cons token gaps ih =>
    obtain ⟨htoken, hgaps⟩ := List.forall_mem_cons.mp h
    rcases htoken.role with hrole | hrole <;> simp only [List.map_cons, partsOf, hrole, ih hgaps]

/-- The unit of a part. -/
theorem exists_part {body : List Segment} {pos : Nat} {a b : List Part} {p : Part}
    (h : partsOf pos body = a ++ p :: b) :
    ∃ l s r, body = l ++ s :: r ∧ partsOf pos l = a ∧ s.role = .part p.isColon := by
  induction body generalizing pos a with
  | nil => simp [partsOf] at h
  | cons s body ih =>
    by_cases hpart : s.IsPart
    · obtain ⟨isColon, hrole⟩ := hpart
      simp only [partsOf, hrole] at h
      cases a with
      | nil =>
        obtain ⟨rfl, -⟩ := List.cons.inj h
        exact ⟨[], s, body, rfl, rfl, hrole⟩
      | cons q a =>
        obtain ⟨rfl, hrest⟩ := List.cons.inj h
        obtain ⟨l, s', r, rfl, hl, hs'⟩ := ih hrest
        exact ⟨s :: l, s', r, rfl, by simp only [partsOf, hrole, hl], hs'⟩
    · have hskip : ∀ rest, partsOf pos (s :: rest) = partsOf (pos + s.byteLength) rest := by
        intro rest
        cases hrole : s.role with
        | part isColon => exact absurd ⟨isColon, hrole⟩ hpart
        | _ => simp only [partsOf, hrole]
      rw [hskip] at h
      obtain ⟨l, s', r, rfl, hl, hs'⟩ := ih h
      exact ⟨s :: l, s', r, rfl, by rw [hskip, hl], hs'⟩

/-! ### Values -/

/-- The first and the last unit of a value are parts. -/
structure Tight (value : List Segment) : Prop where
  head : ∀ s ∈ value.head?, s.IsPart
  last : ∀ s ∈ value.getLast?, s.IsPart

theorem exists_gap_before {body : List Segment} (h : ∀ s ∈ body, s.Plain) :
    ∃ (gap : List Token) (rest : List Segment), body = gap.map .leaf ++ rest ∧
      (∀ token ∈ gap, token.Gap) ∧ ∀ s ∈ rest.head?, s.IsPart := by
  induction body with
  | nil => exact ⟨[], [], rfl, by simp, by simp⟩
  | cons s body ih =>
    obtain ⟨hs, hbody⟩ := List.forall_mem_cons.mp h
    by_cases hpart : s.IsPart
    · refine ⟨[], s :: body, rfl, by simp, ?_⟩
      intro _ heq
      cases heq
      exact hpart
    · obtain ⟨token, rfl, htoken⟩ := hs.exists_gap hpart
      obtain ⟨gap, rest, rfl, hgap, hrest⟩ := ih hbody
      exact ⟨token :: gap, rest, rfl, List.forall_mem_cons.mpr ⟨htoken, hgap⟩, hrest⟩

theorem exists_gap_behind {body : List Segment} (h : ∀ s ∈ body, s.Plain) :
    ∃ (rest : List Segment) (gap : List Token), body = rest ++ gap.map .leaf ∧
      (∀ token ∈ gap, token.Gap) ∧ ∀ s ∈ rest.getLast?, s.IsPart := by
  induction body with
  | nil => exact ⟨[], [], rfl, by simp, by simp⟩
  | cons s body ih =>
    obtain ⟨hs, hbody⟩ := List.forall_mem_cons.mp h
    obtain ⟨rest, gap, rfl, hgap, hrest⟩ := ih hbody
    by_cases hnil : rest = []
    · subst hnil
      by_cases hpart : s.IsPart
      · refine ⟨[s], gap, rfl, hgap, ?_⟩
        intro _ heq
        cases heq
        exact hpart
      · obtain ⟨token, rfl, htoken⟩ := hs.exists_gap hpart
        exact ⟨[], token :: gap, rfl, List.forall_mem_cons.mpr ⟨htoken, hgap⟩, by simp⟩
    · refine ⟨s :: rest, gap, rfl, hgap, ?_⟩
      rwa [List.getLast?_cons_of_ne_nil hnil]

/-- Units with no cut among them are a value and what stands around it. An empty value stands in
front of all white space. -/
theorem exists_value {body : List Segment} (h : ∀ s ∈ body, s.Plain) :
    ∃ (gap tail : List Token) (value : List Segment),
      body = gap.map .leaf ++ (value ++ tail.map .leaf) ∧
      (∀ token ∈ gap ++ tail, token.Gap) ∧ Tight value ∧ (value = [] → gap = []) := by
  obtain ⟨gap, rest, rfl, hgap, hhead⟩ := exists_gap_before h
  obtain ⟨value, tail, rfl, htail, hlast⟩ :=
    exists_gap_behind fun s hs => h s (List.mem_append_right _ hs)
  have hgaps := List.forall_mem_append.mpr ⟨hgap, htail⟩
  cases value with
  | nil => exact ⟨[], gap ++ tail, [], by simp, hgaps, ⟨by simp, by simp⟩, fun _ => rfl⟩
  | cons s value => exact ⟨gap, tail, s :: value, rfl, hgaps, ⟨hhead, hlast⟩, by simp⟩

/-- The parts of a value run from its start to its end. -/
theorem Tight.headerSpan_eq {value : List Segment} (h : Tight value) (hne : value ≠ [])
    (pos brace : Nat) :
    Statement.headerSpan (partsOf pos value) brace = ⟨pos, pos + bodyLength value⟩ := by
  obtain ⟨s, rest, rfl⟩ := List.exists_cons_of_ne_nil hne
  obtain ⟨isColon, hs⟩ := h.head s rfl
  obtain ⟨init, z, hz⟩ := (List.eq_nil_or_concat' (s :: rest)).resolve_left hne
  obtain ⟨isColon', hrole⟩ := h.last z (by rw [hz, List.getLast?_concat]; rfl)
  have hothers : partsOf pos (s :: rest) =
      ⟨⟨pos, pos + s.byteLength⟩, isColon⟩ :: partsOf (pos + s.byteLength) rest := by
    simp only [partsOf, hs]
  have hlast : partsOf pos (s :: rest) =
      partsOf pos init ++ [⟨⟨pos + bodyLength init, pos + bodyLength (s :: rest)⟩, isColon'⟩] := by
    rw [hz, partsOf_append, bodyLength_append]
    simp only [partsOf, hrole, bodyLength_cons, bodyLength_nil, Nat.add_zero, Nat.add_assoc]
  have hstop := congrArg List.getLast? (hothers.symm.trans hlast)
  rw [List.getLast?_cons, List.getLast?_concat, Option.some.injEq] at hstop
  rw [hothers, Statement.headerSpan, Statement.stop, List.getLastD_eq_getLast?, hstop]

/-! ### Declarations -/

/-- The units of a declaration, without its colon: those before it, and the value with the white
space and comments around it. -/
structure Clause where
  front : List Segment
  gap : List Token
  value : List Segment
  tail : List Token

namespace Clause

/-- All units of the declaration in order. -/
def body (c : Clause) : List Segment :=
  c.front ++ .leaf .colon :: (c.gap.map .leaf ++ (c.value ++ c.tail.map .leaf))

/-- Where the value stands when the declaration begins at `pos`. -/
def valueSpan (c : Clause) (pos : Nat) : Span :=
  let start := pos + bodyLength c.front + 1 + (Token.source c.gap).byteLength
  ⟨start, start + bodyLength c.value⟩

theorem bodyLength_body (c : Clause) : bodyLength c.body = bodyLength c.front + 1 +
    (Token.source c.gap).byteLength + bodyLength c.value + (Token.source c.tail).byteLength := by
  have hcolon : (Segment.leaf .colon).byteLength = 1 := by decide
  simp only [body, bodyLength_append, bodyLength_cons, bodyLength_leaves, hcolon]
  omega

/-- The units read as a declaration, unless there are only blanks before the colon. -/
structure Declares (c : Clause) : Prop where
  front : ∀ s ∈ c.front, s.Plain
  first : ∃ first before, partsOf 0 c.front = first :: before ∧ ∀ p ∈ before, p.isColon = false
  gaps : ∀ token ∈ c.gap ++ c.tail, token.Gap
  value : ∀ s ∈ c.value, s.Plain
  tight : Tight c.value
  close : c.value = [] → c.gap = []

/-- The name that the units before a colon make, of which this is the text. -/
def nameOf (front : List Segment) (text : Text) : Text :=
  Text.trimEnd (Text.slice ⟨(Statement.headerSpan (partsOf 0 front) 0).start, bodyLength front⟩ text)

theorem partsOf_body {c : Clause} (h : c.Declares) (pos : Nat) :
    partsOf pos c.body = partsOf pos c.front ++
      ⟨⟨pos + bodyLength c.front, pos + bodyLength c.front + 1⟩, true⟩ ::
        partsOf (c.valueSpan pos).start c.value := by
  obtain ⟨hgap, htail⟩ := List.forall_mem_append.mp h.gaps
  have hcolon : (Segment.leaf .colon).role = .part true := rfl
  have hlen : (Segment.leaf .colon).byteLength = 1 := by decide
  simp only [body, partsOf_append, partsOf, hcolon, hlen, partsOf_gaps hgap, partsOf_gaps htail,
    bodyLength_leaves, List.nil_append, List.append_nil]
  rfl

/-- The parts begin with the first one before the colon and end with the value. -/
theorem Declares.exists_first {c : Clause} (h : c.Declares) {pos : Nat} {first : Part}
    {others : List Part} (hparts : partsOf pos c.body = first :: others) :
    ∃ p before, partsOf 0 c.front = p :: before ∧ first = p.shift pos ∧
      Statement.stop first others = (c.valueSpan pos).stop := by
  obtain ⟨p, before, hfront, -⟩ := h.first
  have hshift := partsOf_shift pos 0 c.front
  rw [Nat.zero_add, hfront, List.map_cons] at hshift
  rw [partsOf_body h, hshift, List.cons_append] at hparts
  obtain ⟨rfl, rfl⟩ := List.cons.inj hparts
  refine ⟨p, before, hfront, rfl, ?_⟩
  have hlast : ∀ (first colon : Part) (before value : List Part),
      Statement.stop first (before ++ colon :: value) = Statement.stop colon value := by
    intro first colon before value
    rw [Statement.stop, Statement.stop, List.getLastD_eq_getLast?, List.getLast?_append_cons,
      List.getLast?_cons, Option.getD_some, List.getLastD_eq_getLast?]
  rw [hlast]
  by_cases hnil : c.value = []
  · simp [hnil, valueSpan, h.close hnil, partsOf, Statement.stop]
  · have hspan := h.tight.headerSpan_eq hnil (c.valueSpan pos).start 0
    cases hvalue : partsOf (c.valueSpan pos).start c.value with
    | nil =>
      rw [hvalue] at hspan
      have := congrArg Span.start hspan
      simp [Statement.headerSpan, Span.empty, valueSpan] at this
      omega
    | cons v vs =>
      rw [hvalue] at hspan
      have hstop := congrArg Span.stop hspan
      rw [Statement.stop, List.getLastD_cons]
      exact hstop

theorem Declares.plain {c : Clause} (h : c.Declares) : ∀ s ∈ c.body, s.Plain := by
  obtain ⟨hgap, htail⟩ := List.forall_mem_append.mp h.gaps
  intro s hs
  simp only [body, List.mem_append, List.mem_cons, List.mem_map] at hs
  rcases hs with hs | rfl | ⟨token, htoken, rfl⟩ | hs | ⟨token, htoken, rfl⟩
  · exact h.front s hs
  · exact Segment.plain_of_isPart ⟨true, rfl⟩
  · exact (hgap token htoken).plain
  · exact h.value s hs
  · exact (htail token htoken).plain

end Clause

/-- A piece with a colon behind its first part is a clause. -/
theorem exists_clause {body : List Segment} (hplain : ∀ s ∈ body, s.Plain)
    (hproper : ∀ token ∈ body.flatMap Segment.toTokens, token.Proper) {pos : Nat} {first colon : Part}
    {before value : List Part} (hparts : partsOf pos body = first :: (before ++ colon :: value))
    (hbefore : ∀ p ∈ before, p.isColon = false) (hcolon : colon.isColon = true) :
    ∃ c : Clause, c.Declares ∧ c.body = body := by
  obtain ⟨front, s, rest, rfl, hfront, hs⟩ := exists_part (a := first :: before) hparts
  rw [hcolon] at hs
  obtain rfl : s = .leaf .colon := by
    cases s with
    | group => cases hs
    | leaf token =>
      have hkind : token.kind = .colon := Role.kind_of_colon hs
      have hlexeme := (hproper token (by simp [Segment.toTokens])).single ':' hkind
      cases token
      cases hkind
      cases hlexeme
      rfl
  simp only [List.forall_mem_append, List.forall_mem_cons] at hplain
  obtain ⟨gap, tail, value, rfl, hgaps, htight, hclose⟩ := exists_value hplain.2.2
  have hfirst : ∃ first before, partsOf 0 front = first :: before ∧ ∀ p ∈ before, p.isColon = false := by
    have hshift := partsOf_shift pos 0 front
    rw [Nat.zero_add, hfront] at hshift
    obtain ⟨first₀, before₀, hfront₀, -, hmap⟩ := List.map_eq_cons_iff.mp hshift.symm
    refine ⟨first₀, before₀, hfront₀, fun p hp => hbefore (p.shift pos) ?_⟩
    rw [← hmap]
    exact List.mem_map_of_mem hp
  refine ⟨⟨front, gap, value, tail⟩, ⟨hplain.1, hfirst, hgaps, fun s hs => ?_, htight, hclose⟩, rfl⟩
  exact hplain.2.2 s (by simp [hs])

namespace Clause
open LineComment

/-- **What a clause declares**: a name that is read from the units before the colon, with the text
of the value's units for its value. -/
theorem Declares.kind_eq {c : Clause} (h : c.Declares) {cf : List Cell}
    (hcovers : Covers cf (c.front.flatMap Segment.toTokens))
    (hproper : ∀ token ∈ c.front.flatMap Segment.toTokens, token.Proper) {x y : Text}
    {first : Part} {others : List Part} (hparts : partsOf x.byteLength c.body = first :: others) :
    Statement.kind (x ++ (chars cf ++ y)) first others =
      if nameOf c.front (chars cf) = [] then .other else .declaration
        { name := nameOf c.front (chars cf)
          nameSpan := ⟨first.span.start, first.span.start + (nameOf c.front (chars cf)).byteLength⟩
          value := Text.slice (c.valueSpan x.byteLength) (x ++ (chars cf ++ y))
          valueSpan := c.valueSpan x.byteLength } := by
  obtain ⟨first₀, before₀, hfront, hbefore₀⟩ := h.first
  have hshift := partsOf_shift x.byteLength 0 c.front
  rw [Nat.zero_add, hfront, List.map_cons] at hshift
  rw [partsOf_body h, hshift, List.cons_append] at hparts
  obtain ⟨rfl, rfl⟩ := List.cons.inj hparts
  have hbefore : ∀ p ∈ before₀.map (Part.shift x.byteLength), p.isColon = false := by
    intro p hp
    obtain ⟨q, hq, rfl⟩ := List.mem_map.mp hp
    exact hbefore₀ q hq
  rw [Statement.kind_of_colon hbefore rfl, Statement.declaration?_eq]
  have hlen : (chars cf).byteLength = bodyLength c.front := by
    rw [hcovers.byteLength_eq, byteLength_body]
  have hplaced := placed_parts hcovers hproper
  rw [hfront] at hplaced
  have hle : first₀.span.start ≤ bodyLength c.front := by
    have hordered := hplaced.ordered
    have hne := hordered.2.1
    have hstop := hordered.2.2.1
    rw [hlen] at hstop
    omega
  have hname : Text.trimEnd (Text.slice ⟨(first₀.shift x.byteLength).span.start,
      x.byteLength + bodyLength c.front⟩ (x ++ (chars cf ++ y))) = nameOf c.front (chars cf) := by
    have := Text.slice_shift (x := x) (y := y) (s := ⟨first₀.span.start, bodyLength c.front⟩)
      (hplaced.sound first₀ (List.mem_cons_self ..)).start
      (hlen ▸ by simpa using Text.isBoundary_byteLength_append (chars cf) []) hle
    rw [nameOf, hfront, Nat.add_comm]
    exact congrArg Text.trimEnd this
  have hspan : Statement.headerSpan (partsOf (c.valueSpan x.byteLength).start c.value)
      (x.byteLength + bodyLength c.front + 1) = c.valueSpan x.byteLength := by
    by_cases hnil : c.value = []
    · rw [hnil, valueSpan, h.close hnil, hnil]
      rfl
    · exact h.tight.headerSpan_eq hnil _ _
  simp only [hname, hspan]
  split <;> rfl

end Clause
end VendorSync.Css
