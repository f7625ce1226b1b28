import Mathlib.Data.List.TakeDrop
import Mathlib.Data.List.TakeWhile
import VendorSync.Css.Reading
import VendorSync.Proofs.Nesting

/-! The statement grammar, and that reading follows it.

A level is cut into pieces: after each semicolon, after each block, and at each brace that
closes nothing. `Reads` is the grammar of these pieces. A piece gives its leading comments as
nodes and then at most one node more, of which `Means` and `Heads` say what it is, by the parts
of the piece. `forest_eq_iff`: the nodes of a sheet are the ones that the grammar derives from
the units of its tokens, and no others. -/
namespace VendorSync.Css

/-! ### Roles -/

namespace Role
variable {kind : Token.Kind}

theorem kind_of_space (h : ofKind kind = .space) : kind = .whitespace := by
  unfold ofKind at h
  split at h <;> simp_all

theorem kind_of_comment (h : ofKind kind = .comment) : kind = .comment := by
  unfold ofKind at h
  split at h <;> simp_all

theorem kind_of_colon (h : ofKind kind = .part true) : kind = .colon := by
  unfold ofKind at h
  split at h <;> simp_all

end Role

/-! ### Pieces -/

/-- One unit that is not a block. -/
inductive Segment where
  | leaf (token : Token)
  | group (opener : Token) (inside : Units) (closer : Option Token)

namespace Segment

def role : Segment → Role
  | leaf t => .ofKind t.kind
  | group .. => .part false

def byteLength : Segment → Nat
  | leaf t => t.byteLength
  | group opener inside closer => (Units.group opener inside closer .nil).byteLength

/-- Whether the unit may stand inside a piece, and is not its end. -/
def Plain (s : Segment) : Prop := s.role ≠ .semicolon ∧ s.role ≠ .strayBrace

end Segment

/-- The number of bytes of some units. -/
def bodyLength : List Segment → Nat
  | [] => 0
  | s :: body => s.byteLength + bodyLength body

@[simp] theorem bodyLength_nil : bodyLength [] = 0 := rfl

@[simp] theorem bodyLength_cons (s : Segment) (body : List Segment) :
    bodyLength (s :: body) = s.byteLength + bodyLength body := rfl

@[simp] theorem bodyLength_append (a b : List Segment) :
    bodyLength (a ++ b) = bodyLength a + bodyLength b := by
  induction a with
  | nil => simp
  | cons s a ih => simp [ih, Nat.add_assoc]

namespace Units

/-- A piece before the units that end and follow it. -/
def prepend : List Segment → Units → Units
  | [], u => u
  | .leaf t :: body, u => leaf t (prepend body u)
  | .group opener inside closer :: body, u => group opener inside closer (prepend body u)

theorem prepend_append (a b : List Segment) (u : Units) :
    prepend (a ++ b) u = prepend a (prepend b u) := by
  induction a with
  | nil => rfl
  | cons s a ih => cases s <;> simp only [List.cons_append, prepend, ih]

end Units

/-- The parts among the units of a piece that begins at `pos`. -/
def partsOf (pos : Nat) : List Segment → List Part
  | [] => []
  | s :: rest =>
    match s.role with
    | .part isColon => ⟨⟨pos, pos + s.byteLength⟩, isColon⟩ :: partsOf (pos + s.byteLength) rest
    | _ => partsOf (pos + s.byteLength) rest

/-- The comments before the first part of a piece: those of the language, and the line comments
that begin in its white space. -/
def leadingComments (source : Source) (pos : Nat) : List Segment → List Span
  | [] => []
  | s :: rest =>
    match s.role with
    | .space =>
      source.comments.filter (fun c => pos ≤ c.start && c.start < pos + s.byteLength) ++
        leadingComments source (pos + s.byteLength) rest
    | .comment => ⟨pos, pos + s.byteLength⟩ :: leadingComments source (pos + s.byteLength) rest
    | _ => []

/-- Comments as nodes. -/
def Forest.comments (spans : List Span) : Forest :=
  spans.foldr (fun c => .cons ⟨.comment, c⟩ .nil) .nil

/-! ### What the node of a piece is -/

namespace Statement

/-- The text begins with the name, and only blanks follow, which the name does not end with. -/
def IsName (text name : Text) : Prop :=
  ∃ blanks, text = name ++ blanks ∧ (∀ c ∈ blanks, Text.isBlank c = true) ∧
    ∀ c ∈ name.getLast?, Text.isBlank c = false

/-- The header begins with an at sign and the name behind it, which runs to the first character
that ends it; the rest of the header without blanks around it is the prelude. -/
def IsAtRule (header name prelude : Text) : Prop :=
  ∃ rest, header = '@' :: (name ++ rest) ∧ (∀ c ∈ name, endsAtRuleName c = false) ∧
    (∀ c ∈ rest.head?, endsAtRuleName c = true) ∧ prelude = Text.trim rest

/-- The kind of node that the parts of a piece without a block make. -/
inductive Means (text : Text) : List Part → Kind → Prop
  /-- The first colon behind the first part separates a name from a value. -/
  | declaration {first before colon value name} : (∀ p ∈ before, p.isColon = false) →
      colon.isColon = true → IsName (Text.slice ⟨first.span.start, colon.span.start⟩ text) name →
      name ≠ [] →
      Means text (first :: (before ++ colon :: value))
        (.declaration
          { name
            nameSpan := ⟨first.span.start, first.span.start + Text.byteLength name⟩
            value := Text.slice (headerSpan value (colon.span.start + 1)) text
            valueSpan := headerSpan value (colon.span.start + 1) })
  /-- Nothing but blanks stands before the colon. -/
  | nameless {first before colon value} : (∀ p ∈ before, p.isColon = false) →
      colon.isColon = true → IsName (Text.slice ⟨first.span.start, colon.span.start⟩ text) [] →
      Means text (first :: (before ++ colon :: value)) .other
  | atRule {first others name prelude} : (∀ p ∈ others, p.isColon = false) →
      IsAtRule (Text.slice ⟨first.span.start, stop first others⟩ text) name prelude →
      Means text (first :: others) (.atRule name prelude false)
  | other {first others} : (∀ p ∈ others, p.isColon = false) →
      (Text.slice ⟨first.span.start, stop first others⟩ text).head? ≠ some '@' →
      Means text (first :: others) .other

/-- The kind of node that a block makes whose header has this span. -/
inductive Heads (text : Text) (header : Span) : Kind → Prop
  | atRule {name prelude} : IsAtRule (Text.slice header text) name prelude →
      Heads text header (.atRule name prelude true)
  | rule : (Text.slice header text).head? ≠ some '@' →
      Heads text header (.rule (Text.slice header text) header)

/-- The nodes of the parts of a piece without a block: none if it has none, and else one, from
the first part up to the semicolon that cuts the piece or up to the last part. -/
inductive Concludes (text : Text) (cut : Option Nat) : List Part → Forest → Prop
  | nothing : Concludes text cut [] .nil
  | node {first others kind} : Means text (first :: others) kind →
      Concludes text cut (first :: others)
        (.cons ⟨kind, ⟨first.span.start, cut.getD (stop first others)⟩⟩ .nil .nil)

end Statement

/-- The nodes of the units of a level that begins at an offset. -/
inductive Reads (source : Source) : Nat → Units → Forest → Prop
  /-- The last piece ends with the level. -/
  | finish {pos body own} : (∀ s ∈ body, s.Plain) →
      Statement.Concludes source.text none (partsOf pos body) own →
      Reads source pos (.prepend body .nil)
        ((Forest.comments (leadingComments source pos body)).append own)
  | semicolon {pos body own token rest after} : (∀ s ∈ body, s.Plain) → token.kind = .semicolon →
      Statement.Concludes source.text (some (pos + bodyLength body + token.byteLength))
        (partsOf pos body) own →
      Reads source (pos + bodyLength body + token.byteLength) rest after →
      Reads source pos (.prepend body (.leaf token rest))
        ((Forest.comments (leadingComments source pos body)).append (own.append after))
  | strayBrace {pos body own token rest after} : (∀ s ∈ body, s.Plain) →
      token.kind = .closer .curly →
      Statement.Concludes source.text none (partsOf pos body) own →
      Reads source (pos + bodyLength body + token.byteLength) rest after →
      Reads source pos (.prepend body (.leaf token rest))
        ((Forest.comments (leadingComments source pos body)).append (own.append after))
  | block {pos body kind opener inside closer rest children after} : (∀ s ∈ body, s.Plain) →
      Statement.Heads source.text
        (Statement.headerSpan (partsOf pos body) (pos + bodyLength body)) kind →
      Reads source (pos + bodyLength body + opener.byteLength) inside children →
      Reads source (pos + bodyLength body + (Units.block opener inside closer .nil).byteLength) rest
        after →
      Reads source pos (.prepend body (.block opener inside closer rest))
        ((Forest.comments (leadingComments source pos body)).append
          (.cons ⟨kind, ⟨(Statement.headerSpan (partsOf pos body) (pos + bodyLength body)).start,
            pos + bodyLength body + (Units.block opener inside closer .nil).byteLength⟩⟩
            children after))

/-! ### The kinds are those that are computed -/

namespace Statement

theorem trimEnd_eq_iff {text name : Text} : Text.trimEnd text = name ↔ IsName text name := by
  constructor
  · intro heq
    subst heq
    refine ⟨_, (Text.trimEnd_append_blanks text).symm, fun c hc => ?_, fun c hc => ?_⟩
    · exact List.mem_takeWhile_imp (List.mem_reverse.mp hc)
    · rw [Text.trimEnd, List.getLast?_reverse, Option.mem_def] at hc
      have := List.head?_dropWhile_not Text.isBlank text.reverse
      rw [hc] at this
      exact this
  · intro h
    rcases h with ⟨blanks, rfl, hblanks, hlast⟩
    rw [Text.trimEnd, List.reverse_append, List.dropWhile_append_of_pos (by simpa using hblanks)]
    cases hname : name.reverse with
    | nil => simpa using hname
    | cons c cs =>
      have hc : name.getLast? = some c := by rw [← List.head?_reverse, hname]; rfl
      rw [List.dropWhile_cons_of_neg (by simp [hlast c hc]), ← hname, List.reverse_reverse]

theorem atRule?_eq_some_iff {header name prelude : Text} :
    atRule? header = some (name, prelude) ↔ IsAtRule header name prelude := by
  constructor
  · intro h
    unfold atRule? at h
    split at h
    · rename_i rest
      simp only [List.span_eq_takeWhile_dropWhile, Option.some.injEq, Prod.mk.injEq] at h
      obtain ⟨rfl, rfl⟩ := h
      refine ⟨_, by rw [List.takeWhile_append_dropWhile], fun c hc => ?_, fun c hc => ?_, rfl⟩
      · simpa using List.mem_takeWhile_imp hc
      · have := List.head?_dropWhile_not (fun c => !endsAtRuleName c) rest
        rw [Option.mem_def.mp hc] at this
        simpa using this
    · simp at h
  · intro h
    rcases h with ⟨rest, rfl, hname, hrest, rfl⟩
    have htake : (name ++ rest).takeWhile (fun c => !endsAtRuleName c) = name := by
      rw [List.takeWhile_append_of_pos (by simpa using hname)]
      cases rest with
      | nil => simp
      | cons c cs => rw [List.takeWhile_cons_of_neg (by simp [hrest c rfl]), List.append_nil]
    have hdrop : (name ++ rest).dropWhile (fun c => !endsAtRuleName c) = rest := by
      rw [List.dropWhile_append_of_pos (by simpa using hname)]
      cases rest with
      | nil => rfl
      | cons c cs => rw [List.dropWhile_cons_of_neg (by simp [hrest c rfl])]
    simp only [atRule?, List.span_eq_takeWhile_dropWhile, htake, hdrop]

theorem atRule?_eq_none_iff {header : Text} : atRule? header = none ↔ header.head? ≠ some '@' := by
  unfold atRule?
  split
  · simp
  · rename_i h
    refine iff_of_true rfl fun hhead => ?_
    cases header with
    | nil => simp at hhead
    | cons c cs => exact h cs (by rw [List.head?_cons, Option.some.injEq] at hhead; rw [hhead])

theorem declaration?_eq (text : Text) (first colon : Part) (value : List Part) :
    declaration? text first colon value =
      let name := Text.trimEnd (Text.slice ⟨first.span.start, colon.span.start⟩ text)
      if name = [] then none else some
        { name
          nameSpan := ⟨first.span.start, first.span.start + Text.byteLength name⟩
          value := Text.slice (headerSpan value (colon.span.start + 1)) text
          valueSpan := headerSpan value (colon.span.start + 1) } := by
  cases value <;> simp [declaration?, headerSpan]

/-- The first colon behind the first part, with what stands before and behind it. -/
theorem colon_or_none (others : List Part) :
    (∀ p ∈ others, p.isColon = false) ∨ ∃ before colon value,
      others = before ++ colon :: value ∧ (∀ p ∈ before, p.isColon = false) ∧ colon.isColon = true := by
  induction others with
  | nil => exact .inl (by simp)
  | cons p ps ih =>
    by_cases hp : p.isColon = true
    · exact .inr ⟨[], p, ps, rfl, by simp, hp⟩
    · rw [Bool.not_eq_true] at hp
      rcases ih with h | ⟨before, colon, value, rfl, hbefore, hcolon⟩
      · exact .inl (List.forall_mem_cons.mpr ⟨hp, h⟩)
      · exact .inr ⟨p :: before, colon, value, rfl, List.forall_mem_cons.mpr ⟨hp, hbefore⟩, hcolon⟩

theorem kind_of_colon {before value : List Part} {colon : Part}
    (hbefore : ∀ p ∈ before, p.isColon = false) (hcolon : colon.isColon = true) (text : Text)
    (first : Part) :
    kind text first (before ++ colon :: value) =
      ((declaration? text first colon value).map .declaration).getD .other := by
  have : (before ++ colon :: value).dropWhile (!·.isColon) = colon :: value := by
    rw [List.dropWhile_append_of_pos (by simpa using hbefore),
      List.dropWhile_cons_of_neg (by simp [hcolon])]
  simp only [kind, this]

theorem kind_of_no_colon {others : List Part} (h : ∀ p ∈ others, p.isColon = false) (text : Text)
    (first : Part) :
    kind text first others =
      match atRule? (Text.slice ⟨first.span.start, stop first others⟩ text) with
      | some (name, prelude) => .atRule name prelude false
      | none => .other := by
  have : others.dropWhile (!·.isColon) = [] := by
    rw [List.dropWhile_eq_nil_iff]
    simpa using h
  unfold kind
  split
  · rename_i hcolon
    rw [this] at hcolon
    cases hcolon
  · rfl

theorem means_kind (text : Text) (first : Part) (others : List Part) :
    Means text (first :: others) (kind text first others) := by
  rcases colon_or_none others with h | ⟨before, colon, value, rfl, hbefore, hcolon⟩
  · rw [kind_of_no_colon h]
    split
    · rename_i name prelude hat
      exact .atRule h (atRule?_eq_some_iff.mp hat)
    · rename_i hat
      exact .other h (atRule?_eq_none_iff.mp hat)
  · rw [kind_of_colon hbefore hcolon, declaration?_eq]
    have hname := trimEnd_eq_iff.mp
      (Eq.refl (Text.trimEnd (Text.slice ⟨first.span.start, colon.span.start⟩ text)))
    by_cases hnil : Text.trimEnd (Text.slice ⟨first.span.start, colon.span.start⟩ text) = []
    · rw [hnil] at hname
      simpa only [hnil, if_true, Option.map_none, Option.getD_none] using .nameless hbefore hcolon hname
    · simpa only [hnil, if_false, Option.map_some, Option.getD_some] using
        .declaration hbefore hcolon hname hnil

theorem eq_kind_of_means {text : Text} {first : Part} {others : List Part} {k : Kind}
    (h : Means text (first :: others) k) : k = kind text first others := by
  cases h with
  | declaration hbefore hcolon hname hne =>
    rw [kind_of_colon hbefore hcolon, declaration?_eq]
    simp only [trimEnd_eq_iff.mpr hname, hne, if_false, Option.map_some, Option.getD_some]
  | nameless hbefore hcolon hname =>
    rw [kind_of_colon hbefore hcolon, declaration?_eq]
    simp only [trimEnd_eq_iff.mpr hname, if_true, Option.map_none, Option.getD_none]
  | atRule hno hat => rw [kind_of_no_colon hno, atRule?_eq_some_iff.mpr hat]
  | other hno hat => rw [kind_of_no_colon hno, atRule?_eq_none_iff.mpr hat]

theorem heads_iff {text : Text} {header : Span} {k : Kind} :
    Heads text header k ↔ k = blockKind text header := by
  constructor
  · intro h
    rcases h with hat | hat
    · rw [blockKind, atRule?_eq_some_iff.mpr hat]
    · rw [blockKind, atRule?_eq_none_iff.mpr hat]
  · intro heq
    subst heq
    unfold blockKind
    split
    · rename_i hat
      exact .atRule (atRule?_eq_some_iff.mp hat)
    · rename_i hat
      exact .rule (atRule?_eq_none_iff.mp hat)

theorem concludes_iff {text : Text} {cut : Option Nat} {parts : List Part} {own : Forest} :
    Concludes text cut parts own ↔ own = conclude text parts cut .nil := by
  cases parts with
  | nil =>
    constructor
    · intro heq
      cases heq
      rfl
    · intro heq
      subst heq
      exact .nothing
  | cons first others =>
    constructor
    · intro h
      rcases h with _ | h
      rw [eq_kind_of_means h]
      rfl
    · intro heq
      subst heq
      exact .node (means_kind text first others)

theorem conclude_append (text : Text) (parts : List Part) (cut : Option Nat) (after : Forest) :
    conclude text parts cut after = (conclude text parts cut .nil).append after := by
  cases parts <;> rfl

end Statement

/-! ### Reading a piece -/

namespace Forest

theorem comments_append (a b : List Span) :
    comments (a ++ b) = (comments a).append (comments b) := by
  induction a with
  | nil => rfl
  | cons c cs ih => exact congrArg (cons _ .nil) ih

theorem lineComments_eq (source : Source) (span : Span) (after : Forest) :
    source.lineComments span after =
      (comments (source.comments.filter fun c => span.start ≤ c.start && c.start < span.stop)).append
        after := by
  rw [Source.lineComments]
  induction source.comments.filter fun c => span.start ≤ c.start && c.start < span.stop with
  | nil => rfl
  | cons c cs ih => exact congrArg (cons _ .nil) ih

end Forest

theorem Segment.Plain.role_eq {s : Segment} (h : s.Plain) :
    s.role = .space ∨ s.role = .comment ∨ ∃ isColon, s.role = .part isColon := by
  unfold Segment.Plain at h
  cases hr : s.role <;> simp_all

section Piece
variable (source : Source)

/-- A unit inside a statement that has begun is only counted among its parts. -/
theorem ofUnits_inside {s : Segment} (hs : s.Plain) {parts : List Part} (hp : parts ≠ [])
    (pos : Nat) (u : Units) :
    Forest.ofUnits source pos parts (.prepend [s] u) =
      Forest.ofUnits source (pos + s.byteLength) (parts ++ partsOf pos [s]) u := by
  cases s with
  | group opener inside closer => rfl
  | leaf t =>
    have : parts.isEmpty = false := by simpa using hp
    rcases hs.role_eq with h | h | ⟨isColon, h⟩ <;> rw [Segment.role] at h <;>
      simp [Units.prepend, Forest.ofUnits, partsOf, Segment.role, h, this, Segment.byteLength]

theorem ofUnits_parts {body : List Segment} (hbody : ∀ s ∈ body, s.Plain) {parts : List Part}
    (hp : parts ≠ []) (pos : Nat) (u : Units) :
    Forest.ofUnits source pos parts (.prepend body u) =
      Forest.ofUnits source (pos + bodyLength body) (parts ++ partsOf pos body) u := by
  induction body generalizing pos parts with
  | nil => simp [Units.prepend, partsOf]
  | cons s body ih =>
    obtain ⟨hs, hbody⟩ := List.forall_mem_cons.mp hbody
    have happ : ∀ u, Units.prepend (s :: body) u = .prepend [s] (.prepend body u) := fun u =>
      Units.prepend_append [s] body u
    have hparts : partsOf pos (s :: body) = partsOf pos [s] ++ partsOf (pos + s.byteLength) body := by
      simp only [partsOf]
      split <;> simp
    rw [happ, ofUnits_inside source hs hp, ih hbody (by simp [hp]), hparts, List.append_assoc,
      bodyLength_cons, Nat.add_assoc]

/-- A piece is read as its leading comments and then its parts. -/
theorem ofUnits_piece {body : List Segment} (hbody : ∀ s ∈ body, s.Plain) (pos : Nat) (u : Units) :
    Forest.ofUnits source pos [] (.prepend body u) =
      (Forest.comments (leadingComments source pos body)).append
        (Forest.ofUnits source (pos + bodyLength body) (partsOf pos body) u) := by
  induction body generalizing pos with
  | nil => simp [Units.prepend, leadingComments, partsOf, Forest.comments, Forest.append]
  | cons s body ih =>
    obtain ⟨hs, hrest⟩ := List.forall_mem_cons.mp hbody
    rw [bodyLength_cons, ← Nat.add_assoc]
    rcases hs.role_eq with h | h | ⟨isColon, h⟩
    · obtain ⟨t, rfl⟩ : ∃ t, s = .leaf t := by
        cases s with
        | leaf t => exact ⟨t, rfl⟩
        | group => simp [Segment.role] at h
      have hrole : Role.ofKind t.kind = .space := h
      simp only [Units.prepend, Forest.ofUnits, hrole, List.isEmpty_nil, if_true,
        Forest.lineComments_eq, leadingComments, h, partsOf, Forest.comments_append,
        Forest.append_assoc]
      rw [← ih hrest]
      rfl
    · obtain ⟨t, rfl⟩ : ∃ t, s = .leaf t := by
        cases s with
        | leaf t => exact ⟨t, rfl⟩
        | group => simp [Segment.role] at h
      have hrole : Role.ofKind t.kind = .comment := h
      simp only [Units.prepend, Forest.ofUnits, hrole, List.isEmpty_nil, if_true, leadingComments, h,
        partsOf]
      exact congrArg (Forest.cons _ .nil) (ih hrest _)
    · have hread : Forest.ofUnits source pos [] (.prepend (s :: body) u) =
          Forest.ofUnits source (pos + s.byteLength) [⟨⟨pos, pos + s.byteLength⟩, isColon⟩]
            (.prepend body u) := by
        cases s with
        | leaf t =>
          have hrole : Role.ofKind t.kind = .part isColon := h
          simp only [Units.prepend, Forest.ofUnits, hrole, List.nil_append, Segment.byteLength]
        | group opener inside closer =>
          obtain rfl : isColon = false := by simpa [Segment.role] using h.symm
          rfl
      rw [hread, ofUnits_parts source hrest (by simp)]
      simp only [leadingComments, partsOf, h]
      rfl

end Piece

/-! ### Reading follows the grammar -/

section Grammar
variable {source : Source}

/-- The grammar derives nothing but what is read. -/
theorem eq_ofUnits_of_reads {pos : Nat} {u : Units} {f : Forest} (h : Reads source pos u f) :
    f = Forest.ofUnits source pos [] u := by
  induction h with
  | finish hbody hown => rw [ofUnits_piece source hbody, Statement.concludes_iff.mp hown]; rfl
  | semicolon hbody ht hown _ ih =>
    rw [ofUnits_piece source hbody, Statement.concludes_iff.mp hown, ih, ← Statement.conclude_append]
    simp only [Forest.ofUnits, ht, Role.ofKind]
  | strayBrace hbody ht hown _ ih =>
    rw [ofUnits_piece source hbody, Statement.concludes_iff.mp hown, ih, ← Statement.conclude_append]
    simp only [Forest.ofUnits, ht, Role.ofKind]
  | block hbody hhead _ _ ih₁ ih₂ =>
    rw [ofUnits_piece source hbody, Statement.heads_iff.mp hhead, ih₁, ih₂]
    rfl

/-- The grammar derives what is read. The induction keeps the piece that has been gone through
in front of the units. -/
theorem reads_ofUnits_prepend (u : Units) (pos : Nat) (body : List Segment)
    (hbody : ∀ s ∈ body, s.Plain) :
    Reads source pos (.prepend body u) (Forest.ofUnits source pos [] (.prepend body u)) := by
  induction u generalizing pos body with
  | nil =>
    rw [ofUnits_piece source hbody]
    exact .finish hbody (Statement.concludes_iff.mpr rfl)
  | leaf t rest ih =>
    by_cases ht : Segment.Plain (.leaf t)
    · have := ih pos (body ++ [.leaf t]) (by simpa [or_imp, forall_and] using ⟨hbody, ht⟩)
      rwa [Units.prepend_append] at this
    · have hcut : t.kind = .semicolon ∨ t.kind = .closer .curly := by
        simp only [Segment.Plain, Segment.role, Role.ofKind] at ht
        split at ht <;> simp_all
      rw [ofUnits_piece source hbody]
      rcases hcut with hk | hk
      · have hread : Forest.ofUnits source (pos + bodyLength body) (partsOf pos body) (.leaf t rest) =
            Statement.conclude source.text (partsOf pos body)
              (some (pos + bodyLength body + t.byteLength))
              (Forest.ofUnits source (pos + bodyLength body + t.byteLength) [] rest) := by
          simp only [Forest.ofUnits, hk, Role.ofKind]
        rw [hread, Statement.conclude_append]
        exact .semicolon hbody hk (Statement.concludes_iff.mpr rfl) (ih _ [] (by simp))
      · have hread : Forest.ofUnits source (pos + bodyLength body) (partsOf pos body) (.leaf t rest) =
            Statement.conclude source.text (partsOf pos body) none
              (Forest.ofUnits source (pos + bodyLength body + t.byteLength) [] rest) := by
          simp only [Forest.ofUnits, hk, Role.ofKind]
        rw [hread, Statement.conclude_append]
        exact .strayBrace hbody hk (Statement.concludes_iff.mpr rfl) (ih _ [] (by simp))
  | group opener inside closer rest _ ih =>
    have := ih pos (body ++ [.group opener inside closer])
      (by simpa [or_imp, forall_and] using ⟨hbody, by simp [Segment.Plain, Segment.role]⟩)
    rwa [Units.prepend_append] at this
  | block opener inside closer rest ih₁ ih₂ =>
    rw [ofUnits_piece source hbody]
    exact .block hbody (Statement.heads_iff.mpr rfl) (ih₁ _ [] (by simp)) (ih₂ _ [] (by simp))

theorem reads_ofUnits (source : Source) (pos : Nat) (u : Units) :
    Reads source pos u (Forest.ofUnits source pos [] u) :=
  reads_ofUnits_prepend u pos [] (by simp)

/-- **The nodes of a sheet are those that the grammar derives** from the one nesting of the
tokens of its masked text. -/
theorem forest_eq_iff (t : Text) (f : Forest) :
    (Sheet.ofText t).forest = f ↔
      ∃ u : Units, u.toTokens = Token.lex (LineComment.masked t) ∧ Units.Nested none false u ∧
        Reads (.ofText t) 0 u f := by
  constructor
  · intro heq
    subst heq
    obtain ⟨htokens, hnested⟩ := Units.ofTokens_eq_iff.mp
      (Eq.refl (Units.ofTokens (Token.lex (LineComment.masked t))))
    exact ⟨_, htokens, hnested, reads_ofUnits _ 0 _⟩
  · intro h
    rcases h with ⟨u, htokens, hnested, hreads⟩
    rw [eq_ofUnits_of_reads hreads, ← Units.ofTokens_eq_iff.mpr ⟨htokens, hnested⟩]
    rfl

end Grammar

end VendorSync.Css
