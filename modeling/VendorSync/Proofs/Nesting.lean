import VendorSync.Css.Units

/-! Which units a list of tokens makes up.

`Nested` states the bracket rules without reading any token: where a closer may stand,
which braces open a group, and that a bracket without a closer reaches to the end of the
text. `ofTokens_eq_iff` says that reading tokens gives the one nesting of these tokens. -/
namespace VendorSync.Css

/-- Whether the token ends with what closes it, if it is a string or an address. In a text without
escapes no other string or address ends so. -/
def Token.isClosed (token : Token) : Bool :=
  match token.kind with
  | .string => 2 ≤ token.lexeme.length && token.lexeme.head? == token.lexeme.getLast?
  | .url => token.lexeme.getLast? == some ')'
  | _ => true

namespace Units

/-! ### The bracket rules -/

/-- Siblings in front of further siblings. -/
def append : Units → Units → Units
  | nil, after => after
  | leaf t rest, after => leaf t (rest.append after)
  | group opener inside closer rest, after => group opener inside closer (rest.append after)
  | block opener inside closer rest, after => block opener inside closer (rest.append after)

/-- Whether the last of the units is a bracket without a closer, at this level. -/
def isOpen : Units → Bool
  | nil => false
  | leaf _ rest => rest.isOpen
  | group _ _ closer rest | block _ _ closer rest => closer.isNone || rest.isOpen

/-- Whether every string, address and bracket has its end, at all levels. -/
def isClosed : Units → Bool
  | nil => true
  | leaf t rest => t.isClosed && rest.isClosed
  | group _ inside closer rest | block _ inside closer rest =>
    inside.isClosed && closer.isSome && rest.isClosed

/-- How a bracket of this kind ends before `rest`: with a closer of its kind, or with the text,
which is the only end it can have when a bracket inside it has none. -/
def Ends (bracket : Bracket) (inside : Units) (closer : Option Token) (rest : Units) : Prop :=
  match closer with
  | some c => c.closes = some bracket ∧ inside.isOpen = false
  | none => rest = nil

/-- The units of a level inside the bracket `around`, or of the outermost level. `marked` tells
that the token before them was one that makes a brace an interpolation. -/
inductive Nested : (around : Option Bracket) → (marked : Bool) → Units → Prop
  | nil {around marked} : Nested around marked nil
  | leaf {around marked token rest} : token.opens = none →
      (∀ b, token.closes = some b → around ≠ some b) →
      Nested around token.marksInterpolation rest → Nested around marked (leaf token rest)
  | group {around marked opener bracket inside closer rest} : opener.opens = some bracket →
      (bracket = .curly → marked = true) → Nested (some bracket) false inside →
      Ends bracket inside closer rest → Nested around false rest →
      Nested around marked (group opener inside closer rest)
  | block {around opener inside closer rest} : opener.opens = some .curly →
      Nested (some .curly) false inside → Ends .curly inside closer rest →
      Nested around false rest → Nested around false (block opener inside closer rest)

@[simp] theorem append_nil (u : Units) : u.append nil = u := by
  induction u with
  | nil => rfl
  | leaf t rest ih => rw [append, ih]
  | group opener inside closer rest _ ih | block opener inside closer rest _ ih => rw [append, ih]

theorem kind_of_closes {token : Token} {b : Bracket} (h : token.closes = some b) :
    token.kind = .closer b := by
  unfold Token.closes at h
  split at h <;> simp_all

theorem opens_eq_none_of_closes {t : Token} {b : Bracket} (h : t.closes = some b) :
    t.opens = none := by
  unfold Token.closes at h
  unfold Token.opens
  split at h <;> simp_all

/-! ### From a nesting to its tokens and back -/

/-- What is read of further tokens when units stand before them. -/
def Levels.prepend (u : Units) (l : Levels) : Levels := { l with innermost := u.append l.innermost }

@[simp] theorem Levels.prepend_ended (u : Units) (depth : Nat) :
    (Levels.ended depth).prepend u = ⟨u, List.replicate depth (none, nil)⟩ := by
  simp [Levels.prepend, Levels.ended]

theorem levels_opener {t : Token} {bracket : Bracket} (h : t.opens = some bracket) (marked : Bool)
    (stack : List Bracket) (rest : List Token) :
    levels marked stack (t :: rest) =
      (levels false (bracket :: stack) rest).enclose t (bracket != .curly || marked) := by
  simp [levels, h]

theorem levels_closer {t : Token} {bracket : Bracket} (h : t.closes = some bracket) (marked : Bool)
    (stack : List Bracket) (rest : List Token) :
    levels marked (bracket :: stack) (t :: rest) = (levels false stack rest).close t := by
  simp [levels, opens_eq_none_of_closes h, h]

theorem levels_leaf {t : Token} {stack : List Bracket} (ho : t.opens = none)
    (hc : ∀ b, t.closes = some b → stack.head? ≠ some b) (marked : Bool) (rest : List Token) :
    levels marked stack (t :: rest) = (levels t.marksInterpolation stack rest).precede t := by
  have : (t.closes.isSome && t.closes == stack.head?) = false := by
    cases h : t.closes with
    | none => rfl
    | some b =>
      have := hc b h
      simp only [Option.isSome_some, Bool.true_and, beq_eq_false_iff_ne]
      exact fun he => this he.symm
  simp [levels, ho, this]

/-- What the brackets of a nesting leave marked for the token behind it. -/
def marksAfter (marked : Bool) : Units → Bool
  | nil => marked
  | leaf t rest => rest.marksAfter t.marksInterpolation
  | group _ _ _ rest | block _ _ _ rest => rest.marksAfter false

/-- Reading a bracket and what is behind it, when its inside is read as it should be. -/
theorem levels_bracket {bracket : Bracket} {opener : Token} {closer : Option Token}
    {inside rest : Units} {stack : List Bracket} {tokens : List Token} (marked : Bool)
    (ho : opener.opens = some bracket) (he : Ends bracket inside closer rest)
    (ht : tokens = [] ∨ (closer.isNone || rest.isOpen) = false)
    (hinside : ∀ ts, (ts = [] ∨ inside.isOpen = false) →
      levels false (bracket :: stack) (inside.toTokens ++ ts) =
        (levels (inside.marksAfter false) (bracket :: stack) ts).prepend inside)
    (hrest : (tokens = [] ∨ rest.isOpen = false) →
      levels false stack (rest.toTokens ++ tokens) =
        (levels (rest.marksAfter false) stack tokens).prepend rest) :
    levels marked stack (opener :: (inside.toTokens ++ (closer.toList ++ (rest.toTokens ++ tokens)))) =
      (levels (rest.marksAfter false) stack tokens).prepend
        (if bracket != .curly || marked then .group opener inside closer rest
          else .block opener inside closer rest) := by
  rw [levels_opener ho]
  cases closer with
  | none =>
    obtain rfl : rest = nil := he
    have ht : tokens = [] := by simpa using ht
    subst ht
    rw [toTokens, Option.toList_none, List.nil_append, List.append_nil, hinside [] (.inl rfl)]
    rw [levels, levels, Levels.prepend_ended, Levels.prepend_ended, Levels.enclose]
    simp [List.replicate_succ]
  | some c =>
    obtain ⟨hc, hopen⟩ := he
    have ht : tokens = [] ∨ rest.isOpen = false := by simpa using ht
    rw [Option.toList_some, hinside _ (.inr hopen), List.singleton_append, levels_closer hc, hrest ht]
    simp only [Levels.close, Levels.prepend, Levels.enclose, List.head?_cons, Option.getD_some,
      List.tail_cons, append_nil]
    split <;> simp [append]

/-- Reading the tokens of a nesting gives it back, in front of what is read behind it. -/
theorem levels_toTokens {u : Units} {marked : Bool} {stack : List Bracket} {tokens : List Token}
    (h : Nested stack.head? marked u) (ht : tokens = [] ∨ u.isOpen = false) :
    levels marked stack (u.toTokens ++ tokens) =
      (levels (u.marksAfter marked) stack tokens).prepend u := by
  generalize hs : stack.head? = around at h
  induction h generalizing stack tokens with
  | nil => rfl
  | leaf ho hc _ ih =>
    subst hs
    rw [toTokens, List.cons_append, levels_leaf ho hc, ih ht rfl]
    rfl
  | @group around marked opener bracket inside closer rest ho hm _ he _ ih₁ ih₂ =>
    have := levels_bracket marked ho he ht (fun ts h => ih₁ h rfl) (fun h => ih₂ h hs)
    rw [toTokens, List.cons_append, List.append_assoc, List.append_assoc, this, if_pos]
    · rfl
    · cases bracket <;> simp_all
  | @block around opener inside closer rest ho _ he _ ih₁ ih₂ =>
    have := levels_bracket false ho he ht (fun ts h => ih₁ h rfl) (fun h => ih₂ h hs)
    rw [toTokens, List.cons_append, List.append_assoc, List.append_assoc, this, if_neg (by decide)]
    rfl

theorem ofTokens_toTokens {u : Units} (h : Nested none false u) : ofTokens u.toTokens = u := by
  have := @levels_toTokens u false [] [] h (.inl rfl)
  rw [List.append_nil] at this
  simp [ofTokens, this, levels]

/-! ### What is read is nested -/

/-- The levels around the innermost one: each behind the closer of its bracket, or empty if
the text ends before there is one, as it does when a level further in is open. -/
def Around : List Bracket → (isOpen : Bool) → List (Option Token × Units) → Prop
  | [], _, levels => levels = []
  | bracket :: stack, isOpen, levels => ∃ closer units outer, levels = (closer, units) :: outer ∧
      Nested stack.head? false units ∧
      match closer with
      | some c => c.closes = some bracket ∧ isOpen = false ∧ Around stack units.isOpen outer
      | none => units = nil ∧ Around stack true outer

theorem around_ended (stack : List Bracket) (isOpen : Bool) :
    Around stack isOpen (List.replicate stack.length (none, nil)) := by
  induction stack generalizing isOpen with
  | nil => rfl
  | cons b bs ih => exact ⟨none, nil, _, rfl, .nil, rfl, ih true⟩

/-- Every level that is read keeps the bracket rules. -/
theorem nested_levels (marked : Bool) (stack : List Bracket) (tokens : List Token) :
    Nested stack.head? marked (levels marked stack tokens).innermost ∧
      Around stack (levels marked stack tokens).innermost.isOpen (levels marked stack tokens).outer := by
  induction tokens generalizing marked stack with
  | nil => exact ⟨.nil, around_ended stack _⟩
  | cons t rest ih =>
    cases ho : t.opens with
    | some bracket =>
      rw [levels_opener ho]
      obtain ⟨hinside, closer, units, outer, houter, hrest, hcloser⟩ := ih false (bracket :: stack)
      generalize levels false (bracket :: stack) rest = l at hinside houter hcloser
      have hends : Ends bracket l.innermost closer units := by
        cases closer with
        | none => exact hcloser.1
        | some c => exact ⟨hcloser.1, hcloser.2.1⟩
      have haround : Around stack (closer.isNone || units.isOpen) outer := by
        cases closer with
        | none => exact hcloser.2
        | some c => exact hcloser.2.2
      simp only [Levels.enclose, houter, List.head?_cons, Option.getD_some, List.tail_cons]
      split
      · rename_i hg
        refine ⟨.group ho ?_ hinside hends hrest, haround⟩
        intro heq
        subst heq
        simpa using hg
      · rename_i hb
        simp only [Bool.not_eq_true, Bool.or_eq_false_iff, bne_eq_false_iff_eq] at hb
        obtain ⟨rfl, rfl⟩ := hb
        exact ⟨.block ho hinside hends hrest, haround⟩
    | none =>
      by_cases hc : t.closes.isSome ∧ t.closes = stack.head?
      · obtain ⟨hsome, heq⟩ := hc
        cases stack with
        | nil => simp [heq] at hsome
        | cons b bs =>
          rw [levels_closer heq]
          obtain ⟨hrest, haround⟩ := ih false bs
          exact ⟨.nil, some t, _, _, rfl, hrest, heq, rfl, haround⟩
      · have hc' : ∀ b, t.closes = some b → stack.head? ≠ some b := by
          intro b hb he
          exact hc ⟨by rw [hb]; rfl, by rw [hb, he]⟩
        rw [levels_leaf ho hc']
        obtain ⟨hinner, haround⟩ := ih t.marksInterpolation stack
        exact ⟨.leaf ho hc' hinner, haround⟩

theorem nested_ofTokens (tokens : List Token) : Nested none false (ofTokens tokens) :=
  (nested_levels false [] tokens).1

/-- **Tokens nest in one way**, and reading them finds it. -/
theorem ofTokens_eq_iff {tokens : List Token} {u : Units} :
    ofTokens tokens = u ↔ u.toTokens = tokens ∧ Nested none false u := by
  constructor
  · intro heq
    subst heq
    exact ⟨toTokens_ofTokens tokens, nested_ofTokens tokens⟩
  · intro h
    rcases h with ⟨rfl, h⟩
    exact ofTokens_toTokens h

end Units
end VendorSync.Css
