import Mathlib.Tactic.Common
import TwistLogic.Formula.Parser

/-!
# The grammar

A `ParseTree` is a derivation in the grammar

    formula   = iff
    iff       = implies { "<->" implies }
    implies   = residual { "->" residual }
    residual  = or [ "=>" residual ]
    or        = and { "|" and }
    and       = unary { "&" unary }
    unary     = ( "~" | box | diamond ) unary | primary
    primary   = "1" | "0" | identifier | "(" formula ")"

Its leaves are tokens.  `ParseTree.yield` lists them from left to right, and `ParseTree.meaning` is
the formula of the derivation: repeated operands group to the left, `=>` groups to the right, and
parentheses leave no trace.

The grammar is unambiguous.  Where a phrase ends is determined by the first token that cannot go on
with it (`Category.EndsBefore`), so the tokens in front of such a token have at most one derivation
(`ParseTree.yield_append_inj`).
-/

namespace TwistLogic

/-! ## Derivations -/

/-- The kinds of phrases; every connective has one of its own. -/
inductive Level where
  | formula
  | expr (c : Connective)
  | unary
  | primary

/-- The phrases that a connective joins. -/
def Connective.operand : Connective → Level
  | .and => .unary
  | .or => .expr .and
  | .resImplies => .expr .or
  | .implies => .expr .resImplies
  | .iff => .expr .implies

/-- What a derivation derives: a phrase, or the part of a chain behind its first operand. -/
inductive Category where
  | phrase (l : Level)
  | tail (c : Connective)

/-- A derivation. -/
inductive ParseTree : Category → Type where
  | formula (d : ParseTree (.phrase (.expr .iff))) : ParseTree (.phrase .formula)
  /-- A chain of a connective that groups to the left. -/
  | chain {c : Connective} (hc : c.groupsRight = false) (first : ParseTree (.phrase c.operand))
      (rest : ParseTree (.tail c)) : ParseTree (.phrase (.expr c))
  | nil {c : Connective} : ParseTree (.tail c)
  | cons {c : Connective} (t : Token) (ht : t.kind.connective? = some c)
      (next : ParseTree (.phrase c.operand)) (rest : ParseTree (.tail c)) : ParseTree (.tail c)
  /-- A residuated implication that is only its first operand. -/
  | single (d : ParseTree (.phrase (.expr .or))) : ParseTree (.phrase (.expr .resImplies))
  | resImplies (left : ParseTree (.phrase (.expr .or))) (t : Token)
      (ht : t.kind.connective? = some .resImplies)
      (right : ParseTree (.phrase (.expr .resImplies))) : ParseTree (.phrase (.expr .resImplies))
  | neg (t : Token) (ht : t.kind = .tilde) (d : ParseTree (.phrase .unary)) :
      ParseTree (.phrase .unary)
  | modal (t : Token) (m : Modality) (action : Text) (ht : t.kind = .modality m action)
      (d : ParseTree (.phrase .unary)) : ParseTree (.phrase .unary)
  | primary (d : ParseTree (.phrase .primary)) : ParseTree (.phrase .unary)
  | one (t : Token) (ht : t.kind = .one) : ParseTree (.phrase .primary)
  | zero (t : Token) (ht : t.kind = .zero) : ParseTree (.phrase .primary)
  | identifier (t : Token) (ht : t.kind = .identifier) : ParseTree (.phrase .primary)
  | paren (t : Token) (ht : t.kind = .openParen) (d : ParseTree (.phrase .formula)) (u : Token)
      (hu : u.kind = .closeParen) : ParseTree (.phrase .primary)

/-- The tokens of a derivation from left to right. -/
def ParseTree.yield {k : Category} : ParseTree k → List Token
  | .formula d => d.yield
  | .chain _ first rest => first.yield ++ rest.yield
  | .nil => []
  | .cons t _ next rest => t :: (next.yield ++ rest.yield)
  | .single d => d.yield
  | .resImplies left t _ right => left.yield ++ t :: right.yield
  | .neg t _ d => t :: d.yield
  | .modal t _ _ _ d => t :: d.yield
  | .primary d => d.yield
  | .one t _ => [t]
  | .zero t _ => [t]
  | .identifier t _ => [t]
  | .paren t _ d u _ => t :: (d.yield ++ [u])

/-- A phrase means a formula.  The tail of a chain means what it makes of the formula in front. -/
def Category.Meaning : Category → Type
  | .phrase _ => Formula
  | .tail _ => Formula → Formula

/-- The meaning of a derivation. -/
def ParseTree.meaning {k : Category} : ParseTree k → k.Meaning
  | .formula d => d.meaning
  | .chain _ first rest => rest.meaning first.meaning
  | .nil => fun φ => φ
  | .cons (c := c) _ _ next rest => fun φ => rest.meaning (.binary c φ next.meaning)
  | .single d => d.meaning
  | .resImplies left _ _ right => Formula.binary .resImplies left.meaning right.meaning
  | .neg _ _ d => Formula.neg d.meaning
  | .modal _ m action _ d => Formula.modal m action d.meaning
  | .primary d => d.meaning
  | .one _ _ => Formula.top
  | .zero _ _ => Formula.bot
  | .identifier t _ => Formula.atom t.text
  | .paren _ _ d _ _ => d.meaning

/-- The formula of a whole derivation. -/
def ParseTree.toFormula (d : ParseTree (.phrase .formula)) : Formula := d.meaning

/-! ## Unambiguity -/

/-- Whether a connective behind a phrase goes on with it. -/
def Category.continuesWith : Category → Connective → Bool
  | .phrase .formula, _ => true
  | .phrase (.expr c), d => d.rank ≤ c.rank
  | .phrase .unary, _ => false
  | .phrase .primary, _ => false
  | .tail c, d => d.rank ≤ c.rank

/-- A derivation can end before these tokens, because they do not go on with it. -/
def Category.EndsBefore (k : Category) (ts : List Token) : Prop :=
  ∀ t c, ts.head? = some t → t.kind.connective? = some c → k.continuesWith c = false

/-- An operand of a connective goes on with the tighter connectives. -/
lemma Connective.continuesWith_operand (c d : Connective) :
    (Category.phrase c.operand).continuesWith d = decide (d.rank < c.rank) := by
  cases c <;> cases d <;> rfl

lemma Category.EndsBefore.mono {k l : Category} {ts : List Token} (h : k.EndsBefore ts)
    (hkl : ∀ c, l.continuesWith c = true → k.continuesWith c = true) : l.EndsBefore ts := by
  intro t c ht hc
  by_contra hl
  have hk := hkl c (Bool.not_eq_false _ ▸ hl)
  rw [h t c ht hc] at hk
  exact absurd hk (by simp)

/-- Every phrase ends before a token that is no connective. -/
lemma Category.endsBefore_cons_of_not_connective (k : Category) {t : Token} {ts : List Token}
    (ht : t.kind.connective? = none) : k.EndsBefore (t :: ts) := by
  intro u c hu hc
  obtain rfl : t = u := by simpa using hu
  rw [ht] at hc
  exact absurd hc (by simp)

/-- An operand ends before a connective that is not tighter than its own. -/
lemma Connective.endsBefore_operand_cons {c d : Connective} {t : Token} {ts : List Token}
    (ht : t.kind.connective? = some d) (hd : c.rank ≤ d.rank) :
    (Category.phrase c.operand).EndsBefore (t :: ts) := by
  intro u e hu he
  obtain rfl : t = u := by simpa using hu
  obtain rfl : d = e := Option.some.inj (ht.symm.trans he)
  rw [continuesWith_operand]
  exact decide_eq_false (Nat.not_lt.mpr hd)

/-- An operand ends where a phrase of its connective ends. -/
lemma Category.EndsBefore.operand {c : Connective} {ts : List Token}
    (h : (Category.phrase (.expr c)).EndsBefore ts) :
    (Category.phrase c.operand).EndsBefore ts := by
  refine h.mono fun d hd => ?_
  rw [Connective.continuesWith_operand] at hd
  exact decide_eq_true (Nat.le_of_lt (of_decide_eq_true hd))

/-- Nothing ends before a connective that goes on with it. -/
lemma Category.EndsBefore.continuesWith_eq_false {k : Category} {t : Token} {ts : List Token}
    (h : k.EndsBefore (t :: ts)) {c : Connective} (ht : t.kind.connective? = some c) :
    k.continuesWith c = false := h t c rfl ht

namespace ParseTree

/-- An operand of a chain ends before the rest of the chain. -/
lemma endsBefore_operand {c : Connective} (rest : ParseTree (.tail c)) {ts : List Token}
    (h : (Category.tail c).EndsBefore ts) :
    (Category.phrase c.operand).EndsBefore (rest.yield ++ ts) := by
  cases rest with
  | nil => exact Category.EndsBefore.operand h
  | cons t ht next rest => exact Connective.endsBefore_operand_cons ht (Nat.le_refl _)

/-- A primary phrase begins with neither a negation nor a modality. -/
lemma exists_yield_primary (d : ParseTree (.phrase .primary)) :
    ∃ t ts, d.yield = t :: ts ∧ t.kind ≠ .tilde ∧ ∀ m action, t.kind ≠ .modality m action := by
  cases d with
  | one t ht | zero t ht | identifier t ht | paren t ht _ _ _ =>
    refine ⟨t, _, rfl, ?_, fun m action => ?_⟩
    · simp [ht]
    · simp [ht]

/-- Tokens have at most one front with a derivation that ends before the others, and it has only
one. -/
theorem yield_append_inj {k : Category} {d d' : ParseTree k} {ts ts' : List Token}
    (h : d.yield ++ ts = d'.yield ++ ts') (hts : k.EndsBefore ts) (hts' : k.EndsBefore ts') :
    d = d' ∧ ts = ts' := by
  -- what follows a part of a phrase is the rest of the phrase, and the part ends before it
  induction d generalizing ts ts' with
  | formula d ih =>
    cases d' with
    | formula d' =>
      obtain ⟨rfl, rfl⟩ := ih h (hts.mono fun _ _ => rfl) (hts'.mono fun _ _ => rfl)
      exact ⟨rfl, rfl⟩
  | chain hc first rest ihfirst ihrest =>
    cases d' with
    | chain _ first' rest' =>
      simp only [yield, List.append_assoc] at h
      obtain ⟨rfl, hrest⟩ := ihfirst h (rest.endsBefore_operand hts) (rest'.endsBefore_operand hts')
      obtain ⟨rfl, rfl⟩ := ihrest hrest hts hts'
      exact ⟨rfl, rfl⟩
    | single | resImplies => exact absurd hc (by decide)
  | @nil c =>
    cases d' with
    | nil => exact ⟨rfl, h⟩
    | cons t ht next rest =>
      obtain rfl : ts = _ := h
      exact absurd (hts.continuesWith_eq_false ht) (by simp [Category.continuesWith])
  | cons t ht next rest ihnext ihrest =>
    cases d' with
    | nil =>
      obtain rfl : _ = ts' := h
      exact absurd (hts'.continuesWith_eq_false ht) (by simp [Category.continuesWith])
    | cons t' ht' next' rest' =>
      simp only [yield, List.cons_append, List.cons.injEq, List.append_assoc] at h
      obtain ⟨rfl, hnext⟩ := h
      obtain ⟨rfl, hrest⟩ :=
        ihnext hnext (rest.endsBefore_operand hts) (rest'.endsBefore_operand hts')
      obtain ⟨rfl, rfl⟩ := ihrest hrest hts hts'
      exact ⟨rfl, rfl⟩
  | single d ih =>
    cases d' with
    | chain hc => exact absurd hc (by decide)
    | single d' =>
      obtain ⟨rfl, rfl⟩ := ih h hts.operand hts'.operand
      exact ⟨rfl, rfl⟩
    | resImplies left t ht right =>
      simp only [yield, List.cons_append, List.append_assoc] at h
      obtain ⟨rfl, rfl⟩ := ih h hts.operand (Connective.endsBefore_operand_cons ht (Nat.le_refl _))
      exact absurd (hts.continuesWith_eq_false ht) (by simp [Category.continuesWith])
  | resImplies left t ht right ihleft ihright =>
    cases d' with
    | chain hc => exact absurd hc (by decide)
    | single d' =>
      simp only [yield, List.cons_append, List.append_assoc] at h
      obtain ⟨rfl, rfl⟩ :=
        ihleft h (Connective.endsBefore_operand_cons ht (Nat.le_refl _)) hts'.operand
      exact absurd (hts'.continuesWith_eq_false ht) (by simp [Category.continuesWith])
    | resImplies left' t' ht' right' =>
      simp only [yield, List.cons_append, List.append_assoc] at h
      obtain ⟨rfl, hcons⟩ := ihleft h (Connective.endsBefore_operand_cons ht (Nat.le_refl _))
        (Connective.endsBefore_operand_cons ht' (Nat.le_refl _))
      obtain ⟨rfl, hright⟩ := List.cons.inj hcons
      obtain ⟨rfl, rfl⟩ := ihright hright hts hts'
      exact ⟨rfl, rfl⟩
  | neg t ht d ih =>
    cases d' with
    | neg t' ht' d' =>
      obtain ⟨rfl, htail⟩ := List.cons.inj h
      obtain ⟨rfl, rfl⟩ := ih htail hts hts'
      exact ⟨rfl, rfl⟩
    | modal t' m action ht' d' =>
      obtain ⟨rfl, -⟩ := List.cons.inj h
      exact absurd (ht.symm.trans ht') (by simp)
    | primary d' =>
      obtain ⟨u, us, hu, hneg, -⟩ := d'.exists_yield_primary
      simp only [yield, hu, List.cons_append, List.cons.injEq] at h
      exact absurd (h.1 ▸ ht) hneg
  | modal t m action ht d ih =>
    cases d' with
    | neg t' ht' d' =>
      obtain ⟨rfl, -⟩ := List.cons.inj h
      exact absurd (ht.symm.trans ht') (by simp)
    | modal t' m' action' ht' d' =>
      obtain ⟨rfl, htail⟩ := List.cons.inj h
      obtain ⟨rfl, rfl⟩ := TokenKind.modality.inj (ht.symm.trans ht')
      obtain ⟨rfl, rfl⟩ := ih htail hts hts'
      exact ⟨rfl, rfl⟩
    | primary d' =>
      obtain ⟨u, us, hu, -, hmodal⟩ := d'.exists_yield_primary
      simp only [yield, hu, List.cons_append, List.cons.injEq] at h
      exact absurd (h.1 ▸ ht) (hmodal m action)
  | primary d ih =>
    obtain ⟨u, us, hu, hneg, hmodal⟩ := d.exists_yield_primary
    cases d' with
    | neg t' ht' d' =>
      simp only [yield, hu, List.cons_append, List.cons.injEq] at h
      exact absurd (h.1 ▸ ht') hneg
    | modal t' m action ht' d' =>
      simp only [yield, hu, List.cons_append, List.cons.injEq] at h
      exact absurd (h.1 ▸ ht') (hmodal m action)
    | primary d' =>
      obtain ⟨rfl, rfl⟩ := ih h hts hts'
      exact ⟨rfl, rfl⟩
  | one t ht =>
    cases d' with
    | one t' ht' =>
      obtain ⟨rfl, rfl⟩ := List.cons.inj h
      exact ⟨rfl, rfl⟩
    | zero t' ht' | identifier t' ht' | paren t' ht' =>
      obtain ⟨rfl, -⟩ := List.cons.inj h
      exact absurd (ht.symm.trans ht') (by simp)
  | zero t ht =>
    cases d' with
    | zero t' ht' =>
      obtain ⟨rfl, rfl⟩ := List.cons.inj h
      exact ⟨rfl, rfl⟩
    | one t' ht' | identifier t' ht' | paren t' ht' =>
      obtain ⟨rfl, -⟩ := List.cons.inj h
      exact absurd (ht.symm.trans ht') (by simp)
  | identifier t ht =>
    cases d' with
    | identifier t' ht' =>
      obtain ⟨rfl, rfl⟩ := List.cons.inj h
      exact ⟨rfl, rfl⟩
    | one t' ht' | zero t' ht' | paren t' ht' =>
      obtain ⟨rfl, -⟩ := List.cons.inj h
      exact absurd (ht.symm.trans ht') (by simp)
  | paren t ht d u hu ih =>
    cases d' with
    | one t' ht' | zero t' ht' | identifier t' ht' =>
      obtain ⟨rfl, -⟩ := List.cons.inj h
      exact absurd (ht.symm.trans ht') (by simp)
    | paren t' ht' d' u' hu' =>
      simp only [yield, List.cons_append, List.cons.injEq, List.append_assoc] at h
      obtain ⟨rfl, hinner⟩ := h
      obtain ⟨rfl, hclose⟩ := ih hinner
        (Category.endsBefore_cons_of_not_connective _ (by rw [hu]; rfl))
        (Category.endsBefore_cons_of_not_connective _ (by rw [hu']; rfl))
      obtain ⟨rfl, rfl⟩ := List.cons.inj hclose
      exact ⟨rfl, rfl⟩

/-- Tokens have at most one derivation. -/
theorem yield_injective {k : Category} {d d' : ParseTree k} (h : d.yield = d'.yield) : d = d' :=
  (yield_append_inj (congrArg (· ++ []) h) (by simp [Category.EndsBefore])
    (by simp [Category.EndsBefore])).1

end ParseTree

/-! ## Derived formulas -/

namespace Connective

lemma rank_injective {c d : Connective} (h : c.rank = d.rank) : c = d := by
  revert h
  cases c <;> cases d <;> decide

/-- Every connective that is tighter than another one fits into its operands. -/
lemma exists_operand_eq_expr {c d : Connective} (h : d.rank < c.rank) :
    ∃ e, c.operand = .expr e ∧ d.rank ≤ e.rank ∧ e.rank < c.rank := by
  cases c with
  | and => exact absurd h (Nat.not_lt_zero _)
  | or => exact ⟨.and, rfl, Nat.lt_succ_iff.mp h, by decide⟩
  | resImplies => exact ⟨.or, rfl, Nat.lt_succ_iff.mp h, by decide⟩
  | implies => exact ⟨.resImplies, rfl, Nat.lt_succ_iff.mp h, by decide⟩
  | iff => exact ⟨.implies, rfl, Nat.lt_succ_iff.mp h, by decide⟩

/-- What stands on the left of a connective: a chain that groups to the left may go on. -/
def leftOperand (c : Connective) : Level := if c.groupsRight then c.operand else .expr c

/-- An operand that does not belong to the connective on its left belongs to a connective that binds
no looser. -/
lemma rank_le_of_takesBefore_eq_false {c d : Connective} (h : c.takesBefore d = false) :
    d.rank ≤ c.rank := by
  simp only [takesBefore, Bool.or_eq_false_iff, decide_eq_false_iff_not] at h
  exact Nat.not_lt.mp h.1

lemma rank_lt_of_takesBefore_eq_false {c d : Connective} (h : c.takesBefore d = false)
    (hc : c.groupsRight = false) : d.rank < c.rank := by
  refine Nat.lt_of_le_of_ne (rank_le_of_takesBefore_eq_false h) fun heq => ?_
  obtain rfl := rank_injective heq
  simp [takesBefore, hc] at h

lemma eq_resImplies_of_groupsRight {c : Connective} (h : c.groupsRight = true) :
    c = .resImplies := by
  revert h
  cases c <;> decide

end Connective

/-- A formula has a derivation with these tokens. -/
def Derives (l : Level) (ts : List Token) (φ : Formula) : Prop :=
  ∃ d : ParseTree (.phrase l), d.yield = ts ∧ d.meaning = φ

namespace Derives

variable {c d : Connective} {ts us : List Token} {φ ψ : Formula} {t : Token}

/-- An operand alone is a phrase of its connective. -/
lemma expr (h : Derives c.operand ts φ) : Derives (.expr c) ts φ := by
  obtain ⟨d, rfl, rfl⟩ := h
  by_cases hc : c.groupsRight
  · obtain rfl := Connective.eq_resImplies_of_groupsRight hc
    exact ⟨.single d, rfl, rfl⟩
  · exact ⟨.chain (eq_false_of_ne_true hc) d .nil, List.append_nil _, rfl⟩

/-- A phrase of a connective is a phrase of every looser one. -/
theorem lift (h : Derives (.expr d) ts φ) {c : Connective} (hdc : d.rank ≤ c.rank) :
    Derives (.expr c) ts φ := by
  rcases Nat.eq_or_lt_of_le hdc with heq | hlt
  · exact Connective.rank_injective heq ▸ h
  · obtain ⟨e, he, hde, hec⟩ := Connective.exists_operand_eq_expr hlt
    have hlift := lift h hde
    rw [← he] at hlift
    exact hlift.expr
termination_by c.rank

/-- A phrase of a connective is an operand of every looser one. -/
lemma lift_operand (h : Derives (.expr d) ts φ) (hdc : d.rank < c.rank) :
    Derives c.operand ts φ := by
  obtain ⟨e, he, hde, -⟩ := Connective.exists_operand_eq_expr hdc
  rw [he]
  exact h.lift hde

end Derives

/-- The tail of a chain goes on with one more operand, which is joined last. -/
lemma ParseTree.exists_snoc {c : Connective} {t : Token} (ht : t.kind.connective? = some c)
    (next : ParseTree (.phrase c.operand)) : ∀ rest : ParseTree (.tail c),
      ∃ rest' : ParseTree (.tail c), rest'.yield = rest.yield ++ t :: next.yield ∧
        ∀ φ, rest'.meaning φ = Formula.binary c (rest.meaning φ) next.meaning
  | .nil => ⟨.cons t ht next .nil, by simp [yield], fun φ => rfl⟩
  | .cons u hu first rest => by
    obtain ⟨rest', hyield, hmeaning⟩ := exists_snoc ht next rest
    exact ⟨.cons u hu first rest', by simp [yield, hyield], fun φ => hmeaning _⟩

namespace Derives

variable {c d : Connective} {ts us : List Token} {φ ψ : Formula} {t : Token}

/-- A chain that groups to the left goes on with one more operand. -/
lemma snoc (h : Derives (.expr c) ts φ) (hc : c.groupsRight = false)
    (ht : t.kind.connective? = some c) (h' : Derives c.operand us ψ) :
    Derives (.expr c) (ts ++ t :: us) (.binary c φ ψ) := by
  obtain ⟨d, rfl, rfl⟩ := h
  obtain ⟨next, rfl, rfl⟩ := h'
  cases d with
  | single | resImplies => exact absurd hc (by decide)
  | chain _ first rest =>
    obtain ⟨rest', hyield, hmeaning⟩ := ParseTree.exists_snoc ht next rest
    exact ⟨.chain hc first rest', by simp [ParseTree.yield, hyield], hmeaning _⟩

/-- A connective joins what stands on its left with any phrase that belongs to it. -/
theorem join (h : Derives c.leftOperand ts φ) (ht : t.kind.connective? = some c)
    (h' : Derives (.expr d) us ψ) (hcd : c.takesBefore d = false) :
    Derives (.expr c) (ts ++ t :: us) (.binary c φ ψ) := by
  by_cases hc : c.groupsRight
  · obtain rfl := Connective.eq_resImplies_of_groupsRight hc
    obtain ⟨left, rfl, rfl⟩ := h
    obtain ⟨right, rfl, rfl⟩ := h'.lift (Connective.rank_le_of_takesBefore_eq_false hcd)
    exact ⟨.resImplies left t ht right, rfl, rfl⟩
  · have hleft : c.groupsRight = false := eq_false_of_ne_true hc
    rw [Connective.leftOperand, if_neg hc] at h
    exact h.snoc hleft ht
      (h'.lift_operand (Connective.rank_lt_of_takesBefore_eq_false hcd hleft))

/-- A phrase of a connective that takes its operand before another one may stand on the left of the
latter. -/
lemma leftOperand (h : Derives (.expr d) ts φ) (hdc : d.takesBefore c = true) :
    Derives c.leftOperand ts φ := by
  unfold Connective.leftOperand
  simp only [Connective.takesBefore, Bool.or_eq_true, decide_eq_true_eq, Bool.and_eq_true,
    beq_iff_eq, Bool.not_eq_true'] at hdc
  split
  next hc =>
    rcases hdc with hlt | ⟨rfl, hd⟩
    · exact h.lift_operand hlt
    · exact absurd hc (by simp [hd])
  next =>
    rcases hdc with hlt | ⟨rfl, -⟩
    · exact h.lift (Nat.le_of_lt hlt)
    · exact h

end Derives

end TwistLogic
