import TwistLogic.Proofs.Formula.Grammar
import TwistLogic.Proofs.Formula.Interning
import TwistLogic.Proofs.Formula.Lexemes

/-!
# Printed formulas

`Formula.text` puts every compound formula in parentheses, so a printed formula is a primary phrase
of the grammar.  `Spells` says that a text is read as a phrase of some level, behind any gap and in
front of anything that does not go on with a word.  There is one rule for each part of a printed
formula, and with them `Formula.spells_text` follows the formula.

The names have to be such that lexemes spell them (`NodeKind.Printable`).
-/

namespace TwistLogic

/-- The roots that can be read back: atoms are identifiers, and actions are labels. -/
def NodeKind.Printable : NodeKind → Prop
  | .atom name => name.IsIdentifier
  | .modal _ action => action.IsLabel
  | _ => True

/-! ## Phrases around primary phrases -/

namespace Derives

variable {c : Connective} {ts us : List Token} {φ ψ : Formula} {t u : Token}

lemma of_primary (h : Derives .primary ts φ) : Derives .unary ts φ := by
  obtain ⟨d, hyield, hmeaning⟩ := h
  exact ⟨.primary d, hyield, hmeaning⟩

/-- A unary phrase is an operand of every connective. -/
lemma operand (h : Derives .unary ts φ) (c : Connective) : Derives c.operand ts φ := by
  cases c with
  | and => exact h
  | or | resImplies | implies | iff => exact (expr (c := .and) h).lift_operand (by decide)

/-- Two operands of a connective are a phrase of it. -/
lemma binary (h : Derives c.operand ts φ) (ht : t.kind.connective? = some c)
    (h' : Derives c.operand us ψ) : Derives (.expr c) (ts ++ t :: us) (.binary c φ ψ) := by
  by_cases hc : c.groupsRight
  · obtain rfl := Connective.eq_resImplies_of_groupsRight hc
    obtain ⟨left, rfl, rfl⟩ := h
    obtain ⟨right, rfl, rfl⟩ := h'
    exact ⟨.resImplies left t ht (.single right), rfl, rfl⟩
  · exact h.expr.snoc (eq_false_of_ne_true hc) ht h'

/-- Every phrase of a connective is a formula. -/
lemma formula (h : Derives (.expr c) ts φ) : Derives .formula ts φ := by
  obtain ⟨d, hyield, hmeaning⟩ := h.lift (c := .iff) (by cases c <;> decide)
  exact ⟨.formula d, hyield, hmeaning⟩

/-- A formula in parentheses is a primary phrase. -/
lemma paren (h : Derives .formula ts φ) (ht : t.kind = .openParen) (hu : u.kind = .closeParen) :
    Derives .primary (t :: (ts ++ [u])) φ := by
  obtain ⟨d, rfl, rfl⟩ := h
  exact ⟨.paren t ht d u hu, rfl, rfl⟩

end Derives

/-! ## Texts that are read as phrases -/

/-- A text is read as a phrase of a formula, behind any gap and in front of anything that does not
go on with a word. -/
def Spells (src : Text) (lv : Level) (φ : Formula) : Prop :=
  ∀ (gap rest : Text) (l : Lexer), gap.IsGap → rest.EndsWord → l.At (gap ++ (src ++ rest)) →
    ∃ ts l', l.Yields ts l' ∧ Derives lv ts φ ∧ l'.At rest

lemma Text.isGap_nil : IsGap [] := by simp [IsGap]

lemma Text.isGap_blank : IsGap (ascii " ") := by
  intro c hc
  obtain rfl := List.mem_singleton.mp hc
  rfl

/-- A lexeme is taken as one token. -/
lemma Lexer.At.yields_lexeme {l : Lexer} {gap w rest : Text} {k : TokenKind}
    (hl : l.At (gap ++ (w ++ rest))) (hgap : gap.IsGap) (hw : IsLexeme w k rest)
    (hk : k ≠ .endOfInput) :
    ∃ t l', l.Yields [t] l' ∧ t.kind = k ∧ t.text = w ∧ l'.At rest := by
  obtain ⟨t, l', hnext, hkind, htext, hl'⟩ := hl.next_lexeme hgap hw
  exact ⟨t, l', .cons hnext (hkind ▸ hk) .nil, hkind, htext, hl'⟩

namespace Spells

variable {src src' : Text} {φ ψ : Formula}

/-- The rest behind a phrase that is not the last part begins with something that ends a word. -/
lemma endsWord_append {c : UInt8} {cs rest : Text} (hc : Text.isWord c = false) :
    Text.EndsWord (c :: cs ++ rest) := Text.endsWord_cons hc _

lemma paren (h : Spells src .formula φ) : Spells (ascii "(" ++ src ++ ascii ")") .primary φ := by
  intro gap rest l hgap hrest hl
  have hsrc : gap ++ (ascii "(" ++ src ++ ascii ")" ++ rest) =
      gap ++ (ascii "(" ++ ([] ++ (src ++ (ascii ")" ++ rest)))) := by simp
  rw [hsrc] at hl
  obtain ⟨t, l₁, hopen, ht, -, hl₁⟩ := hl.yields_lexeme hgap (IsSign.openParen.isLexeme _) (by decide)
  obtain ⟨ts, l₂, hbody, hder, hl₂⟩ := h _ _ _ Text.isGap_nil (endsWord_append rfl) hl₁
  have hl₂' : l₂.At ([] ++ (ascii ")" ++ rest)) := hl₂
  obtain ⟨u, l₃, hclose, hu, -, hl₃⟩ :=
    hl₂'.yields_lexeme Text.isGap_nil (IsSign.closeParen.isLexeme _) (by decide)
  exact ⟨_, l₃, hopen.append (hbody.append hclose), hder.paren ht hu, hl₃⟩

lemma neg (h : Spells src .primary φ) : Spells (ascii "~" ++ src) .formula (.neg φ) := by
  intro gap rest l hgap hrest hl
  have hsrc : gap ++ (ascii "~" ++ src ++ rest) = gap ++ (ascii "~" ++ ([] ++ (src ++ rest))) := by
    simp
  rw [hsrc] at hl
  obtain ⟨t, l₁, htilde, ht, -, hl₁⟩ := hl.yields_lexeme hgap (IsSign.tilde.isLexeme _) (by decide)
  obtain ⟨ts, l₂, hbody, hder, hl₂⟩ := h _ _ _ Text.isGap_nil hrest hl₁
  obtain ⟨d, rfl, rfl⟩ := hder.of_primary
  have hneg : Derives .unary (t :: d.yield) (.neg d.meaning) := ⟨.neg t ht d, rfl, rfl⟩
  exact ⟨_, l₂, htilde.append hbody, (hneg.operand .and).expr.formula, hl₂⟩

lemma modal (h : Spells src .primary φ) (m : Modality) {action : Text} (ha : action.IsLabel) :
    Spells (m.symbol ++ ascii "_" ++ action ++ ascii " " ++ src) .formula (.modal m action φ) := by
  intro gap rest l hgap hrest hl
  have hsrc : gap ++ (m.symbol ++ ascii "_" ++ action ++ ascii " " ++ src ++ rest) =
      gap ++ ((m.symbol ++ ascii "_" ++ action) ++ (ascii " " ++ (src ++ rest))) := by simp
  rw [hsrc] at hl
  obtain ⟨t, l₁, hmodal, ht, -, hl₁⟩ :=
    hl.yields_lexeme hgap (isLexeme_modality m ha (endsWord_append rfl)) (by simp)
  obtain ⟨ts, l₂, hbody, hder, hl₂⟩ := h _ _ _ Text.isGap_blank hrest hl₁
  obtain ⟨d, rfl, rfl⟩ := hder.of_primary
  have hunary : Derives .unary (t :: d.yield) (.modal m action d.meaning) :=
    ⟨.modal t m action ht d, rfl, rfl⟩
  exact ⟨_, l₂, hmodal.append hbody, (hunary.operand .and).expr.formula, hl₂⟩

lemma binary (h : Spells src .primary φ) (h' : Spells src' .primary ψ) (c : Connective) :
    Spells (src ++ ascii " " ++ c.symbol ++ ascii " " ++ src') .formula (.binary c φ ψ) := by
  intro gap rest l hgap hrest hl
  have hsrc : gap ++ (src ++ ascii " " ++ c.symbol ++ ascii " " ++ src' ++ rest) =
      gap ++ (src ++ (ascii " " ++ (c.symbol ++ (ascii " " ++ (src' ++ rest))))) := by simp
  rw [hsrc] at hl
  obtain ⟨ts, l₁, hleft, hder, hl₁⟩ := h _ _ _ hgap (endsWord_append rfl) hl
  obtain ⟨k, hlexeme, hk⟩ := isLexeme_connective c (ascii " " ++ (src' ++ rest))
  have hend : k ≠ .endOfInput := by
    rintro rfl
    cases hk
  obtain ⟨t, l₂, hsign, rfl, -, hl₂⟩ := hl₁.yields_lexeme Text.isGap_blank hlexeme hend
  obtain ⟨us, l₃, hright, hder', hl₃⟩ := h' _ _ _ Text.isGap_blank hrest hl₂
  exact ⟨_, l₃, hleft.append (hsign.append hright),
    ((hder.of_primary.operand c).binary hk (hder'.of_primary.operand c)).formula, hl₃⟩

end Spells

/-- A printed formula is read as a primary phrase. -/
theorem Formula.spells_text {φ : Formula} (hφ : φ.Uses NodeKind.Printable) :
    Spells φ.text .primary φ := by
  induction φ with
  | top =>
    intro gap rest l hgap hrest hl
    obtain ⟨t, l', hyields, ht, -, hl'⟩ := hl.yields_lexeme hgap (isLexeme_one hrest) (by decide)
    exact ⟨[t], l', hyields, ⟨.one t ht, rfl, rfl⟩, hl'⟩
  | bot =>
    intro gap rest l hgap hrest hl
    obtain ⟨t, l', hyields, ht, -, hl'⟩ := hl.yields_lexeme hgap (isLexeme_zero hrest) (by decide)
    exact ⟨[t], l', hyields, ⟨.zero t ht, rfl, rfl⟩, hl'⟩
  | atom name =>
    intro gap rest l hgap hrest hl
    have hname : name.IsIdentifier := uses_atom.mp hφ
    obtain ⟨t, l', hyields, ht, rfl, hl'⟩ :=
      hl.yields_lexeme hgap (isLexeme_identifier hname hrest) (by decide)
    exact ⟨[t], l', hyields, ⟨.identifier t ht, rfl, rfl⟩, hl'⟩
  | neg φ ih => exact (ih (uses_neg.mp hφ).2).neg.paren
  | modal m action φ ih =>
    obtain ⟨ha, hφ⟩ := uses_modal.mp hφ
    have hspells := ((ih hφ).modal m ha).paren
    simpa [text] using hspells
  | binary c φ ψ ihl ihr =>
    obtain ⟨-, hφ, hψ⟩ := uses_binary.mp hφ
    have hspells := ((ihl hφ).binary (ihr hψ) c).paren
    simpa [text] using hspells

end TwistLogic
