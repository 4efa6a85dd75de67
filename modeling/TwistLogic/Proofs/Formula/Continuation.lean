import Mathlib.Data.List.Forall2
import Mathlib.Tactic.Common
import TwistLogic.Proofs.Formula.Surroundings
import TwistLogic.Proofs.Formula.ViablePrefix

/-!
# Formulas that go on

If tokens stand behind a formula and the whole is a formula again, it is a larger one: the size of a
formula is the number of its tokens without the parentheses (`ParseTree.hasSize`), and a formula
goes on with a connective only.

So a source that is cut somewhere may be a formula before and after, but it is the same formula only
if nothing but a filler was cut off (`Formula.size_lt_of_read`).
-/

namespace TwistLogic

/-! ## Sizes -/

/-- Whether a token is one of a formula's nodes.  Parentheses leave no trace. -/
def Token.isNode (t : Token) : Bool := t.kind != .openParen && t.kind != .closeParen

/-- A phrase has a size.  The tail of a chain adds one to what stands in front. -/
def Category.HasSize : (k : Category) → k.Meaning → Nat → Prop
  | .phrase _, φ, n => Formula.size φ = n
  | .tail _, f, n => ∀ φ, Formula.size (f φ) = φ.size + n

lemma Token.isNode_of_connective {t : Token} {c : Connective}
    (ht : t.kind.connective? = some c) : t.isNode = true := by
  revert ht
  unfold isNode
  cases t.kind <;> simp [TokenKind.connective?]

/-- The size of a formula is the number of the tokens that are its nodes. -/
theorem ParseTree.hasSize {k : Category} (d : ParseTree k) :
    k.HasSize d.meaning (d.yield.countP Token.isNode) := by
  induction d with
  | formula d ih | single d ih | primary d ih => exact ih
  | chain hc first rest ihfirst ihrest =>
    rw [yield, List.countP_append, ← ihfirst]
    exact ihrest first.meaning
  | nil => exact fun φ => rfl
  | @cons c t ht next rest ihnext ihrest =>
    intro φ
    have hsize : Formula.size (Formula.binary c φ next.meaning) =
        φ.size + next.yield.countP Token.isNode + 1 := by
      rw [← ihnext]
      rfl
    rw [yield, List.countP_cons_of_pos (Token.isNode_of_connective ht), List.countP_append]
    refine (ihrest (Formula.binary c φ next.meaning)).trans ?_
    omega
  | resImplies left t ht right ihleft ihright =>
    rw [yield, List.countP_append, List.countP_cons_of_pos (Token.isNode_of_connective ht),
      ← ihleft, ← ihright]
    rfl
  | neg t ht d ih | modal t _ _ ht d ih =>
    rw [yield, List.countP_cons_of_pos (by simp [Token.isNode, ht]), ← ih]
    rfl
  | one t ht | zero t ht | identifier t ht =>
    rw [yield, List.countP_singleton, if_pos (by simp [Token.isNode, ht])]
    rfl
  | paren t ht d u hu ih =>
    rw [yield, List.countP_cons_of_neg (by simp [Token.isNode, ht]), List.countP_append,
      List.countP_singleton, if_neg (by simp [Token.isNode, hu]), Nat.add_zero, ← ih]
    rfl

/-! ## Walks that go on -/

section Walk

variable {d stop : Nat} {post : Text} {l l' l₁ : Lexer} {ts us : List Token} {e : Token}

/-- In front of anything, a walk takes no end of the input. -/
lemma Lexer.kind_ne_of_take {c : UInt8} {cs : Text} (hrest : l.rest = c :: cs) {t : Token}
    (htake : l.take = (.ok t, l₁)) : t.kind ≠ .endOfInput := by
  obtain ⟨hnil, -, -⟩ | ⟨c', cs', _, -, hscan, -, -, -⟩ := Lexer.take_eq_ok htake
  · exact absurd (hrest.symm.trans hnil) (List.cons_ne_nil c cs)
  · have hsound : (scan c' cs').Sound (c' :: cs') := sound_scan c' cs'
    rw [hscan] at hsound
    exact hsound.kind_ne

/-- Where a source ends, a walk goes on if anything but a filler stands behind the source. -/
lemma Lexer.Within.kind_ne_of_next (h : l.Within d stop post l')
    (hrest : l.rest.drop (gapLength false l.rest) = []) (hpost : ¬Text.Filler [] post) {t : Token}
    (hnext : l'.next = (.ok t, l₁)) : t.kind ≠ .endOfInput := by
  have hlength : gapLength false l.rest = l.rest.length :=
    (Text.gapLength_le false l.rest).antisymm (List.drop_eq_nil_iff.mp hrest)
  have hgap := h.gapLength_eq
  rw [hrest, List.nil_append, hlength] at hgap
  rw [Lexer.next, h.ahead_eq', hgap] at hnext
  have hleft : (l'.skip (l.rest.length + gapLength false post)).rest =
      post.drop (gapLength false post) := by
    rw [Lexer.skip, h.rest_eq, List.drop_length_add_append]
  rcases hbehind : post.drop (gapLength false post) with _ | ⟨c, cs⟩
  · have hfiller := (Text.filler_take_gapLength post).1
    rw [hbehind, List.take_of_length_le (List.drop_eq_nil_iff.mp hbehind)] at hfiller
    exact absurd hfiller hpost
  · exact Lexer.kind_ne_of_take (hleft.trans hbehind) hnext

/-- A walk over a source with something behind it takes the tokens of the source first, and then
others, unless a filler stands behind. -/
lemma Lexer.Within.exists_tokens (hends : post.EndsLexeme) (hpost : ¬Text.Filler [] post)
    (hyields : l.Yields ts l₁) {l₂ : Lexer} (hend : l₁.next = (.ok e, l₂))
    (he : e.kind = .endOfInput) (h : l.Within d stop post l') (hus : l'.stream.tokens = .ok us) :
    ∃ ts' t vs, us = ts' ++ t :: vs ∧ List.Forall₂ (Token.Alike d stop) ts ts' ∧
      t.kind ≠ .endOfInput := by
  induction hyields generalizing l' us with
  | @nil l =>
    rcases hrest : l.rest.drop (gapLength false l.rest) with _ | ⟨c, cs⟩
    · rcases hnext : l'.next with ⟨err | t, l''⟩
      · rw [Lexer.stream_of_next_error hnext] at hus
        exact absurd hus throw_ne_ok
      · have hkind := h.kind_ne_of_next hrest hpost hnext
        rw [Lexer.stream_of_next hnext, if_neg hkind] at hus
        simp only [TokenStream.tokens, bind_eq_ok_iff, pure_eq_ok_iff] at hus
        obtain ⟨vs, -, rfl⟩ := hus
        exact ⟨[], t, vs, rfl, .nil, hkind⟩
    · -- the source has a token left
      rw [Lexer.next, h.ahead_eq] at hend
      exact absurd he (Lexer.kind_ne_of_take hrest hend)
  | @cons l l₁ l₂ t ts hnext hkind hyields ih =>
    rcases hrest : l.rest.drop (gapLength false l.rest) with _ | ⟨c, cs⟩
    · rw [Lexer.next, h.ahead_eq, Lexer.take, Lexer.skip, hrest] at hnext
      cases hnext
      exact absurd rfl hkind
    · have hstep := h.next_of_cons hends hrest
      rw [hnext] at hstep
      generalize hnext' : l'.next = r' at hstep
      cases hstep with
      | ends heq => exact absurd heq hkind
      | token _ ht hl =>
        rw [Lexer.stream_of_next hnext', if_neg (ht.kind_eq ▸ hkind)] at hus
        simp only [TokenStream.tokens, bind_eq_ok_iff, pure_eq_ok_iff] at hus
        obtain ⟨us', hus', rfl⟩ := hus
        obtain ⟨ts', u, vs, rfl, hts, hu⟩ := ih hend hl hus'
        exact ⟨_ :: ts', u, vs, rfl, .cons ht hts, hu⟩

end Walk

/-! ## Readings that go on -/

section Read

variable {d stop : Nat} {st st' st₁ : ReadState} {ts ts' : List Token} {t e : Token} {φ : Formula}

/-- Tokens that agree up to their places do the same to readings that do. -/
lemma ReadState.Alike.feed (hts : List.Forall₂ (Token.Alike d stop) ts ts')
    (h : st.Alike d stop st') (hfeed : st.feed ts = some st₁) :
    ∃ st₁', st'.feed ts' = some st₁' ∧ st₁.Alike d stop st₁' := by
  induction hts generalizing st st' with
  | nil =>
    obtain rfl := Option.some.inj hfeed
    exact ⟨st', rfl, h⟩
  | cons ht _ ih =>
    have hmove := h.move ht
    simp only [ReadState.feed] at hfeed ⊢
    split at hfeed
    next st₂ hm =>
      rw [hm] at hmove
      generalize ReadState.move st' _ = m' at hmove ⊢
      cases hmove with
      | shift h₂ => exact ih h₂ hfeed
    next => cases hfeed

/-- Where a formula is complete, its operand is joined to all that waits. -/
lemma ReadState.reduceAll_of_accept (hfeed : (ReadState.start none).feed ts = some st)
    (he : e.kind = .endOfInput) (hm : st.move e = .accept φ) :
    ∃ χ, st.operand = some χ ∧ reduceAll χ st.stack = (φ, []) := by
  cases hop : st.operand with
  | none => simp [ReadState.move, hop, ReadState.expectOperand, he] at hm
  | some χ =>
    have hnone : e.kind.connective? = none := by rw [he]; rfl
    simp only [ReadState.move, hop] at hm
    rcases reduceAll_eq_of_feed hfeed hop with ⟨ψ, p, fs, hred, -⟩ | ⟨ψ, hred, -⟩
    · rw [ReadState.afterOperand_of_paren hnone hred, he, if_neg (by simp)] at hm
      cases hm
    · rw [ReadState.afterOperand_of_whole hnone hred (by simp)] at hm
      cases hm
      exact ⟨χ, rfl, hred⟩

/-- Behind a complete formula, only a connective is taken. -/
lemma ReadState.connective_of_shift {χ : Formula} (hop : st.operand = some χ)
    (hred : reduceAll χ st.stack = (φ, [])) (hm : st.move t = .shift st₁) :
    ∃ c, t.kind.connective? = some c := by
  refine Option.ne_none_iff_exists'.mp fun hnone => ?_
  simp only [ReadState.move, hop, ReadState.afterOperand_of_whole hnone hred (by simp)] at hm
  cases hm

/-- Tokens that agree up to their places are nodes alike. -/
lemma countP_isNode_eq (hts : List.Forall₂ (Token.Alike d stop) ts ts') :
    ts.countP Token.isNode = ts'.countP Token.isNode := by
  induction hts with
  | nil => rfl
  | @cons t t' ts ts' ht _ ih =>
    have hnode : t.isNode = t'.isNode := by rw [Token.isNode, Token.isNode, ht.kind_eq]
    rw [List.countP_cons, List.countP_cons, ih, hnode]

/-- Behind the tokens of a formula, a larger formula goes on with a connective. -/
lemma exists_connective_of_derives (hts : List.Forall₂ (Token.Alike d stop) ts ts') {vs : List Token}
    {ψ : Formula} (hφ : Derives .formula ts φ) (hψ : Derives .formula (ts' ++ t :: vs) ψ) :
    ∃ c, t.kind.connective? = some c := by
  have he : (ReadState.anyToken .endOfInput).kind = .endOfInput := rfl
  obtain ⟨st, hfeed, haccept⟩ := (ReadState.accept_iff_derives he none).mpr hφ
  obtain ⟨χ, hop, hred⟩ := ReadState.reduceAll_of_accept hfeed he haccept
  -- the same tokens at other places lead to a state that agrees up to places
  have hstart : (ReadState.start none).Alike d stop (ReadState.start none) := ⟨.nil, rfl, .none⟩
  obtain ⟨st', hfeed', halike⟩ := hstart.feed hts hfeed
  obtain ⟨hformula, hstack⟩ := alike_reduceWhile (fun _ => true) χ halike.stack
  have hred' : reduceAll χ st'.stack = (φ, []) := by
    change (reduceAll χ st.stack).1 = (reduceAll χ st'.stack).1 at hformula
    change List.Forall₂ _ (reduceAll χ st.stack).2 (reduceAll χ st'.stack).2 at hstack
    rw [hred] at hformula hstack
    exact Prod.ext hformula.symm (List.forall₂_nil_left_iff.mp hstack)
  obtain ⟨st₂, hfeed₂, -⟩ := (ReadState.accept_iff_derives he none).mpr hψ
  rw [ReadState.feed_append, hfeed', Option.bind_some] at hfeed₂
  simp only [ReadState.feed] at hfeed₂
  split at hfeed₂
  next hm => exact ReadState.connective_of_shift (halike.operand.symm.trans hop) hred' hm
  next => cases hfeed₂

end Read

/-- If a source is a formula, and so is a longer one that goes on behind it, the longer one is a
larger formula, unless only a filler stands behind. -/
theorem Formula.size_lt_of_read {pre content post : Text} {line line' : UInt32} {φ ψ : Formula}
    (hpre : Text.Filler (content ++ post) pre) (hends : post.EndsLexeme)
    (hpost : ¬Text.Filler [] post) (hcontent : byte '#' ∉ content)
    (hφ : Formula.read content line = .ok φ)
    (hψ : Formula.read (pre ++ (content ++ post)) line' = .ok ψ) : φ.size < ψ.size := by
  obtain ⟨dφ, ⟨e, he, htokens⟩, rfl⟩ := Formula.read_eq_ok_iff.mp hφ
  obtain ⟨dψ, ⟨e', he', htokens'⟩, rfl⟩ := Formula.read_eq_ok_iff.mp hψ
  obtain ⟨ts, l, hyields, ⟨e₁, l₁, he₁, hend, hts⟩ | ⟨err, l₁, -, hts⟩⟩ :=
    (Lexer.start content line).exists_yields
  case inr => exact absurd (htokens.symm.trans hts) (by simp)
  obtain rfl : dφ.yield = ts := List.append_inj_left' (Except.ok.inj (htokens.symm.trans hts)) rfl
  rw [tokenise, Lexer.stream_congr (Lexer.next_start_append hpre line')] at htokens'
  obtain ⟨ts', t, vs, heq, halike, ht⟩ :=
    (Lexer.within_start hcontent pre post line line').exists_tokens hends hpost hyields hend he₁
      htokens'
  obtain ⟨us, rfl⟩ : ∃ us, vs = us ++ [e'] := by
    rcases List.eq_nil_or_concat vs with rfl | ⟨us, u, rfl⟩
    · obtain ⟨-, hlast⟩ := List.append_inj' heq rfl
      exact absurd ((List.cons.inj hlast).1 ▸ he') ht
    · rw [List.concat_eq_append, ← List.cons_append, ← List.append_assoc] at heq
      obtain ⟨-, hlast⟩ := List.append_inj' heq rfl
      exact ⟨us, by rw [List.concat_eq_append, (List.cons.inj hlast).1]⟩
  rw [← List.cons_append, ← List.append_assoc] at heq
  have hyield : dψ.yield = ts' ++ t :: us := List.append_inj_left' heq rfl
  obtain ⟨c, hc⟩ := exists_connective_of_derives halike ⟨dφ, rfl, rfl⟩ ⟨dψ, hyield, rfl⟩
  have hφsize : dφ.toFormula.size = dφ.yield.countP Token.isNode := dφ.hasSize
  have hψsize : dψ.toFormula.size = dψ.yield.countP Token.isNode := dψ.hasSize
  rw [hφsize, hψsize, hyield, countP_isNode_eq halike, List.countP_append,
    List.countP_cons_of_pos (Token.isNode_of_connective hc)]
  omega

end TwistLogic
