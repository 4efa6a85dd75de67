import Mathlib.Data.List.Infix
import Mathlib.Tactic.Common
import TwistLogic.Proofs.Formula.RoundTrip
import TwistLogic.Proofs.Formula.Scanning

/-!
# Where a source stops being a formula

Tokens are viable if they begin a formula of the grammar.  They are viable exactly if the reading
takes all of them (`viable_iff_exists_feed`): an operand and the closing parentheses that the stack
waits for complete whatever has been taken.  So a reading stops at the first token that no formula
has in this place, and its error names this token (`Refused`).  If there is no such token, the input
ends inside a formula: an operand is missing behind the last token, or the innermost parenthesis
stays open (`CutShort`).

Tokens are read one by one, as far as they are needed.  A stretch of source that is no token is
reported if the tokens in front of it are viable, and otherwise the reading has stopped before it.
`FormulaStore.parse_error_located` puts this together.
-/

namespace TwistLogic

/-! ## Beginnings of formulas -/

/-- Tokens that begin a formula. -/
def Viable (ts : List Token) : Prop := ∃ d : ParseTree (.phrase .formula), ts <+: d.yield

lemma Viable.of_append {ts us : List Token} (h : Viable (ts ++ us)) : Viable ts := by
  obtain ⟨d, hd⟩ := h
  exact ⟨d, (List.prefix_append ts us).trans hd⟩

/-- The classes of tokens that begin an operand. -/
def TokenKind.beginsOperand : TokenKind → Bool
  | one | zero | identifier | tilde | modality _ _ | openParen => true
  | _ => false

/-- Tokens that an operand can follow. -/
def ExpectsOperand (ts : List Token) : Prop :=
  ∃ t : Token, t.kind.beginsOperand = true ∧ Viable (ts ++ [t])

/-- What a token does to the parentheses that are open, of which the innermost is the first. -/
def unclosedStep (ps : List Token) (t : Token) : List Token :=
  match t.kind with
  | .openParen => t :: ps
  | .closeParen => ps.tail
  | _ => ps

/-- The opening parentheses that wait for a closing one, the innermost first. -/
def unclosed (ts : List Token) : List Token := ts.foldl unclosedStep []

/-! ## The errors of tokens -/

/-- The error for a token that does not go on with the tokens in front of it. -/
inductive Refused (us : List Token) (t : Token) : SyntaxError → Prop
  | operand : ExpectsOperand us →
    Refused us t { fault := .missingOperandBefore t.text, token := t.text, pos := t.pos }
  | paren {p : Token} {ps : List Token} : ¬ExpectsOperand us → unclosed us = p :: ps →
    Refused us t { fault := .expectedClose p.pos.column t.text, token := t.text, pos := t.pos }
  | close : ¬ExpectsOperand us → unclosed us = [] → t.kind = .closeParen →
    Refused us t { fault := .unmatchedClose, token := t.text, pos := t.pos }
  | trailing : ¬ExpectsOperand us → unclosed us = [] → t.kind ≠ .closeParen →
    Refused us t { fault := .trailing t.text, token := t.text, pos := t.pos }

/-- The error for an input that ends with `e` behind tokens that begin a formula. -/
inductive CutShort (e : Token) : List Token → SyntaxError → Prop
  | empty : CutShort e [] { fault := .emptyFormula, token := e.text, pos := e.pos }
  | operand {ts : List Token} {t : Token} : ExpectsOperand (ts ++ [t]) →
    CutShort e (ts ++ [t]) { fault := .missingOperandAfter t.text, token := [], pos := t.stop }
  | paren {ts ps : List Token} {p : Token} : ¬ExpectsOperand ts → unclosed ts = p :: ps →
    CutShort e ts { fault := .unmatchedOpen, token := p.text, pos := p.pos }

/-- An error that names the first token with which the tokens do not begin a formula any more. -/
def NamesOffender (ts : List Token) (e : SyntaxError) : Prop :=
  ∃ us t vs, ts = us ++ t :: vs ∧ Viable us ∧ ¬Viable (us ++ [t]) ∧ Refused us t e

/-- The tokens in front of a token determine its error. -/
lemma Refused.unique {us : List Token} {t : Token} {e e' : SyntaxError} (h : Refused us t e)
    (h' : Refused us t e') : e = e' := by
  cases h with
  | operand hus =>
    cases h' with
    | operand => rfl
    | paren hno | close hno | trailing hno => exact absurd hus hno
  | paren hno hps =>
    cases h' with
    | operand hus => exact absurd hus hno
    | paren _ hps' =>
      obtain ⟨rfl, -⟩ := List.cons.inj (hps.symm.trans hps')
      rfl
    | close _ hnil | trailing _ hnil => cases hps.symm.trans hnil
  | close hno hnil hclose =>
    cases h' with
    | operand hus => exact absurd hus hno
    | paren _ hps => cases hnil.symm.trans hps
    | close => rfl
    | trailing _ _ hne => exact absurd hclose hne
  | trailing hno hnil hne =>
    cases h' with
    | operand hus => exact absurd hus hno
    | paren _ hps => cases hnil.symm.trans hps
    | close _ _ hclose => exact absurd hclose hne
    | trailing => rfl

namespace NamesOffender

variable {ts us : List Token} {e e' : SyntaxError}

lemma not_viable (h : NamesOffender ts e) : ¬Viable ts := by
  obtain ⟨us, t, vs, rfl, -, hno, -⟩ := h
  intro hts
  rw [← List.singleton_append, ← List.append_assoc] at hts
  exact hno hts.of_append

lemma append (h : NamesOffender ts e) (us : List Token) : NamesOffender (ts ++ us) e := by
  obtain ⟨vs, t, ws, rfl, hvs, hno, he⟩ := h
  exact ⟨vs, t, ws ++ us, by simp, hvs, hno, he⟩

/-- The first token that does not go on with a formula is determined, and so is its error. -/
lemma unique (h : NamesOffender ts e) (h' : NamesOffender ts e') : e = e' := by
  obtain ⟨us, t, vs, rfl, hus, hno, he⟩ := h
  obtain ⟨us', t', vs', heq, hus', hno', he'⟩ := h'
  -- if one of the fronts went on, it would contain the other one with its token
  have hfront : us = us' := by
    rcases List.append_eq_append_iff.mp heq with ⟨ws, rfl, hws⟩ | ⟨ws, rfl, hws⟩
    · cases ws with
      | nil => simp
      | cons w ws =>
        obtain ⟨rfl, -⟩ := List.cons.inj hws
        rw [← List.singleton_append, ← List.append_assoc] at hus'
        exact absurd hus'.of_append hno
    · cases ws with
      | nil => simp
      | cons w ws =>
        obtain ⟨rfl, -⟩ := List.cons.inj hws
        rw [← List.singleton_append, ← List.append_assoc] at hus
        exact absurd hus.of_append hno'
  subst hfront
  obtain ⟨rfl, -⟩ := List.cons.inj (List.append_cancel_left heq)
  exact he.unique he'

end NamesOffender

/-! ## The parentheses on the stack -/

/-- The opening parenthesis that a waiting operator is. -/
def Frame.paren? : Frame → Option Token
  | .paren t => some t
  | _ => none

/-- The opening parentheses on a stack, the innermost first. -/
def openParens (fs : List Frame) : List Token := fs.filterMap Frame.paren?

section Stack

variable {φ : Formula} {fs : List Frame}

/-- Joining an operand to prefix operators closes no parenthesis. -/
lemma openParens_tighten (φ : Formula) (fs : List Frame) :
    openParens (tighten φ fs).2 = openParens fs := by
  fun_induction tighten φ fs with
  | case1 φ fs ih | case2 φ m action fs ih | case3 φ ψ fs ih => exact ih
  | case4 => rfl

/-- Joining an operand to connectives closes no parenthesis. -/
lemma openParens_reduceWhile (p : Connective → Bool) (φ : Formula) (fs : List Frame) :
    openParens (reduceWhile p φ fs).2 = openParens fs := by
  fun_induction reduceWhile p φ fs with
  | case1 φ c ψ fs hc ih => exact ih
  | case2 | case3 => rfl

lemma openParens_reduceAll {ψ : Formula} {gs : List Frame} (h : reduceAll φ fs = (ψ, gs)) :
    openParens gs = openParens fs := by
  rw [← openParens_reduceWhile (fun _ => true) φ fs]
  exact congrArg (fun r => openParens r.2) h.symm

end Stack

namespace ReadState

variable {st st' : ReadState} {t : Token} {ts : List Token} {φ : Formula}

lemma openParens_closed (φ : Formula) (fs : List Frame) (t : Token) :
    openParens (closed φ fs t).stack = openParens fs := openParens_tighten φ fs

/-- A token that begins an operand is the last one, and may open a parenthesis. -/
lemma expectOperand_shift (hm : st.expectOperand t = .shift st') :
    st'.last = some t ∧ openParens st'.stack = unclosedStep (openParens st.stack) t := by
  unfold expectOperand at hm
  unfold unclosedStep
  cases hk : t.kind with
  | one | zero | identifier =>
    simp only [hk] at hm ⊢
    cases hm
    exact ⟨rfl, openParens_closed _ _ _⟩
  | tilde | modality m action | openParen =>
    simp only [hk] at hm ⊢
    cases hm
    exact ⟨rfl, rfl⟩
  | _ => simp [hk] at hm

/-- A token behind an operand is the last one, and may close a parenthesis. -/
lemma afterOperand_shift (hm : st.afterOperand φ t = .shift st') :
    st'.last = some t ∧ openParens st'.stack = unclosedStep (openParens st.stack) t := by
  unfold afterOperand at hm
  split at hm
  next c hc =>
    have hstep : unclosedStep (openParens st.stack) t = openParens st.stack := by
      revert hc
      unfold unclosedStep
      cases t.kind <;> simp [TokenKind.connective?]
    cases hm
    rw [hstep]
    exact ⟨rfl, openParens_reduceWhile _ _ _⟩
  next =>
    split at hm
    next ψ p fs hred =>
      split at hm
      next hclose =>
        cases hm
        have hparens : openParens st.stack = p :: openParens fs := by
          rw [← openParens_reduceAll hred]
          rfl
        simp only [unclosedStep, hclose, hparens, List.tail_cons]
        exact ⟨rfl, openParens_closed _ _ _⟩
      next => cases hm
    next => cases hm

/-- A token that is taken is the last one, and the stack keeps count of the parentheses. -/
lemma move_shift (hm : st.move t = .shift st') :
    st'.last = some t ∧ openParens st'.stack = unclosedStep (openParens st.stack) t := by
  unfold move at hm
  split at hm
  · exact expectOperand_shift hm
  · exact afterOperand_shift hm

/-- Behind tokens that were all taken, the last of them is known, and the parentheses on the stack
are those that they left open. -/
lemma feed_eq_some (hfeed : st.feed ts = some st') :
    st'.last = ts.getLast?.or st.last ∧
      openParens st'.stack = ts.foldl unclosedStep (openParens st.stack) := by
  induction ts generalizing st with
  | nil =>
    obtain rfl := Option.some.inj hfeed
    exact ⟨rfl, rfl⟩
  | cons t ts ih =>
    simp only [feed] at hfeed
    split at hfeed
    next st'' hm =>
      obtain ⟨hlast, hparens⟩ := move_shift hm
      obtain ⟨hlast', hparens'⟩ := ih hfeed
      rw [hlast] at hlast'
      rw [hparens] at hparens'
      refine ⟨?_, hparens'⟩
      rw [hlast', List.getLast?_cons]
      cases ts.getLast? <;> rfl
    next => cases hfeed

/-- Of the tokens that are not all taken, there is a first one that is not. -/
lemma exists_stuck_of_feed_eq_none (h : st.feed ts = none) :
    ∃ us t vs st', ts = us ++ t :: vs ∧ st.feed us = some st' ∧
      ∀ st'', st'.move t ≠ .shift st'' := by
  induction ts generalizing st with
  | nil => cases h
  | cons t ts ih =>
    simp only [feed] at h
    split at h
    next st' hm =>
      obtain ⟨us, u, vs, st'', rfl, hfeed, hstuck⟩ := ih h
      exact ⟨t :: us, u, vs, st'', rfl, by simpa only [feed, hm], hstuck⟩
    next hstuck => exact ⟨[], t, ts, st, rfl, rfl, hstuck⟩

/-- One more token is taken exactly if it moves the reading on. -/
lemma feed_concat_iff (hfeed : st.feed ts = some st') :
    (∃ st'', st.feed (ts ++ [t]) = some st'') ↔ ∃ st'', st'.move t = .shift st'' := by
  rw [feed_append, hfeed, Option.bind_some]
  simp only [feed]
  split
  next st'' hm => simp [hm]
  next hstuck => simpa using hstuck

/-! ### Tokens behind an operand -/

/-- Behind a formula in an open parenthesis, only the closing one is taken. -/
lemma afterOperand_of_paren (ht : t.kind.connective? = none) {ψ : Formula} {p : Token}
    {fs : List Frame} (hred : reduceAll φ st.stack = (ψ, .paren p :: fs)) :
    st.afterOperand φ t =
      if t.kind = .closeParen then .shift (closed ψ fs t)
      else .refuse (parenError p t) { st with stack := .paren p :: fs, operand := some ψ } := by
  simp only [afterOperand, ht, hred]

/-- A formula that no parenthesis waits for ends before the token. -/
lemma afterOperand_of_whole (ht : t.kind.connective? = none) {ψ : Formula} {fs : List Frame}
    (hred : reduceAll φ st.stack = (ψ, fs)) (hfs : ∀ p gs, fs ≠ .paren p :: gs) :
    st.afterOperand φ t = .accept ψ := by
  simp only [afterOperand, ht, hred]

/-! ## Viable tokens are taken -/

/-- A token of a class, at no particular place. -/
def anyToken (k : TokenKind) : Token :=
  { kind := k, text := k.name, pos := .start 1, stop := .start 1 }

/-- Behind a complete operand, the parentheses that are open can be closed. -/
lemma exists_feed_accept (hop : st.operand = some φ) {e : Token} (he : e.kind = .endOfInput) :
    ∃ us st' ψ, st.feed us = some st' ∧ st'.move e = .accept ψ := by
  -- every closing parenthesis leaves one less on the stack
  induction hn : (openParens st.stack).length using Nat.strong_induction_on generalizing st φ with
  | h n ih =>
    rcases hred : reduceAll φ st.stack with ⟨ψ, fs⟩
    have hparens : openParens fs = openParens st.stack := openParens_reduceAll hred
    by_cases hp : ∃ p gs, fs = .paren p :: gs
    · obtain ⟨p, gs, rfl⟩ := hp
      have hm : st.move (anyToken .closeParen) = .shift (closed ψ gs (anyToken .closeParen)) := by
        simp only [move, hop]
        exact afterOperand_of_paren rfl hred
      have hlt : (openParens (closed ψ gs (anyToken .closeParen)).stack).length < n := by
        rw [openParens_closed, ← hn, ← hparens]
        exact Nat.lt_succ_self _
      obtain ⟨us, st', χ, hfeed, haccept⟩ := ih _ hlt rfl rfl
      exact ⟨anyToken .closeParen :: us, st', χ, by simpa only [feed, hm] using hfeed, haccept⟩
    · refine ⟨[], st, ψ, rfl, ?_⟩
      simp only [move, hop]
      exact afterOperand_of_whole (by rw [he]; rfl) hred fun p gs hgs => hp ⟨p, gs, hgs⟩

/-- Whatever has been taken can be completed to a formula. -/
lemma exists_feed_accept_of_any (st : ReadState) {e : Token} (he : e.kind = .endOfInput) :
    ∃ us st' ψ, st.feed us = some st' ∧ st'.move e = .accept ψ := by
  cases hop : st.operand with
  | some φ => exact exists_feed_accept hop he
  | none =>
    have hm : st.move (anyToken .one) = .shift (closed .top st.stack (anyToken .one)) := by
      simp only [move, hop, expectOperand, anyToken]
    have hone : (closed .top st.stack (anyToken .one)).operand =
        some (tighten .top st.stack).1 := rfl
    obtain ⟨us, st', ψ, hfeed, haccept⟩ := exists_feed_accept hone he
    exact ⟨anyToken .one :: us, st', ψ, by simpa only [feed, hm] using hfeed, haccept⟩

end ReadState

/-- Tokens begin a formula exactly if the reading takes all of them. -/
theorem viable_iff_exists_feed {ts : List Token} :
    Viable ts ↔ ∃ st, (ReadState.start none).feed ts = some st := by
  constructor
  · rintro ⟨d, us, hd⟩
    obtain ⟨gs, ψ, last, hfeed, -⟩ := d.isRead [] none trivial
    rw [← hd] at hfeed
    have happend : ((ReadState.start none).feed ts).bind (fun st => st.feed us) = some _ :=
      (ReadState.feed_append _ ts us).symm.trans hfeed
    obtain ⟨st, hst, -⟩ := Option.bind_eq_some_iff.mp happend
    exact ⟨st, hst⟩
  · rintro ⟨st, hst⟩
    have he : (ReadState.anyToken .endOfInput).kind = .endOfInput := rfl
    obtain ⟨us, st', φ, hus, haccept⟩ := st.exists_feed_accept_of_any he
    have hfeed : (ReadState.start none).feed (ts ++ us) = some st' := by
      rw [ReadState.feed_append, hst, Option.bind_some, hus]
    obtain ⟨d, hd, -⟩ := (ReadState.accept_iff_derives he none).mp ⟨st', hfeed, haccept⟩
    exact ⟨d, us, hd.symm⟩

section Reading

variable {us ts : List Token} {st : ReadState} {t e : Token}

lemma viable_concat_iff (hfeed : (ReadState.start none).feed us = some st) :
    Viable (us ++ [t]) ↔ ∃ st', st.move t = .shift st' := by
  rw [viable_iff_exists_feed, ReadState.feed_concat_iff hfeed]

lemma unclosed_eq (hfeed : (ReadState.start none).feed us = some st) :
    unclosed us = openParens st.stack := (ReadState.feed_eq_some hfeed).2.symm

/-- An operand can follow exactly if the reading waits for one. -/
lemma expectsOperand_iff (hfeed : (ReadState.start none).feed us = some st) :
    ExpectsOperand us ↔ st.operand = none := by
  unfold ExpectsOperand
  simp only [viable_concat_iff hfeed]
  constructor
  · rintro ⟨t, ht, st', hm⟩
    by_contra hop
    obtain ⟨φ, hop⟩ := Option.ne_none_iff_exists'.mp hop
    have hconnective : t.kind.connective? = none := by
      revert ht
      cases t.kind <;> simp [TokenKind.beginsOperand, TokenKind.connective?]
    have hclose : t.kind ≠ .closeParen := by
      intro hk
      rw [hk] at ht
      cases ht
    simp only [ReadState.move, hop, ReadState.afterOperand, hconnective, if_neg hclose] at hm
    split at hm <;> cases hm
  · intro hop
    have hm : st.move (ReadState.anyToken .one) =
        .shift (.closed .top st.stack (ReadState.anyToken .one)) := by
      simp only [ReadState.move, hop, ReadState.expectOperand, ReadState.anyToken]
    exact ⟨ReadState.anyToken .one, rfl, _, hm⟩

/-! ## The outcome of a reading -/

/-- An operand that is joined to all that waits stands in a parenthesis or is the whole. -/
lemma reduceAll_eq_of_feed (hfeed : (ReadState.start none).feed us = some st) {φ : Formula}
    (hop : st.operand = some φ) :
    (∃ ψ p fs, reduceAll φ st.stack = (ψ, .paren p :: fs) ∧ ∃ ps, unclosed us = p :: ps) ∨
      ∃ ψ, reduceAll φ st.stack = (ψ, []) ∧ unclosed us = [] := by
  rw [unclosed_eq hfeed]
  have hcovers : st.Covers ([] ++ us) := (ReadState.covers_start none).feed hfeed
  obtain ⟨_, _, -, -, -, hstack⟩ := hcovers.reduceAll hop
  rcases hred : reduceAll φ st.stack with ⟨ψ, fs⟩
  rw [hred] at hstack
  rw [← openParens_reduceAll hred]
  rcases hstack with rfl | ⟨p, gs, rfl⟩
  · exact .inr ⟨ψ, rfl, rfl⟩
  · exact .inl ⟨ψ, p, gs, rfl, openParens gs, rfl⟩

namespace FormulaStore

variable {s : FormulaStore} {source : Text} {line : UInt32} {l l' : Lexer}

/-- The error of a parse is that of the reading. -/
lemma parse_eq_error_iff {err : SyntaxError} :
    (s.parse source line).1 = .error err ↔
      ∃ f, Formula.read source line = .error f ∧ f.error = err := by
  unfold parse
  cases Formula.read source line with
  | ok φ => simp [addRead]
  | error f => simp [addRead]

/-- A parse goes on behind tokens that are taken. -/
lemma read_eq_of_yields (hyields : (Lexer.start source line).Yields us l)
    (hfeed : (ReadState.start none).feed us = some st) :
    (Parser.start source line).readFormula = l.stream.read st := hyields.read_stream hfeed

/-- A reading that fails at its next token fails the parse. -/
lemma parse_of_read (hyields : (Lexer.start source line).Yields us l)
    (hfeed : (ReadState.start none).feed us = some st) {f : ReadFailure} {p : Parser}
    (hread : l.stream.read st = (.error f, p)) : (s.parse source line).1 = .error f.error := by
  rw [parse_eq_error_iff]
  refine ⟨f, ?_, rfl⟩
  rw [Formula.read, Parser.readWhole, read_eq_of_yields hyields hfeed, hread]

/-- A reading that accepts before a token fails exactly if the token can not stand there. -/
lemma read_of_accept (hyields : (Lexer.start source line).Yields us l)
    (hfeed : (ReadState.start none).feed us = some st) (hnext : l.next = (.ok t, l'))
    {φ : Formula} (hm : st.move t = .accept φ) :
    Formula.read source line =
      match Parser.trailingFault? t with
      | none => .ok φ
      | some fault =>
        .error { error := { fault, token := t.text, pos := t.pos }, completed := [φ] } := by
  have hwhole : (Parser.start source line).readFormula =
      (.ok φ, { lexer := { l' with ahead := some t }, last := st.last }) := by
    rw [read_eq_of_yields hyields hfeed, Lexer.read_stream_of_accept hnext hm]
  simp only [Formula.read, Parser.readWhole, hwhole, Lexer.peek, Lexer.next]
  cases Parser.trailingFault? t <;> rfl

/-- A token that is not taken is reported. -/
lemma parse_of_stuck (hyields : (Lexer.start source line).Yields us l)
    (hfeed : (ReadState.start none).feed us = some st) (hnext : l.next = (.ok t, l'))
    (ht : t.kind ≠ .endOfInput) (hstuck : ∀ st', st.move t ≠ .shift st') :
    ∃ err, (s.parse source line).1 = .error err ∧ Refused us t err := by
  have hstream : l.stream = .more t l' l'.stream := by
    rw [Lexer.stream_of_next hnext, if_neg ht]
  cases hop : st.operand with
  | none =>
    have hus : ExpectsOperand us := (expectsOperand_iff hfeed).mpr hop
    have hm : st.move t =
        .spoil { fault := .missingOperandBefore t.text, token := t.text, pos := t.pos }
          { st with last := some t } := by
      revert hstuck
      simp only [ReadState.move, hop, ReadState.expectOperand]
      cases hk : t.kind <;> simp [hk] at ht ⊢
    have hread := parse_of_read (s := s) hyields hfeed
      (by rw [hstream, TokenStream.read, hm]; rfl)
    exact ⟨_, hread, .operand hus⟩
  | some φ =>
    have hus : ¬ExpectsOperand us := by
      rw [expectsOperand_iff hfeed, hop]
      simp
    have hconnective : t.kind.connective? = none := by
      by_contra hsome
      obtain ⟨c, hc⟩ := Option.ne_none_iff_exists'.mp hsome
      simp only [ReadState.move, hop, ReadState.afterOperand, hc] at hstuck
      exact hstuck _ rfl
    have hmove : st.move t = st.afterOperand φ t := by rw [ReadState.move, hop]
    rcases reduceAll_eq_of_feed hfeed hop with ⟨ψ, p, fs, hred, ps, hps⟩ | ⟨ψ, hred, hnil⟩
    · rw [ReadState.afterOperand_of_paren hconnective hred] at hmove
      have hclose : t.kind ≠ .closeParen := by
        intro hclose
        rw [if_pos hclose] at hmove
        exact hstuck _ hmove
      rw [if_neg hclose, ReadState.parenError, if_neg ht] at hmove
      have hread := parse_of_read (s := s) hyields hfeed
        (by rw [hstream, TokenStream.read, hmove]; rfl)
      exact ⟨_, hread, .paren hus hps⟩
    · rw [ReadState.afterOperand_of_whole hconnective hred (by simp)] at hmove
      -- the formula ends before the token, which is then found behind it
      have hread := read_of_accept hyields hfeed hnext hmove
      simp only [parse_eq_error_iff, hread]
      by_cases hclose : t.kind = .closeParen
      · simp only [Parser.trailingFault?, hclose]
        exact ⟨_, ⟨_, rfl, rfl⟩, .close hus hnil hclose⟩
      · have hfault : Parser.trailingFault? t = some (.trailing t.text) := by
          unfold Parser.trailingFault?
          cases hk : t.kind <;> simp [hk] at ht hclose ⊢
        simp only [hfault]
        exact ⟨_, ⟨_, rfl, rfl⟩, .trailing hus hnil hclose⟩

/-- If all tokens are taken and the parse fails, the input ends inside a formula. -/
lemma parse_of_end (hyields : (Lexer.start source line).Yields ts l)
    (hfeed : (ReadState.start none).feed ts = some st) (hnext : l.next = (.ok e, l'))
    (he : e.kind = .endOfInput) {err : SyntaxError} (hparse : (s.parse source line).1 = .error err) :
    CutShort e ts err := by
  have hstream : l.stream = .done e l' := by rw [Lexer.stream_of_next hnext, if_pos he]
  -- the parse has only one error
  have herr : ∀ f p, l.stream.read st = (.error f, p) → err = f.error := fun f p hread =>
    Except.error.inj (hparse.symm.trans (parse_of_read hyields hfeed hread))
  cases hop : st.operand with
  | none =>
    have hts : ExpectsOperand ts := (expectsOperand_iff hfeed).mpr hop
    have hlast : st.last = ts.getLast? := by
      rw [(ReadState.feed_eq_some hfeed).1, ReadState.start, Option.or_none]
    have hm : st.move e = .refuse (ReadState.endError st.last e) st := by
      simp only [ReadState.move, hop, ReadState.expectOperand, he]
    obtain rfl := herr _ _ (by rw [hstream, TokenStream.read, hm]; rfl)
    rw [hlast]
    rcases List.eq_nil_or_concat ts with rfl | ⟨us, t, rfl⟩
    · exact .empty
    · rw [List.concat_eq_append] at hts ⊢
      rw [List.getLast?_concat]
      exact .operand hts
  | some φ =>
    have hts : ¬ExpectsOperand ts := by
      rw [expectsOperand_iff hfeed, hop]
      simp
    have hmove : st.move e = st.afterOperand φ e := by rw [ReadState.move, hop]
    have hconnective : e.kind.connective? = none := by rw [he]; rfl
    rcases reduceAll_eq_of_feed hfeed hop with ⟨ψ, p, fs, hred, ps, hps⟩ | ⟨ψ, hred, hnil⟩
    · rw [ReadState.afterOperand_of_paren hconnective hred, if_neg (by rw [he]; decide),
        ReadState.parenError, if_pos he] at hmove
      obtain rfl := herr _ _ (by rw [hstream, TokenStream.read, hmove]; rfl)
      exact .paren hts hps
    · rw [ReadState.afterOperand_of_whole hconnective hred (by simp)] at hmove
      obtain ⟨f, hread, -⟩ := parse_eq_error_iff.mp hparse
      rw [read_of_accept hyields hfeed hnext hmove, Parser.trailingFault?_eq_none_iff.mpr he]
        at hread
      cases hread

end FormulaStore

end Reading

/-! ## Walks that stop -/

/-- The order of tokens is no matter of a single one. -/
lemma Refused.isLexical_eq_false {us : List Token} {t : Token} {e : SyntaxError}
    (h : Refused us t e) : e.fault.isLexical = false := by
  cases h <;> rfl

namespace Lexer

variable {l l' l'' : Lexer} {ts us : List Token}

/-- Tokens that are taken are taken one part after the other. -/
lemma Yields.split (h : l.Yields (ts ++ us) l'') : ∃ l', l.Yields ts l' ∧ l'.Yields us l'' := by
  induction ts generalizing l with
  | nil => exact ⟨l, .nil, h⟩
  | cons t ts ih =>
    cases h with
    | cons hnext hkind h =>
      obtain ⟨l', hl, hl'⟩ := ih h
      exact ⟨l', .cons hnext hkind hl, hl'⟩

/-- No token that is taken on the way is the end of the input. -/
lemma Yields.kind_ne (h : l.Yields ts l') : ∀ t ∈ ts, t.kind ≠ .endOfInput := by
  induction h with
  | nil => simp
  | cons _ hkind _ ih => exact List.forall_mem_cons.mpr ⟨hkind, ih⟩

/-- Every walk takes tokens up to the end of the input or to a stretch that is no token. -/
lemma exists_yields (l : Lexer) : ∃ ts l', l.Yields ts l' ∧
    ((∃ e l'', e.kind = .endOfInput ∧ l'.next = (.ok e, l'') ∧
        l.stream.tokens = .ok (ts ++ [e])) ∨
      ∃ err l'', l'.next = (.error err, l'') ∧ l.stream.tokens = .error err) := by
  fun_induction Lexer.stream l with
  | case1 l err l' hnext => exact ⟨[], l, .nil, .inr ⟨err, l', hnext, rfl⟩⟩
  | case2 l e l' hnext he => exact ⟨[], l, .nil, .inl ⟨e, l', he, hnext, rfl⟩⟩
  | case3 l t l' hnext ht _ ih =>
    obtain ⟨ts, l₁, hyields, hend⟩ := ih
    refine ⟨t :: ts, l₁, .cons hnext ht hyields, ?_⟩
    rcases hend with ⟨e, l₂, he, hnext', htokens⟩ | ⟨err, l₂, hnext', htokens⟩
    · exact .inl ⟨e, l₂, he, hnext', by rw [TokenStream.tokens, htokens]; rfl⟩
    · exact .inr ⟨err, l₂, hnext', by rw [TokenStream.tokens, htokens]; rfl⟩

end Lexer

namespace FormulaStore

variable {s : FormulaStore} {source : Text} {line : UInt32} {l l' : Lexer} {ts : List Token}

/-- Tokens that begin no formula fail the parse, whatever stands behind them. -/
lemma parse_of_not_viable (hyields : (Lexer.start source line).Yields ts l) (hts : ¬Viable ts) :
    ∃ err, (s.parse source line).1 = .error err ∧ NamesOffender ts err := by
  have hnone : (ReadState.start none).feed ts = none := by
    rw [viable_iff_exists_feed, ← Option.isSome_iff_exists, Option.not_isSome_iff_eq_none] at hts
    exact hts
  obtain ⟨us, t, vs, st, rfl, hfeed, hstuck⟩ := ReadState.exists_stuck_of_feed_eq_none hnone
  obtain ⟨l₁, hus, hrest⟩ := hyields.split
  cases hrest with
  | cons hnext hkind _ =>
    obtain ⟨err, hparse, herr⟩ := parse_of_stuck (s := s) hus hfeed hnext hkind hstuck
    refine ⟨err, hparse, us, t, vs, rfl, viable_iff_exists_feed.mpr ⟨st, hfeed⟩, ?_, herr⟩
    rw [viable_concat_iff hfeed]
    rintro ⟨st', hm⟩
    exact hstuck st' hm

/-- Behind tokens that begin a formula, a stretch that is no token fails the parse. -/
lemma parse_of_lexical (hyields : (Lexer.start source line).Yields ts l) (hts : Viable ts)
    {fault : SyntaxError} (hnext : l.next = (.error fault, l')) :
    (s.parse source line).1 = .error fault := by
  obtain ⟨st, hfeed⟩ := viable_iff_exists_feed.mp hts
  exact parse_of_read (f := { error := fault, completed := st.completed }) hyields hfeed
    (by rw [Lexer.stream_of_next_error hnext]; rfl)

/-- Tokens are not accepted if the parse fails behind them. -/
lemma not_formula_of_parse_eq_error {e : Token} (he : e.kind = .endOfInput)
    (htokens : tokenise source line = .ok (ts ++ [e])) {err : SyntaxError}
    (hparse : (s.parse source line).1 = .error err) (d : ParseTree (.phrase .formula)) :
    d.yield ≠ ts := by
  rintro rfl
  obtain ⟨f, hread, -⟩ := parse_eq_error_iff.mp hparse
  cases hread.symm.trans (Formula.read_eq_ok_iff.mpr ⟨d, ⟨e, he, htokens⟩, rfl⟩)

/-! ## The main statement -/

/-- Where a parse fails.  In a source of tokens only, the error names the first token that does not
go on with a formula; if there is none, the tokens begin a formula and are none, and the error says
what is missing at the end.  A stretch that is no token is reported exactly if the tokens in front
of it begin a formula.  If they do not, the error is theirs, and all sources that begin with them
have it. -/
theorem parse_error_located (s : FormulaStore) (source : Text) (line : UInt32) :
    (∀ us, tokenise source line = .ok us → ∀ err, (s.parse source line).1 = .error err →
      ∃ ts e, us = ts ++ [e] ∧ e.kind = .endOfInput ∧
        (NamesOffender ts err ∨
          Viable ts ∧ (∀ d : ParseTree (.phrase .formula), d.yield ≠ ts) ∧ CutShort e ts err)) ∧
    ∀ fault, tokenise source line = .error fault →
      ∃ ts l l', (Lexer.start source line).Yields ts l ∧ l.next = (.error fault, l') ∧
        ∃ err, (s.parse source line).1 = .error err ∧ (err = fault ↔ Viable ts) ∧
          (¬Viable ts → NamesOffender ts err ∧
            ∀ (s' : FormulaStore) (source' : Text) (line' : UInt32) (us : List Token),
              tokenise source' line' = .ok us → ts <+: us →
                (s'.parse source' line').1 = .error err) := by
  constructor
  · intro us hus err hparse
    obtain ⟨ts, l, hyields, ⟨e, l', he, hnext, htokens⟩ | ⟨fault, l', -, htokens⟩⟩ :=
      (Lexer.start source line).exists_yields
    · obtain rfl := Except.ok.inj (hus.symm.trans htokens)
      refine ⟨ts, e, rfl, he, ?_⟩
      by_cases hts : Viable ts
      · obtain ⟨st, hfeed⟩ := viable_iff_exists_feed.mp hts
        exact .inr ⟨hts, not_formula_of_parse_eq_error he htokens hparse,
          parse_of_end hyields hfeed hnext he hparse⟩
      · obtain ⟨err', hparse', herr'⟩ := parse_of_not_viable (s := s) hyields hts
        obtain rfl := Except.error.inj (hparse.symm.trans hparse')
        exact .inl herr'
    · cases hus.symm.trans htokens
  · intro fault hfault
    obtain ⟨ts, l, hyields, ⟨e, l', -, -, htokens⟩ | ⟨fault', l', hnext, htokens⟩⟩ :=
      (Lexer.start source line).exists_yields
    · cases hfault.symm.trans htokens
    obtain rfl := Except.error.inj (hfault.symm.trans htokens)
    refine ⟨ts, l, l', hyields, hnext, ?_⟩
    by_cases hts : Viable ts
    · exact ⟨fault, parse_of_lexical hyields hts hnext, by simp [hts], fun hno => absurd hts hno⟩
    · obtain ⟨err, hparse, herr⟩ := parse_of_not_viable (s := s) hyields hts
      have hlexical : err ≠ fault := by
        rintro rfl
        obtain ⟨us, t, vs, -, -, -, hrefused⟩ := herr
        cases hrefused.isLexical_eq_false.symm.trans (Lexer.isLexical_of_next hnext)
      refine ⟨err, hparse, by simp [hts, hlexical], fun _ => ⟨herr, ?_⟩⟩
      intro s' source' line' us hus hprefix
      obtain ⟨ts', l₁, hyields', ⟨e, l₂, he, -, htokens'⟩ | ⟨_, l₂, -, htokens'⟩⟩ :=
        (Lexer.start source' line').exists_yields
      · obtain rfl := Except.ok.inj (hus.symm.trans htokens')
        -- the end of the input is none of the tokens in front
        obtain ⟨vs, rfl⟩ : ts <+: ts' := by
          rcases List.prefix_concat_iff.mp hprefix with rfl | hprefix
          · exact absurd he (hyields.kind_ne e (by simp))
          · exact hprefix
        obtain ⟨err', hparse', herr'⟩ := parse_of_not_viable (s := s') hyields'
          (herr.append vs).not_viable
        rwa [(herr.append vs).unique herr']
      · cases hus.symm.trans htokens'

/-- Two parentheses are closed in the first source and one is not, so that a second operand cannot
stand at its end.  The second source has a byte that begins no token, but is refused before it. -/
theorem parse_error_located_at_second_operand :
    let source := ascii "((p) &\n ~(q | r) s"
    let err : SyntaxError :=
      { fault := .expectedClose 1 (ascii "s"), token := ascii "s", pos := ⟨2, 11, 17⟩ }
    let source' := ascii "~ (p) q $"
    let fault : SyntaxError :=
      { fault := .unexpectedByte 36, token := ascii "$", pos := ⟨7, 9, 8⟩ }
    let err' : SyntaxError :=
      { fault := .trailing (ascii "q"), token := ascii "q", pos := ⟨7, 7, 6⟩ }
    (∃ ts e, tokenise source 1 = .ok (ts ++ [e]) ∧ NamesOffender ts err) ∧
    (initial.parse source 1).1 = .error err ∧
    tokenise source' 7 = .error fault ∧ (initial.parse source' 7).1 = .error err' ∧
    ∃ ts, ¬Viable ts ∧ NamesOffender ts err' := by
  intro source err source' fault err'
  have hparse : (initial.parse source 1).1 = .error err := by decide +kernel
  have hparse' : (initial.parse source' 7).1 = .error err' := by decide +kernel
  have hfault : tokenise source' 7 = .error fault := by decide +kernel
  refine ⟨?_, hparse, hfault, hparse', ?_⟩
  · obtain ⟨us, hus⟩ : ∃ us, tokenise source 1 = .ok us := by
      rw [← error?_eq_none_iff]
      decide +kernel
    obtain ⟨ts, e, rfl, -, hoffender | ⟨-, -, hcut⟩⟩ :=
      (parse_error_located initial source 1).1 us hus err hparse
    · exact ⟨ts, e, hus, hoffender⟩
    · obtain ⟨err₀, herr⟩ : ∃ err₀, err = err₀ := ⟨_, rfl⟩
      rw [herr] at hcut
      cases hcut <;> exact absurd (congrArg SyntaxError.fault herr) nofun
  · obtain ⟨ts, l, l', -, -, err'', hparse'', hviable, hrefused⟩ :=
      (parse_error_located initial source' 7).2 fault hfault
    obtain rfl : err' = err'' := Except.error.inj (hparse'.symm.trans hparse'')
    have hts : ¬Viable ts := by
      rw [← hviable]
      decide
    exact ⟨ts, hts, (hrefused hts).1⟩

end FormulaStore

end TwistLogic
