import Mathlib.Tactic.Common
import TwistLogic.Proofs.Formula.Grammar
import TwistLogic.Proofs.Formula.Interning

/-!
# Reading is deriving

A reading is a machine on a stack of operators that wait for an operand.  Two things are said about
it, one for either direction.

* `ReadState.Covers` is the invariant of a reading: the stack and the operand together stand for all
  tokens that were taken (`Spans`), each waiting operand and the complete one with a derivation of
  its own.  Every token that is taken keeps it, so a formula that is accepted has a derivation.
* A derivation is read by induction on it.  Behind its tokens the stack holds what waited before
  and, above that, connectives of the phrase whose right operand may still grow; joining these gives
  the meaning of the phrase (`Pending`).

Together they show that the reader accepts the tokens that have a derivation and returns its
formula (`Formula.read_eq_ok_iff`).
-/

namespace TwistLogic

/-! ## Waiting operators -/

/-- A phrase of the connective `c` stays whole on a stack, because the innermost operator takes no
part of it alone. -/
def Awaits (c : Connective) : List Frame → Prop
  | [] => True
  | .paren _ :: _ => True
  | .binary d _ :: _ => d.takesBefore c = false
  | .neg :: _ => False
  | .modal _ _ :: _ => False

/-- Where a phrase stays whole, no prefix operator waits for it. -/
lemma Awaits.eq_nil_or_paren_or_binary {c : Connective} {fs : List Frame} (h : Awaits c fs) :
    fs = [] ∨ (∃ t gs, fs = .paren t :: gs) ∨
      ∃ d χ gs, fs = .binary d χ :: gs ∧ d.takesBefore c = false := by
  match fs, h with
  | [], _ => exact .inl rfl
  | .paren t :: gs, _ => exact .inr (.inl ⟨t, gs, rfl⟩)
  | .binary d χ :: gs, h => exact .inr (.inr ⟨d, χ, gs, rfl, h⟩)

/-- A stack that leaves the phrases of a connective whole leaves those of tighter ones whole. -/
lemma Awaits.of_rank_lt {c d : Connective} {fs : List Frame} (h : Awaits c fs)
    (hdc : d.rank < c.rank) : Awaits d fs := by
  rcases h.eq_nil_or_paren_or_binary with rfl | ⟨t, gs, rfl⟩ | ⟨e, χ, gs, rfl, hec⟩
  · trivial
  · trivial
  · simp only [Awaits]
    revert hec hdc
    cases c <;> cases d <;> cases e <;> decide

/-- The waiting operators stand for these tokens. -/
inductive Spans : List Frame → List Token → Prop
  | nil : Spans [] []
  | neg {fs : List Frame} {ts : List Token} {t : Token} (ht : t.kind = .tilde) :
      Spans fs ts → Spans (.neg :: fs) (ts ++ [t])
  | modal {fs : List Frame} {ts : List Token} {t : Token} {m : Modality} {action : Text}
      (ht : t.kind = .modality m action) : Spans fs ts → Spans (.modal m action :: fs) (ts ++ [t])
  | paren {fs : List Frame} {ts : List Token} {t : Token} (ht : t.kind = .openParen) :
      Spans fs ts → Spans (.paren t :: fs) (ts ++ [t])
  | binary {fs : List Frame} {ts us : List Token} {t : Token} {c : Connective} {φ : Formula}
      (ht : t.kind.connective? = some c) :
      Spans fs ts → Awaits c fs → Derives c.leftOperand us φ →
        Spans (.binary c φ :: fs) (ts ++ (us ++ [t]))

/-- A connective takes the operand before any looser one. -/
lemma Connective.takesBefore_of_rank_lt {c d : Connective} (h : d.rank < c.rank) :
    d.takesBefore c = true :=
  Bool.or_eq_true_iff.mpr (.inl (decide_eq_true h))

/-- If chains group to the left, the connective takes the operand before itself too. -/
lemma Connective.takesBefore_of_rank_le {c d : Connective} (h : d.rank ≤ c.rank)
    (hc : c.groupsRight = false) : d.takesBefore c = true := by
  rcases Nat.eq_or_lt_of_le h with heq | hlt
  · obtain rfl := rank_injective heq
    simp [takesBefore, hc]
  · exact takesBefore_of_rank_lt hlt

/-- The tightest connective takes the operand before every other one and before itself. -/
lemma Connective.and_takesBefore (c : Connective) : Connective.and.takesBefore c = true := by
  cases c <;> rfl

/-- A phrase that stays whole is joined to no prefix operator and no `&`. -/
lemma tighten_of_awaits {c : Connective} {φ : Formula} {fs : List Frame} (h : Awaits c fs) :
    tighten φ fs = (φ, fs) := by
  rcases h.eq_nil_or_paren_or_binary with rfl | ⟨t, gs, rfl⟩ | ⟨d, χ, gs, rfl, hd⟩
  · rfl
  · rfl
  · cases d with
    | and => exact absurd (c.and_takesBefore.symm.trans hd) (by simp)
    | or | resImplies | implies | iff => rfl

/-- A phrase that stays whole before its connective is joined to nothing. -/
lemma reduceWhile_of_awaits {c : Connective} {φ : Formula} {fs : List Frame} (h : Awaits c fs) :
    reduceWhile (·.takesBefore c) φ fs = (φ, fs) := by
  rcases h.eq_nil_or_paren_or_binary with rfl | ⟨t, gs, rfl⟩ | ⟨d, χ, gs, rfl, hd⟩
  · rfl
  · rfl
  · exact if_neg (by simp [hd])

/-! ## Accepted formulas have derivations -/

/-- A unary phrase that is complete is joined to the prefix operators and the `&` before it. -/
lemma Spans.tighten {fs : List Frame} {ts us : List Token} {φ : Formula} (h : Spans fs ts)
    (hφ : Derives .unary us φ) :
    ∃ ts' us', ts ++ us = ts' ++ us' ∧ Spans (tighten φ fs).2 ts' ∧
      Derives (.expr .and) us' (TwistLogic.tighten φ fs).1 ∧
      Awaits .and (TwistLogic.tighten φ fs).2 := by
  induction h generalizing us φ with
  | nil => exact ⟨[], us, rfl, .nil, Derives.expr (c := .and) hφ, trivial⟩
  | @neg fs ts t ht h ih =>
    obtain ⟨d, rfl, rfl⟩ := hφ
    rw [List.append_assoc]
    exact ih ⟨.neg t ht d, rfl, rfl⟩
  | @modal fs ts t m action ht h ih =>
    obtain ⟨d, rfl, rfl⟩ := hφ
    rw [List.append_assoc]
    exact ih ⟨.modal t m action ht d, rfl, rfl⟩
  | @paren fs ts t ht h ih =>
    exact ⟨ts ++ [t], us, rfl, .paren ht h, Derives.expr (c := .and) hφ, trivial⟩
  | @binary fs ts us' t c ψ ht h hfs hψ ih =>
    by_cases hc : c = .and
    · subst hc
      have hjoin : Derives (.expr .and) (us' ++ t :: us) (.binary .and ψ φ) := hψ.snoc rfl ht hφ
      have hwhole : TwistLogic.tighten φ (.binary .and ψ :: fs) = (.binary .and ψ φ, fs) :=
        tighten_of_awaits hfs
      rw [hwhole]
      exact ⟨ts, us' ++ t :: us, by simp, h, hjoin, hfs⟩
    · have hfs' : Awaits .and (.binary c ψ :: fs) := by
        revert hc
        cases c <;> simp [Awaits, Connective.takesBefore, Connective.rank]
      rw [tighten_of_awaits hfs']
      exact ⟨_, us, rfl, .binary ht h hfs hψ, Derives.expr (c := .and) hφ, hfs'⟩

/-- Joining a phrase to waiting connectives gives a phrase again, which stays whole. -/
lemma Spans.reduceWhile {fs : List Frame} {ts us : List Token} {e : Connective} {φ : Formula}
    (p : Connective → Bool) (h : Spans fs ts) (hφ : Derives (.expr e) us φ) (he : Awaits e fs) :
    ∃ ts' us' d, ts ++ us = ts' ++ us' ∧ Spans (reduceWhile p φ fs).2 ts' ∧
      Derives (.expr d) us' (TwistLogic.reduceWhile p φ fs).1 ∧
      Awaits d (TwistLogic.reduceWhile p φ fs).2 ∧ (d = e ∨ p d = true) ∧
      ∀ c χ gs, (TwistLogic.reduceWhile p φ fs).2 = .binary c χ :: gs → p c = false := by
  induction h generalizing us φ e with
  | nil => exact ⟨[], us, e, rfl, .nil, hφ, he, .inl rfl, nofun⟩
  | neg => exact absurd he id
  | modal => exact absurd he id
  | @paren fs ts t ht h ih => exact ⟨ts ++ [t], us, e, rfl, .paren ht h, hφ, he, .inl rfl, nofun⟩
  | @binary fs ts us' t c ψ ht h hfs hψ ih =>
    unfold TwistLogic.reduceWhile
    by_cases hc : p c
    · obtain ⟨ts', vs, d, heq, hspans, hder, hawaits, hd, hstop⟩ := ih (hψ.join ht hφ he) hfs
      simp only [hc, if_true]
      refine ⟨ts', vs, d, by simpa using heq, hspans, hder, hawaits, ?_, hstop⟩
      exact .inr (hd.elim (fun hdc => hdc ▸ hc) id)
    · simp only [hc, Bool.false_eq_true, if_false]
      refine ⟨_, us, e, rfl, .binary ht h hfs hψ, hφ, he, .inl rfl, ?_⟩
      rintro d χ gs ⟨⟩
      exact eq_false_of_ne_true hc

namespace ReadState

/-- A reading has taken these tokens: the stack stands for the first of them, and the operand has a
derivation with the others. -/
def Covers (st : ReadState) (ts : List Token) : Prop :=
  match st.operand with
  | none => Spans st.stack ts
  | some φ => ∃ us vs, ts = us ++ vs ∧ Spans st.stack us ∧ Derives (.expr .and) vs φ ∧
      Awaits .and st.stack

variable {st st' : ReadState} {ts : List Token} {t : Token} {φ ψ : Formula}

lemma covers_start (last : Option Token) : (start last).Covers [] := Spans.nil

lemma Covers.of_operand_eq_none (h : st.Covers ts) (hop : st.operand = none) :
    Spans st.stack ts := by
  unfold Covers at h
  rwa [hop] at h

lemma Covers.of_operand_eq_some (h : st.Covers ts) (hop : st.operand = some φ) :
    ∃ us vs, ts = us ++ vs ∧ Spans st.stack us ∧ Derives (.expr .and) vs φ ∧
      Awaits .and st.stack := by
  unfold Covers at h
  rwa [hop] at h

/-- A primary phrase is an operand that joins what waits for it. -/
lemma covers_closed {fs : List Frame} {us : List Token} (h : Spans fs ts)
    (hφ : Derives .primary us φ) (t : Token) : (closed φ fs t).Covers (ts ++ us) := by
  obtain ⟨d, rfl, rfl⟩ := hφ
  obtain ⟨ts', us', heq, hspans, hder, hawaits⟩ := h.tighten ⟨.primary d, rfl, rfl⟩
  exact ⟨ts', us', heq, hspans, hder, hawaits⟩

/-- A token in the place of an operand begins a phrase or is one. -/
lemma Covers.expectOperand (h : st.Covers ts) (hop : st.operand = none)
    (hm : st.expectOperand t = .shift st') : st'.Covers (ts ++ [t]) := by
  have hspans : Spans st.stack ts := h.of_operand_eq_none hop
  unfold ReadState.expectOperand at hm
  split at hm
  next hk => exact Move.shift.inj hm ▸ covers_closed hspans ⟨.one t hk, rfl, rfl⟩ t
  next hk => exact Move.shift.inj hm ▸ covers_closed hspans ⟨.zero t hk, rfl, rfl⟩ t
  next hk => exact Move.shift.inj hm ▸ covers_closed hspans ⟨.identifier t hk, rfl, rfl⟩ t
  next hk => exact Move.shift.inj hm ▸ Spans.neg hk hspans
  next hk => exact Move.shift.inj hm ▸ Spans.modal hk hspans
  next hk => exact Move.shift.inj hm ▸ Spans.paren hk hspans
  next => exact absurd hm (by simp)
  next => exact absurd hm (by simp)

/-- A connective behind an operand joins the tighter phrases and waits. -/
lemma Covers.connective (h : st.Covers ts) (hop : st.operand = some φ) {c : Connective}
    (hc : t.kind.connective? = some c) :
    Spans (.binary c (reduceWhile (·.takesBefore c) φ st.stack).1 ::
      (reduceWhile (·.takesBefore c) φ st.stack).2) (ts ++ [t]) := by
  obtain ⟨us, vs, rfl, hspans, hder, hawaits⟩ := h.of_operand_eq_some hop
  obtain ⟨us', vs', d, heq, hspans', hder', hawaits', hd, hstop⟩ :=
    hspans.reduceWhile (·.takesBefore c) hder hawaits
  have hdc : d.takesBefore c = true := hd.elim (fun hd => hd ▸ c.and_takesBefore) id
  have hpush : Awaits c (reduceWhile (·.takesBefore c) φ st.stack).2 := by
    rcases hawaits'.eq_nil_or_paren_or_binary with hnil | ⟨p, fs, hparen⟩ | ⟨b, χ, fs, hbin, -⟩
    · rw [hnil]
      trivial
    · rw [hparen]
      trivial
    · rw [hbin]
      exact hstop b χ fs hbin
  rw [heq, List.append_assoc]
  exact Spans.binary hc hspans' hpush (hder'.leftOperand hdc)

/-- Joining all that waits for an operand up to a parenthesis gives a formula. -/
lemma Covers.reduceAll (h : st.Covers ts) (hop : st.operand = some φ) :
    ∃ us vs, ts = us ++ vs ∧ Spans (reduceAll φ st.stack).2 us ∧
      Derives .formula vs (TwistLogic.reduceAll φ st.stack).1 ∧
      ((TwistLogic.reduceAll φ st.stack).2 = [] ∨
        ∃ p fs, (TwistLogic.reduceAll φ st.stack).2 = .paren p :: fs) := by
  obtain ⟨us, vs, rfl, hspans, hder, hawaits⟩ := h.of_operand_eq_some hop
  obtain ⟨us', vs', d, heq, hspans', hder', hawaits', -, hstop⟩ :=
    hspans.reduceWhile (fun _ => true) hder hawaits
  obtain ⟨tree, hyield, hmeaning⟩ : Derives (.expr .iff) vs' _ :=
    hder'.lift (by cases d <;> decide)
  refine ⟨us', vs', heq, hspans', ⟨.formula tree, hyield, hmeaning⟩, ?_⟩
  unfold TwistLogic.reduceAll
  rcases hawaits'.eq_nil_or_paren_or_binary with hnil | ⟨p, fs, hparen⟩ | ⟨c, χ, fs, hbin, -⟩
  · exact .inl hnil
  · exact .inr ⟨p, fs, hparen⟩
  · exact absurd (hstop c χ fs hbin) (by simp)

/-- A closing parenthesis makes an operand of the formula behind the opening one. -/
lemma Covers.closeParen (h : st.Covers ts) (hop : st.operand = some φ) {p : Token}
    {fs : List Frame} (hred : TwistLogic.reduceAll φ st.stack = (ψ, .paren p :: fs))
    (ht : t.kind = .closeParen) : (closed ψ fs t).Covers (ts ++ [t]) := by
  obtain ⟨us, vs, rfl, hspans, ⟨d, rfl, hd⟩, -⟩ := h.reduceAll hop
  rw [hred] at hspans hd
  cases hspans with
  | @paren _ ts _ hp hspans =>
    have hprimary : Derives .primary (p :: (d.yield ++ [t])) ψ := ⟨.paren p hp d t ht, rfl, hd⟩
    simpa using covers_closed hspans hprimary t

/-- Every token that is taken is covered. -/
theorem Covers.move (h : st.Covers ts) (hm : st.move t = .shift st') :
    st'.Covers (ts ++ [t]) := by
  unfold ReadState.move at hm
  cases hop : st.operand with
  | none =>
    rw [hop] at hm
    exact h.expectOperand hop hm
  | some φ =>
    simp only [hop, afterOperand] at hm
    split at hm
    next c hc => exact Move.shift.inj hm ▸ h.connective hop hc
    next =>
      split at hm
      next ψ p fs hred =>
        split at hm
        next hclose => exact Move.shift.inj hm ▸ h.closeParen hop hred hclose
        next => exact absurd hm (by simp)
      next => exact absurd hm (by simp)

/-- An accepted formula has a derivation with the tokens that were taken. -/
theorem Covers.derives (h : st.Covers ts) (hm : st.move t = .accept φ) :
    Derives .formula ts φ := by
  unfold ReadState.move at hm
  cases hop : st.operand with
  | none =>
    simp only [hop, ReadState.expectOperand] at hm
    split at hm <;> simp at hm
  | some ψ =>
    obtain ⟨us, vs, rfl, hspans, hder, hstack⟩ := h.reduceAll hop
    simp only [hop, afterOperand] at hm
    split at hm
    next => exact absurd hm (by simp)
    next =>
      rcases hred : TwistLogic.reduceAll ψ st.stack with ⟨χ, fs⟩
      rw [hred] at hm hspans hder hstack
      rcases hstack with rfl | ⟨p, gs, rfl⟩
      · -- nothing waits any more, so all tokens belong to the formula
        cases hspans
        exact Move.accept.inj hm ▸ hder
      · dsimp only at hm
        split at hm <;> exact absurd hm (by simp)

end ReadState

/-! ## Derivations are read -/

/-- The reading behind some tokens, if all of them are taken. -/
def ReadState.feed (st : ReadState) : List Token → Option ReadState
  | [] => some st
  | t :: ts =>
    match st.move t with
    | .shift st' => st'.feed ts
    | _ => none

lemma ReadState.feed_append (st : ReadState) (ts us : List Token) :
    st.feed (ts ++ us) = (st.feed ts).bind fun st' => st'.feed us := by
  induction ts generalizing st with
  | nil => rfl
  | cons t ts ih =>
    simp only [List.cons_append, feed]
    split
    · exact ih _
    · rfl

/-- Joining an operand to connectives of phrases of `c` gives a formula. -/
inductive Pending (c : Connective) : Formula → List Frame → Formula → Prop
  | nil {φ : Formula} : Pending c φ [] φ
  | cons {d : Connective} {χ ψ φ : Formula} {gs : List Frame} :
      d.rank ≤ c.rank → Pending c (.binary d χ ψ) gs φ → Pending c ψ (.binary d χ :: gs) φ

namespace Pending

variable {c d : Connective} {φ χ ψ : Formula} {gs : List Frame}

lemma mono (h : Pending c ψ gs φ) (hcd : c.rank ≤ d.rank) : Pending d ψ gs φ := by
  induction h with
  | nil => exact .nil
  | cons he _ ih => exact .cons (Nat.le_trans he hcd) ih

/-- Below the pending connectives another one may wait. -/
lemma concat (h : Pending c ψ gs φ) (hd : d.rank ≤ c.rank) :
    Pending c ψ (gs ++ [.binary d χ]) (.binary d χ φ) := by
  induction h with
  | nil => exact .cons hd .nil
  | cons he _ ih => exact .cons he ih

/-- Whatever joins all pending connectives goes on with the formula. -/
lemma reduceWhile_append (h : Pending c ψ gs φ) {p : Connective → Bool}
    (hp : ∀ d : Connective, d.rank ≤ c.rank → p d = true) (fs : List Frame) :
    reduceWhile p ψ (gs ++ fs) = reduceWhile p φ fs := by
  induction h with
  | nil => rfl
  | cons hd _ ih =>
    rw [List.cons_append, reduceWhile, if_pos (hp _ hd)]
    exact ih

end Pending

/-- From a reading on, tokens complete a phrase of `c` on a stack. -/
def Completes (c : Connective) (st : ReadState) (ts : List Token) (fs : List Frame) (φ : Formula) :
    Prop :=
  ∃ gs ψ last, st.feed ts = some { stack := gs ++ fs, operand := some ψ, last } ∧ Pending c ψ gs φ

namespace Completes

variable {c e : Connective} {st : ReadState} {ts us : List Token} {fs : List Frame} {φ ψ : Formula}

lemma mono (h : Completes c st ts fs φ) (hce : c.rank ≤ e.rank) : Completes e st ts fs φ := by
  obtain ⟨gs, ψ, last, hfeed, hpending⟩ := h
  exact ⟨gs, ψ, last, hfeed, hpending.mono hce⟩

/-- A phrase that completes the right side of a connective completes a phrase of the connective. -/
lemma right (h : Completes e st ts (.binary c φ :: fs) ψ) (hec : e.rank ≤ c.rank) :
    Completes c st ts fs (.binary c φ ψ) := by
  obtain ⟨gs, χ, last, hfeed, hpending⟩ := h
  refine ⟨gs ++ [.binary c φ], χ, last, ?_, (hpending.mono hec).concat (Nat.le_refl _)⟩
  simpa using hfeed

/-- A connective that takes nothing from the phrases of `c` joins them and waits. -/
lemma feed_connective (h : Completes c st ts fs φ) {t : Token} (ht : t.kind.connective? = some e)
    (hce : ∀ d : Connective, d.rank ≤ c.rank → d.takesBefore e = true) (hfs : Awaits e fs) :
    st.feed (ts ++ [t]) = some { stack := .binary e φ :: fs, operand := none, last := some t } := by
  obtain ⟨gs, ψ, last, hfeed, hpending⟩ := h
  rw [ReadState.feed_append, hfeed]
  simp only [Option.bind_some, ReadState.feed, ReadState.move, ReadState.afterOperand, ht,
    hpending.reduceWhile_append hce, reduceWhile_of_awaits hfs]

/-- Tokens that complete a phrase behind a token complete it behind all tokens before. -/
lemma of_feed {st' : ReadState} (hfeed : st.feed ts = some st') (h : Completes c st' us fs φ) :
    Completes c st (ts ++ us) fs φ := by
  obtain ⟨gs, ψ, last, hus, hpending⟩ := h
  refine ⟨gs, ψ, last, ?_, hpending⟩
  rw [ReadState.feed_append, hfeed, Option.bind_some, hus]

end Completes

/-- What reading the tokens of a derivation does. -/
def ParseTree.IsRead : {k : Category} → ParseTree k → Prop
  | .phrase .formula, d => ∀ fs last, Awaits .iff fs →
      Completes .iff { stack := fs, operand := none, last } d.yield fs d.meaning
  | .phrase (.expr c), d => ∀ fs last, Awaits c fs →
      Completes c { stack := fs, operand := none, last } d.yield fs d.meaning
  | .phrase .unary, d => ∀ fs last, ∃ t,
      ReadState.feed { stack := fs, operand := none, last } d.yield =
        some (ReadState.closed d.meaning fs t)
  | .phrase .primary, d => ∀ fs last, ∃ t,
      ReadState.feed { stack := fs, operand := none, last } d.yield =
        some (ReadState.closed d.meaning fs t)
  | .tail c, d => c.groupsRight = false → ∀ st ts fs φ, Awaits c fs → Completes c st ts fs φ →
      Completes c st (ts ++ d.yield) fs (d.meaning φ)

/-- A complete operand that stays whole is a phrase on the stack below. -/
lemma completes_of_feed_eq_closed {c : Connective} {st : ReadState} {ts : List Token}
    {fs gs : List Frame} {φ ψ : Formula} {t : Token}
    (h : st.feed ts = some (ReadState.closed φ gs t)) (htighten : tighten φ gs = tighten ψ fs)
    (hfs : Awaits c fs) : Completes c st ts fs ψ := by
  refine ⟨[], ψ, some t, ?_, .nil⟩
  rw [h, ReadState.closed, htighten, tighten_of_awaits hfs]
  rfl

namespace ParseTree.IsRead

variable {c : Connective} {d : ParseTree (.phrase c.operand)} {fs : List Frame}

/-- An operand completes a phrase of its connective. -/
lemma first (h : d.IsRead) (hfs : Awaits c fs) (last : Option Token) :
    Completes c { stack := fs, operand := none, last } d.yield fs d.meaning := by
  cases c with
  | and =>
    obtain ⟨t, ht⟩ := h fs last
    exact completes_of_feed_eq_closed ht rfl hfs
  | or | resImplies | implies | iff =>
    have hoperand := h fs last (hfs.of_rank_lt (by decide))
    exact hoperand.mono (by decide)

/-- An operand on the right of its connective completes a phrase of it. -/
lemma next (h : d.IsRead) (hc : c.groupsRight = false) (hfs : Awaits c fs) (φ : Formula)
    (last : Option Token) :
    Completes c { stack := .binary c φ :: fs, operand := none, last } d.yield fs
      (.binary c φ d.meaning) := by
  cases c with
  | and =>
    -- a `&` is joined as soon as its operand is complete, so that nothing is pending
    obtain ⟨t, ht⟩ := h (.binary .and φ :: fs) last
    exact completes_of_feed_eq_closed ht rfl hfs
  | or => exact (h (.binary .or φ :: fs) last rfl).right (by decide)
  | resImplies => exact absurd hc (by decide)
  | implies => exact (h (.binary .implies φ :: fs) last rfl).right (by decide)
  | iff => exact (h (.binary .iff φ :: fs) last rfl).right (by decide)

end ParseTree.IsRead

/-- Every derivation is read. -/
theorem ParseTree.isRead {k : Category} (d : ParseTree k) : d.IsRead := by
  induction d with
  | formula d ih => exact ih
  | @chain c hc first rest ihfirst ihrest =>
    intro fs last hfs
    exact ihrest hc _ _ fs _ hfs (ihfirst.first hfs last)
  | nil =>
    intro hc st ts fs φ hfs h
    rw [yield, List.append_nil]
    exact h
  | @cons c t ht next rest ihnext ihrest =>
    intro hc st ts fs φ hfs h
    -- the connective joins all that is pending, so that the chain groups to the left
    have htoken := h.feed_connective ht (fun d hd => Connective.takesBefore_of_rank_le hd hc) hfs
    have hnext := Completes.of_feed htoken (ihnext.next hc hfs φ (some t))
    have hrest := ihrest hc _ _ fs _ hfs hnext
    have hyield : (cons t ht next rest).yield = [t] ++ next.yield ++ rest.yield := rfl
    rw [hyield, ← List.append_assoc, ← List.append_assoc]
    exact hrest
  | single d ih =>
    intro fs last hfs
    exact IsRead.first (c := .resImplies) ih hfs last
  | resImplies left t ht right ihleft ihright =>
    intro fs last hfs
    have hleft := ihleft fs last (hfs.of_rank_lt (by decide))
    -- the implication waits for a phrase of its own kind, which therefore groups to the right
    have htoken := hleft.feed_connective ht
      (fun d hd => Connective.takesBefore_of_rank_lt (Nat.lt_succ_of_le hd)) hfs
    have hright := (ihright (.binary .resImplies left.meaning :: fs) (some t) rfl).right
      (Nat.le_refl _)
    have hyield : (resImplies left t ht right).yield = left.yield ++ [t] ++ right.yield :=
      (List.append_assoc left.yield [t] right.yield).symm
    rw [hyield]
    exact Completes.of_feed htoken hright
  | neg t ht d ih =>
    intro fs last
    obtain ⟨u, hu⟩ := ih (.neg :: fs) (some t)
    refine ⟨u, ?_⟩
    simp only [yield, ReadState.feed, ReadState.move, ReadState.expectOperand, ht]
    exact hu
  | modal t m action ht d ih =>
    intro fs last
    obtain ⟨u, hu⟩ := ih (.modal m action :: fs) (some t)
    refine ⟨u, ?_⟩
    simp only [yield, ReadState.feed, ReadState.move, ReadState.expectOperand, ht]
    exact hu
  | primary d ih => exact ih
  | one t ht | zero t ht | identifier t ht =>
    intro fs last
    refine ⟨t, ?_⟩
    simp only [yield, ReadState.feed, ReadState.move, ReadState.expectOperand, ht]
    rfl
  | paren t ht d u hu ih =>
    intro fs last
    obtain ⟨gs, ψ, last', hfeed, hpending⟩ := ih (.paren t :: fs) (some t) trivial
    refine ⟨u, ?_⟩
    have hopen : ReadState.feed { stack := fs, operand := none, last } [t] =
        some { stack := .paren t :: fs, operand := none, last := some t } := by
      simp only [ReadState.feed, ReadState.move, ReadState.expectOperand, ht]
      rfl
    have hjoin : reduceAll ψ (gs ++ .paren t :: fs) = (d.meaning, .paren t :: fs) :=
      hpending.reduceWhile_append (fun _ _ => rfl) _
    have hyield : (paren t ht d u hu).yield = [t] ++ (d.yield ++ [u]) := rfl
    rw [hyield, ReadState.feed_append, hopen, Option.bind_some, ReadState.feed_append, hfeed,
      Option.bind_some]
    simp only [ReadState.feed, ReadState.move, ReadState.afterOperand, hu, TokenKind.connective?,
      hjoin, if_true]
    rfl

/-! ## Accepted tokens -/

/-- All tokens that are taken are covered. -/
lemma ReadState.Covers.feed {st st' : ReadState} {ts us : List Token} (h : st.Covers ts)
    (hfeed : st.feed us = some st') : st'.Covers (ts ++ us) := by
  induction us generalizing st ts with
  | nil =>
    obtain rfl := Option.some.inj hfeed
    rwa [List.append_nil]
  | cons t us ih =>
    simp only [ReadState.feed] at hfeed
    split at hfeed
    next st'' hm => simpa using ih (h.move hm) hfeed
    next => exact absurd hfeed (by simp)

/-- Before the end of the input, the machine accepts a formula exactly if the tokens that it has
taken have a derivation of the formula. -/
theorem ReadState.accept_iff_derives {e : Token} (he : e.kind = .endOfInput) (last : Option Token)
    {ts : List Token} {φ : Formula} :
    (∃ st, (start last).feed ts = some st ∧ st.move e = .accept φ) ↔ Derives .formula ts φ := by
  constructor
  · rintro ⟨st, hfeed, hm⟩
    exact ((covers_start last).feed hfeed).derives hm
  · rintro ⟨d, rfl, rfl⟩
    obtain ⟨gs, ψ, last', hfeed, hpending⟩ := d.isRead [] last trivial
    refine ⟨_, hfeed, ?_⟩
    have hjoin : reduceAll ψ (gs ++ []) = (d.meaning, []) :=
      hpending.reduceWhile_append (fun _ _ => rfl) []
    simp only [ReadState.move, ReadState.afterOperand, he, TokenKind.connective?, hjoin]

/-! ## Streams of tokens -/

namespace TokenStream

/-- A stream ends with the end of the input, which is no other token of it. -/
def Proper : TokenStream → Prop
  | .more t _ rest => t.kind ≠ .endOfInput ∧ rest.Proper
  | .done t _ => t.kind = .endOfInput
  | .failed _ _ => True

/-- The tokens of a stream end with the end of the input. -/
lemma Proper.exists_eq_concat {σ : TokenStream} (hσ : σ.Proper) {us : List Token}
    (h : σ.tokens = .ok us) : ∃ ts e, us = ts ++ [e] ∧ e.kind = .endOfInput := by
  induction σ generalizing us with
  | more t behind rest ih =>
    simp only [tokens, bind_eq_ok_iff, pure_eq_ok_iff] at h
    obtain ⟨us', hus', rfl⟩ := h
    obtain ⟨ts, e, rfl, he⟩ := ih hσ.2 hus'
    exact ⟨t :: ts, e, rfl, he⟩
  | done t behind =>
    obtain rfl := pure_eq_ok_iff.mp h
    exact ⟨[], t, rfl, hσ⟩
  | failed e behind => exact absurd h throw_ne_ok

/-- The tokens of a stream with one more token in front. -/
lemma tokens_more_eq_concat_iff {t e : Token} {behind : Lexer} {rest : TokenStream}
    (hrest : rest.Proper) {ts : List Token} :
    (more t behind rest).tokens = .ok (ts ++ [e]) ↔
      ∃ us, ts = t :: us ∧ rest.tokens = .ok (us ++ [e]) := by
  simp only [tokens, bind_eq_ok_iff, pure_eq_ok_iff]
  constructor
  · rintro ⟨us', hus', heq⟩
    obtain ⟨us, e', rfl, -⟩ := hrest.exists_eq_concat hus'
    obtain ⟨rfl, he⟩ := List.append_inj' ((List.cons_append (a := t)).trans heq) rfl
    exact ⟨us, rfl, he ▸ hus'⟩
  · rintro ⟨us, rfl, hus⟩
    exact ⟨_, hus, rfl⟩

/-- Reading a stream gives a formula before the end of the input exactly if the machine takes all
tokens and accepts. -/
lemma Proper.read_iff {σ : TokenStream} (hσ : σ.Proper) {st : ReadState} {φ : Formula} :
    (∃ p t l, σ.read st = (.ok φ, p) ∧ p.lexer.peek = (.ok t, l) ∧ t.kind = .endOfInput) ↔
      ∃ ts e, σ.tokens = .ok (ts ++ [e]) ∧ ∃ st', st.feed ts = some st' ∧
        st'.move e = .accept φ := by
  induction σ generalizing st with
  | more t behind rest ih =>
    obtain ⟨ht, hrest⟩ := hσ
    simp only [read, tokens_more_eq_concat_iff hrest]
    cases hm : st.move t with
    | shift st' =>
      refine (ih hrest).trans ⟨?_, ?_⟩
      · rintro ⟨us, e, hus, st'', hfeed, haccept⟩
        exact ⟨t :: us, e, ⟨us, rfl, hus⟩, st'', by simpa only [ReadState.feed, hm], haccept⟩
      · rintro ⟨_, e, ⟨us, rfl, hus⟩, st'', hfeed, haccept⟩
        exact ⟨us, e, hus, st'', by simpa only [ReadState.feed, hm] using hfeed, haccept⟩
    | accept χ | refuse e' st' | spoil e' st' =>
      -- the reading stops at a token that is not the end of the input
      constructor
      · rintro ⟨p, u, l, hread, hpeek, hu⟩
        cases hread
        all_goals
          cases hpeek
          exact absurd hu ht
      · rintro ⟨_, e, ⟨us, rfl, -⟩, st'', hfeed, -⟩
        simp [ReadState.feed, hm] at hfeed
  | done t behind =>
    simp only [read]
    constructor
    · rintro ⟨p, u, l, hread, -⟩
      cases hm : st.move t with
      | accept χ =>
        rw [hm] at hread
        cases hread
        exact ⟨[], t, rfl, st, rfl, hm⟩
      | shift | refuse | spoil =>
        rw [hm] at hread
        cases hread
    · rintro ⟨ts, e, htokens, st', hfeed, haccept⟩
      have heq : [] ++ [t] = ts ++ [e] := pure_eq_ok_iff.mp htokens
      obtain ⟨rfl, hlast⟩ := List.append_inj' heq rfl
      obtain ⟨rfl, -⟩ := List.cons.inj hlast
      obtain rfl := Option.some.inj hfeed
      exact ⟨_, t, { behind with ahead := some t }, by rw [haccept], rfl, hσ⟩
  | failed e behind =>
    constructor
    · rintro ⟨p, u, l, hread, -⟩
      cases hread
    · rintro ⟨ts, e', htokens, -⟩
      exact absurd htokens throw_ne_ok

end TokenStream

/-- What a walk delivers ends with the end of the input. -/
lemma Lexer.proper_stream (l : Lexer) : l.stream.Proper := by
  fun_induction Lexer.stream l with
  | case1 l e l' h => trivial
  | case2 l t l' h ht => exact ht
  | case3 l t l' h ht hlt ih => exact ⟨ht, ih⟩

/-! ## Whole sources -/

/-- A token is no fault behind a formula exactly if it is the end of the input. -/
lemma Parser.trailingFault?_eq_none_iff {t : Token} :
    trailingFault? t = none ↔ t.kind = .endOfInput := by
  unfold trailingFault?
  split <;> simp_all

/-- A source is read as a whole exactly if its first formula ends at the end of the input. -/
lemma Parser.readWhole_eq_ok_iff {p : Parser} {φ : Formula} :
    p.readWhole.1 = .ok φ ↔
      ∃ q t l, p.readFormula = (.ok φ, q) ∧ q.lexer.peek = (.ok t, l) ∧ t.kind = .endOfInput := by
  unfold readWhole
  rcases p.readFormula with ⟨_ | χ, q⟩
  · simp
  · dsimp only
    rcases hpeek : q.lexer.peek with ⟨_ | t, l⟩
    · constructor
      · rintro ⟨⟩
      · rintro ⟨q', u, l', ⟨⟩, hpeek', -⟩
        cases hpeek.symm.trans hpeek'
    · dsimp only
      cases hfault : trailingFault? t with
      | none =>
        constructor
        · rintro ⟨⟩
          exact ⟨q, t, l, rfl, hpeek, trailingFault?_eq_none_iff.mp hfault⟩
        · rintro ⟨q', u, l', ⟨⟩, -, -⟩
          rfl
      | some fault =>
        constructor
        · rintro ⟨⟩
        · rintro ⟨q', u, l', ⟨⟩, hpeek', hu⟩
          cases hpeek.symm.trans hpeek'
          exact absurd (trailingFault?_eq_none_iff.mpr hu) (by simp [hfault])

/-- A derivation of a source: its leaves are the tokens in front of the end of the input. -/
def ParseTree.OfSource (d : ParseTree (.phrase .formula)) (source : Text) (line : UInt32) : Prop :=
  ∃ e, e.kind = .endOfInput ∧ tokenise source line = .ok (d.yield ++ [e])

/-- A source has at most one derivation. -/
lemma ParseTree.OfSource.unique {d d' : ParseTree (.phrase .formula)} {source : Text}
    {line : UInt32} (h : d.OfSource source line) (h' : d'.OfSource source line) : d = d' := by
  obtain ⟨e, -, he⟩ := h
  obtain ⟨e', -, he'⟩ := h'
  exact yield_injective (List.append_inj_left' (Except.ok.inj (he.symm.trans he')) rfl)

/-- Reading a source gives the formula of its derivation, and nothing else. -/
theorem Formula.read_eq_ok_iff {source : Text} {line : UInt32} {φ : Formula} :
    Formula.read source line = .ok φ ↔
      ∃ d : ParseTree (.phrase .formula), d.OfSource source line ∧ d.toFormula = φ := by
  have hproper : (Lexer.start source line).stream.Proper := Lexer.proper_stream _
  rw [Formula.read, Parser.readWhole_eq_ok_iff]
  refine hproper.read_iff.trans ⟨?_, ?_⟩
  · rintro ⟨ts, e, htokens, haccept⟩
    obtain ⟨us, e', heq, he'⟩ := hproper.exists_eq_concat htokens
    have he : e.kind = .endOfInput := by
      obtain ⟨-, hlast⟩ := List.append_inj' heq rfl
      rw [(List.cons.inj hlast).1]
      exact he'
    obtain ⟨d, rfl, rfl⟩ := (ReadState.accept_iff_derives he none).mp haccept
    exact ⟨d, ⟨e, he, htokens⟩, rfl⟩
  · rintro ⟨d, ⟨e, he, htokens⟩, rfl⟩
    exact ⟨d.yield, e, htokens, (ReadState.accept_iff_derives he none).mpr ⟨d, rfl, rfl⟩⟩

namespace FormulaStore

/-- Parsing succeeds on exactly the sources that have a derivation.  A source has only one, and what
the store gets is the formula of it.  All other sources are refused with an error. -/
theorem parse_spec {s : FormulaStore} (hs : s.Reachable) (source : Text) (line : UInt32) :
    ((∃ id, (s.parse source line).1 = .ok id) ↔
      ∃ d : ParseTree (.phrase .formula), d.OfSource source line) ∧
    ((∃ e, (s.parse source line).1 = .error e) ↔
      ∀ d : ParseTree (.phrase .formula), ¬d.OfSource source line) ∧
    ∀ id, (s.parse source line).1 = .ok id →
      ∃ d : ParseTree (.phrase .formula), d.OfSource source line ∧
        (∀ d' : ParseTree (.phrase .formula), d'.OfSource source line → d' = d) ∧
        (s.parse source line).2.tree? id = some d.toFormula := by
  unfold parse
  cases hread : Formula.read source line with
  | error f =>
    have hnone : ∀ d : ParseTree (.phrase .formula), ¬d.OfSource source line := by
      intro d hd
      have hok := Formula.read_eq_ok_iff.mpr ⟨d, hd, rfl⟩
      exact absurd (hread.symm.trans hok) (by simp)
    simp [addRead, hnone]
  | ok φ =>
    obtain ⟨d, hd, rfl⟩ := Formula.read_eq_ok_iff.mp hread
    obtain ⟨-, -, hden⟩ := hs.exact.add_spec d.toFormula
    refine ⟨⟨fun _ => ⟨d, hd⟩, fun _ => ⟨_, rfl⟩⟩, ⟨?_, fun hnone => absurd hd (hnone d)⟩, ?_⟩
    · rintro ⟨e, ⟨⟩⟩
    · rintro id ⟨⟩
      exact ⟨d, hd, fun d' hd' => hd'.unique hd, tree?_eq_some_iff.mpr hden⟩

/-- Chains of `=>` group to the right, prefix operators take the next operand only, and the
parentheses leave no trace. -/
theorem parse_spec_of_chain :
    let source := ascii "p -> q -> ~[a] r & (TOP | <>_b p) => 0 => p"
    ((∃ id, (initial.parse source 1).1 = .ok id) ↔
        ∃ d : ParseTree (.phrase .formula), d.OfSource source 1) ∧
      ((∃ e, (initial.parse source 1).1 = .error e) ↔
        ∀ d : ParseTree (.phrase .formula), ¬d.OfSource source 1) ∧
      (∀ id, (initial.parse source 1).1 = .ok id →
        ∃ d : ParseTree (.phrase .formula), d.OfSource source 1 ∧
          (∀ d' : ParseTree (.phrase .formula), d'.OfSource source 1 → d' = d) ∧
          (initial.parse source 1).2.tree? id = some d.toFormula) ∧
      (initial.parse source 1).1.toOption.bind (initial.parse source 1).2.tree? =
        some (.binary .implies (.binary .implies (.atom (ascii "p")) (.atom (ascii "q")))
          (.binary .resImplies
            (.binary .and (.neg (.modal .box (ascii "a") (.atom (ascii "r"))))
              (.binary .or .top (.modal .diamond (ascii "b") (.atom (ascii "p")))))
            (.binary .resImplies .bot (.atom (ascii "p"))))) := by
  intro source
  obtain ⟨hok, herror, htree⟩ := parse_spec .initial source 1
  refine ⟨hok, herror, htree, ?_⟩
  decide +kernel

end FormulaStore

end TwistLogic
