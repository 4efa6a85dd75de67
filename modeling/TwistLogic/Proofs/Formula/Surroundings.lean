import Mathlib.Data.List.Forall2
import Mathlib.Tactic.Common
import TwistLogic.Proofs.Formula.LexemeEnds

/-!
# What stands around a formula

White space and comments in front of a source and behind it do not change what is read: the tokens
are the same, the formula is the same, and a reading that fails has completed the same formulas.

Two walks go side by side, one over a source and one over the same source with its surroundings.
Their tokens agree up to the places (`Token.Alike`), and a place of the source is that of the longer
one without what stands in front, but never behind the end of the source (`SourcePos.Clips`).  The
latter matters for the end of the input and for a label that is not closed, which are found behind
the surroundings.

The reading has no use for the places of tokens, so it keeps this relation step by step
(`ReadState.Alike.move`), and `Formula.read_alike` is what follows for whole sources.
-/

namespace TwistLogic

/-! ## Places and tokens -/

/-- A place of a source of length `stop`, and the place that corresponds to it in a longer source,
in which `d` bytes stand in front.  Places behind the end of the shorter source are moved to it. -/
structure SourcePos.Clips (d stop : Nat) (p p' : SourcePos) : Prop where
  le : d ≤ p'.offset
  offset_eq : p.offset = min (p'.offset - d) stop

/-- Two tokens that agree up to their places. -/
structure Token.Alike (d stop : Nat) (t t' : Token) : Prop where
  kind_eq : t.kind = t'.kind
  text_eq : t.text = t'.text
  pos : t.pos.Clips d stop t'.pos
  stop : t.stop.Clips d stop t'.stop

lemma SourcePos.offset_advance (p : SourcePos) (s : Text) :
    (p.advance s).offset = p.offset + s.length := by
  induction s generalizing p with
  | nil => rfl
  | cons c s ih =>
    have hstep : (p.step c).offset = p.offset + 1 := by
      unfold step
      split <;> rfl
    rw [List.length_cons, Nat.add_comm s.length, ← Nat.add_assoc, ← hstep, ← ih]
    rfl

namespace Lexer

/-- A walk `l` over a source that ends at the offset `stop`, and a walk `l'` at the same place of
the source with its surroundings: `d` bytes stand in front of it and `post` behind it. -/
structure Within (d stop : Nat) (post : Text) (l l' : Lexer) : Prop where
  rest_eq : l'.rest = l.rest ++ post
  offset_eq : l'.pos.offset = l.pos.offset + d
  stop_eq : l.pos.offset + l.rest.length = stop
  ahead_eq : l.ahead = none
  ahead_eq' : l'.ahead = none
  /-- A comment at the end of the source would go on with what stands behind. -/
  no_comment : byte '#' ∉ l.rest

/-- The next steps of two walks have the same outcome. -/
inductive NextAlike (d stop : Nat) (post : Text) :
    Except SyntaxError Token × Lexer → Except SyntaxError Token × Lexer → Prop
  | token {t t' : Token} {l l' : Lexer} : t.kind ≠ .endOfInput → t.Alike d stop t' →
    l.Within d stop post l' → NextAlike d stop post (.ok t, l) (.ok t', l')
  | ends {t t' : Token} {l l' : Lexer} : t.kind = .endOfInput → t.Alike d stop t' →
    NextAlike d stop post (.ok t, l) (.ok t', l')
  | error {e e' : SyntaxError} {l l' : Lexer} : e.pos.Clips d stop e'.pos →
    NextAlike d stop post (.error e, l) (.error e', l')

variable {d stop : Nat} {post : Text} {l l' : Lexer}

lemma offset_skip (l : Lexer) (n : Nat) :
    (l.skip n).pos.offset = l.pos.offset + min n l.rest.length := by
  rw [skip, SourcePos.offset_advance, List.length_take]

lemma skip_skip (l : Lexer) (m n : Nat) : (l.skip m).skip n = l.skip (m + n) := by
  simp only [skip, List.drop_drop, ← SourcePos.advance_append, ← List.take_add]

namespace Within

lemma clips (h : l.Within d stop post l') : l.pos.Clips d stop l'.pos := by
  have hoffset := h.offset_eq
  have hstop := h.stop_eq
  constructor <;> omega

/-- Side by side, two walks skip what stands in both sources. -/
lemma skip (h : l.Within d stop post l') {n : Nat} (hn : n ≤ l.rest.length) :
    (l.skip n).Within d stop post (l'.skip n) := by
  have hlength : l'.rest.length = l.rest.length + post.length := by
    rw [h.rest_eq, List.length_append]
  have hoffset := h.offset_eq
  have hstop := h.stop_eq
  constructor
  case rest_eq => simp only [Lexer.skip, h.rest_eq, List.drop_append_of_le_length hn]
  case offset_eq =>
    rw [offset_skip, offset_skip]
    omega
  case stop_eq =>
    rw [offset_skip, Lexer.skip, List.length_drop]
    omega
  case ahead_eq => rfl
  case ahead_eq' => rfl
  case no_comment => exact fun hmem => h.no_comment (List.mem_of_mem_drop hmem)

/-- At the front of a stretch, both walks find the same. -/
lemma take (h : l.Within d stop post l') (hpost : post.EndsLexeme) {c : UInt8} {cs : Text}
    (hrest : l.rest = c :: cs) : NextAlike d stop post l.take l'.take := by
  have hrest' : l'.rest = c :: (cs ++ post) := by rw [h.rest_eq, hrest, List.cons_append]
  have hlength : l.rest.length = cs.length + 1 := by rw [hrest, List.length_cons]
  have hsound : (scan c cs).Sound (c :: cs) := sound_scan c cs
  have hscan := alike_scan hpost c cs
  unfold Lexer.take
  rw [hrest, hrest']
  dsimp only
  generalize scan c cs = r at hscan hsound ⊢
  generalize scan c (cs ++ post) = r' at hscan ⊢
  cases hscan with
  | token kind text more =>
    have hmore : more < (c :: cs).length := hsound.fits
    have hskip := h.skip (n := more + 1) (by rw [hrest]; exact hmore)
    exact .token hsound.kind_ne ⟨rfl, rfl, h.clips, hskip.clips⟩ hskip
  | @fault f text text' shift shift' _ _ hshift =>
    have hoffset := h.offset_eq
    have hstop := h.stop_eq
    have hlength' : l'.rest.length = l.rest.length + post.length := by
      rw [h.rest_eq, List.length_append]
    refine .error ⟨?_, ?_⟩
    · rw [offset_skip]
      omega
    · rw [offset_skip, offset_skip]
      omega

/-- What the walk over the source skips is white space. -/
lemma isGap (h : l.Within d stop post l') :
    Text.IsGap (l.rest.take (gapLength false l.rest)) :=
  (Text.filler_take_gapLength l.rest).1.isGap fun hmem => h.no_comment (List.mem_of_mem_take hmem)

/-- What both walks skip. -/
lemma gapLength_eq (h : l.Within d stop post l') :
    gapLength false l'.rest = gapLength false l.rest +
      gapLength false (l.rest.drop (gapLength false l.rest) ++ post) := by
  have hrest : l'.rest = l.rest.take (gapLength false l.rest) ++
      (l.rest.drop (gapLength false l.rest) ++ post) := by
    rw [← List.append_assoc, List.take_append_drop, h.rest_eq]
  rw [hrest, (h.isGap.filler _).gapLength_append, List.length_take,
    Nat.min_eq_left (Text.gapLength_le false l.rest)]

/-- Two walks find the same token, if one is left in the source. -/
lemma next_of_cons (h : l.Within d stop post l') (hpost : post.EndsLexeme) {c : UInt8} {cs : Text}
    (hrest : l.rest.drop (gapLength false l.rest) = c :: cs) :
    NextAlike d stop post l.next l'.next := by
  have hzero : gapLength false (c :: (cs ++ post)) = 0 := by
    have hdrop := Text.gapLength_drop false l.rest
    rw [hrest] at hdrop
    rwa [Text.gapLength_cons_eq_zero_iff] at hdrop ⊢
  have hgap := h.gapLength_eq
  rw [hrest, List.cons_append, hzero, Nat.add_zero] at hgap
  rw [Lexer.next, Lexer.next, h.ahead_eq, h.ahead_eq', hgap]
  exact (h.skip (Text.gapLength_le false l.rest)).take hpost hrest

/-- Two walks reach their ends, if nothing but a filler stands behind the source. -/
lemma next_of_nil (h : l.Within d stop post l') (hpost : Text.Filler [] post)
    (hrest : l.rest.drop (gapLength false l.rest) = []) : NextAlike d stop post l.next l'.next := by
  have hlength : gapLength false l.rest = l.rest.length :=
    (Text.gapLength_le false l.rest).antisymm (List.drop_eq_nil_iff.mp hrest)
  have hmargin : gapLength false post = post.length := by
    simpa [gapLength] using hpost.gapLength_append
  have hgap := h.gapLength_eq
  rw [hrest, List.nil_append, hmargin, hlength] at hgap
  have hlength' : l'.rest.length = l.rest.length + post.length := by
    rw [h.rest_eq, List.length_append]
  have hends : ∀ {l : Lexer} {n : Nat}, n = l.rest.length →
      (l.skip n).take = (.ok (.endOfInput (l.skip n).pos), l.skip n) := by
    rintro l n rfl
    rw [Lexer.take, Lexer.skip, List.drop_length]
  have hclips : (l.skip l.rest.length).pos.Clips d stop (l'.skip l'.rest.length).pos := by
    have hoffset := h.offset_eq
    have hstop := h.stop_eq
    constructor
    · rw [offset_skip]
      omega
    · rw [offset_skip, offset_skip]
      omega
  rw [Lexer.next, Lexer.next, h.ahead_eq, h.ahead_eq', hgap, hlength, ← hlength']
  dsimp only
  rw [hends rfl, hends rfl]
  exact .ends rfl ⟨rfl, rfl, hclips, hclips⟩

/-- Two walks side by side take the same step, if nothing but a filler stands behind. -/
theorem next (h : l.Within d stop post l') (hpost : Text.Filler [] post) :
    NextAlike d stop post l.next l'.next := by
  rcases hrest : l.rest.drop (gapLength false l.rest) with _ | ⟨c, cs⟩
  · exact h.next_of_nil hpost hrest
  · exact h.next_of_cons hpost.endsLexeme hrest

end Within

end Lexer

/-! ## Readings -/

/-- Two waiting operators that agree up to the places of parentheses. -/
inductive Frame.Alike (d stop : Nat) : Frame → Frame → Prop
  | neg : Alike d stop .neg .neg
  | modal (m : Modality) (action : Text) : Alike d stop (.modal m action) (.modal m action)
  | binary (c : Connective) (φ : Formula) : Alike d stop (.binary c φ) (.binary c φ)
  | paren {t t' : Token} : t.Alike d stop t' → Alike d stop (.paren t) (.paren t')

/-- Two readings that agree up to the places of tokens. -/
structure ReadState.Alike (d stop : Nat) (st st' : ReadState) : Prop where
  stack : List.Forall₂ (Frame.Alike d stop) st.stack st'.stack
  operand : st.operand = st'.operand
  last : Option.Rel (Token.Alike d stop) st.last st'.last

/-- Two effects of a token that agree up to places. -/
inductive Move.Alike (d stop : Nat) : Move → Move → Prop
  | shift {st st' : ReadState} : st.Alike d stop st' → Alike d stop (.shift st) (.shift st')
  | accept (φ : Formula) : Alike d stop (.accept φ) (.accept φ)
  | refuse {e e' : SyntaxError} {st st' : ReadState} : e.pos.Clips d stop e'.pos →
    st.Alike d stop st' → Alike d stop (.refuse e st) (.refuse e' st')
  | spoil {e e' : SyntaxError} {st st' : ReadState} : e.pos.Clips d stop e'.pos →
    st.Alike d stop st' → Alike d stop (.spoil e st) (.spoil e' st')

section Join

variable {d stop : Nat} {fs fs' : List Frame}

lemma alike_tighten (φ : Formula) (h : List.Forall₂ (Frame.Alike d stop) fs fs') :
    (tighten φ fs).1 = (tighten φ fs').1 ∧
      List.Forall₂ (Frame.Alike d stop) (tighten φ fs).2 (tighten φ fs').2 := by
  induction h generalizing φ with
  | nil => exact ⟨rfl, .nil⟩
  | cons hf hfs ih =>
    cases hf with
    | neg => exact ih _
    | modal m action => exact ih _
    | paren ht => exact ⟨rfl, .cons (.paren ht) hfs⟩
    | binary c ψ =>
      cases c with
      | and => exact ih _
      | or | resImplies | implies | iff => exact ⟨rfl, .cons (.binary _ _) hfs⟩

lemma alike_reduceWhile (p : Connective → Bool) (φ : Formula)
    (h : List.Forall₂ (Frame.Alike d stop) fs fs') :
    (reduceWhile p φ fs).1 = (reduceWhile p φ fs').1 ∧
      List.Forall₂ (Frame.Alike d stop) (reduceWhile p φ fs).2 (reduceWhile p φ fs').2 := by
  induction h generalizing φ with
  | nil => exact ⟨rfl, .nil⟩
  | cons hf hfs ih =>
    cases hf with
    | neg => exact ⟨rfl, .cons .neg hfs⟩
    | modal m action => exact ⟨rfl, .cons (.modal m action) hfs⟩
    | paren ht => exact ⟨rfl, .cons (.paren ht) hfs⟩
    | binary c ψ =>
      rw [reduceWhile, reduceWhile]
      split
      · exact ih _
      · exact ⟨rfl, .cons (.binary c ψ) hfs⟩

/-- The left operands that wait are the same. -/
lemma filterMap_left?_eq (h : List.Forall₂ (Frame.Alike d stop) fs fs') :
    fs.filterMap Frame.left? = fs'.filterMap Frame.left? := by
  induction h with
  | nil => rfl
  | cons hf _ ih =>
    cases hf with
    | neg | modal | paren | binary => simp only [List.filterMap_cons, Frame.left?, ih]

end Join

namespace ReadState.Alike

variable {d stop : Nat} {st st' : ReadState} {t t' : Token}

lemma completed_eq (h : st.Alike d stop st') : st.completed = st'.completed := by
  rw [completed, completed, List.filterMap_reverse, List.filterMap_reverse,
    filterMap_left?_eq h.stack, h.operand]

lemma opened (h : st.Alike d stop st') {f f' : Frame} (hf : f.Alike d stop f')
    (ht : t.Alike d stop t') : (st.opened f t).Alike d stop (st'.opened f' t') :=
  ⟨.cons hf h.stack, rfl, .some ht⟩

lemma closed (φ : Formula) {fs fs' : List Frame} (h : List.Forall₂ (Frame.Alike d stop) fs fs')
    (ht : t.Alike d stop t') :
    (ReadState.closed φ fs t).Alike d stop (ReadState.closed φ fs' t') := by
  obtain ⟨hφ, hfs⟩ := alike_tighten φ h
  exact ⟨hfs, congrArg some hφ, .some ht⟩

/-- The input ends at places that correspond. -/
lemma endError (h : st.Alike d stop st') (ht : t.Alike d stop t') :
    (ReadState.endError st.last t).pos.Clips d stop (ReadState.endError st'.last t').pos := by
  have hlast := h.last
  generalize st.last = last at hlast ⊢
  generalize st'.last = last' at hlast ⊢
  cases hlast with
  | none => exact ht.pos
  | some hl => exact hl.stop

lemma expectOperand (h : st.Alike d stop st') (ht : t.Alike d stop t') :
    (st.expectOperand t).Alike d stop (st'.expectOperand t') := by
  unfold ReadState.expectOperand
  rw [ht.kind_eq, ht.text_eq]
  split
  · exact .shift (closed .top h.stack ht)
  · exact .shift (closed .bot h.stack ht)
  · exact .shift (closed (.atom t'.text) h.stack ht)
  · exact .shift (h.opened .neg ht)
  · exact .shift (h.opened (.modal _ _) ht)
  · exact .shift (h.opened (.paren ht) ht)
  · exact .refuse (h.endError ht) h
  · exact .spoil ht.pos ⟨h.stack, h.operand, .some ht⟩

lemma parenError {p p' : Token} (hp : p.Alike d stop p') (ht : t.Alike d stop t') :
    (ReadState.parenError p t).pos.Clips d stop (ReadState.parenError p' t').pos := by
  unfold ReadState.parenError
  rw [ht.kind_eq]
  split
  · exact hp.pos
  · exact ht.pos

lemma afterOperand (h : st.Alike d stop st') (φ : Formula) (ht : t.Alike d stop t') :
    (st.afterOperand φ t).Alike d stop (st'.afterOperand φ t') := by
  unfold ReadState.afterOperand
  rw [ht.kind_eq]
  split
  next c _ =>
    obtain ⟨hψ, hfs⟩ := alike_reduceWhile (·.takesBefore c) φ h.stack
    refine .shift ⟨.cons ?_ hfs, rfl, .some ht⟩
    rw [hψ]
    exact .binary c _
  next =>
    obtain ⟨hψ, hfs⟩ := alike_reduceWhile (fun _ => true) φ h.stack
    change (reduceAll φ st.stack).1 = (reduceAll φ st'.stack).1 at hψ
    change List.Forall₂ _ (reduceAll φ st.stack).2 (reduceAll φ st'.stack).2 at hfs
    generalize reduceAll φ st.stack = r at hψ hfs ⊢
    generalize reduceAll φ st'.stack = r' at hψ hfs ⊢
    obtain ⟨ψ, fs⟩ := r
    obtain ⟨ψ', fs'⟩ := r'
    obtain rfl : ψ = ψ' := hψ
    dsimp only at hfs ⊢
    cases hfs with
    | nil => exact .accept ψ
    | cons hf hfs =>
      cases hf with
      | neg | modal | binary => exact .accept ψ
      | paren hp =>
        dsimp only
        split
        · exact .shift (closed ψ hfs ht)
        · exact .refuse (parenError hp ht) ⟨.cons (.paren hp) hfs, rfl, h.last⟩

/-- A token does the same to both readings. -/
theorem move (h : st.Alike d stop st') (ht : t.Alike d stop t') :
    (st.move t).Alike d stop (st'.move t') := by
  unfold ReadState.move
  rw [h.operand]
  split
  · exact h.expectOperand ht
  · exact h.afterOperand _ ht

end ReadState.Alike

/-! ## Streams -/

/-- Two streams with the same tokens up to places, which end in the same way. -/
inductive TokenStream.Alike (d stop : Nat) : TokenStream → TokenStream → Prop
  | more {t t' : Token} {behind behind' : Lexer} {σ σ' : TokenStream} : t.Alike d stop t' →
    Alike d stop σ σ' → Alike d stop (.more t behind σ) (.more t' behind' σ')
  | done {t t' : Token} {behind behind' : Lexer} : t.Alike d stop t' →
    Alike d stop (.done t behind) (.done t' behind')
  | failed {e e' : SyntaxError} {behind behind' : Lexer} : e.pos.Clips d stop e'.pos →
    Alike d stop (.failed e behind) (.failed e' behind')

/-- Two walks side by side deliver the same tokens. -/
lemma Lexer.Within.stream {d stop : Nat} {post : Text} (hpost : Text.Filler [] post) {l l' : Lexer}
    (h : l.Within d stop post l') : l.stream.Alike d stop l'.stream := by
  fun_induction Lexer.stream l generalizing l' with
  | case1 l e l₁ hnext =>
    have hstep := h.next hpost
    rw [hnext] at hstep
    generalize hnext' : l'.next = r' at hstep
    cases hstep with
    | error he =>
      rw [Lexer.stream_of_next_error hnext']
      exact .failed he
  | case2 l t l₁ hnext hkind =>
    have hstep := h.next hpost
    rw [hnext] at hstep
    generalize hnext' : l'.next = r' at hstep
    cases hstep with
    | token hne => exact absurd hkind hne
    | ends _ ht =>
      rw [Lexer.stream_of_next hnext', if_pos (ht.kind_eq ▸ hkind)]
      exact .done ht
  | case3 l t l₁ hnext hkind _ ih =>
    have hstep := h.next hpost
    rw [hnext] at hstep
    generalize hnext' : l'.next = r' at hstep
    cases hstep with
    | token _ ht hl =>
      rw [Lexer.stream_of_next hnext', if_neg (ht.kind_eq ▸ hkind)]
      exact .more ht (ih hl)
    | ends hend => exact absurd hend hkind

/-- Two outcomes of readings: the same formula, or errors at places that correspond behind the same
complete formulas. -/
inductive ReadAlike (d stop : Nat) :
    Except ReadFailure Formula → Except ReadFailure Formula → Prop
  | ok (φ : Formula) : ReadAlike d stop (.ok φ) (.ok φ)
  | error {f f' : ReadFailure} : f.completed = f'.completed →
    f.error.pos.Clips d stop f'.error.pos → ReadAlike d stop (.error f) (.error f')

/-- Two parsers behind readings with the same outcome.  If a formula was read, the tokens shown
behind it agree up to their places. -/
inductive ParseAlike (d stop : Nat) :
    Except ReadFailure Formula × Parser → Except ReadFailure Formula × Parser → Prop
  | ok (φ : Formula) {p p' : Parser} {t t' : Token} : p.lexer.ahead = some t →
    p'.lexer.ahead = some t' → t.Alike d stop t' → ParseAlike d stop (.ok φ, p) (.ok φ, p')
  | error {f f' : ReadFailure} {p p' : Parser} : f.completed = f'.completed →
    f.error.pos.Clips d stop f'.error.pos → ParseAlike d stop (.error f, p) (.error f', p')

section Read

variable {d stop : Nat} {σ σ' : TokenStream} {st st' : ReadState}

/-- Two readings that fail alike. -/
lemma ReadState.Alike.fail (h : st.Alike d stop st') {e e' : SyntaxError}
    (he : e.pos.Clips d stop e'.pos) (l l' : Lexer) :
    ParseAlike d stop (st.fail e l) (st'.fail e' l') := .error h.completed_eq he

/-- Reading streams with the same tokens has the same outcome. -/
theorem TokenStream.Alike.read (hσ : σ.Alike d stop σ') (hst : st.Alike d stop st') :
    ParseAlike d stop (σ.read st) (σ'.read st') := by
  induction hσ generalizing st st' with
  | @more t t' behind behind' σ σ' ht _ ih =>
    have hmove := hst.move ht
    rw [TokenStream.read, TokenStream.read]
    generalize st.move t = m at hmove ⊢
    generalize st'.move t' = m' at hmove ⊢
    cases hmove with
    | shift h => exact ih h
    | accept φ => exact .ok φ rfl rfl ht
    | refuse he h => exact h.fail he _ _
    | spoil he h => exact h.fail he _ _
  | @done t t' behind behind' ht =>
    have hmove := hst.move ht
    rw [TokenStream.read, TokenStream.read]
    generalize st.move t = m at hmove ⊢
    generalize st'.move t' = m' at hmove ⊢
    cases hmove with
    | shift h => exact h.fail (h.endError ht) _ _
    | accept φ => exact .ok φ rfl rfl ht
    | refuse he h => exact h.fail he _ _
    | spoil he h => exact h.fail he _ _
  | failed he => exact hst.fail he _ _

/-- What may follow a whole formula depends on the token, but for its place. -/
lemma Token.Alike.trailingFault?_eq {t t' : Token} (h : t.Alike d stop t') :
    Parser.trailingFault? t = Parser.trailingFault? t' := by
  unfold Parser.trailingFault?
  rw [h.kind_eq, h.text_eq]

/-- Two parsers in front of the same tokens read the same formula as a whole. -/
lemma readWhole_alike {p p' : Parser} (h : ParseAlike d stop p.readFormula p'.readFormula) :
    ReadAlike d stop p.readWhole.1 p'.readWhole.1 := by
  unfold Parser.readWhole
  generalize p.readFormula = r at h ⊢
  generalize p'.readFormula = r' at h ⊢
  cases h with
  | error hcompleted he => exact .error hcompleted he
  | @ok φ q q' t t' hahead hahead' ht =>
    simp only [Lexer.peek, Lexer.next, hahead, hahead', ht.trailingFault?_eq]
    cases Parser.trailingFault? t' with
    | none => exact .ok φ
    | some fault => exact .error rfl ht.pos

/-- A walk over a source with something in front of it comes to the front of the source. -/
lemma Lexer.within_start {content : Text} (hcontent : byte '#' ∉ content) (pre post : Text)
    (line line' : UInt32) :
    (Lexer.start content line).Within pre.length content.length post
      ((Lexer.start (pre ++ (content ++ post)) line').skip pre.length) where
  rest_eq := List.drop_left
  offset_eq := by
    rw [Lexer.offset_skip]
    simp [Lexer.start, SourcePos.start]
  stop_eq := by simp [Lexer.start, SourcePos.start]
  ahead_eq := rfl
  ahead_eq' := rfl
  no_comment := hcontent

/-- What stands in front is skipped with the first step, if it is a filler. -/
lemma Lexer.next_start_append {pre rest : Text} (hpre : Text.Filler rest pre) (line : UInt32) :
    (Lexer.start (pre ++ rest) line).next =
      ((Lexer.start (pre ++ rest) line).skip pre.length).next := by
  have hrest : ((Lexer.start (pre ++ rest) line).skip pre.length).rest = rest := List.drop_left
  have hgap : gapLength false (Lexer.start (pre ++ rest) line).rest =
      pre.length + gapLength false rest := hpre.gapLength_append
  rw [Lexer.next, Lexer.next, hrest, Lexer.skip_skip, ← hgap]
  rfl

/-- What stands around a source does not change what is read, if it is white space and comments and
the source has no comment of its own.  An error stands at the place that corresponds. -/
theorem Formula.read_alike {pre content post : Text} (hpre : Text.Filler (content ++ post) pre)
    (hpost : Text.Filler [] post) (hcontent : byte '#' ∉ content) (line line' : UInt32) :
    ReadAlike pre.length content.length (Formula.read content line)
      (Formula.read (pre ++ (content ++ post)) line') := by
  refine readWhole_alike ?_
  rw [Parser.readFormula, Parser.readFormula, Parser.start, Parser.start,
    Lexer.stream_congr (Lexer.next_start_append hpre line')]
  exact ((Lexer.within_start hcontent pre post line line').stream hpost).read ⟨.nil, rfl, .none⟩

end Read

end TwistLogic
