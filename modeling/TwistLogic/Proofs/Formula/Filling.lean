import TwistLogic.Proofs.Formula.Material
import TwistLogic.Proofs.Formula.Printing

/-!
# Stores that are filled by reading

The names in a source become atoms and actions as they stand in its tokens, so whatever a reading
completes, also one that fails, can be printed and read back.  `ReadState.Printable` is the
invariant: every token with allowed names keeps it (`ReadState.Printable.move`), and so does reading
a whole stream (`TokenStream.printable_read`).

A store that is filled by readings and by eliminating material connectives therefore holds printable
formulas only (`FormulaStore.Filled.made`).
-/

namespace TwistLogic

/-! ## Unfinished operators -/

/-- The formula that a waiting operator holds can be printed, and so can its action. -/
def Frame.Printable : Frame → Prop
  | .neg => True
  | .modal _ action => action.IsLabel
  | .binary _ φ => φ.Uses NodeKind.Printable
  | .paren _ => True

section Join

variable {φ : Formula} {fs : List Frame}

/-- Prefix operators and `&` join printable parts to a printable formula. -/
lemma printable_tighten (hφ : φ.Uses NodeKind.Printable) (hfs : ∀ f ∈ fs, f.Printable) :
    (tighten φ fs).1.Uses NodeKind.Printable ∧ ∀ f ∈ (tighten φ fs).2, f.Printable := by
  fun_induction tighten φ fs with
  | case1 φ fs ih =>
    obtain ⟨-, hfs⟩ := List.forall_mem_cons.mp hfs
    exact ih (Formula.uses_neg.mpr ⟨trivial, hφ⟩) hfs
  | case2 φ m action fs ih =>
    obtain ⟨ha, hfs⟩ := List.forall_mem_cons.mp hfs
    exact ih (Formula.uses_modal.mpr ⟨ha, hφ⟩) hfs
  | case3 φ ψ fs ih =>
    obtain ⟨hψ, hfs⟩ := List.forall_mem_cons.mp hfs
    exact ih (Formula.uses_binary.mpr ⟨trivial, hψ, hφ⟩) hfs
  | case4 φ fs => exact ⟨hφ, hfs⟩

/-- Connectives join printable operands to a printable formula. -/
lemma printable_reduceWhile (p : Connective → Bool) (hφ : φ.Uses NodeKind.Printable)
    (hfs : ∀ f ∈ fs, f.Printable) :
    (reduceWhile p φ fs).1.Uses NodeKind.Printable ∧
      ∀ f ∈ (reduceWhile p φ fs).2, f.Printable := by
  fun_induction reduceWhile p φ fs with
  | case1 φ c ψ fs hc ih =>
    obtain ⟨hψ, hfs⟩ := List.forall_mem_cons.mp hfs
    exact ih (Formula.uses_binary.mpr ⟨trivial, hψ, hφ⟩) hfs
  | case2 | case3 => exact ⟨hφ, hfs⟩

end Join

/-! ## Readings -/

/-- All that a reading has completed can be printed. -/
structure ReadState.Printable (st : ReadState) : Prop where
  stack : ∀ f ∈ st.stack, f.Printable
  operand : ∀ φ, st.operand = some φ → φ.Uses NodeKind.Printable

/-- A token leaves a reading that has completed printable formulas only. -/
def Move.Printable : Move → Prop
  | .shift st => st.Printable
  | .accept φ => φ.Uses NodeKind.Printable
  | .refuse _ st => st.Printable
  | .spoil _ st => st.Printable

namespace ReadState

variable {st : ReadState} {t : Token} {φ : Formula} {fs : List Frame}

lemma printable_start (last : Option Token) : (start last).Printable where
  stack := by simp [start]
  operand := by simp [start]

/-- An operator that is opened has no operand yet. -/
lemma Printable.opened (h : st.Printable) {f : Frame} (hf : f.Printable) (t : Token) :
    (st.opened f t).Printable where
  stack := List.forall_mem_cons.mpr ⟨hf, h.stack⟩
  operand := by simp [ReadState.opened]

lemma printable_closed (hφ : φ.Uses NodeKind.Printable) (hfs : ∀ f ∈ fs, f.Printable) (t : Token) :
    (closed φ fs t).Printable := by
  obtain ⟨hφ', hfs'⟩ := printable_tighten hφ hfs
  refine ⟨hfs', ?_⟩
  rintro ψ ⟨⟩
  exact hφ'

lemma Printable.expectOperand (h : st.Printable) (ht : t.NamesAllowed) :
    (st.expectOperand t).Printable := by
  unfold Token.NamesAllowed at ht
  unfold ReadState.expectOperand
  split
  next => exact printable_closed (Formula.uses_top.mpr trivial) h.stack t
  next => exact printable_closed (Formula.uses_bot.mpr trivial) h.stack t
  next hk =>
    rw [hk] at ht
    exact printable_closed (Formula.uses_atom.mpr ht) h.stack t
  next => exact h.opened (f := .neg) trivial t
  next m action hk =>
    rw [hk] at ht
    exact h.opened (f := .modal m action) ht t
  next => exact h.opened (f := .paren t) trivial t
  next => exact h
  next => exact ⟨h.stack, h.operand⟩

lemma Printable.afterOperand (h : st.Printable) (hφ : φ.Uses NodeKind.Printable) (t : Token) :
    (st.afterOperand φ t).Printable := by
  unfold ReadState.afterOperand
  split
  next c _ =>
    obtain ⟨hψ, hfs⟩ := printable_reduceWhile (·.takesBefore c) hφ h.stack
    exact ⟨List.forall_mem_cons.mpr ⟨hψ, hfs⟩, by simp⟩
  next =>
    obtain ⟨hψ, hfs⟩ := printable_reduceWhile (fun _ => true) hφ h.stack
    change (reduceAll φ st.stack).1.Uses NodeKind.Printable at hψ
    change ∀ f ∈ (reduceAll φ st.stack).2, f.Printable at hfs
    split
    next ψ p fs hred =>
      rw [hred] at hψ hfs
      obtain ⟨-, hfs'⟩ := List.forall_mem_cons.mp hfs
      split
      · exact printable_closed hψ hfs' t
      · refine ⟨hfs, ?_⟩
        rintro _ ⟨⟩
        exact hψ
    next ψ fs _ hred =>
      rw [hred] at hψ
      exact hψ

/-- Every token with allowed names keeps a reading printable. -/
theorem Printable.move (h : st.Printable) (ht : t.NamesAllowed) : (st.move t).Printable := by
  unfold ReadState.move
  cases hop : st.operand with
  | none => exact h.expectOperand ht
  | some φ => exact h.afterOperand (h.operand φ hop) t

/-- The formulas that a reading has completed can be printed. -/
lemma Printable.completed (h : st.Printable) :
    ∀ φ ∈ st.completed, φ.Uses NodeKind.Printable := by
  intro φ hφ
  rcases List.mem_append.mp hφ with hφ | hφ
  · obtain ⟨f, hf, hleft⟩ := List.mem_filterMap.mp hφ
    have hprintable := h.stack f (List.mem_reverse.mp hf)
    cases f with
    | binary c ψ =>
      cases hleft
      exact hprintable
    | neg | modal | paren => cases hleft
  · exact h.operand φ (by simpa using hφ)

end ReadState

/-! ## Streams -/

/-- The outcome of a reading consists of printable formulas. -/
def PrintableOutcome : Except ReadFailure Formula → Prop
  | .ok φ => φ.Uses NodeKind.Printable
  | .error f => ∀ φ ∈ f.completed, φ.Uses NodeKind.Printable

/-- All tokens of a stream have allowed names. -/
def TokenStream.NamesAllowed : TokenStream → Prop
  | .more t behind rest => t.NamesAllowed ∧ behind.NamesAllowed ∧ rest.NamesAllowed
  | .done t behind => t.NamesAllowed ∧ behind.NamesAllowed
  | .failed _ behind => behind.NamesAllowed

/-- A walk delivers tokens with allowed names. -/
lemma Lexer.NamesAllowed.stream {l : Lexer} (hl : l.NamesAllowed) : l.stream.NamesAllowed := by
  have hbehind : ∀ {l : Lexer} {r : Except SyntaxError Token} {l' : Lexer}, l.next = (r, l') →
      l'.NamesAllowed := by
    intro l r l' h
    have hnone := l.ahead_next
    rw [h] at hnone
    exact namesAllowed_of_ahead_eq_none hnone
  fun_induction Lexer.stream l with
  | case1 l e l' h => exact hbehind h
  | case2 l t l' h ht => exact ⟨hl.next (by rw [h]), hbehind h⟩
  | case3 l t l' h ht _ ih => exact ⟨hl.next (by rw [h]), hbehind h, ih (hbehind h)⟩

namespace TokenStream

lemma namesAllowed_shown {t : Token} (ht : t.NamesAllowed) (l : Lexer) :
    ({ l with ahead := some t } : Lexer).NamesAllowed := by
  rintro u ⟨⟩
  exact ht

/-- Reading a stream completes printable formulas only and shows tokens with allowed names only. -/
theorem printable_read {σ : TokenStream} (hσ : σ.NamesAllowed) {st : ReadState}
    (hst : st.Printable) :
    PrintableOutcome (σ.read st).1 ∧ (σ.read st).2.lexer.NamesAllowed := by
  induction σ generalizing st with
  | more t behind rest ih =>
    obtain ⟨ht, hbehind, hrest⟩ := hσ
    have hmove : (st.move t).Printable := hst.move ht
    rw [read]
    split
    next hm =>
      rw [hm] at hmove
      exact ih hrest hmove
    next hm =>
      rw [hm] at hmove
      exact ⟨hmove, namesAllowed_shown ht behind⟩
    next hm =>
      rw [hm] at hmove
      exact ⟨hmove.completed, namesAllowed_shown ht behind⟩
    next hm =>
      rw [hm] at hmove
      exact ⟨hmove.completed, hbehind⟩
  | done t behind =>
    obtain ⟨ht, hbehind⟩ := hσ
    have hmove : (st.move t).Printable := hst.move ht
    rw [read]
    split
    next hm =>
      rw [hm] at hmove
      exact ⟨hmove.completed, namesAllowed_shown ht behind⟩
    next hm =>
      rw [hm] at hmove
      exact ⟨hmove, namesAllowed_shown ht behind⟩
    next hm =>
      rw [hm] at hmove
      exact ⟨hmove.completed, namesAllowed_shown ht behind⟩
    next hm =>
      rw [hm] at hmove
      exact ⟨hmove.completed, hbehind⟩
  | failed e behind => exact ⟨hst.completed, hσ⟩

end TokenStream

/-! ## Parsers -/

namespace Parser

/-- The parsers that stand somewhere in a source, behind formulas that were read off it.  Each may
be a new one on the walk of the one before. -/
inductive Reached : Parser → Prop
  | start (source : Text) (line : UInt32) : Reached (.start source line)
  | renew {p : Parser} : Reached p → Reached { p with last := none }
  | readFormula {p : Parser} : Reached p → Reached p.readFormula.2

lemma namesAllowed_start (source : Text) (line : UInt32) :
    (start source line).lexer.NamesAllowed := Lexer.namesAllowed_of_ahead_eq_none rfl

/-- What a parser reads can be printed. -/
lemma printable_readFormula {p : Parser} (hp : p.lexer.NamesAllowed) :
    PrintableOutcome p.readFormula.1 ∧ p.readFormula.2.lexer.NamesAllowed :=
  TokenStream.printable_read hp.stream (ReadState.printable_start p.last)

lemma Reached.namesAllowed {p : Parser} (hp : p.Reached) : p.lexer.NamesAllowed := by
  induction hp with
  | start source line => exact namesAllowed_start source line
  | renew _ ih => exact ih
  | readFormula _ ih => exact (printable_readFormula ih).2

/-- What a parser reads as a whole can be printed. -/
lemma printable_readWhole {p : Parser} (hp : p.lexer.NamesAllowed) :
    PrintableOutcome p.readWhole.1 := by
  obtain ⟨houtcome, -⟩ := printable_readFormula hp
  unfold readWhole
  rcases hread : p.readFormula with ⟨f | φ, q⟩
  · rw [hread] at houtcome
    exact houtcome
  · rw [hread] at houtcome
    have hsingle : ∀ ψ ∈ [φ], ψ.Uses NodeKind.Printable := by
      intro ψ hψ
      obtain rfl := List.mem_singleton.mp hψ
      exact houtcome
    dsimp only
    split
    · exact hsingle
    · split
      · exact houtcome
      · exact hsingle

end Parser

/-! ## Filled stores -/

namespace FormulaStore

/-- The stores that are filled by reading sources, or formulas one after the other off a source, and
by eliminating material connectives.  Readings may fail. -/
inductive Filled : FormulaStore → Prop
  | initial : Filled .initial
  | parse {s : FormulaStore} (source : Text) (line : UInt32) :
    Filled s → Filled (s.parse source line).2
  | read {s : FormulaStore} {p : Parser} :
    Filled s → p.Reached → Filled (s.addRead p.readFormula.1).2
  | eliminate {s : FormulaStore} {id : FormulaId} :
    Filled s → id < s.size → Filled (s.eliminateMaterial id).2

/-- The outcome of a reading adds printable formulas only. -/
lemma Made.made_addRead {s : FormulaStore} (hs : s.Made NodeKind.Printable)
    {r : Except ReadFailure Formula} (hr : PrintableOutcome r) :
    (s.addRead r).2.Made NodeKind.Printable := by
  cases r with
  | ok φ => exact hs.grows (hs.exact.grows_add hr)
  | error f => exact hs.grows (hs.exact.grows_addAll hr)

/-- A store that is filled holds printable formulas only, each under one number. -/
theorem Filled.made {s : FormulaStore} (h : s.Filled) : s.Made NodeKind.Printable := by
  induction h with
  | initial => exact .refl
  | parse source line _ ih =>
    exact ih.made_addRead (Parser.printable_readWhole (Parser.namesAllowed_start source line))
  | read _ hp ih => exact ih.made_addRead (Parser.printable_readFormula hp.namesAllowed).1
  | eliminate _ hid ih =>
    obtain ⟨φ, hφ⟩ := ih.built.exists_denotes _ hid
    obtain ⟨e, s', hrun, hgrows, -⟩ := ih.exact.makes_eliminateMaterial (K := NodeKind.Printable)
      trivial trivial trivial hφ (ih.uses trivial trivial hφ)
    rw [hrun]
    exact ih.grows hgrows

end FormulaStore

end TwistLogic
