import TwistLogic.Proofs.Formula.Filling
import TwistLogic.Proofs.Formula.Reach
import TwistLogic.Proofs.Formula.Reading

/-!
# Printing and reading back

A printed formula is a primary phrase, and a primary phrase is complete as soon as it has been read:
nothing waits on the stack, so the formula ends before the next token, unless that is a connective.
Printed formulas that are listed with white space between them do not begin with a connective.  So
one reading takes exactly one of them, shows the first token of the next, and the next reading
begins with it (`Parser.Before.readFormula`).

The formula that is read has a number in the store already, and only that one, so adding it changes
nothing (`FormulaStore.Made.readEach_listing`).  `FormulaStore.readsBack_of_made` collects what
follows for the stores that hold printable formulas only.
-/

namespace TwistLogic

/-! ## Reading off a walk -/

namespace Lexer

variable {l l' : Lexer} {t : Token}

/-- A walk delivers the next token, and what the walk behind it delivers. -/
lemma stream_of_next (h : l.next = (.ok t, l')) :
    l.stream = if t.kind = .endOfInput then .done t l' else .more t l' l'.stream := by
  rw [stream]
  split
  next heq => cases h.symm.trans heq
  next heq =>
    cases h.symm.trans heq
    rfl

lemma stream_of_next_error {e : SyntaxError} (h : l.next = (.error e, l')) :
    l.stream = .failed e l' := by
  rw [stream]
  split
  next heq =>
    cases h.symm.trans heq
    rfl
  next heq => cases h.symm.trans heq

/-- What a walk delivers depends on its next step only. -/
lemma stream_congr (h : l.next = l'.next) : l.stream = l'.stream := by
  rcases hnext : l'.next with ⟨e | t, l''⟩
  · rw [stream_of_next_error (h.trans hnext), stream_of_next_error hnext]
  · rw [stream_of_next (h.trans hnext), stream_of_next hnext]

/-- A token that was shown is the next one again. -/
lemma next_shown (h : l.next = (.ok t, l')) :
    ({ l' with ahead := some t } : Lexer).next = l.next := by
  have hahead : l'.ahead = none := by
    have hnone := l.ahead_next
    rwa [h] at hnone
  rw [h, next, ← hahead]

/-- The reading goes on behind tokens that it takes. -/
lemma Yields.read_stream {ts : List Token} (h : l.Yields ts l') {st st' : ReadState}
    (hfeed : st.feed ts = some st') : l.stream.read st = l'.stream.read st' := by
  induction h generalizing st with
  | nil =>
    obtain rfl := Option.some.inj hfeed
    rfl
  | cons hnext hkind _ ih =>
    simp only [ReadState.feed] at hfeed
    split at hfeed
    next st'' hm =>
      rw [stream_of_next hnext, if_neg hkind, TokenStream.read, hm]
      exact ih hfeed
    next => cases hfeed

/-- The reading ends before a token at which it accepts, and this token is shown. -/
lemma read_stream_of_accept (h : l.next = (.ok t, l')) {st : ReadState} {φ : Formula}
    (hm : st.move t = .accept φ) :
    l.stream.read st = (.ok φ, { lexer := { l' with ahead := some t }, last := st.last }) := by
  rw [stream_of_next h]
  split
  all_goals rw [TokenStream.read, hm]

end Lexer

/-- Behind a primary phrase its formula is complete and nothing waits. -/
lemma Derives.feed_eq {ts : List Token} {φ : Formula} (h : Derives .primary ts φ)
    (last : Option Token) :
    ∃ t, (ReadState.start last).feed ts =
      some { stack := [], operand := some φ, last := some t } := by
  obtain ⟨d, rfl, rfl⟩ := h
  exact d.isRead [] last

/-- A token that is no connective ends a formula that is complete. -/
lemma ReadState.move_eq_accept {φ : Formula} {t : Token} (ht : t.kind.connective? = none)
    (last : Option Token) :
    ({ stack := [], operand := some φ, last } : ReadState).move t = .accept φ := by
  simp only [move, afterOperand, ht]
  rfl

/-! ## One printed formula -/

/-- The next token is no connective. -/
def Text.EndsFormula (rest : Text) : Prop :=
  ∀ l : Lexer, l.At rest → ∃ t l', l.next = (.ok t, l') ∧ t.kind.connective? = none

/-- A parser stands in front of a text, of which it may have shown a token. -/
def Parser.Before (p : Parser) (src : Text) : Prop := ∃ l : Lexer, l.At src ∧ p.lexer.next = l.next

lemma Text.IsGap.endsFormula {gap : Text} (h : gap.IsGap) : gap.EndsFormula := by
  intro l hl
  obtain ⟨t, l', hnext, hkind⟩ := hl.next_end h
  exact ⟨t, l', hnext, by rw [hkind]; rfl⟩

/-- A printed formula does not begin with a connective. -/
lemma Spells.endsFormula {src : Text} {φ : Formula} (h : Spells src .primary φ) {gap rest : Text}
    (hgap : gap.IsGap) (hrest : rest.EndsWord) : (gap ++ (src ++ rest)).EndsFormula := by
  intro l hl
  obtain ⟨ts, l', hyields, ⟨d, rfl, -⟩, -⟩ := h gap rest l hgap hrest hl
  obtain ⟨t, us, hyield, ht⟩ : ∃ t us, d.yield = t :: us ∧ t.kind.connective? = none := by
    cases d with
    | one t ht | zero t ht | identifier t ht | paren t ht =>
      exact ⟨t, _, rfl, by rw [ht]; rfl⟩
  rw [hyield] at hyields
  cases hyields with
  | cons hnext _ _ => exact ⟨t, _, hnext, ht⟩

/-- A parser reads one printed formula and stands behind it. -/
theorem Parser.Before.readFormula {p : Parser} {gap src rest : Text} {φ : Formula}
    (hp : p.Before (gap ++ (src ++ rest))) (hsrc : Spells src .primary φ) (hgap : gap.IsGap)
    (hword : rest.EndsWord) (hends : rest.EndsFormula) :
    ∃ p', p.readFormula = (.ok φ, p') ∧ p'.Before rest := by
  obtain ⟨l, hl, hnext⟩ := hp
  obtain ⟨ts, l', hyields, hder, hl'⟩ := hsrc gap rest l hgap hword hl
  obtain ⟨t, l'', hnext', ht⟩ := hends l' hl'
  obtain ⟨last, hfeed⟩ := hder.feed_eq p.last
  have hread : p.readFormula =
      l'.stream.read { stack := [], operand := some φ, last := some last } := by
    rw [Parser.readFormula, Lexer.stream_congr hnext, hyields.read_stream hfeed]
  rw [Lexer.read_stream_of_accept hnext' (ReadState.move_eq_accept ht _)] at hread
  exact ⟨_, hread, l', hl', Lexer.next_shown hnext'⟩

/-! ## Many printed formulas -/

/-- A text lists other texts: white space stands behind each but the last, and may stand in front of
the first and behind the last. -/
inductive Listing : List Text → Text → Prop
  | nil {gap : Text} : gap.IsGap → Listing [] gap
  | cons {gap src rest : Text} {srcs : List Text} :
    gap.IsGap → (∀ c ∈ rest.head?, Text.isSpace c = true) → Listing srcs rest →
    Listing (src :: srcs) (gap ++ (src ++ rest))

/-- What begins with white space ends a word. -/
lemma Text.endsWord_of_isSpace {rest : Text} (h : ∀ c ∈ rest.head?, Text.isSpace c = true) :
    rest.EndsWord := fun c hc => Text.isWord_eq_false_of_isSpace (h c hc)

/-- A listing of printed formulas does not begin with a connective. -/
lemma Listing.endsFormula {φs : List Formula} (hφs : ∀ φ ∈ φs, φ.Uses NodeKind.Printable)
    {source : Text} (h : Listing (φs.map Formula.text) source) : source.EndsFormula := by
  generalize hsrcs : φs.map Formula.text = srcs at h
  cases h with
  | nil hgap => exact hgap.endsFormula
  | cons hgap hspace _ =>
    obtain ⟨φ, φs', rfl, rfl, -⟩ := List.map_eq_cons_iff.mp hsrcs
    exact (Formula.spells_text (hφs φ List.mem_cons_self)).endsFormula hgap
      (Text.endsWord_of_isSpace hspace)

/-- Behind a last gap, the input ends. -/
lemma Parser.Before.peek_end {p : Parser} {gap : Text} (h : p.Before gap) (hgap : gap.IsGap) :
    ∃ t l, p.lexer.peek = (.ok t, l) ∧ t.kind = .endOfInput := by
  obtain ⟨l, hl, hnext⟩ := h
  obtain ⟨t, l', hend, hkind⟩ := hl.next_end hgap
  rw [Lexer.peek, hnext, hend]
  exact ⟨t, _, rfl, hkind⟩

lemma Parser.before_start (source : Text) (line : UInt32) :
    (Parser.start source line).Before source :=
  ⟨Lexer.start source line, ⟨rfl, rfl⟩, rfl⟩

namespace FormulaStore

/-- Reads a number of formulas one after the other off one walk and adds them.  If `fresh` is set,
each is read by a parser of its own, which has taken no token before. -/
def readEach (fresh : Bool) : Nat → Parser → FormulaStore →
    List (Except SyntaxError FormulaId) × Parser × FormulaStore
  | 0, p, s => ([], p, s)
  | n + 1, p, s =>
    let (r, p) := (if fresh then { p with last := none } else p).readFormula
    let (id, s) := s.addRead r
    let (ids, p, s) := readEach fresh n p s
    (id :: ids, p, s)

/-- A formula that the store holds is added without a change. -/
lemma Made.addRead_eq {K : NodeKind → Prop} {s : FormulaStore} (hs : s.Made K) {id : FormulaId}
    {φ : Formula} (hφ : s.Denotes id φ) : s.addRead (.ok φ) = (.ok id, s) := by
  rw [addRead, hs.add_eq_of_denotes hφ]

/-- Reading a listing of formulas that the store holds finds their numbers and changes nothing. -/
theorem Made.readEach_listing {s : FormulaStore} (hs : s.Made NodeKind.Printable) (fresh : Bool)
    {ids : List FormulaId} {φs : List Formula} (hφs : List.Forall₂ s.Denotes ids φs)
    {source : Text} (h : Listing (φs.map Formula.text) source) {p : Parser} (hp : p.Before source) :
    ∃ p' gap, s.readEach fresh ids.length p = (ids.map .ok, p', s) ∧ p'.Before gap ∧
      gap.IsGap := by
  have huses : ∀ {id φ}, s.Denotes id φ → φ.Uses NodeKind.Printable :=
    fun hφ => hs.uses trivial trivial hφ
  induction hφs generalizing source p with
  | nil =>
    cases h with
    | nil hgap => exact ⟨p, source, rfl, hp, hgap⟩
  | @cons id φ ids φs hφ hφs ih =>
    cases h with
    | @cons gap _ rest _ hgap hspace hrest =>
      have hflip : List.Forall₂ (fun ψ a => s.Denotes a ψ) φs ids := hφs.flip
      have hprintable : ∀ ψ ∈ φs, ψ.Uses NodeKind.Printable :=
        ((List.forall₂_and_left _ _).mp (hflip.imp fun _ _ hψ => ⟨huses hψ, hψ⟩)).1
      have hp' : (if fresh then { p with last := none } else p).Before
          (gap ++ (φ.text ++ rest)) := by
        cases fresh
        · exact hp
        · exact hp
      obtain ⟨p₁, hread, hp₁⟩ := hp'.readFormula (Formula.spells_text (huses hφ)) hgap
        (Text.endsWord_of_isSpace hspace) (hrest.endsFormula hprintable)
      obtain ⟨p₂, gap', hreads, hp₂, hgap'⟩ := ih hrest hp₁
      refine ⟨p₂, gap', ?_, hp₂, hgap'⟩
      rw [List.length_cons, readEach]
      simp only [hread, hs.addRead_eq hφ, hreads, List.map_cons]

/-- A printed formula is parsed as a whole. -/
theorem Made.parse_text {s : FormulaStore} (hs : s.Made NodeKind.Printable) {id : FormulaId}
    {φ : Formula} (hφ : s.Denotes id φ) (line : UInt32) : s.parse φ.text line = (.ok id, s) := by
  have hprintable : φ.Uses NodeKind.Printable := hs.uses trivial trivial hφ
  have hstart : (Parser.start φ.text line).Before ([] ++ (φ.text ++ [])) := by
    rw [List.nil_append, List.append_nil]
    exact Parser.before_start φ.text line
  obtain ⟨p, hread, hp⟩ := hstart.readFormula (Formula.spells_text hprintable) Text.isGap_nil
    (by simp [Text.EndsWord]) Text.isGap_nil.endsFormula
  obtain ⟨t, l, hpeek, hkind⟩ := hp.peek_end Text.isGap_nil
  have hwhole : Formula.read φ.text line = .ok φ :=
    Parser.readWhole_eq_ok_iff.mpr ⟨p, t, l, hread, hpeek, hkind⟩
  rw [parse, hwhole, hs.addRead_eq hφ]

/-! ## The main statement -/

/-- A text is that of a number exactly if it is the text of the formula that the number stands
for. -/
lemma text?_eq_some_iff {s : FormulaStore} {id : FormulaId} {t : Text} :
    s.text? id = some t ↔ ∃ φ, s.Denotes id φ ∧ φ.text = t := by
  simp only [text?, Option.map_eq_some_iff, tree?_eq_some_iff]

/-- Texts of numbers are the texts of formulas. -/
lemma exists_denotes_of_texts {s : FormulaStore} {ids : List FormulaId} {texts : List Text}
    (h : List.Forall₂ (fun id t => s.text? id = some t) ids texts) :
    ∃ φs : List Formula, List.Forall₂ s.Denotes ids φs ∧ texts = φs.map Formula.text := by
  induction h with
  | nil => exact ⟨[], .nil, rfl⟩
  | cons hid _ ih =>
    obtain ⟨φ, hφ, rfl⟩ := text?_eq_some_iff.mp hid
    obtain ⟨φs, hφs, rfl⟩ := ih
    exact ⟨φ :: φs, .cons hφ hφs, rfl⟩

/-- What is printed from a store is read back as what it was printed from. -/
structure ReadsBack (s : FormulaStore) : Prop where
  /-- Every number has a text. -/
  prints : ∀ id < s.size, ∃ t, s.text? id = some t
  /-- Of a listing of texts, exactly their numbers are read, one after the other.  Nothing is
  interned, and what is next is the end of the input. -/
  listing : ∀ (ids : List FormulaId) (texts : List Text),
    List.Forall₂ (fun id t => s.text? id = some t) ids texts →
    ∀ (source : Text) (line : UInt32) (fresh : Bool), Listing texts source →
    ∃ p, s.readEach fresh ids.length (.start source line) = (ids.map .ok, p, s) ∧
      ∃ t l, p.lexer.peek = (.ok t, l) ∧ t.kind = .endOfInput
  /-- A text alone is parsed to its number, and nothing is interned. -/
  parse : ∀ (id : FormulaId) (t : Text), s.text? id = some t →
    ∀ line, s.parse t line = (.ok id, s)
  /-- Different numbers have different texts. -/
  injective : ∀ (id id' : FormulaId) (t : Text),
    s.text? id = some t → s.text? id' = some t → id = id'

/-- A store that holds printable formulas only, each under one number, is read back. -/
theorem Made.readsBack {s : FormulaStore} (hs : s.Made NodeKind.Printable) : s.ReadsBack := by
  have hparse : ∀ (id : FormulaId) (t : Text), s.text? id = some t →
      ∀ line, s.parse t line = (.ok id, s) := by
    intro id t ht line
    obtain ⟨φ, hφ, rfl⟩ := text?_eq_some_iff.mp ht
    exact hs.parse_text hφ line
  constructor
  case prints =>
    intro id hid
    obtain ⟨φ, hφ⟩ := hs.built.exists_denotes id hid
    exact ⟨φ.text, hφ.text?_eq⟩
  case listing =>
    intro ids texts htexts source line fresh hsource
    obtain ⟨φs, hφs, rfl⟩ := exists_denotes_of_texts htexts
    obtain ⟨p, gap, hread, hp, hgap⟩ :=
      hs.readEach_listing fresh hφs hsource (Parser.before_start source line)
    exact ⟨p, hread, hp.peek_end hgap⟩
  case parse => exact hparse
  case injective =>
    intro id id' t ht ht'
    have heq : ((Except.ok id : Except SyntaxError FormulaId), s) = (.ok id', s) :=
      (hparse id t ht 1).symm.trans (hparse id' t ht' 1)
    exact Except.ok.inj (congrArg Prod.fst heq)

/-- Printing and reading are inverse: on every store whose nodes hold their children and nothing
else and whose names are identifiers and labels, and these are all that reading sources and
eliminating material connectives can fill. -/
theorem readsBack_of_made :
    (∀ s : FormulaStore, s.Filled → s.Made NodeKind.Printable) ∧
    ∀ s : FormulaStore, s.Made NodeKind.Printable → s.ReadsBack :=
  ⟨fun _ h => h.made, fun _ h => h.readsBack⟩

/-- Underscores and digits may be labels, and an underscore may be an atom.  A listing of a formula
of such names, an atom and a constant is read back. -/
theorem readsBack_of_underscores :
    let s := ((initial.parse (ascii "[_] <0> _1 <-> ~<__>_") 1).2.eliminateMaterial 8).2
    s.Made NodeKind.Printable ∧ s.ReadsBack ∧
    s.text? 8 = some (ascii "(([]__ (<>_0 _1)) <-> (~(<>___ _)))") ∧
    (s.readEach false 3
      (.start (ascii "(([]__ (<>_0 _1)) <-> (~(<>___ _)))\n_ \t1") 1)).1.map Except.toOption =
        [some 8, some 5, some 0] := by
  intro s
  have hfilled : s.Filled := .eliminate (.parse _ 1 .initial) (by decide +kernel)
  refine ⟨readsBack_of_made.1 s hfilled, readsBack_of_made.2 s hfilled.made, ?_, ?_⟩
  · decide +kernel
  · decide +kernel

end FormulaStore

end TwistLogic
