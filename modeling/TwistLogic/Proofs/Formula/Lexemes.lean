import Mathlib.Data.List.TakeWhile
import Mathlib.Tactic.Common
import TwistLogic.Formula.Lexer
import TwistLogic.Proofs.Basic

/-!
# Lexemes

`IsLexeme w k rest` says that the text `w` in front of `rest` is one token of class `k`, spelled as
it stands.  For words this depends on `rest`, which must not go on with the word (`Text.EndsWord`);
the other lexemes end by themselves.  A walk that stands at a lexeme takes it, and white space
before it, and stands at the rest (`Lexer.At.next_lexeme`).

The other way round, the names in tokens are those that lexemes can spell: an identifier is a word
that is no constant, and a label is a word that is not empty (`namesAllowed_scan`).
-/

namespace TwistLogic

namespace Text

/-! ## Words and white space -/

/-- The names that are read as atoms: words that do not begin with a digit and are not one of the
two constants in any case. -/
structure IsIdentifier (name : Text) : Prop where
  first : ∃ c cs, name = c :: cs ∧ (isLetter c = true ∨ c = byte '_')
  word : ∀ c ∈ name, isWord c = true
  notTop : name.map upper ≠ ascii "TOP"
  notBot : name.map upper ≠ ascii "BOT"

/-- The labels of actions: words that are not empty. -/
structure IsLabel (action : Text) : Prop where
  nonempty : action ≠ []
  word : ∀ c ∈ action, isWord c = true

/-- What follows a word does not go on with it. -/
def EndsWord (rest : Text) : Prop := ∀ c ∈ rest.head?, isWord c = false

/-- Nothing but white space. -/
def IsGap (gap : Text) : Prop := ∀ c ∈ gap, isSpace c = true

lemma endsWord_cons {c : UInt8} (hc : isWord c = false) (rest : Text) : EndsWord (c :: rest) := by
  intro d hd
  obtain rfl : c = d := by simpa using hd
  exact hc

/-- A word is taken up to where it ends. -/
lemma takeWhile_isWord {w rest : Text} (hw : ∀ c ∈ w, isWord c = true) (hrest : EndsWord rest) :
    (w ++ rest).takeWhile isWord = w := by
  have hnone : rest.takeWhile isWord = [] := by
    cases rest with
    | nil => rfl
    | cons c cs => rw [List.takeWhile_cons, hrest c rfl]; rfl
  rw [List.takeWhile_append_of_pos hw, hnone, List.append_nil]

lemma isDigit_eq_false_of_isLetter {c : UInt8} (hc : isLetter c = true) : isDigit c = false := by
  simp only [isLetter, isDigit, Bool.or_eq_true, Bool.and_eq_true, decide_eq_true_eq,
    Bool.and_eq_false_iff, decide_eq_false_iff_not, UInt8.le_iff_toNat_le] at hc ⊢
  have h0 : (byte '0').toNat = 48 := rfl
  have h9 : (byte '9').toNat = 57 := rfl
  have ha : (byte 'a').toNat = 97 := rfl
  have hA : (byte 'A').toNat = 65 := rfl
  omega

lemma isSpace_eq_false_of_isWord {c : UInt8} (hc : isWord c = true) : isSpace c = false := by
  simp only [isWord, isLetter, isDigit, isSpace, Bool.or_eq_true, Bool.and_eq_true,
    decide_eq_true_eq, beq_iff_eq, Bool.or_eq_false_iff, Bool.and_eq_false_iff,
    decide_eq_false_iff_not, beq_eq_false_iff_ne, ne_eq, UInt8.le_iff_toNat_le,
    ← UInt8.toNat_inj] at hc ⊢
  have hblank : (byte ' ').toNat = 32 := rfl
  have hunder : (byte '_').toNat = 95 := rfl
  have h0 : (byte '0').toNat = 48 := rfl
  have ha : (byte 'a').toNat = 97 := rfl
  have hA : (byte 'A').toNat = 65 := rfl
  have h9 : (9 : UInt8).toNat = 9 := rfl
  have h13 : (13 : UInt8).toNat = 13 := rfl
  omega

lemma isWord_eq_false_of_isSpace {c : UInt8} (hc : isSpace c = true) : isWord c = false := by
  by_contra hw
  rw [isSpace_eq_false_of_isWord (eq_true_of_ne_false hw)] at hc
  cases hc

end Text

/-! ## Scanning lexemes -/

/-- In front of `rest`, a text is one token of a class. -/
def IsLexeme (w : Text) (k : TokenKind) (rest : Text) : Prop :=
  ∃ c cs, w = c :: cs ∧ scan c (cs ++ rest) = .token k w cs.length

/-- The spellings that are tokens of their own. -/
inductive IsSign : Text → TokenKind → Prop
  | tilde : IsSign (ascii "~") .tilde
  | amp : IsSign (ascii "&") .amp
  | pipe : IsSign (ascii "|") .pipe
  | openParen : IsSign (ascii "(") .openParen
  | closeParen : IsSign (ascii ")") .closeParen
  | fatArrow : IsSign (ascii "=>") .fatArrow
  | arrow : IsSign (ascii "->") .arrow
  | doubleArrow : IsSign (ascii "<->") .doubleArrow

section Lexeme

variable {rest : Text}

/-- A sign is a lexeme, whatever follows it. -/
lemma IsSign.isLexeme {w : Text} {k : TokenKind} (h : IsSign w k) (rest : Text) :
    IsLexeme w k rest := by
  cases h <;> exact ⟨_, _, rfl, rfl⟩

lemma isLexeme_connective (c : Connective) (rest : Text) :
    ∃ k, IsLexeme c.symbol k rest ∧ k.connective? = some c := by
  cases c with
  | and => exact ⟨.amp, IsSign.amp.isLexeme rest, rfl⟩
  | or => exact ⟨.pipe, IsSign.pipe.isLexeme rest, rfl⟩
  | resImplies => exact ⟨.fatArrow, IsSign.fatArrow.isLexeme rest, rfl⟩
  | implies => exact ⟨.arrow, IsSign.arrow.isLexeme rest, rfl⟩
  | iff => exact ⟨.doubleArrow, IsSign.doubleArrow.isLexeme rest, rfl⟩

/-- The long spelling of a modality. -/
lemma isLexeme_modality (m : Modality) {action : Text} (ha : action.IsLabel)
    (hrest : rest.EndsWord) :
    IsLexeme (m.symbol ++ ascii "_" ++ action) (.modality m action) rest := by
  obtain ⟨c, cs, rfl⟩ := List.exists_cons_of_ne_nil ha.nonempty
  have hc : Text.isWord c = true := ha.word c List.mem_cons_self
  have htake : (c :: cs ++ rest).takeWhile Text.isWord = c :: cs :=
    Text.takeWhile_isWord ha.word hrest
  have hscan : scan m.opening (m.closing :: byte '_' :: (c :: cs) ++ rest) =
      scanLongLabel m (byte '_' :: (c :: cs ++ rest)) := by
    cases m <;> rfl
  refine ⟨m.opening, m.closing :: byte '_' :: (c :: cs), rfl, ?_⟩
  rw [hscan]
  simp only [scanLongLabel, List.cons_append, hc, Bool.and_self, decide_true, if_true,
    List.tail_cons]
  rw [← List.cons_append, htake]
  rfl

/-- The bytes that begin a token but no word. -/
def signs : Text := ascii "~&|()=-[<"

/-- Any other byte begins a word or nothing. -/
lemma scan_of_not_mem_signs {c : UInt8} (hc : c ∉ signs) (cs : Text) :
    scan c cs =
      if Text.isWord c then scanWord c cs else .fault (.unexpectedByte c) [c] 0 0 := by
  have hne : ∀ b ∈ signs, c ≠ b := fun b hb h => hc (h ▸ hb)
  unfold scan
  rw [if_neg (hne (byte '~') (by decide)), if_neg (hne (byte '&') (by decide)),
    if_neg (hne (byte '|') (by decide)), if_neg (hne (byte '(') (by decide)),
    if_neg (hne (byte ')') (by decide)), if_neg (hne (byte '=') (by decide)),
    if_neg (hne (byte '-') (by decide)), if_neg (hne (byte '[') (by decide)),
    if_neg (hne (byte '<') (by decide))]

/-- A byte of a word begins a word. -/
lemma scan_of_isWord {c : UInt8} (hc : Text.isWord c = true) (cs : Text) :
    scan c cs = scanWord c cs := by
  have hsigns : ∀ b ∈ signs, Text.isWord b = false := by decide +kernel
  have hmem : c ∉ signs := by
    intro hmem
    rw [hsigns c hmem] at hc
    cases hc
  rw [scan_of_not_mem_signs hmem, if_pos hc]

/-- No lexeme begins with white space or a comment. -/
lemma IsLexeme.first_not_gap {c : UInt8} {cs : Text} {k : TokenKind}
    (h : IsLexeme (c :: cs) k rest) : Text.isSpace c = false ∧ c ≠ byte '#' := by
  have hsigns : ∀ b ∈ signs, Text.isSpace b = false ∧ b ≠ byte '#' := by decide +kernel
  by_cases hmem : c ∈ signs
  · exact hsigns c hmem
  · obtain ⟨c', cs', heq, hscan⟩ := h
    obtain ⟨rfl, rfl⟩ := List.cons.inj heq
    rw [scan_of_not_mem_signs hmem] at hscan
    by_cases hword : Text.isWord c = true
    · refine ⟨Text.isSpace_eq_false_of_isWord hword, ?_⟩
      rintro rfl
      exact absurd hword (by decide)
    · rw [if_neg hword] at hscan
      cases hscan

lemma isLexeme_one (hrest : rest.EndsWord) : IsLexeme (ascii "1") .one rest := by
  have htake : rest.takeWhile Text.isWord = [] := Text.takeWhile_isWord (w := []) (by simp) hrest
  refine ⟨byte '1', [], rfl, ?_⟩
  rw [scan_of_isWord rfl, List.nil_append, scanWord, htake]
  rfl

lemma isLexeme_zero (hrest : rest.EndsWord) : IsLexeme (ascii "0") .zero rest := by
  have htake : rest.takeWhile Text.isWord = [] := Text.takeWhile_isWord (w := []) (by simp) hrest
  refine ⟨byte '0', [], rfl, ?_⟩
  rw [scan_of_isWord rfl, List.nil_append, scanWord, htake]
  rfl

lemma isLexeme_identifier {name : Text} (hname : name.IsIdentifier) (hrest : rest.EndsWord) :
    IsLexeme name .identifier rest := by
  obtain ⟨c, cs, rfl, hfirst⟩ := hname.first
  have hword : ∀ d ∈ cs, Text.isWord d = true :=
    fun d hd => hname.word d (List.mem_cons_of_mem _ hd)
  have hdigit : Text.isDigit c = false := by
    rcases hfirst with hletter | rfl
    · exact Text.isDigit_eq_false_of_isLetter hletter
    · rfl
  have hkind : wordKind (c :: cs) = .identifier := by
    unfold wordKind
    dsimp only
    rw [if_neg hname.notTop, if_neg hname.notBot]
  refine ⟨c, cs, rfl, ?_⟩
  rw [scan_of_isWord (hname.word c List.mem_cons_self), scanWord,
    Text.takeWhile_isWord hword hrest, hdigit, ← hkind]
  rfl

end Lexeme

/-! ## Walking over lexemes -/

lemma gapLength_cons_of_isSpace {c : UInt8} (hc : Text.isSpace c = true) (cs : Text) :
    gapLength false (c :: cs) = gapLength false cs + 1 := by
  have hhash : c ≠ byte '#' := by
    rintro rfl
    exact absurd hc (by decide)
  simp [gapLength, hhash, hc]

/-- A gap ends before what begins no gap. -/
lemma gapLength_append {gap rest : Text} (hgap : gap.IsGap) (hrest : gapLength false rest = 0) :
    gapLength false (gap ++ rest) = gap.length := by
  induction gap with
  | nil => exact hrest
  | cons c cs ih =>
    obtain ⟨hc, hcs⟩ := List.forall_mem_cons.mp hgap
    rw [List.cons_append, gapLength_cons_of_isSpace hc, ih hcs, List.length_cons]

namespace Lexer

/-- A walk stands in front of a text and has shown no token. -/
def At (l : Lexer) (src : Text) : Prop := l.ahead = none ∧ l.rest = src

/-- From one walk to another, these tokens are taken, none of them the end of the input. -/
inductive Yields : Lexer → List Token → Lexer → Prop
  | nil {l : Lexer} : Yields l [] l
  | cons {l l' l'' : Lexer} {t : Token} {ts : List Token} :
    l.next = (.ok t, l') → t.kind ≠ .endOfInput → Yields l' ts l'' → Yields l (t :: ts) l''

variable {l l' l'' : Lexer} {gap w rest : Text} {k : TokenKind}

lemma Yields.append {ts us : List Token} (h : l.Yields ts l') (h' : l'.Yields us l'') :
    l.Yields (ts ++ us) l'' := by
  induction h with
  | nil => exact h'
  | cons hnext hkind _ ih => exact .cons hnext hkind (ih h')

lemma At.skip (hl : l.At (w ++ rest)) : (l.skip w.length).At rest := by
  obtain ⟨-, hsrc⟩ := hl
  refine ⟨rfl, ?_⟩
  rw [Lexer.skip, hsrc, List.drop_left]

/-- A walk without a shown token skips the gap in front of it. -/
lemma At.next_eq (hl : l.At (gap ++ rest)) (hgap : gap.IsGap)
    (hrest : gapLength false rest = 0) : l.next = (l.skip gap.length).take := by
  obtain ⟨hahead, hsrc⟩ := hl
  rw [next, hahead, hsrc, gapLength_append hgap hrest]

/-- A walk takes the lexeme behind a gap. -/
theorem At.next_lexeme (hl : l.At (gap ++ (w ++ rest))) (hgap : gap.IsGap)
    (hw : IsLexeme w k rest) :
    ∃ t l', l.next = (.ok t, l') ∧ t.kind = k ∧ t.text = w ∧ l'.At rest := by
  have hlexeme := hw
  obtain ⟨c, cs, rfl, hscan⟩ := hw
  obtain ⟨hspace, hhash⟩ := hlexeme.first_not_gap
  have hzero : gapLength false (c :: cs ++ rest) = 0 := by simp [gapLength, hspace, hhash]
  have hskip : (l.skip gap.length).At (c :: cs ++ rest) := hl.skip
  rw [hl.next_eq hgap hzero, take, hskip.2]
  simp only [List.cons_append, hscan]
  exact ⟨_, _, rfl, rfl, rfl, hskip.skip⟩

/-- Behind a last gap, the input ends. -/
lemma At.next_end (hl : l.At gap) (hgap : gap.IsGap) :
    ∃ t l', l.next = (.ok t, l') ∧ t.kind = .endOfInput := by
  rw [← List.append_nil gap] at hl
  have hskip : (l.skip gap.length).At [] := hl.skip
  rw [hl.next_eq hgap rfl, take, hskip.2]
  exact ⟨_, _, rfl, rfl⟩

end Lexer

/-! ## The rules of a scan -/

/-- The fronts of arrows, and the arrows that are wanted. -/
inductive IsBrokenArrow : Text → Text → Prop
  | fatArrow : IsBrokenArrow (ascii "=") (ascii "=>")
  | arrow : IsBrokenArrow (ascii "-") (ascii "->")
  | doubleArrow : IsBrokenArrow (ascii "<-") (ascii "<->")

/-- Every scan goes by one of five rules. -/
theorem scan_cases {P : Text → Scan → Prop}
    (sign : ∀ {w k} (cs : Text), IsSign w k → P (w ++ cs) (.token k w (w.length - 1)))
    (broken : ∀ {w wanted} (cs : Text), IsBrokenArrow w wanted →
      P (w ++ cs) (.fault (.brokenArrow w wanted) w 0 0))
    (modality : ∀ m cs, P (m.opening :: cs) (scanModality m cs))
    (word : ∀ {c} (cs : Text), Text.isWord c = true → P (c :: cs) (scanWord c cs))
    (unexpected : ∀ c cs, P (c :: cs) (.fault (.unexpectedByte c) [c] 0 0))
    (c : UInt8) (cs : Text) : P (c :: cs) (scan c cs) := by
  unfold scan
  refine iteInduction (fun h => ?_) fun _ => ?_
  · exact h ▸ sign cs .tilde
  refine iteInduction (fun h => ?_) fun _ => ?_
  · exact h ▸ sign cs .amp
  refine iteInduction (fun h => ?_) fun _ => ?_
  · exact h ▸ sign cs .pipe
  refine iteInduction (fun h => ?_) fun _ => ?_
  · exact h ▸ sign cs .openParen
  refine iteInduction (fun h => ?_) fun _ => ?_
  · exact h ▸ sign cs .closeParen
  refine iteInduction (fun h => ?_) fun _ => ?_
  · subst h
    refine iteInduction (fun hhead => ?_) fun _ => broken cs .fatArrow
    obtain ⟨tail, rfl⟩ := List.head?_eq_some_iff.mp hhead
    exact sign tail .fatArrow
  refine iteInduction (fun h => ?_) fun _ => ?_
  · subst h
    refine iteInduction (fun hhead => ?_) fun _ => broken cs .arrow
    obtain ⟨tail, rfl⟩ := List.head?_eq_some_iff.mp hhead
    exact sign tail .arrow
  refine iteInduction (fun h => ?_) fun _ => ?_
  · exact h ▸ modality .box cs
  refine iteInduction (fun h => ?_) fun _ => ?_
  · subst h
    refine iteInduction (fun hhead => ?_) fun _ => modality .diamond cs
    obtain ⟨tail, rfl⟩ := List.head?_eq_some_iff.mp hhead
    refine iteInduction (fun hsecond => ?_) fun _ => broken tail .doubleArrow
    obtain ⟨tail', rfl⟩ := List.head?_eq_some_iff.mp hsecond
    exact sign tail' .doubleArrow
  · exact iteInduction (fun hword => word cs hword) fun _ => unexpected c cs

/-! ## The names in tokens -/

/-- The names that a token of a class carries are those that lexemes spell. -/
def TokenKind.NamesAllowed (text : Text) : TokenKind → Prop
  | .identifier => text.IsIdentifier
  | .modality _ action => action.IsLabel
  | _ => True

/-- A token that is scanned carries names that lexemes spell. -/
def Scan.NamesAllowed : Scan → Prop
  | .token k text _ => k.NamesAllowed text
  | .fault _ _ _ _ => True

section Names

lemma namesAllowed_scanWord {c : UInt8} (hc : Text.isWord c = true) (cs : Text) :
    (scanWord c cs).NamesAllowed := by
  unfold scanWord
  refine iteInduction (fun _ => ?_) fun hdigit => ?_
  · exact iteInduction (fun _ => trivial) fun _ => iteInduction (fun _ => trivial) fun _ => trivial
  · unfold wordKind
    refine iteInduction (motive := fun k => Scan.NamesAllowed (.token k _ _)) (fun _ => trivial)
      fun htop => ?_
    refine iteInduction (motive := fun k => Scan.NamesAllowed (.token k _ _)) (fun _ => trivial)
      fun hbot => ?_
    refine ⟨⟨c, _, rfl, ?_⟩, fun d hd => ?_, htop, hbot⟩
    · simpa [Text.isWord, hdigit] using hc
    · rcases List.mem_cons.mp hd with rfl | hd
      · exact hc
      · exact List.mem_takeWhile_imp hd

/-- The bytes of a word that are taken are a label, if there is one. -/
lemma isLabel_takeWhile {cs : Text} (h : cs.takeWhile Text.isWord ≠ []) :
    Text.IsLabel (cs.takeWhile Text.isWord) :=
  ⟨h, fun _ hc => List.mem_takeWhile_imp hc⟩

lemma namesAllowed_scanLongLabel (m : Modality) (cs : Text) :
    (scanLongLabel m cs).NamesAllowed := by
  unfold scanLongLabel
  split
  next u c rest =>
    refine iteInduction (fun hlabel => ?_) fun _ => trivial
    have hc : Text.isWord c = true := (Bool.and_eq_true_iff.mp hlabel).2
    exact isLabel_takeWhile (by simp [hc])
  next => trivial

lemma namesAllowed_scanModality (m : Modality) (cs : Text) :
    (scanModality m cs).NamesAllowed := by
  unfold scanModality
  refine iteInduction (fun _ => namesAllowed_scanLongLabel m _) fun _ => ?_
  refine iteInduction (fun _ => trivial) fun hlabel => ?_
  refine iteInduction (fun _ => ?_) fun _ => trivial
  exact isLabel_takeWhile (by simpa using hlabel)

/-- Whatever is scanned, the names are those that lexemes spell. -/
theorem namesAllowed_scan (c : UInt8) (cs : Text) : (scan c cs).NamesAllowed := by
  refine scan_cases (P := fun _ r => r.NamesAllowed) ?sign ?broken ?modality ?word ?unexpected c cs
  case sign =>
    intro w k cs hsign
    cases hsign <;> trivial
  case broken => exact fun _ _ => trivial
  case modality => exact namesAllowed_scanModality
  case word => exact fun cs hc => namesAllowed_scanWord hc cs
  case unexpected => exact fun _ _ => trivial

end Names

/-! ## The names in a walk -/

/-- The names that a token carries are those that lexemes spell. -/
def Token.NamesAllowed (t : Token) : Prop := t.kind.NamesAllowed t.text

namespace Lexer

/-- A walk that has shown a token has shown one with allowed names. -/
def NamesAllowed (l : Lexer) : Prop := ∀ t, l.ahead = some t → t.NamesAllowed

lemma namesAllowed_of_ahead_eq_none {l : Lexer} (h : l.ahead = none) : l.NamesAllowed := by
  intro t ht
  rw [h] at ht
  cases ht

variable {l l' : Lexer} {t : Token}

/-- What is taken is the end of the input, or the token that the scan delivers. -/
lemma take_eq_ok (h : l.take = (.ok t, l')) :
    (l.rest = [] ∧ t = .endOfInput l.pos ∧ l' = l) ∨
      ∃ c cs more, l.rest = c :: cs ∧ scan c cs = .token t.kind t.text more ∧ t.pos = l.pos ∧
        t.stop = l'.pos ∧ l' = l.skip (more + 1) := by
  unfold take at h
  split at h
  next hrest =>
    cases h
    exact .inl ⟨hrest, rfl, rfl⟩
  next c cs hrest =>
    split at h
    next kind text more hscan =>
      cases h
      exact .inr ⟨c, cs, more, hrest, hscan, rfl, rfl, rfl⟩
    next => cases h

/-- Nothing is taken where the scan finds a fault. -/
lemma take_eq_error {e : SyntaxError} (h : l.take = (.error e, l')) :
    ∃ c cs shift read, l.rest = c :: cs ∧ scan c cs = .fault e.fault e.token shift read ∧
      e.pos = (l.skip shift).pos ∧ l' = l.skip read := by
  unfold take at h
  split at h
  next => cases h
  next c cs hrest =>
    split at h
    next => cases h
    next fault token shift read hscan =>
      cases h
      exact ⟨c, cs, shift, read, hrest, hscan, rfl, rfl⟩

lemma ahead_take (h : l.ahead = none) : l.take.2.ahead = none := by
  rcases htake : l.take with ⟨e | t, l'⟩
  · obtain ⟨-, -, -, -, -, -, -, rfl⟩ := take_eq_error htake
    rfl
  · obtain ⟨-, -, rfl⟩ | ⟨-, -, -, -, -, -, -, rfl⟩ := take_eq_ok htake
    · exact h
    · rfl

/-- No token is shown behind one that was taken. -/
lemma ahead_next (l : Lexer) : l.next.2.ahead = none := by
  unfold next
  split
  · rfl
  · exact ahead_take rfl

lemma namesAllowed_take (h : l.take.1 = .ok t) : t.NamesAllowed := by
  obtain ⟨-, rfl, -⟩ | ⟨c, cs, _, -, hscan, -⟩ := take_eq_ok (Prod.ext h rfl)
  · trivial
  · have hnames : (scan c cs).NamesAllowed := namesAllowed_scan c cs
    rwa [hscan] at hnames

/-- The next token of a walk has allowed names. -/
lemma NamesAllowed.next (hl : l.NamesAllowed) (h : l.next.1 = .ok t) :
    t.NamesAllowed := by
  unfold Lexer.next at h
  split at h
  next a ha =>
    cases h
    exact hl _ ha
  next => exact namesAllowed_take h

end Lexer

end TwistLogic
