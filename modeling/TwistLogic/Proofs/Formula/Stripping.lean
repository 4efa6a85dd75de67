import Mathlib.Data.List.DropRight
import TwistLogic.Proofs.Formula.Continuation

/-!
# Lines without their comments

`Text.stripComment` cuts a line at its first `#` and trims what is left.  It does so without the
lexer, which has its own notion of white space and of comments.  The two agree: what stripping takes
away is a filler on both sides of what is kept (`Text.exists_blanks`), so the line and the stripped
line are read as the same formula, or fail behind the same complete formulas
(`Formula.read_stripComment`).

This needs that nothing but a filler begins with the first `#`.  A line has no newline, so the
comment goes on to its end (`Text.filler_comment`).
-/

namespace TwistLogic

namespace Text

variable {s : Text}

/-- What trimming takes away at the front of a text. -/
def indent (s : Text) : Text := s.takeWhile isTrimmed

/-- A text from its first `#` on. -/
def comment (s : Text) : Text := s.dropWhile (· != byte '#')

/-- What is trimmed is white space. -/
lemma isSpace_of_isTrimmed {c : UInt8} (hc : isTrimmed c = true) : isSpace c = true := by
  rcases Bool.or_eq_true_iff.mp hc with h | h
  · rcases Bool.or_eq_true_iff.mp h with h | h
    · exact isSpace_of_isBlank h
    · obtain rfl := beq_iff_eq.mp h
      rfl
  · obtain rfl := beq_iff_eq.mp h
    rfl

lemma isGap_indent (s : Text) : s.indent.IsGap :=
  fun _ hc => isSpace_of_isTrimmed (List.mem_takeWhile_imp hc)

/-- The first `#` stands behind the indent. -/
lemma indent_eq (s : Text) : s.indent = (s.takeWhile (· != byte '#')).takeWhile isTrimmed := by
  rw [List.takeWhile_takeWhile, indent]
  congr 1
  funext c
  by_cases hc : c = byte '#'
  · subst hc
    rfl
  · simp [hc]

/-- A text is its indent, its stripped part, white space and its comment. -/
lemma exists_blanks (s : Text) :
    ∃ blanks : Text, blanks.IsGap ∧ s = s.indent ++ (s.stripComment ++ (blanks ++ s.comment)) := by
  have hkept : s.stripComment =
      ((s.takeWhile (· != byte '#')).dropWhile isTrimmed).rdropWhile isTrimmed := rfl
  refine ⟨((s.takeWhile (· != byte '#')).dropWhile isTrimmed).rtakeWhile isTrimmed,
    fun c hc => isSpace_of_isTrimmed (List.mem_rtakeWhile_imp hc), ?_⟩
  rw [hkept, ← List.append_assoc (List.rdropWhile _ _), List.rdropWhile_append_rtakeWhile,
    indent_eq, ← List.append_assoc, List.takeWhile_append_dropWhile, comment,
    List.takeWhile_append_dropWhile]

/-- What is kept of a text. -/
lemma stripComment_sublist (s : Text) : s.stripComment.Sublist (s.takeWhile (· != byte '#')) :=
  (List.rdropWhile_prefix isTrimmed _).sublist.trans (List.dropWhile_sublist _)

lemma hash_notMem_stripComment (s : Text) : byte '#' ∉ s.stripComment := fun hmem => by
  simpa using List.mem_takeWhile_imp (s.stripComment_sublist.subset hmem)

/-- White space in front of a text does not matter for whether it is a filler. -/
lemma IsGap.filler_append_iff {gap rest : Text} (h : gap.IsGap) :
    Filler [] (gap ++ rest) ↔ Filler [] rest := by
  induction gap with
  | nil => rfl
  | cons c gap ih =>
    obtain ⟨hc, hgap⟩ := List.forall_mem_cons.mp h
    rw [← ih hgap, List.cons_append]
    constructor
    · intro hfiller
      generalize hsrc : c :: (gap ++ rest) = src at hfiller
      cases hfiller with
      | nil => cases hsrc
      | space _ hfiller =>
        cases hsrc
        exact hfiller
      | comment =>
        obtain ⟨rfl, -⟩ := List.cons.inj hsrc
        exact absurd hc (by decide)
    · exact .space hc

/-- White space in front of what ends a lexeme ends it as well. -/
lemma IsGap.endsLexeme_append {gap rest : Text} (h : gap.IsGap) (hrest : rest.EndsLexeme) :
    EndsLexeme (gap ++ rest) := by
  induction gap with
  | nil => exact hrest
  | cons c gap ih =>
    obtain ⟨hc, hgap⟩ := List.forall_mem_cons.mp h
    by_cases hblank : isBlank c = true
    · rw [EndsLexeme, List.cons_append, List.dropWhile_cons_of_pos hblank]
      exact ih hgap
    · rw [EndsLexeme, List.cons_append, List.dropWhile_cons_of_neg hblank]
      simp [hc]

lemma comment_eq_nil_or_cons (s : Text) :
    s.comment = [] ∨ ∃ body, s.comment = byte '#' :: body := by
  rcases hcomment : s.comment with _ | ⟨c, body⟩
  · exact .inl rfl
  · have hhead := List.head?_dropWhile_not (· != byte '#') s
    rw [show s.dropWhile (· != byte '#') = c :: body from hcomment] at hhead
    exact .inr ⟨body, by simpa using hhead⟩

lemma endsLexeme_comment (s : Text) : s.comment.EndsLexeme := by
  rcases s.comment_eq_nil_or_cons with h | ⟨body, h⟩
  · simp [h, EndsLexeme]
  · rw [h, EndsLexeme, List.dropWhile_cons_of_neg (by decide)]
    simp

/-- The comment of a line goes on to its end. -/
lemma filler_comment (hs : byte '\n' ∉ s) : Filler [] s.comment := by
  rcases s.comment_eq_nil_or_cons with h | ⟨body, h⟩
  · rw [h]
    exact .nil
  · have hbody : byte '\n' ∉ body := fun hmem => hs <|
      (List.dropWhile_sublist _).subset (h ▸ List.mem_cons_of_mem (byte '#') hmem)
    have hfiller : Filler [] (byte '#' :: (body ++ [])) := .comment hbody (by simp) .nil
    rwa [List.append_nil, ← h] at hfiller

end Text

/-- A source and what is kept of it are read as the same formula, or fail at places that correspond,
if the source ends in its first comment. -/
theorem Formula.read_stripComment {s : Text} (hs : Text.Filler [] s.comment)
    (line line' : UInt32) :
    ReadAlike s.indent.length s.stripComment.length (Formula.read s.stripComment line)
      (Formula.read s line') := by
  obtain ⟨blanks, hblanks, hsplit⟩ := s.exists_blanks
  have hread := Formula.read_alike (s.isGap_indent.filler (s.stripComment ++ (blanks ++ s.comment)))
    (hblanks.filler_append_iff.mpr hs) s.hash_notMem_stripComment line line'
  rwa [← hsplit] at hread

/-- If the source does not end in its first comment, it is another formula than what is kept of it,
even if both of them are formulas. -/
theorem Formula.size_lt_of_read_stripComment {s : Text} (hs : ¬Text.Filler [] s.comment)
    {line line' : UInt32} {φ ψ : Formula} (hφ : Formula.read s.stripComment line = .ok φ)
    (hψ : Formula.read s line' = .ok ψ) : φ.size < ψ.size := by
  obtain ⟨blanks, hblanks, hsplit⟩ := s.exists_blanks
  rw [hsplit] at hψ
  exact Formula.size_lt_of_read (s.isGap_indent.filler _)
    (hblanks.endsLexeme_append s.endsLexeme_comment) (hblanks.filler_append_iff.not.mpr hs)
    s.hash_notMem_stripComment hφ hψ

/-- Readings with the same outcome leave the same store behind. -/
lemma ReadAlike.addRead {d stop : Nat} {r r' : Except ReadFailure Formula}
    (h : ReadAlike d stop r r') (store : FormulaStore) :
    (store.addRead r).2 = (store.addRead r').2 ∧
      ∀ id, (store.addRead r).1 = .ok id ↔ (store.addRead r').1 = .ok id := by
  cases h with
  | ok φ => exact ⟨rfl, fun id => Iff.rfl⟩
  | error hcompleted =>
    refine ⟨congrArg store.addAll hcompleted, fun id => ?_⟩
    simp [FormulaStore.addRead]

/-- Nothing is no formula. -/
lemma Formula.ne_nil_of_read_eq_ok {s : Text} {line : UInt32} {φ : Formula}
    (h : Formula.read s line = .ok φ) : s ≠ [] := by
  rintro rfl
  have hnext : (Lexer.start [] line).next =
      (.ok (.endOfInput (.start line)), (Lexer.start [] line).skip 0) := rfl
  have hstream : (Lexer.start [] line).stream =
      .done (.endOfInput (.start line)) ((Lexer.start [] line).skip 0) := by
    rw [Lexer.stream_of_next hnext, if_pos]
    rfl
  rw [Formula.read, Parser.readWhole, Parser.readFormula, Parser.start, hstream] at h
  cases h

/-- A line and the line without its comment mean the same: they have the same number in every store,
or none, and leave the same formulas behind.  If nothing is kept of a line, it is no formula. -/
theorem FormulaStore.parse_stripComment {s : Text} (hs : byte '\n' ∉ s) (store : FormulaStore)
    (line line' : UInt32) :
    (store.parse s.stripComment line).2 = (store.parse s line').2 ∧
    (∀ id, (store.parse s.stripComment line).1 = .ok id ↔ (store.parse s line').1 = .ok id) ∧
    (s.stripComment = [] → ∃ e, (store.parse s line').1 = .error e) := by
  have hread := Formula.read_stripComment (Text.filler_comment hs) line line'
  obtain ⟨hstore, hid⟩ := hread.addRead store
  refine ⟨hstore, hid, fun hempty => ?_⟩
  cases hline : Formula.read s line' with
  | error f => exact ⟨f.error, parse_eq_error_iff.mpr ⟨f, hline, rfl⟩⟩
  | ok φ =>
    rw [hline] at hread
    generalize hkept : Formula.read s.stripComment line = r at hread
    cases hread
    exact absurd hempty (Formula.ne_nil_of_read_eq_ok hkept)

/-- A line with a comment that stands behind a formula and holds an open label. -/
theorem FormulaStore.parse_stripComment_open_label :
    let s := ascii "\t p & [go] q # ["
    byte '\n' ∉ s ∧ s.stripComment = ascii "p & [go] q" ∧
    (initial.parse s.stripComment 1).2 = (initial.parse s 1).2 ∧
    (initial.parse s 1).1 = .ok 5 := by
  intro s
  have hline : byte '\n' ∉ s := by decide
  obtain ⟨hstore, hid, -⟩ := parse_stripComment hline initial 1 1
  exact ⟨hline, by decide, hstore, (hid 5).mp (by decide +kernel)⟩

end TwistLogic
