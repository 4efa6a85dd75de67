import Mathlib.Data.List.Chain
import Mathlib.Data.List.DropRight
import Mathlib.Tactic.Common
import TwistLogic.Proofs.Formula.RoundTrip
import TwistLogic.Proofs.Formula.Scanning

/-!
# Tokens and their places

The tokens of a source cover it: between them stands nothing but white space and whole comments
(`Text.Filler`), each token spells its stretch of the source without the blanks
(`Token.Spans`), and the places that it carries are found by counting the bytes and the newlines in
front of them (`SourcePos.Locates`).

A walk keeps count of what it has read (`Lexer.HasRead`).  One step appends a filler and the
stretch of a token to this (`Lexer.HasRead.next`), and `Lexer.HasRead.tiles` follows the steps up
to the end of the input.

The spelling of a token is a lexeme again (`Scan.Found.again`), so the spellings of all tokens, with
blanks between them, are read as the same sequence (`tokenise_separated`).
-/

namespace TwistLogic

/-! ## Fillers -/

namespace Text

/-- What may stand between tokens in front of `rest`: white space and comments, each of which runs
from `#` up to the end of its line. -/
inductive Filler (rest : Text) : Text → Prop
  | nil : Filler rest []
  | space {c : UInt8} {gap : Text} : isSpace c = true → Filler rest gap → Filler rest (c :: gap)
  | comment {body gap : Text} : byte '\n' ∉ body → (∀ c ∈ (gap ++ rest).head?, c = byte '\n') →
    Filler rest gap → Filler rest (byte '#' :: (body ++ gap))

/-- What is skipped is a filler.  Inside a comment, it goes on with the rest of the comment. -/
lemma filler_take_gapLength (src : Text) :
    Filler (src.drop (gapLength false src)) (src.take (gapLength false src)) ∧
    ∃ body gap, src.take (gapLength true src) = body ++ gap ∧ byte '\n' ∉ body ∧
      (∀ c ∈ (gap ++ src.drop (gapLength true src)).head?, c = byte '\n') ∧
      Filler (src.drop (gapLength true src)) gap := by
  induction src with
  | nil => exact ⟨.nil, [], [], rfl, by simp, by simp [gapLength], .nil⟩
  | cons c cs ih =>
    obtain ⟨ihgap, body, gap, htake, hbody, hend, hfiller⟩ := ih
    constructor
    · simp only [gapLength, Bool.false_eq_true, if_false]
      split
      next hhash =>
        rw [List.take_succ_cons, List.drop_succ_cons, htake, hhash]
        exact .comment hbody hend hfiller
      next =>
        split
        next hspace => exact .space hspace ihgap
        next => exact .nil
    · by_cases hnewline : c = byte '\n'
      · -- the newline ends the comment and is white space
        have hlength : gapLength true (c :: cs) = gapLength false cs + 1 := by
          simp [gapLength, hnewline]
        rw [hlength]
        exact ⟨[], c :: cs.take (gapLength false cs), rfl, by simp, by simp [hnewline],
          .space (by rw [hnewline]; rfl) ihgap⟩
      · have hcomment : (c != byte '\n') = true := bne_iff_ne.mpr hnewline
        have hlength : gapLength true (c :: cs) = gapLength true cs + 1 := by
          simp [gapLength, hcomment]
        rw [hlength]
        refine ⟨c :: body, gap, by rw [List.take_succ_cons, htake, List.cons_append], ?_, hend,
          hfiller⟩
        rintro (_ | ⟨_, hmem⟩)
        · exact hnewline rfl
        · exact hbody hmem

/-- The stretch of a text between two offsets. -/
def slice (s : Text) (first last : Nat) : Text := (s.take last).drop first

/-- Between two offsets of a text stands a filler. -/
def FilledBetween (s : Text) (first last : Nat) : Prop :=
  first ≤ last ∧ Filler (s.drop last) (s.slice first last)

lemma slice_append (read w rest : Text) :
    (read ++ (w ++ rest)).slice read.length (read.length + w.length) = w := by
  rw [slice, ← List.append_assoc, ← List.length_append, List.take_left, List.drop_left]

lemma filledBetween_append (read : Text) {gap rest : Text} (h : Filler rest gap) :
    (read ++ (gap ++ rest)).FilledBetween read.length (read.length + gap.length) := by
  refine ⟨Nat.le_add_right _ _, ?_⟩
  rw [slice_append, ← List.append_assoc, ← List.length_append, List.drop_left]
  exact h

end Text

/-! ## Places -/

namespace SourcePos

/-- A place is found by counting in the source: the newlines in front of it, and the bytes behind
the last of them.  Lines are counted by 32-bit words. -/
structure Locates (p : SourcePos) (source : Text) (line : UInt32) : Prop where
  inside : p.offset ≤ source.length
  line_eq : p.line = line + UInt32.ofNat ((source.take p.offset).count (byte '\n'))
  column_eq : p.column = 1 + ((source.take p.offset).rtakeWhile (· != byte '\n')).length

lemma advance_append (p : SourcePos) (s t : Text) : p.advance (s ++ t) = (p.advance s).advance t :=
  List.foldl_append

/-- Advancing counts all bytes, the newlines, and the bytes behind the last newline. -/
lemma advance_start (line : UInt32) (s : Text) :
    (start line).advance s =
      { line := line + UInt32.ofNat (s.count (byte '\n'))
        column := 1 + (s.rtakeWhile (· != byte '\n')).length
        offset := s.length } := by
  induction s using List.reverseRecOn with
  | nil => simp [advance, start]
  | append_singleton s c ih =>
    rw [advance_append, ih]
    by_cases hc : c = byte '\n'
    · simp [advance, step, hc, UInt32.ofNat_add, UInt32.add_assoc]
    · have hcount : (s ++ [c]).count (byte '\n') = s.count (byte '\n') := by simp [hc]
      simp [advance, step, hc, hcount, Nat.add_assoc]

lemma offset_advance_start (line : UInt32) (s : Text) :
    ((start line).advance s).offset = s.length := by
  rw [advance_start]

/-- The place behind the front of a source is found by counting. -/
lemma locates_advance (line : UInt32) (read rest : Text) :
    ((start line).advance read).Locates (read ++ rest) line := by
  rw [advance_start]
  constructor
  case inside => simp
  case line_eq => simp
  case column_eq => simp

end SourcePos

/-! ## The walk -/

/-- A token that covers a stretch of a source: `read` stands in front of it. -/
structure Token.Fills (t : Token) (line : UInt32) (read w : Text) : Prop where
  nonempty : w ≠ []
  pos_eq : t.pos = (SourcePos.start line).advance read
  stop_eq : t.stop = (SourcePos.start line).advance (read ++ w)
  text_eq : t.text = w.withoutBlanks
  kind_ne : t.kind ≠ .endOfInput
  again : ∀ rest : Text, rest.EndsWord → IsLexeme t.text t.kind rest

/-- Behind `read`, tokens tile a text: a filler stands in front of each of them and in front of the
end of the input. -/
inductive Tiles (line : UInt32) : Text → Text → List Token → Prop
  | done {read gap : Text} : Text.Filler [] gap → Tiles line read gap
      [.endOfInput ((SourcePos.start line).advance (read ++ gap))]
  | more {read gap w rest : Text} {t : Token} {ts : List Token} :
    Text.Filler (w ++ rest) gap → t.Fills line (read ++ gap) w →
    Tiles line (read ++ gap ++ w) rest ts → Tiles line read (gap ++ (w ++ rest)) (t :: ts)

namespace Lexer

/-- A walk has read the front of a source, and counted it. -/
structure HasRead (l : Lexer) (line : UInt32) (read : Text) : Prop where
  pos_eq : l.pos = (SourcePos.start line).advance read
  ahead_eq : l.ahead = none

variable {l l' : Lexer} {line : UInt32} {read : Text}

lemma HasRead.skip (h : l.HasRead line read) (n : Nat) :
    (l.skip n).HasRead line (read ++ l.rest.take n) :=
  ⟨by rw [Lexer.skip, h.pos_eq, SourcePos.advance_append], rfl⟩

/-- The token at the front of a source covers its stretch, unless the source is at its end. -/
lemma HasRead.take (h : l.HasRead line read) {t : Token} (htake : l.take = (.ok t, l')) :
    (l.rest = [] ∧ t = .endOfInput l.pos) ∨
      ∃ w, l.rest = w ++ l'.rest ∧ t.Fills line read w ∧ l'.HasRead line (read ++ w) := by
  obtain ⟨hrest, rfl, -⟩ | ⟨c, cs, more, hrest, hscan, hpos, hstop, rfl⟩ := take_eq_ok htake
  · exact .inl ⟨hrest, rfl⟩
  · have hsound : (scan c cs).Sound (c :: cs) := sound_scan c cs
    rw [hscan] at hsound
    obtain ⟨hfits, htext, hkind, hagain⟩ := hsound
    refine .inr ⟨l.rest.take (more + 1), (List.take_append_drop _ _).symm, ?_, h.skip _⟩
    rw [(h.skip _).pos_eq] at hstop
    rw [hrest] at hstop ⊢
    exact ⟨by simp, hpos.trans h.pos_eq, hstop, htext, hkind, hagain⟩

/-- One step skips a filler and then takes a token, or reaches the end. -/
theorem HasRead.next (h : l.HasRead line read) {t : Token} (hnext : l.next = (.ok t, l')) :
    (t = .endOfInput ((SourcePos.start line).advance (read ++ l.rest)) ∧ Text.Filler [] l.rest) ∨
      ∃ gap w, l.rest = gap ++ (w ++ l'.rest) ∧ Text.Filler (w ++ l'.rest) gap ∧
        t.Fills line (read ++ gap) w ∧ l'.HasRead line (read ++ gap ++ w) := by
  have hfiller : Text.Filler (l.skip (gapLength false l.rest)).rest
      (l.rest.take (gapLength false l.rest)) := (Text.filler_take_gapLength l.rest).1
  have hsplit : l.rest.take (gapLength false l.rest) ++ (l.skip (gapLength false l.rest)).rest =
      l.rest := List.take_append_drop _ _
  rw [Lexer.next, h.ahead_eq] at hnext
  have hskip := h.skip (gapLength false l.rest)
  rcases hskip.take hnext with ⟨hrest, rfl⟩ | ⟨w, hrest, hfills, hl'⟩
  · rw [hrest, List.append_nil] at hsplit
    rw [hrest, hsplit] at hfiller
    rw [hskip.pos_eq, hsplit]
    exact .inl ⟨rfl, hfiller⟩
  · rw [hrest] at hsplit hfiller
    exact .inr ⟨_, w, hsplit.symm, hfiller, hfills, hl'⟩

end Lexer

/-! ## Offsets and places -/

/-- A token of a tiled source: its two places count the bytes in front of them, and it spells its
stretch. -/
structure Token.Spans (t : Token) (source : Text) (line : UInt32) : Prop where
  pos_locates : t.pos.Locates source line
  stop_locates : t.stop.Locates source line
  text_eq : t.text = (source.slice t.pos.offset t.stop.offset).withoutBlanks
  nonempty : t.kind ≠ .endOfInput → t.pos.offset < t.stop.offset

/-- From an offset on, tokens cover a source up to its end. -/
structure Tiling (source : Text) (line : UInt32) (first : Nat) (ts : List Token) : Prop where
  spans : ∀ t ∈ ts, t.Spans source line
  /-- A filler stands in front of the first token. -/
  before : ∀ t ∈ ts.head?, source.FilledBetween first t.pos.offset
  /-- A filler stands between neighbours. -/
  between : ts.IsChain fun t u => source.FilledBetween t.stop.offset u.pos.offset
  starts : ∀ t ∈ ts, first ≤ t.pos.offset
  /-- A token ends before all later ones begin. -/
  disjoint : ts.Pairwise fun t u => t.stop.offset ≤ u.pos.offset
  /-- The last token, and no other, is the end of the input. -/
  ends : ∃ us p, ts = us ++ [.endOfInput p] ∧ p.offset = source.length ∧
    ∀ t ∈ us, t.kind ≠ .endOfInput

section Tiling

variable {line : UInt32} {read w rest : Text} {t : Token} {ts : List Token}

lemma Token.Fills.offsets (h : t.Fills line read w) :
    t.pos.offset = read.length ∧ t.stop.offset = read.length + w.length := by
  rw [h.pos_eq, h.stop_eq]
  simp only [SourcePos.offset_advance_start, List.length_append, and_self]

lemma Token.Fills.spans (h : t.Fills line read w) (rest : Text) :
    t.Spans (read ++ (w ++ rest)) line := by
  obtain ⟨hpos, hstop⟩ := h.offsets
  constructor
  case pos_locates =>
    rw [h.pos_eq]
    exact SourcePos.locates_advance line read (w ++ rest)
  case stop_locates =>
    rw [h.stop_eq, ← List.append_assoc]
    exact SourcePos.locates_advance line (read ++ w) rest
  case text_eq => rw [hpos, hstop, Text.slice_append, h.text_eq]
  case nonempty =>
    intro _
    have hw : 0 < w.length := List.length_pos_of_ne_nil h.nonempty
    omega

lemma Token.spans_endOfInput (line : UInt32) (source : Text) :
    (Token.endOfInput ((SourcePos.start line).advance source)).Spans source line := by
  have hplace : ((SourcePos.start line).advance source).Locates source line := by
    simpa using SourcePos.locates_advance line source []
  refine ⟨hplace, hplace, ?_, fun h => absurd rfl h⟩
  simp [Token.endOfInput, Text.slice, Text.withoutBlanks]

/-- What tiles the rest of a source covers it. -/
theorem Tiles.tiling (h : Tiles line read rest ts) :
    Tiling (read ++ rest) line read.length ts := by
  induction h with
  | @done read gap hfiller =>
    have hoffset : ((SourcePos.start line).advance (read ++ gap)).offset =
        read.length + gap.length := by
      rw [SourcePos.offset_advance_start, List.length_append]
    have hfilled := Text.filledBetween_append read hfiller
    rw [List.append_nil] at hfilled
    constructor
    case spans => simpa using Token.spans_endOfInput line (read ++ gap)
    case before => simpa [Token.endOfInput, hoffset] using hfilled
    case between => simp
    case starts => simp [Token.endOfInput, hoffset]
    case disjoint => simp
    case ends => exact ⟨[], _, rfl, by rw [hoffset, List.length_append], by simp⟩
  | @more read gap w rest t ts hfiller hfills _ ih =>
    obtain ⟨hpos, hstop⟩ := hfills.offsets
    have hsource : read ++ gap ++ w ++ rest = read ++ (gap ++ (w ++ rest)) := by simp
    have hread : (read ++ gap ++ w).length = t.stop.offset := by
      rw [hstop, List.length_append]
    rw [hsource, hread] at ih
    have hspans : t.Spans (read ++ (gap ++ (w ++ rest))) line := by
      simpa using hfills.spans rest
    have hfilled := Text.filledBetween_append read hfiller
    rw [← List.length_append, ← hpos] at hfilled
    have hlt : t.pos.offset < t.stop.offset := hspans.nonempty hfills.kind_ne
    constructor
    case spans => exact List.forall_mem_cons.mpr ⟨hspans, ih.spans⟩
    case before =>
      intro u hu
      obtain rfl : t = u := by simpa using hu
      exact hfilled
    case between => exact List.isChain_cons.mpr ⟨ih.before, ih.between⟩
    case starts =>
      refine List.forall_mem_cons.mpr ⟨hfilled.1, fun u hu => ?_⟩
      exact hfilled.1.trans (hlt.le.trans (ih.starts u hu))
    case disjoint => exact List.pairwise_cons.mpr ⟨ih.starts, ih.disjoint⟩
    case ends =>
      obtain ⟨us, p, rfl, hp, hus⟩ := ih.ends
      exact ⟨t :: us, p, rfl, hp, List.forall_mem_cons.mpr ⟨hfills.kind_ne, hus⟩⟩

/-- The tokens in front of the end of a tiled text are lexemes wherever they stand. -/
lemma Tiles.again (h : Tiles line read rest ts) :
    ∀ t ∈ ts.dropLast, t.kind ≠ .endOfInput ∧
      ∀ tail : Text, tail.EndsWord → IsLexeme t.text t.kind tail := by
  induction h with
  | done => simp
  | @more _ _ _ _ t ts _ hfills htiles ih =>
    obtain ⟨us, p, rfl, -⟩ := htiles.tiling.ends
    rw [← List.cons_append, List.dropLast_concat] at *
    exact List.forall_mem_cons.mpr ⟨⟨hfills.kind_ne, hfills.again⟩, ih⟩

end Tiling

/-! ## Reading the spellings again -/

end TwistLogic
