import Mathlib.Tactic.Common
import TwistLogic.Proofs.Formula.Tiling

/-!
# What ends a lexeme

White space and comments are skipped as a whole (`Text.Filler.gapLength_append`), and no lexeme goes
on into them.  `Text.EndsLexeme` is what this takes: behind its blanks, a text goes on with white
space or a comment, if at all.  Blanks are left out because they may stand inside a modality.

A scan of a stretch of source finds the same whether or not something that ends a lexeme stands
behind the stretch (`alike_scan`).  Only a label that is not closed aims at another place, since the
blanks behind it are skipped before the closing bracket is missed.
-/

namespace TwistLogic

/-! ## Fillers -/

namespace Text

variable {gap rest post cs : Text}

/-- White space may stand in front of anything. -/
lemma IsGap.filler (h : gap.IsGap) (rest : Text) : Filler rest gap := by
  induction gap with
  | nil => exact .nil
  | cons c gap ih =>
    obtain ⟨hc, hgap⟩ := List.forall_mem_cons.mp h
    exact .space hc (ih hgap)

/-- A filler without a comment is white space. -/
lemma Filler.isGap (h : Filler rest gap) (hhash : byte '#' ∉ gap) : gap.IsGap := by
  induction h with
  | nil => exact isGap_nil
  | space hc _ ih =>
    exact List.forall_mem_cons.mpr ⟨hc, ih fun hmem => hhash (List.mem_cons_of_mem _ hmem)⟩
  | comment => exact absurd List.mem_cons_self hhash

/-- A comment goes on to the end of its line. -/
lemma gapLength_comment {body : Text} (hbody : byte '\n' ∉ body)
    (hrest : ∀ c ∈ rest.head?, c = byte '\n') :
    gapLength true (body ++ rest) = body.length + gapLength false rest := by
  induction body with
  | nil =>
    cases rest with
    | nil => rfl
    | cons c rest =>
      obtain rfl := hrest c rfl
      simp [gapLength, isSpace, byte]
  | cons c body ih =>
    obtain ⟨hc, hbody⟩ := not_or.mp (List.mem_cons.not.mp hbody)
    have hnewline : (c != byte '\n') = true := bne_iff_ne.mpr (Ne.symm hc)
    rw [List.cons_append, gapLength, if_pos rfl, hnewline, ih hbody, List.length_cons]
    omega

/-- A filler is skipped as a whole. -/
lemma Filler.gapLength_append (h : Filler rest gap) :
    gapLength false (gap ++ rest) = gap.length + gapLength false rest := by
  induction h with
  | nil => simp
  | space hc _ ih =>
    rw [List.cons_append, gapLength_cons_of_isSpace hc, ih, List.length_cons]
    omega
  | @comment body gap hbody hhead _ ih =>
    rw [List.cons_append, gapLength, if_neg Bool.false_ne_true, if_pos rfl, List.append_assoc,
      gapLength_comment hbody hhead, ih, List.length_cons, List.length_append]
    omega

lemma gapLength_le (inComment : Bool) (src : Text) : gapLength inComment src ≤ src.length := by
  fun_induction gapLength inComment src with
  | case1 => exact Nat.le_refl 0
  | case2 c cs ih => exact Nat.succ_le_succ ih
  | case3 inComment cs _ ih => exact Nat.succ_le_succ ih
  | case4 inComment c cs _ _ _ ih => exact Nat.succ_le_succ ih
  | case5 => exact Nat.zero_le _

/-- Behind what is skipped, nothing more is. -/
lemma gapLength_drop (inComment : Bool) (src : Text) :
    gapLength false (src.drop (gapLength inComment src)) = 0 := by
  fun_induction gapLength inComment src with
  | case1 => rfl
  | case2 c cs ih => exact ih
  | case3 inComment cs _ ih => exact ih
  | case4 inComment c cs _ _ _ ih => exact ih
  | case5 inComment c cs hcomment hhash hspace =>
    simp [gapLength, hhash, hspace]

/-- What begins neither with white space nor with a comment begins with no gap. -/
lemma gapLength_cons_eq_zero_iff {c : UInt8} :
    gapLength false (c :: cs) = 0 ↔ c ≠ byte '#' ∧ isSpace c = false := by
  rw [gapLength, if_neg Bool.false_ne_true]
  split_ifs <;> simp_all

/-! ## Ends of lexemes -/

/-- Behind its blanks, a text goes on with white space or a comment, if at all. -/
def EndsLexeme (post : Text) : Prop :=
  ∀ c ∈ (post.dropWhile isBlank).head?, isSpace c = true ∨ c = byte '#'

lemma Filler.endsLexeme (h : Filler [] post) : post.EndsLexeme := by
  induction h with
  | nil => simp [EndsLexeme]
  | @space c gap hc _ ih =>
    by_cases hblank : isBlank c = true
    · rwa [EndsLexeme, List.dropWhile_cons_of_pos hblank]
    · rw [EndsLexeme, List.dropWhile_cons_of_neg hblank]
      simp [hc]
  | comment =>
    rw [EndsLexeme, List.dropWhile_cons_of_neg (by decide)]
    simp

/-- A blank is white space. -/
lemma isSpace_of_isBlank {c : UInt8} (hc : isBlank c = true) : isSpace c = true := by
  rcases Bool.or_eq_true_iff.mp hc with h | h
  all_goals
    obtain rfl := beq_iff_eq.mp h
    rfl

namespace EndsLexeme

/-- What ends a lexeme begins with white space or a comment itself. -/
lemma head (h : post.EndsLexeme) : ∀ c ∈ post.head?, isSpace c = true ∨ c = byte '#' := by
  intro c hc
  obtain ⟨tail, rfl⟩ := List.head?_eq_some_iff.mp hc
  by_cases hblank : isBlank c = true
  · exact .inl (isSpace_of_isBlank hblank)
  · exact h c (by simp [List.dropWhile_cons_of_neg hblank])

lemma endsWord (h : post.EndsLexeme) : post.EndsWord := by
  intro c hc
  rcases h.head c hc with hspace | rfl
  · exact isWord_eq_false_of_isSpace hspace
  · rfl

/-- The rest behind the blanks ends a lexeme as well. -/
lemma dropBlanks (h : post.EndsLexeme) : EndsLexeme (post.dropWhile isBlank) := by
  rwa [EndsLexeme, List.dropWhile_idempotent]

/-- A byte that begins no gap does not stand in front of what ends a lexeme. -/
lemma head?_ne (h : post.EndsLexeme) {b : UInt8} (hspace : isSpace b = false)
    (hhash : b ≠ byte '#') : post.head? ≠ some b := by
  intro hb
  rcases h.head b hb with hb | hb
  · rw [hspace] at hb
    cases hb
  · exact hhash hb

lemma headD_ne (h : post.EndsLexeme) {b : UInt8} (hzero : b ≠ 0) (hspace : isSpace b = false)
    (hhash : b ≠ byte '#') : post.headD 0 ≠ b := by
  cases post with
  | nil => exact Ne.symm hzero
  | cons c post =>
    rintro rfl
    exact h.head?_ne hspace hhash rfl

/-- Such a byte is the first one of a text exactly if it was before. -/
lemma head?_append_eq_some_iff (h : post.EndsLexeme) {b : UInt8} (hspace : isSpace b = false)
    (hhash : b ≠ byte '#') : (cs ++ post).head? = some b ↔ cs.head? = some b := by
  cases cs with
  | nil => simpa using h.head?_ne hspace hhash
  | cons c cs => simp

/-- Words end before it. -/
lemma takeWhile_isWord_append (h : post.EndsLexeme) (cs : Text) :
    (cs ++ post).takeWhile isWord = cs.takeWhile isWord := by
  have hnil : post.takeWhile isWord = [] := takeWhile_isWord (w := []) (by simp) h.endsWord
  rw [List.takeWhile_append, hnil, List.append_nil]
  split
  next hall => exact ((List.takeWhile_prefix isWord).eq_of_length hall).symm
  next => rfl

lemma dropWhile_isWord_append (h : post.EndsLexeme) (cs : Text) :
    (cs ++ post).dropWhile isWord = cs.dropWhile isWord ++ post := by
  have hsplit : (cs ++ post).takeWhile isWord ++ (cs ++ post).dropWhile isWord = cs ++ post :=
    List.takeWhile_append_dropWhile
  have hcs : cs.takeWhile isWord ++ (cs.dropWhile isWord ++ post) = cs ++ post := by
    rw [← List.append_assoc, List.takeWhile_append_dropWhile]
  rw [h.takeWhile_isWord_append] at hsplit
  exact List.append_cancel_left (hsplit.trans hcs.symm)

end EndsLexeme

/-- Blanks of a text that does not consist of blanks are not changed by what follows. -/
lemma blanks_append {d : UInt8} {r : Text} (hr : cs.dropWhile isBlank = d :: r) (post : Text) :
    (cs ++ post).takeWhile isBlank = cs.takeWhile isBlank ∧
      (cs ++ post).dropWhile isBlank = cs.dropWhile isBlank ++ post := by
  have hlength : (cs.takeWhile isBlank).length ≠ cs.length := by
    intro hall
    have hsplit := congrArg List.length (List.takeWhile_append_dropWhile (p := isBlank) (l := cs))
    rw [List.length_append, hall, hr, List.length_cons] at hsplit
    omega
  rw [List.takeWhile_append, List.dropWhile_append, if_neg hlength, hr]
  exact ⟨rfl, rfl⟩

end Text

/-! ## One token -/

/-- Two scans of a stretch of source, the second one with something behind the stretch.  They find
the same token, or the same fault, which aims at the same place unless this is behind the end of the
stretch. -/
inductive Scan.Alike (length : Nat) : Scan → Scan → Prop
  | token (kind : TokenKind) (text : Text) (more : Nat) :
    Alike length (.token kind text more) (.token kind text more)
  | fault {f : SyntaxFault} {text text' : Text} {shift shift' read read' : Nat} :
    shift = min shift' length → Alike length (.fault f text shift read) (.fault f text' shift' read')

section Scan

open Text

variable {c : UInt8} {cs post : Text} {length : Nat}

/-- A fault that aims at the front. -/
lemma Scan.alike_front {f : SyntaxFault} {text text' : Text} {read read' : Nat} :
    Scan.Alike length (.fault f text 0 read) (.fault f text' 0 read') :=
  .fault (Nat.zero_min _).symm

/-- Scans under the same condition. -/
lemma Scan.alike_ite {p : Prop} [Decidable p] {a a' b b' : Scan} (ha : p → a.Alike length a')
    (hb : ¬p → b.Alike length b') :
    Scan.Alike length (if p then a else b) (if p then a' else b') := by
  by_cases h : p
  · simpa only [if_pos h] using ha h
  · simpa only [if_neg h] using hb h

lemma alike_scanWord (hpost : post.EndsLexeme) (c : UInt8) (cs : Text) :
    (scanWord c cs).Alike length (scanWord c (cs ++ post)) := by
  rw [scanWord_congr (hpost.takeWhile_isWord_append cs)]
  cases hscan : scanWord c cs with
  | token k text more => exact .token k text more
  | fault f text shift read =>
    unfold scanWord at hscan
    dsimp only at hscan
    split_ifs at hscan
    cases hscan
    exact Scan.alike_front

/-- A label behind two brackets begins with an underscore and goes on with a word. -/
lemma scanLongLabel_cons_of_not {u : UInt8} (m : Modality) {cs : Text}
    (h : u = byte '_' → ∀ c ∈ cs.head?, isWord c = false) :
    scanLongLabel m (u :: cs) = .fault (.missingLabel m) m.symbol 0 2 := by
  cases cs with
  | nil => rfl
  | cons c cs =>
    rw [scanLongLabel, if_neg]
    intro hlabel
    obtain ⟨hu, hc⟩ := Bool.and_eq_true_iff.mp hlabel
    rw [h (of_decide_eq_true hu) c rfl] at hc
    cases hc

lemma alike_scanLongLabel (m : Modality) (hpost : post.EndsLexeme) (cs : Text) :
    (scanLongLabel m cs).Alike length (scanLongLabel m (cs ++ post)) := by
  cases cs with
  | nil =>
    cases post with
    | nil => exact Scan.alike_front
    | cons u post =>
      have hu : u ≠ byte '_' := by
        rintro rfl
        exact hpost.head?_ne (by rfl) (by decide) rfl
      rw [List.nil_append, scanLongLabel_cons_of_not m fun h => absurd h hu]
      exact Scan.alike_front
  | cons u cs =>
    cases cs with
    | nil =>
      rw [scanLongLabel_cons_of_not m fun _ => by simp, List.singleton_append,
        scanLongLabel_cons_of_not m fun _ => hpost.endsWord]
      exact Scan.alike_front
    | cons c cs =>
      have htake := hpost.takeWhile_isWord_append (c :: cs)
      rw [List.cons_append] at htake
      simp only [List.cons_append, scanLongLabel, List.tail_cons, htake]
      split
      · exact .token _ _ _
      · exact Scan.alike_front

/-- A modality whose brackets have a label, or none, between them. -/
lemma alike_scanModality (m : Modality) (hpost : post.EndsLexeme) (cs : Text) :
    (scanModality m cs).Alike (cs.length + 1) (scanModality m (cs ++ post)) := by
  have hspace : isSpace m.closing = false := by cases m <;> rfl
  have hhash : m.closing ≠ byte '#' := by cases m <;> decide
  have hzero : m.closing ≠ 0 := by cases m <;> decide
  unfold scanModality
  simp only [hpost.head?_append_eq_some_iff hspace hhash]
  split
  next hclosing =>
    obtain ⟨tail, rfl⟩ := List.head?_eq_some_iff.mp hclosing
    exact alike_scanLongLabel m hpost tail
  next =>
    rcases hbody : cs.dropWhile isBlank with _ | ⟨d, body⟩
    · -- only blanks stand in the stretch, and no label behind it
      have hdrop : (cs ++ post).dropWhile isBlank = post.dropWhile isBlank := by
        rw [List.dropWhile_append, hbody]
        rfl
      have hword : (post.dropWhile isBlank).takeWhile isWord = [] :=
        takeWhile_isWord (w := []) (by simp) hpost.dropBlanks.endsWord
      rw [hdrop, hword]
      exact Scan.alike_front
    · obtain ⟨htake, hdrop⟩ := blanks_append hbody post
      rw [htake, hdrop, hbody, hpost.takeWhile_isWord_append, hpost.dropWhile_isWord_append]
      have hlength : (cs.takeWhile isBlank).length + ((d :: body).takeWhile isWord).length +
          ((d :: body).dropWhile isWord).length = cs.length := by
        rw [Nat.add_assoc, ← List.length_append, List.takeWhile_append_dropWhile, ← hbody,
          ← List.length_append, List.takeWhile_append_dropWhile]
      generalize (d :: body).takeWhile isWord = action at hlength ⊢
      generalize (d :: body).dropWhile isWord = behind at hlength ⊢
      split
      next => exact Scan.alike_front
      next =>
        rcases hbehind : behind.dropWhile isBlank with _ | ⟨e, tail⟩
        · -- the label is open at the end of the stretch
          have hdrop' : (behind ++ post).dropWhile isBlank = post.dropWhile isBlank := by
            rw [List.dropWhile_append, hbehind]
            rfl
          have hopen : (post.dropWhile isBlank).headD 0 ≠ m.closing :=
            EndsLexeme.headD_ne hpost.dropBlanks hzero hspace hhash
          have hblanks : behind.takeWhile isBlank = behind := by
            have hsplit := List.takeWhile_append_dropWhile (p := isBlank) (l := behind)
            rwa [hbehind, List.append_nil] at hsplit
          have hle : behind.length ≤ ((behind ++ post).takeWhile isBlank).length := by
            rw [List.takeWhile_append, hblanks, if_pos rfl, List.length_append]
            exact Nat.le_add_right _ _
          rw [hdrop', if_neg hopen, if_neg (by simpa using hzero.symm), hblanks]
          exact .fault (by omega)
        · obtain ⟨htake', hdrop'⟩ := blanks_append hbehind post
          rw [htake', hdrop', hbehind]
          simp only [List.cons_append, List.headD_cons]
          have hle : (behind.takeWhile isBlank).length ≤ behind.length :=
            (List.takeWhile_prefix _).length_le
          exact Scan.alike_ite (fun _ => .token _ _ _) fun _ => .fault (by omega)

/-- What is found at the front of a stretch is found there whatever ends the lexeme. -/
theorem alike_scan (hpost : post.EndsLexeme) (c : UInt8) (cs : Text) :
    (scan c cs).Alike (cs.length + 1) (scan c (cs ++ post)) := by
  have hhead : ∀ {cs : Text}, (cs ++ post).head? = some (byte '>') ↔ cs.head? = some (byte '>') :=
    hpost.head?_append_eq_some_iff (by rfl) (by decide)
  have hdash : (cs ++ post).head? = some (byte '-') ↔ cs.head? = some (byte '-') :=
    hpost.head?_append_eq_some_iff (by rfl) (by decide)
  unfold scan
  simp only [hhead, hdash]
  refine Scan.alike_ite (fun _ => .token _ _ _) fun _ => ?_
  refine Scan.alike_ite (fun _ => .token _ _ _) fun _ => ?_
  refine Scan.alike_ite (fun _ => .token _ _ _) fun _ => ?_
  refine Scan.alike_ite (fun _ => .token _ _ _) fun _ => ?_
  refine Scan.alike_ite (fun _ => .token _ _ _) fun _ => ?_
  refine Scan.alike_ite (fun _ => ?_) fun _ => ?_
  · exact Scan.alike_ite (fun _ => .token _ _ _) fun _ => Scan.alike_front
  refine Scan.alike_ite (fun _ => ?_) fun _ => ?_
  · exact Scan.alike_ite (fun _ => .token _ _ _) fun _ => Scan.alike_front
  refine Scan.alike_ite (fun _ => alike_scanModality .box hpost cs) fun _ => ?_
  refine Scan.alike_ite (fun _ => ?_) fun _ => ?_
  · refine Scan.alike_ite (fun hcs => ?_) fun _ => alike_scanModality .diamond hpost cs
    obtain ⟨tail, rfl⟩ := List.head?_eq_some_iff.mp hcs
    simp only [List.cons_append, List.tail_cons, hhead]
    exact Scan.alike_ite (fun _ => .token _ _ _) fun _ => Scan.alike_front
  · exact Scan.alike_ite (fun _ => alike_scanWord hpost c cs) fun _ => Scan.alike_front

end Scan

end TwistLogic
