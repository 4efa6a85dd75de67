import Mathlib.Tactic.Common
import TwistLogic.Proofs.Formula.Lexemes

/-!
# What is scanned

A token that a scan delivers spells its stretch of the source without the blanks, and this spelling
is a lexeme wherever it stands (`Scan.Found`).  A fault that a scan delivers lies in a single token
(`SyntaxFault.isLexical`).  `sound_scan` says both, along the cases of the scan.
-/

namespace TwistLogic

/-! ## Blanks -/

namespace Text

/-- A text without its blanks. -/
def withoutBlanks (s : Text) : Text := s.filter (!isBlank ·)

lemma withoutBlanks_eq_self {s : Text} (h : ∀ c ∈ s, isBlank c = false) : s.withoutBlanks = s := by
  rw [withoutBlanks, List.filter_eq_self]
  intro c hc
  rw [h c hc]
  rfl

lemma withoutBlanks_eq_nil {s : Text} (h : ∀ c ∈ s, isBlank c = true) : s.withoutBlanks = [] := by
  rw [withoutBlanks, List.filter_eq_nil_iff]
  intro c hc
  rw [h c hc]
  simp

lemma withoutBlanks_append (s t : Text) :
    (s ++ t).withoutBlanks = s.withoutBlanks ++ t.withoutBlanks :=
  List.filter_append s t

lemma isBlank_eq_false_of_isWord {c : UInt8} (hc : isWord c = true) : isBlank c = false := by
  have hspace : isSpace c = false := isSpace_eq_false_of_isWord hc
  by_contra hblank
  rcases Bool.or_eq_true_iff.mp (eq_true_of_ne_false hblank) with h | h
  all_goals
    obtain rfl := beq_iff_eq.mp h
    exact absurd hspace (by decide)

end Text

/-! ## Tokens and faults -/

/-- A token that is found at the front of a source. -/
structure Scan.Found (src : Text) (kind : TokenKind) (text : Text) (more : Nat) : Prop where
  /-- Its stretch lies in the source. -/
  fits : more < src.length
  /-- It spells its stretch without the blanks. -/
  text_eq : text = Text.withoutBlanks (src.take (more + 1))
  kind_ne : kind ≠ .endOfInput
  /-- Its spelling is read as a token of the same class wherever it stands. -/
  again : ∀ rest : Text, rest.EndsWord → IsLexeme text kind rest

/-- The causes that lie in a single token. -/
def SyntaxFault.isLexical : SyntaxFault → Bool
  | notAConstant _ | brokenArrow _ _ | missingLabel _ | emptyLabel _ | unclosedLabel _ _
  | unexpectedByte _ => true
  | _ => false

/-- A token that a scan delivers is found, and a fault lies in a single token. -/
def Scan.Sound (src : Text) : Scan → Prop
  | .token kind text more => Found src kind text more
  | .fault f _ _ _ => f.isLexical = true

section Found

variable {c : UInt8} {cs w : Text} {k : TokenKind}

/-- A lexeme without blanks is found where it stands. -/
lemma found_of_isLexeme (hk : k ≠ .endOfInput) (hw : ∀ d ∈ c :: w, Text.isBlank d = false)
    (h : ∀ rest : Text, rest.EndsWord → IsLexeme (c :: w) k rest) :
    Scan.Found (c :: (w ++ cs)) k (c :: w) w.length where
  fits := by
    rw [List.length_cons, List.length_append]
    exact Nat.succ_le_succ (Nat.le_add_right _ _)
  text_eq := by
    rw [List.take_succ_cons, List.take_left, Text.withoutBlanks_eq_self hw]
  kind_ne := hk
  again := h

/-- No sign has a blank in it. -/
lemma IsSign.isBlank_eq_false (h : IsSign w k) : ∀ d ∈ w, Text.isBlank d = false := by
  have hall : (w.all fun d => Text.isBlank d == false) = true := by cases h <;> rfl
  exact fun d hd => eq_of_beq (List.all_eq_true.mp hall d hd)

/-- A sign is found. -/
lemma found_sign (h : IsSign w k) (cs : Text) : Scan.Found (w ++ cs) k w (w.length - 1) := by
  have hlexeme : ∀ rest : Text, rest.EndsWord → IsLexeme w k rest := fun rest _ => h.isLexeme rest
  have hblank : ∀ d ∈ w, Text.isBlank d = false := h.isBlank_eq_false
  cases h <;> exact found_of_isLexeme nofun hblank hlexeme

/-- What a word is depends on the word only. -/
lemma scanWord_congr {cs cs' : Text} (h : cs.takeWhile Text.isWord = cs'.takeWhile Text.isWord) :
    scanWord c cs = scanWord c cs' := by
  unfold scanWord
  rw [h]

/-- The token of a word is the whole word. -/
lemma scanWord_eq_token {text : Text} {more : Nat} (h : scanWord c cs = .token k text more) :
    text = c :: cs.takeWhile Text.isWord ∧ more = (cs.takeWhile Text.isWord).length ∧
      k ≠ .endOfInput := by
  have hkind : ∀ word, wordKind word ≠ .endOfInput := by
    intro word
    unfold wordKind
    dsimp only
    split_ifs <;> decide
  unfold scanWord at h
  dsimp only at h
  split_ifs at h
  all_goals
    cases h
    refine ⟨rfl, rfl, ?_⟩
  · decide
  · decide
  · exact hkind _

lemma sound_scanWord (hc : Text.isWord c = true) : (scanWord c cs).Sound (c :: cs) := by
  cases hscan : scanWord c cs with
  | fault f word shift read =>
    unfold scanWord at hscan
    dsimp only at hscan
    split_ifs at hscan
    cases hscan
    rfl
  | token k text more =>
    obtain ⟨rfl, rfl, hk⟩ := scanWord_eq_token hscan
    have hword : ∀ d ∈ cs.takeWhile Text.isWord, Text.isWord d = true :=
      fun d hd => List.mem_takeWhile_imp hd
    have hfound : Scan.Found (c :: (cs.takeWhile Text.isWord ++ cs.dropWhile Text.isWord)) k
        (c :: cs.takeWhile Text.isWord) (cs.takeWhile Text.isWord).length := by
      refine found_of_isLexeme hk ?_ fun rest hrest => ⟨c, _, rfl, ?_⟩
      · intro d hd
        rcases List.mem_cons.mp hd with rfl | hd
        · exact Text.isBlank_eq_false_of_isWord hc
        · exact Text.isBlank_eq_false_of_isWord (hword d hd)
      · rw [scan_of_isWord hc, ← hscan]
        exact scanWord_congr (Text.takeWhile_isWord hword hrest)
    rwa [List.takeWhile_append_dropWhile] at hfound

/-! ### Modalities -/

lemma Text.IsLabel.isBlank_eq_false {action : Text} (ha : action.IsLabel) :
    ∀ c ∈ action, Text.isBlank c = false :=
  fun c hc => Text.isBlank_eq_false_of_isWord (ha.word c hc)

/-- The long spelling of a modality is found. -/
lemma found_long (m : Modality) {action : Text} (ha : action.IsLabel) (rest : Text) :
    Scan.Found (m.opening :: m.closing :: byte '_' :: (action ++ rest)) (.modality m action)
      (m.symbol ++ ascii "_" ++ action) (action.length + 2) := by
  refine found_of_isLexeme (w := m.closing :: byte '_' :: action) (by simp) ?_ fun tail htail =>
    isLexeme_modality m ha htail
  intro d hd
  simp only [List.mem_cons] at hd
  rcases hd with rfl | rfl | rfl | hd
  · cases m <;> rfl
  · cases m <;> rfl
  · rfl
  · exact ha.isBlank_eq_false d hd

lemma sound_scanLongLabel (m : Modality) (cs : Text) :
    (scanLongLabel m cs).Sound (m.opening :: m.closing :: cs) := by
  unfold scanLongLabel
  split
  next u c rest =>
    refine iteInduction (fun hlabel => ?_) fun _ => rfl
    obtain ⟨hu, hc⟩ := Bool.and_eq_true_iff.mp hlabel
    obtain rfl : u = byte '_' := of_decide_eq_true hu
    rw [List.tail_cons]
    have ha : Text.IsLabel ((c :: rest).takeWhile Text.isWord) :=
      isLabel_takeWhile (by simp [hc])
    have hfound := found_long m ha ((c :: rest).dropWhile Text.isWord)
    rwa [List.takeWhile_append_dropWhile] at hfound
  next => rfl

/-- The short spelling of a modality. -/
lemma isLexeme_bracketed (m : Modality) {action : Text} (ha : action.IsLabel) (rest : Text) :
    IsLexeme (m.opening :: action ++ [m.closing]) (.modality m action) rest := by
  obtain ⟨c, cs, rfl⟩ := List.exists_cons_of_ne_nil ha.nonempty
  have hc : Text.isWord c = true := ha.word c List.mem_cons_self
  have hblank : Text.isBlank c = false := ha.isBlank_eq_false c List.mem_cons_self
  have hclosing : c ≠ m.closing := by
    rintro rfl
    cases m <;> exact absurd hc (by decide)
  have hdash : c ≠ byte '-' := by
    rintro rfl
    exact absurd hc (by decide)
  have hend : Text.EndsWord (m.closing :: rest) := Text.endsWord_cons (by cases m <;> rfl) rest
  have hscan : scan m.opening (c :: (cs ++ m.closing :: rest)) =
      scanModality m (c :: (cs ++ m.closing :: rest)) := by
    cases m
    · rfl
    · have hne : (c :: (cs ++ Modality.diamond.closing :: rest)).head? ≠ some (byte '-') := by
        simpa using hdash
      change (if _ then _ else scanModality .diamond _) = _
      rw [if_neg hne]
  have htake : (c :: (cs ++ m.closing :: rest)).takeWhile Text.isWord = c :: cs :=
    Text.takeWhile_isWord ha.word hend
  have hdrop : (c :: (cs ++ m.closing :: rest)).dropWhile Text.isWord = m.closing :: rest := by
    have hsplit := List.takeWhile_append_dropWhile
      (p := Text.isWord) (l := c :: (cs ++ m.closing :: rest))
    rw [htake] at hsplit
    exact (List.append_right_inj (c :: cs)).mp hsplit
  have hbracket : Text.isBlank m.closing = false := by cases m <;> rfl
  refine ⟨m.opening, c :: cs ++ [m.closing], rfl, ?_⟩
  have hsrc : c :: cs ++ [m.closing] ++ rest = c :: (cs ++ m.closing :: rest) := by simp
  rw [hsrc, hscan, scanModality, if_neg (by simpa using hclosing)]
  simp only [List.takeWhile_cons_of_neg, List.dropWhile_cons_of_neg, hblank, Bool.false_eq_true,
    not_false_eq_true, htake, hdrop, hbracket]
  simp

/-- A label between brackets is found, whatever blanks stand around it. -/
lemma found_bracketed (m : Modality) {before action after : Text} (ha : action.IsLabel)
    (hbefore : ∀ d ∈ before, Text.isBlank d = true) (hafter : ∀ d ∈ after, Text.isBlank d = true)
    (rest : Text) :
    Scan.Found (m.opening :: (before ++ (action ++ (after ++ m.closing :: rest))))
      (.modality m action) (m.opening :: action ++ [m.closing])
      (before.length + action.length + after.length + 1) := by
  have htake : (m.opening :: (before ++ (action ++ (after ++ m.closing :: rest)))).take
      (before.length + action.length + after.length + 1 + 1) =
        [m.opening] ++ before ++ action ++ after ++ [m.closing] := by
    have hlength : before.length + action.length + after.length + 1 + 1 =
        ([m.opening] ++ before ++ action ++ after ++ [m.closing]).length := by
      simp
      omega
    have hsrc : m.opening :: (before ++ (action ++ (after ++ m.closing :: rest))) =
        [m.opening] ++ before ++ action ++ after ++ [m.closing] ++ rest := by simp
    rw [hlength, hsrc, List.take_left]
  have hopening : Text.withoutBlanks [m.opening] = [m.opening] := by cases m <;> rfl
  have hclosing : Text.withoutBlanks [m.closing] = [m.closing] := by cases m <;> rfl
  constructor
  case fits =>
    simp
    omega
  case text_eq =>
    rw [htake]
    simp only [Text.withoutBlanks_append, hopening, hclosing, Text.withoutBlanks_eq_nil hbefore,
      Text.withoutBlanks_eq_nil hafter, Text.withoutBlanks_eq_self ha.isBlank_eq_false]
    simp
  case kind_ne => simp
  case again => exact fun tail _ => isLexeme_bracketed m ha tail

lemma sound_scanModality (m : Modality) (cs : Text) :
    (scanModality m cs).Sound (m.opening :: cs) := by
  unfold scanModality
  refine iteInduction (fun hclosing => ?_) fun _ => ?_
  · obtain ⟨tail, rfl⟩ := List.head?_eq_some_iff.mp hclosing
    exact sound_scanLongLabel m tail
  refine iteInduction (fun _ => rfl) fun hlabel => ?_
  refine iteInduction (fun hfound => ?_) fun _ => rfl
  obtain ⟨rest, hrest⟩ : ∃ rest, ((cs.dropWhile Text.isBlank).dropWhile Text.isWord).dropWhile
      Text.isBlank = m.closing :: rest := by
    revert hfound
    cases ((cs.dropWhile Text.isBlank).dropWhile Text.isWord).dropWhile Text.isBlank with
    | nil => cases m <;> exact fun hfound => absurd hfound (by decide)
    | cons d rest =>
      rintro rfl
      exact ⟨rest, rfl⟩
  have hblanks : ∀ bs : Text, ∀ d ∈ bs.takeWhile Text.isBlank, Text.isBlank d = true :=
    fun bs d hd => List.mem_takeWhile_imp hd
  have hfound := found_bracketed m (isLabel_takeWhile (by simpa using hlabel)) (hblanks cs)
    (hblanks ((cs.dropWhile Text.isBlank).dropWhile Text.isWord)) rest
  rwa [← hrest, List.takeWhile_append_dropWhile, List.takeWhile_append_dropWhile,
    List.takeWhile_append_dropWhile] at hfound

/-- Every token that is scanned is found at the front of the source, and every fault lies in it. -/
theorem sound_scan (c : UInt8) (cs : Text) : (scan c cs).Sound (c :: cs) := by
  refine scan_cases (P := fun src r => r.Sound src) ?sign ?broken ?modality ?word ?unexpected c cs
  case sign => exact fun cs hsign => found_sign hsign cs
  case broken => exact fun _ _ => rfl
  case modality => exact sound_scanModality
  case word => exact fun _ hc => sound_scanWord hc
  case unexpected => exact fun _ _ => rfl

end Found

namespace Lexer

variable {l l' : Lexer}

/-- A walk fails at a stretch that is no token. -/
lemma isLexical_of_next {err : SyntaxError} (h : l.next = (.error err, l')) :
    err.fault.isLexical = true := by
  unfold next at h
  split at h
  · cases h
  · obtain ⟨c, cs, _, _, -, hscan, -, -⟩ := take_eq_error h
    have hsound : (scan c cs).Sound (c :: cs) := sound_scan c cs
    rwa [hscan] at hsound

end Lexer

end TwistLogic
