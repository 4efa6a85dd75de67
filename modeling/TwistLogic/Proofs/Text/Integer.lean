import TwistLogic.Proofs.Formula.Lexemes
import TwistLogic.Proofs.Text.Numeral

/-!
# Integers in texts

A text shows an integer if it is white space, an optional sign and the digits of the magnitude
(`Text.Shows`).  `Text.readSigned` finds the integer that the longest such part at the front of a
text shows (`Text.readSigned_iff`).  A text that shows an integer is read to its end
(`Text.shows_iff`), so it shows no other.

`Text.readWord64` reads the texts that show an integer whose magnitude is below `2 ^ 64`, and gives
the remainder of the integer modulo `2 ^ 64` (`Text.readWord64_eq_some_iff`).  A natural number is
read as itself; a negative integer comes out `2 ^ 64` too large.  `Text.readInt32` reads any text
with an integer of 32 bits at its front (`Text.readInt32_eq_some_iff`).
-/

namespace TwistLogic.Text

/-- What may stand in front of the digits of an integer, and what the digits are then multiplied
with. -/
inductive SignUnit : Text → Int → Prop where
  | none : SignUnit [] 1
  | plus : SignUnit (ascii "+") 1
  | minus : SignUnit (ascii "-") (-1)

/-- The text is white space, an optional sign and at least one digit, and the integer is the one
that sign and digits make. -/
def Shows (s : Text) (v : Int) : Prop :=
  ∃ gap sign digits unit, s = gap ++ sign ++ digits ∧ IsGap gap ∧ SignUnit sign unit ∧
    digits ≠ [] ∧ (∀ c ∈ digits, isDigit c = true) ∧ v = unit * ofDigits digits

/-- The longest part at the front of a text that may be an integer shows one. -/
def LeadsWith (s : Text) (v : Int) : Prop :=
  ∃ front rest, s = front ++ rest ∧ Shows front v ∧ ∀ c ∈ rest.head?, isDigit c = false

/-- The integer of a numeral. -/
def SignedNumeral.value (n : SignedNumeral) : Int :=
  if n.negative then -n.magnitude else n.magnitude

/-! ## Reading -/

lemma isSpace_eq_false_of_isDigit {c : UInt8} (hc : isDigit c = true) : isSpace c = false :=
  isSpace_eq_false_of_isWord (by simp [isWord, hc])

/-- A sign is split off from the digits behind it. -/
lemma SignUnit.splitSign_append {sign : Text} {unit : Int} (h : SignUnit sign unit) {d : UInt8}
    (hd : isDigit d = true) (ds : Text) :
    splitSign (sign ++ d :: ds) = (decide (unit < 0), d :: ds) := by
  cases h with
  | none =>
    have hminus : d ≠ byte '-' := by rintro rfl; exact absurd hd (by decide)
    have hplus : d ≠ byte '+' := by rintro rfl; exact absurd hd (by decide)
    simp [splitSign, hminus, hplus]
  | plus => rfl
  | minus => rfl

/-- What is split off is a sign. -/
lemma exists_signUnit_splitSign (body : Text) :
    ∃ sign, body = sign ++ (splitSign body).2 ∧
      SignUnit sign (if (splitSign body).1 then -1 else 1) := by
  cases body with
  | nil => exact ⟨[], rfl, .none⟩
  | cons c cs =>
    by_cases hminus : c = byte '-'
    · exact ⟨ascii "-", by simp [splitSign, hminus, ascii], by simpa [splitSign, hminus] using .minus⟩
    · by_cases hplus : c = byte '+'
      · subst hplus
        exact ⟨ascii "+", rfl, .plus⟩
      · exact ⟨[], by simp [splitSign, hminus, hplus], by simpa [splitSign, hminus, hplus] using .none⟩

/-- White space ends where a sign or a digit stands. -/
lemma SignUnit.dropWhile_isSpace {gap sign : Text} {unit : Int} (h : SignUnit sign unit)
    (hgap : IsGap gap) {d : UInt8} (hd : isDigit d = true) (ds : Text) :
    (gap ++ sign ++ d :: ds).dropWhile isSpace = sign ++ d :: ds := by
  rw [List.append_assoc, List.dropWhile_append_of_pos hgap]
  cases h with
  | none => exact List.dropWhile_cons_of_neg (by simp [isSpace_eq_false_of_isDigit hd])
  | plus => rfl
  | minus => rfl

/-- What is read at the front of a text is the longest part of it that shows an integer. -/
theorem readSigned_iff {s rest : Text} {v : Int} :
    (∃ n, readSigned s = some n ∧ n.rest = rest ∧ v = n.value) ↔
      ∃ front, s = front ++ rest ∧ Shows front v ∧ ∀ c ∈ rest.head?, isDigit c = false := by
  constructor
  · rintro ⟨n, hn, rfl, rfl⟩
    simp only [readSigned, List.isEmpty_iff, Option.ite_none_left_eq_some, Option.some.injEq] at hn
    obtain ⟨hne, rfl⟩ := hn
    obtain ⟨sign, hsign, hunit⟩ := exists_signUnit_splitSign (s.dropWhile isSpace)
    generalize hsplit : splitSign (s.dropWhile isSpace) = split at *
    obtain ⟨negative, body⟩ := split
    refine ⟨s.takeWhile isSpace ++ sign ++ body.takeWhile isDigit, ?_,
      ⟨_, _, _, _, rfl, fun c hc => List.mem_takeWhile_imp hc, hunit, hne,
        fun c hc => List.mem_takeWhile_imp hc, ?_⟩, fun c hc => ?_⟩
    · rw [List.append_assoc, List.takeWhile_append_dropWhile, List.append_assoc, ← hsign,
        List.takeWhile_append_dropWhile]
    · rw [SignedNumeral.value]
      cases negative <;> simp
    · have hnot := List.head?_dropWhile_not isDigit body
      rwa [Option.mem_def.mp hc] at hnot
  · rintro ⟨_, rfl, ⟨gap, sign, digits, unit, rfl, hgap, hsign, hne, hdigits, rfl⟩, hrest⟩
    obtain ⟨d, ds, rfl⟩ := List.exists_cons_of_ne_nil hne
    have hd : isDigit d = true := hdigits d List.mem_cons_self
    have hstop : rest.takeWhile isDigit = [] ∧ rest.dropWhile isDigit = rest := by
      cases rest with
      | nil => exact ⟨rfl, rfl⟩
      | cons c cs => simp [hrest c rfl]
    have htake : (d :: ds ++ rest).takeWhile isDigit = d :: ds := by
      rw [List.takeWhile_append_of_pos hdigits, hstop.1, List.append_nil]
    have hdrop : (d :: ds ++ rest).dropWhile isDigit = rest := by
      rw [List.dropWhile_append_of_pos hdigits, hstop.2]
    refine ⟨⟨decide (unit < 0), ofDigits (d :: ds), rest⟩, ?_, rfl, ?_⟩
    · rw [readSigned, List.append_assoc _ (d :: ds), List.cons_append,
        hsign.dropWhile_isSpace hgap hd, hsign.splitSign_append hd, ← List.cons_append]
      simp only [htake, hdrop]
      rfl
    · cases hsign <;> simp [SignedNumeral.value]

/-- The texts that show an integer are those that are read to their end. -/
theorem shows_iff {s : Text} {v : Int} :
    Shows s v ↔ ∃ n, readSigned s = some n ∧ n.rest = [] ∧ v = n.value := by
  rw [readSigned_iff]
  simp

/-- A text shows one integer at most. -/
lemma Shows.unique {s : Text} {v w : Int} (hv : Shows s v) (hw : Shows s w) : v = w := by
  obtain ⟨n, hn, -, rfl⟩ := shows_iff.mp hv
  obtain ⟨m, hm, -, rfl⟩ := shows_iff.mp hw
  rw [Option.some.inj (hn.symm.trans hm)]

/-- A numeral shows its number. -/
lemma shows_decimal (n : Nat) : Shows (decimal n) n := by
  refine ⟨[], [], decimal n, 1, rfl, by simp [IsGap], .none, ?_, fun c => isDigit_of_mem_decimal, ?_⟩
  · exact fun h => Nat.toDigits_ne_nil (List.map_eq_nil_iff.mp h)
  · rw [ofDigits_decimal, Int.one_mul]

/-! ## 64-bit words -/

lemma SignedNumeral.natAbs_value (m : SignedNumeral) : m.value.natAbs = m.magnitude := by
  rw [value]
  split <;> simp

/-- The word of a numeral whose magnitude fits is its integer modulo `2 ^ 64`. -/
lemma SignedNumeral.word_eq (m : SignedNumeral) (hm : m.magnitude < UInt64.size) :
    ((if m.negative then (UInt64.size - m.magnitude) % UInt64.size else m.magnitude : Nat) : Int) =
      m.value % UInt64.size := by
  simp only [value, UInt64.size] at hm ⊢
  split <;> omega

/-- A text is read as a word if it shows an integer whose magnitude fits into a word, and the word
is the integer modulo `2 ^ 64`. -/
theorem readWord64_eq_some_iff {s : Text} {n : Nat} :
    readWord64 s = some n ↔
      ∃ v, Shows s v ∧ v.natAbs < UInt64.size ∧ (n : Int) = v % UInt64.size := by
  simp only [readWord64, Option.bind_eq_bind, Option.bind_eq_some_iff,
    Option.ite_none_right_eq_some, Bool.and_eq_true, List.isEmpty_iff, decide_eq_true_eq,
    Option.some.injEq, shows_iff]
  constructor
  · rintro ⟨m, hm, ⟨hrest, hlt⟩, rfl⟩
    exact ⟨m.value, ⟨m, hm, hrest, rfl⟩, by rwa [m.natAbs_value], m.word_eq hlt⟩
  · rintro ⟨_, ⟨m, hm, hrest, rfl⟩, hlt, hn⟩
    rw [m.natAbs_value] at hlt
    exact ⟨m, hm, ⟨hrest, hlt⟩, Int.ofNat_inj.mp ((m.word_eq hlt).trans hn.symm)⟩

/-- A natural number is read as itself, and a negative integer as `2 ^ 64` more. -/
theorem readWord64_eq_some_iff_shown {s : Text} {n : Nat} (hn : 0 < n) :
    readWord64 s = some n ↔
      ∃ v, Shows s v ∧ n < UInt64.size ∧ v = if v < 0 then (n : Int) - UInt64.size else n := by
  rw [readWord64_eq_some_iff]
  refine exists_congr fun v => and_congr_right fun _ => ?_
  simp only [UInt64.size]
  split <;> omega

/-! ## 32-bit numbers -/

/-- The integer at the front of a text is the one that is read there. -/
lemma leadsWith_iff {s : Text} {v : Int} :
    LeadsWith s v ↔ ∃ n, readSigned s = some n ∧ v = n.value := by
  constructor
  · rintro ⟨front, rest, h⟩
    obtain ⟨n, hn, -, hv⟩ := readSigned_iff.mpr ⟨front, h⟩
    exact ⟨n, hn, hv⟩
  · rintro ⟨n, hn, hv⟩
    obtain ⟨front, h⟩ := readSigned_iff.mp ⟨n, hn, rfl, hv⟩
    exact ⟨front, n.rest, h⟩

lemma LeadsWith.unique {s : Text} {v w : Int} (hv : LeadsWith s v) (hw : LeadsWith s w) :
    v = w := by
  obtain ⟨n, hn, rfl⟩ := leadsWith_iff.mp hv
  obtain ⟨m, hm, rfl⟩ := leadsWith_iff.mp hw
  rw [Option.some.inj (hn.symm.trans hm)]

/-- A text is read as a signed 32-bit number if an integer that fits stands at its front. -/
theorem readInt32_eq_some_iff {s : Text} {v : Int} :
    readInt32 s = some v ↔ LeadsWith s v ∧ -2147483648 ≤ v ∧ v < 2147483648 := by
  simp only [readInt32, Option.bind_eq_bind, Option.bind_eq_some_iff,
    Option.ite_none_right_eq_some, Option.some.injEq, leadsWith_iff]
  constructor
  · rintro ⟨n, hn, hfits, rfl⟩
    exact ⟨⟨n, hn, rfl⟩, hfits⟩
  · rintro ⟨⟨n, hn, rfl⟩, hfits⟩
    exact ⟨n, hn, hfits, rfl⟩

end TwistLogic.Text
