import Mathlib.Tactic.Common
import TwistLogic.Text.Numeral

/-!
# Decimal numerals

The digits of a number spell it (`Text.ofDigits_decimal`), so different numbers have different
numerals, and a numeral holds nothing but digits.
-/

namespace TwistLogic.Text

/-- The byte of a digit is a digit, and stands for the same number. -/
lemma toNat_byte_of_isDigit {c : Char} (hc : c.isDigit = true) :
    (byte c).toNat = c.toNat ∧ 48 ≤ c.toNat ∧ c.toNat ≤ 57 := by
  have hle : 48 ≤ c.toNat ∧ c.toNat ≤ 57 := by
    simpa [Char.isDigit, UInt32.le_iff_toNat_le] using hc
  refine ⟨?_, hle⟩
  rw [byte, UInt8.toNat_ofNat']
  exact Nat.mod_eq_of_lt (by omega)

lemma isDigit_byte {c : Char} (hc : c.isDigit = true) : isDigit (byte c) = true := by
  obtain ⟨heq, hle⟩ := toNat_byte_of_isDigit hc
  simp only [isDigit, UInt8.le_iff_toNat_le, Bool.and_eq_true, decide_eq_true_eq, heq]
  exact hle

/-- A numeral consists of digits. -/
lemma isDigit_of_mem_decimal {n : Nat} {c : UInt8} (hc : c ∈ decimal n) : isDigit c = true := by
  obtain ⟨d, hd, rfl⟩ := List.mem_map.mp hc
  exact isDigit_byte (Nat.isDigit_of_mem_toDigits (by decide) (by decide) hd)

/-- The digits of a number spell it. -/
theorem ofDigits_decimal (n : Nat) : ofDigits (decimal n) = n := by
  have hfold : ∀ (ds : List Char) (m : Nat), (∀ c ∈ ds, c.isDigit = true) →
      (ds.map byte).foldl (fun n d => 10 * n + (d - byte '0').toNat) m =
        Nat.ofDigitChars 10 ds m := by
    intro ds
    induction ds with
    | nil => exact fun _ _ => rfl
    | cons c ds ih =>
      intro m hds
      obtain ⟨hc, hds⟩ := List.forall_mem_cons.mp hds
      obtain ⟨heq, hle⟩ := toNat_byte_of_isDigit hc
      have hdigit : (byte c - byte '0').toNat = c.toNat - '0'.toNat := by
        rw [UInt8.toNat_sub_of_le, heq]
        · rfl
        · rw [UInt8.le_iff_toNat_le, heq]
          exact hle.1
      rw [List.map_cons, List.foldl_cons, ih _ hds, hdigit]
      rfl
  rw [ofDigits, decimal, hfold _ _ fun c hc => Nat.isDigit_of_mem_toDigits (by decide) (by decide) hc]
  exact Nat.ofDigitChars_toDigits (by decide) (by decide)

end TwistLogic.Text
