import TwistLogic.Proofs.Algebra.Linear

/-!
# The size that a name shows

Behind the colon of a name stands the size of a chain.  It is read as a 64-bit word, so a negative
integer stands for a size that is `2 ^ 64` larger: a name with a large enough magnitude behind a
minus sign selects a chain of a few elements (`Chain.negative_size_accepted`).  Every other size is
the natural number that the text shows, and all sizes that leave room for the tables are accepted,
however they are written (`Chain.size_shown`).
-/

namespace TwistLogic

namespace Chain

/-- An algebra has as many elements as its name shows, or `2 ^ 64` more than a negative number
there. All such sizes from two on are accepted, if there is room for the tables. -/
theorem size_shown (cells : Nat) :
    (∀ spec r, ofSpecWithin cells spec = .ok r →
      spec = ascii "boolean" ∧ r.size = 2 ∨
      ∃ family text v, spec = ChainFamily.name family ++ ascii ":" ++ text ∧ Text.Shows text v ∧
        2 ≤ r.size ∧ (v = if v < 0 then (r.size : Int) - UInt64.size else r.size) ∧
        build family r.size = .ok r) ∧
    ∀ family text v (n : Nat), Text.Shows text v →
      (v = if v < 0 then (n : Int) - UInt64.size else n) →
      2 ≤ n → n ≤ maxLength → n * n ≤ cells →
      ∃ r, ofSpecWithin cells (ChainFamily.name family ++ ascii ":" ++ text) = .ok r ∧
        r.size = n := by
  constructor
  · intro spec r h
    rcases ofSpecWithin_eq_ok_iff.mp h with
      ⟨hspec, hbuild⟩ | ⟨family, text, n, hspec, hread, htwo, -, -, hbuild⟩
    · exact .inl ⟨hspec, size_of_build hbuild⟩
    · obtain rfl : r.size = n := size_of_build hbuild
      obtain ⟨v, hshows, -, hv⟩ :=
        (Text.readWord64_eq_some_iff_shown (Nat.lt_of_lt_of_le Nat.two_pos htwo)).mp hread
      exact .inr ⟨family, text, v, hspec, hshows, htwo, hv, hbuild⟩
  · intro family text v n hshows hv htwo hlength hfits
    have hpos : 0 < n := Nat.lt_of_lt_of_le Nat.two_pos htwo
    have hword : n < UInt64.size := Nat.lt_of_le_of_lt hlength (by decide)
    have hread := (Text.readWord64_eq_some_iff_shown hpos).mpr ⟨v, hshows, hword, hv⟩
    obtain ⟨r, hr⟩ := exists_build_eq_ok family hpos
    exact ⟨r, ofSpecWithin_eq_ok_iff.mpr
      (.inr ⟨family, text, n, rfl, hread, htwo, hlength, hfits, hr⟩),
      size_of_build hr⟩

/-- The negative integer that is read as three. -/
lemma shows_negative : Text.Shows (ascii "-18446744073709551613") (-18446744073709551613) :=
  ⟨[], ascii "-", ascii "18446744073709551613", -1, rfl, by simp [Text.IsGap], .minus, by decide,
    List.all_eq_true.mp rfl, by decide⟩

/-- Behind the colon, `+03` and `-18446744073709551613` both select three elements. -/
theorem size_shown_of_three :
    (∃ r, ofSpecWithin 9 (ascii "lukasiewicz:+03") = .ok r ∧ r.size = 3 ∧
      build .lukasiewicz 3 = .ok r) ∧
    ∃ r, ofSpecWithin 9 (ascii "goedel:-18446744073709551613") = .ok r ∧ r.size = 3 := by
  obtain ⟨hshown, haccepted⟩ := size_shown 9
  refine ⟨?_, haccepted .goedel _ _ 3 shows_negative (by decide) (by decide) (by decide) (by decide)⟩
  have hthree : Text.Shows (ascii "+03") 3 :=
    ⟨[], ascii "+", ascii "03", 1, rfl, by simp [Text.IsGap], .plus, by decide,
      List.all_eq_true.mp rfl, by decide⟩
  obtain ⟨r, hr, hsize⟩ :=
    haccepted .lukasiewicz _ 3 3 hthree (by decide) (by decide) (by decide) (by decide)
  refine ⟨r, hr, hsize, ?_⟩
  rcases hshown _ r hr with ⟨hboolean, -⟩ | ⟨family, text, v, hspec, -, -, -, hbuild⟩
  · exact absurd hboolean (by decide)
  · have hname : ChainFamily.lukasiewicz.name ++ ascii ":" ++ ascii "+03" = _ := hspec
    obtain ⟨rfl, -⟩ := name_append_inj hname
    rwa [hsize] at hbuild

/-- A name with a negative number behind the colon is accepted, and the algebra does not have as
many elements as it shows. -/
theorem negative_size_accepted :
    ∃ r, ofSpecWithin 9 (ascii "goedel:-18446744073709551613") = .ok r ∧ r.size = 3 ∧
      ¬(ascii "goedel:-18446744073709551613" = ascii "boolean" ∧ r.size = 2 ∨
        ∃ family text,
          ascii "goedel:-18446744073709551613" = ChainFamily.name family ++ ascii ":" ++ text ∧
          Text.Shows text r.size ∧ 2 ≤ r.size) := by
  have hread : (ascii "-18446744073709551613").readWord64 = some 3 :=
    (Text.readWord64_eq_some_iff_shown (by decide)).mpr ⟨_, shows_negative, by decide, by decide⟩
  obtain ⟨r, hr⟩ := exists_build_eq_ok .goedel (n := 3) (by decide)
  have hsize : r.size = 3 := size_of_build hr
  refine ⟨r, ofSpecWithin_eq_ok_iff.mpr
    (.inr ⟨.goedel, _, 3, rfl, hread, by decide, by decide, by decide, hr⟩), hsize, ?_⟩
  rintro (⟨hboolean, -⟩ | ⟨family, text, hspec, hthree, -⟩)
  · exact absurd hboolean (by decide)
  · have hname : ChainFamily.goedel.name ++ ascii ":" ++ ascii "-18446744073709551613" = _ := hspec
    obtain ⟨-, rfl⟩ := name_append_inj hname
    rw [hsize] at hthree
    exact absurd (hthree.unique shows_negative) (by decide)

end Chain

end TwistLogic
