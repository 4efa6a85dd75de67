import Mathlib.Data.Set.Function
import Mathlib.Order.Interval.Set.Defs
import TwistLogic.Proofs.Algebra.Linear

/-!
# Positions and what 32 bits keep of them

The position of a pair is its place in the list of all pairs, which is in lexicographic order
(`bijOn_position`, `position_lt_position_iff`).  The table of negation holds what 32 bits keep of a
position, so the number of a negation is a remainder (`Generated.index_negation`), and negation
exchanges the sides of all elements exactly if there are no more elements than 32-bit numbers
(`Generated.exact_iff`).

The smallest structures with more elements are those over 65537 elements of the base.  One of them
is selected by the name `goedel:65537` (`exists_isWide`).  In it the negation of absolute falsity
is absolute falsity.
-/

namespace TwistLogic

namespace TwistStructure

variable {ts : TwistStructure} {x y : TwistElement} {n : Nat}

/-! ## Positions -/

/-- The order of the positions is lexicographic, the first components leading. -/
lemma position_lt_position_iff (hx : x.f < n) (hy : y.f < n) :
    position n x < position n y ↔ x.t < y.t ∨ x.t = y.t ∧ x.f < y.f := by
  have hrow : ∀ {x y : TwistElement}, x.f < n → x.t < y.t → position n x < position n y := by
    intro x y hf ht
    calc
      x.t * n + x.f < x.t * n + n := Nat.add_lt_add_left hf _
      _ = (x.t + 1) * n := by rw [Nat.add_mul, Nat.one_mul]
      _ ≤ y.t * n := Nat.mul_le_mul_right n ht
      _ ≤ y.t * n + y.f := Nat.le_add_right _ _
  rcases Nat.lt_trichotomy x.t y.t with ht | ht | ht
  · exact iff_of_true (hrow hx ht) (.inl ht)
  · simp [position, ht]
  · refine iff_of_false (Nat.lt_asymm (hrow hy ht)) ?_
    rintro (hlt | ⟨heq, -⟩)
    · exact Nat.lt_asymm ht hlt
    · exact Nat.ne_of_gt ht heq

/-- Different pairs have different positions. -/
lemma position_injOn : Set.InjOn (position n) {x | x.t < n ∧ x.f < n} := by
  intro x hx y hy hxy
  have hplace := getElem?_pairs hx.1 hx.2
  rw [hxy, getElem?_pairs hy.1 hy.2] at hplace
  exact (Option.some.inj hplace).symm

/-- Every number below the number of pairs is the position of one. -/
lemma exists_position_eq {k : Nat} (hk : k < n * n) :
    ∃ x : TwistElement, (x.t < n ∧ x.f < n) ∧ position n x = k := by
  have hpos : 0 < n := Nat.pos_of_lt_mul_left hk
  exact ⟨⟨k / n, k % n⟩, ⟨Nat.div_lt_of_lt_mul hk, Nat.mod_lt k hpos⟩, Nat.div_add_mod' k n⟩

/-- The pairs over `n` numbers are numbered without gaps. -/
theorem bijOn_position (n : Nat) :
    Set.BijOn (position n) {x | x.t < n ∧ x.f < n} (Set.Iio (n * n)) :=
  ⟨fun _ hx => position_lt hx.1 hx.2, position_injOn, fun _ hk => exists_position_eq hk⟩

/-! ## The table of negation -/

/-- The negation of an element is the one whose number is what 32 bits keep of the number of the
element with its sides exchanged. -/
lemma Generated.negation_eq (h : ts.Generated) (hx : ts.contains x = true)
    (hy : ts.contains y = true) (hxy : ts.index y = ts.index ⟨x.f, x.t⟩ % UInt32.size) :
    ts.negation x = y := by
  obtain ⟨-, -, -, -, r, -, -, hts⟩ := h
  obtain rfl := base_of_generate hts
  obtain ⟨hxt, hxf⟩ := contains_iff.mp hx
  obtain ⟨hyt, hyf⟩ := contains_iff.mp hy
  have hentry : (UInt32.ofNat (position ts.base.size ⟨x.f, x.t⟩)).toNat =
      position ts.base.size y := UInt32.toNat_ofNat'.trans hxy.symm
  simp only [negation, index, Array.getD_eq_getD_getElem?, getElem?_negations hts hxt hxf,
    Option.getD_some, hentry, getElem?_elements hts hyt hyf]

/-- The number of a negation is what 32 bits keep of the number of the element with its sides
exchanged. -/
theorem Generated.index_negation (h : ts.Generated) (hx : ts.contains x = true) :
    ts.index (ts.negation x) = ts.index ⟨x.f, x.t⟩ % UInt32.size := by
  obtain ⟨ht, hf⟩ := contains_iff.mp hx
  have hlt : ts.index ⟨x.f, x.t⟩ % UInt32.size < ts.base.size * ts.base.size :=
    Nat.lt_of_le_of_lt (Nat.mod_le _ _) (position_lt hf ht)
  obtain ⟨y, hy, hposition⟩ := exists_position_eq hlt
  rw [h.negation_eq hx (contains_iff.mpr hy) hposition]
  exact hposition

/-- Negation exchanges the sides of all elements exactly if their numbers are 32-bit numbers. -/
theorem Generated.exact_iff (h : ts.Generated) : ts.Exact ↔ ts.size ≤ UInt32.size := by
  refine ⟨fun hexact => Nat.le_of_not_lt fun hlt => ?_, h.exact⟩
  have hsize : ts.size = ts.base.size * ts.base.size := by
    obtain ⟨-, -, -, -, r, -, -, hts⟩ := h
    rw [base_of_generate hts, size_of_generate hts]
  -- the first number that 32 bits cannot hold is the number of some exchanged pair
  obtain ⟨y, hy, hposition⟩ := exists_position_eq (hsize ▸ hlt)
  have hx : ts.contains ⟨y.f, y.t⟩ = true := contains_iff.mpr hy.symm
  have hindex : ts.index (ts.negation ⟨y.f, y.t⟩) = ts.index y % UInt32.size := h.index_negation hx
  rw [hexact.negation_eq hx, show ts.index y = UInt32.size from hposition] at hindex
  exact absurd hindex (by decide)

/-! ## A structure with more elements than 32-bit numbers -/

/-- The structure over the Gödel chain of 65537 elements, whose table of negation wraps. -/
structure IsWide (ts : TwistStructure) : Prop where
  selected : CommandLine.twistOf (65537 * 65537) (ascii "goedel:65537") = .ok ts
  chain : Chain.IsChainOf ts.base .goedel 65537

lemma isWide_of_build {r : ResiduatedLattice} (hr : Chain.build .goedel 65537 = .ok r)
    (hts : generate (some r) = .ok ts) : IsWide ts := by
  have hspec : Chain.ofSpecWithin (65537 * 65537) (ascii "goedel:65537") = .ok r :=
    (Chain.ofSpecWithin_decimal (n := 65537) (by decide) .goedel (by decide) (by decide)).trans hr
  exact ⟨bind_eq_ok_iff.mpr ⟨r, hspec, hts⟩,
    (base_of_generate hts).symm ▸ Chain.isChainOf_of_build hr⟩

lemma exists_isWide : ∃ ts, IsWide ts := by
  obtain ⟨r, hr⟩ := Chain.exists_build_eq_ok .goedel (n := 65537) (by decide)
  obtain ⟨elements, pairs, l, rows, -, hextend⟩ := Chain.exists_of_build hr
  obtain ⟨ts, hts⟩ := ResiduatedLattice.exists_generate_eq_ok hextend
  exact ⟨ts, isWide_of_build hr hts⟩

namespace IsWide

variable (h : ts.IsWide)

include h

lemma generated : ts.Generated := CommandLine.generated_of_twistOf h.selected

lemma size_base : ts.base.size = 65537 := h.chain.chain.size_eq

lemma contains_iff : ts.contains x = true ↔ x.t < 65537 ∧ x.f < 65537 := by
  rw [TwistStructure.contains_iff, h.size_base]

lemma absoluteTrue_eq : ts.absoluteTrue = ⟨65536, 0⟩ :=
  congrArg₂ TwistElement.mk h.chain.chain.top_eq h.chain.chain.bottom_eq

lemma absoluteFalse_eq : ts.absoluteFalse = ⟨0, 65536⟩ :=
  congrArg₂ TwistElement.mk h.chain.chain.bottom_eq h.chain.chain.top_eq

lemma leq_iff (hx : ts.contains x = true) (hy : ts.contains y = true) :
    ts.leq x y = true ↔ x.t ≤ y.t ∧ y.f ≤ x.f := by
  rw [h.contains_iff] at hx hy
  rw [leq, Bool.and_eq_true]
  exact and_congr (h.chain.chain.leq_iff _ hx.1 _ hy.1) (h.chain.chain.leq_iff _ hy.2 _ hx.2)

lemma knowledgeLeq_iff (hx : ts.contains x = true) (hy : ts.contains y = true) :
    ts.knowledgeLeq x y = true ↔ x.t ≤ y.t ∧ x.f ≤ y.f := by
  rw [h.contains_iff] at hx hy
  rw [knowledgeLeq, Bool.and_eq_true]
  exact and_congr (h.chain.chain.leq_iff _ hx.1 _ hy.1) (h.chain.chain.leq_iff _ hx.2 _ hy.2)

/-- A negation, computed in the numbers of the elements. -/
lemma negation_eq (hx : x.t < 65537 ∧ x.f < 65537) (hy : y.t < 65537 ∧ y.f < 65537)
    (hxy : position 65537 y = position 65537 ⟨x.f, x.t⟩ % UInt32.size) : ts.negation x = y := by
  refine h.generated.negation_eq (h.contains_iff.mpr hx) (h.contains_iff.mpr hy) ?_
  rwa [index, index, h.size_base]

lemma negation_absoluteFalse : ts.negation ts.absoluteFalse = ts.absoluteFalse := by
  rw [h.absoluteFalse_eq]
  exact h.negation_eq (by decide) (by decide) (by decide)

end IsWide

end TwistStructure

end TwistLogic
