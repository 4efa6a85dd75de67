import TwistLogic.Proofs.Algebra.Extension
import TwistLogic.Proofs.Algebra.Monotone

/-!
# The laws of implication

The residuum of an algebra is known by what lies below it: `d ≤ b → c` says that `d * b ≤ c`, and as
the product is commutative this says as well that `b ≤ d → c` (`leq_residuum_comm`).  Two elements
are the same if the same elements lie below them (`IsLatticeOrder.eq_of_forall_le_iff`), so the laws
of the residuum are read off from the bounds: it turns joins on its left and meets on its right into
meets, and two premises may be exchanged.

The implication of a twist structure has such a residuum for and a product against, and the product
distributes over joins.  So the laws carry over, side by side (`ImplicationLaws`).
-/

namespace TwistLogic

/-! ## Elements and what lies below them -/

namespace IsLatticeOrder

variable {α : Type} {mem : α → Prop} {le : α → α → Prop} {inf sup : α → α → α} {a b c : α}

/-- Elements are the same if the same elements lie below them. -/
lemma eq_of_forall_le_iff (h : IsLatticeOrder mem le inf sup) (ha : mem a) (hb : mem b)
    (hiff : ∀ d, mem d → (le d a ↔ le d b)) : a = b :=
  h.antisymm ha hb ((hiff a ha).mp (h.refl ha)) ((hiff b hb).mpr (h.refl hb))

lemma le_inf_iff (h : IsLatticeOrder mem le inf sup) (ha : mem a) (hb : mem b) (hc : mem c) :
    le c (inf a b) ↔ le c a ∧ le c b := by
  have hinf := h.inf_mem ha hb
  constructor
  · intro hle
    exact ⟨h.trans hc hinf ha hle (h.inf_left ha hb), h.trans hc hinf hb hle (h.inf_right ha hb)⟩
  · rintro ⟨hca, hcb⟩
    exact h.le_inf ha hb hc hca hcb

lemma inf_comm (h : IsLatticeOrder mem le inf sup) (ha : mem a) (hb : mem b) :
    inf a b = inf b a := by
  refine h.eq_of_forall_le_iff (h.inf_mem ha hb) (h.inf_mem hb ha) fun d hd => ?_
  rw [h.le_inf_iff ha hb hd, h.le_inf_iff hb ha hd, and_comm]

lemma sup_le_iff (h : IsLatticeOrder mem le inf sup) (ha : mem a) (hb : mem b) (hc : mem c) :
    le (sup a b) c ↔ le a c ∧ le b c :=
  h.dual.le_inf_iff ha hb hc

end IsLatticeOrder

/-! ## Residuated lattices -/

namespace ResiduatedLattice.Lawful

variable {r : ResiduatedLattice} {a b c d : ElementId}

/-- Two premises, as they stand on the two sides of an order, may be exchanged. -/
lemma leq_residuum_comm (h : r.Lawful) (hb : b < r.size) (hc : c < r.size) (hd : d < r.size) :
    r.leq d (r.residuum b c) = true ↔ r.leq b (r.residuum d c) = true := by
  rw [← h.adjunction hd hb hc, ← h.adjunction hb hd hc, h.tensor_comm hd hb]

/-- A product implies what its factors imply one after the other. -/
lemma tensor_residuum (h : r.Lawful) (ha : a < r.size) (hb : b < r.size) (hc : c < r.size) :
    r.residuum (r.tensor a b) c = r.residuum a (r.residuum b c) := by
  have hab := h.tensor_lt ha hb
  have hbc := h.residuum_lt hb hc
  refine h.isLatticeOrder.eq_of_forall_le_iff (h.residuum_lt hab hc) (h.residuum_lt ha hbc)
    fun d hd => ?_
  rw [← h.adjunction hd hab hc, ← h.adjunction hd ha hbc,
    ← h.adjunction (h.tensor_lt hd ha) hb hc, h.tensor_assoc hd ha hb]

/-- Two premises may be exchanged. -/
lemma residuum_left_comm (h : r.Lawful) (ha : a < r.size) (hb : b < r.size) (hc : c < r.size) :
    r.residuum a (r.residuum b c) = r.residuum b (r.residuum a c) := by
  rw [← h.tensor_residuum ha hb hc, ← h.tensor_residuum hb ha hc, h.tensor_comm ha hb]

/-- Two factors may be exchanged. -/
lemma tensor_left_comm (h : r.Lawful) (ha : a < r.size) (hb : b < r.size) (hc : c < r.size) :
    r.tensor a (r.tensor b c) = r.tensor b (r.tensor a c) := by
  rw [← h.tensor_assoc ha hb hc, ← h.tensor_assoc hb ha hc, h.tensor_comm ha hb]

/-- What implies a meet implies both of its parts. -/
lemma residuum_meet (h : r.Lawful) (ha : a < r.size) (hb : b < r.size) (hc : c < r.size) :
    r.residuum a (r.meet b c) = r.meet (r.residuum a b) (r.residuum a c) := by
  have hle := h.isLatticeOrder
  have hbc := hle.inf_mem hb hc
  have hab := h.residuum_lt ha hb
  have hac := h.residuum_lt ha hc
  refine hle.eq_of_forall_le_iff (h.residuum_lt ha hbc) (hle.inf_mem hab hac) fun d hd => ?_
  rw [hle.le_inf_iff hab hac hd, ← h.adjunction hd ha hbc, ← h.adjunction hd ha hb,
    ← h.adjunction hd ha hc, hle.le_inf_iff hb hc (h.tensor_lt hd ha)]

/-- What a join implies is implied by both of its parts. -/
lemma join_residuum (h : r.Lawful) (ha : a < r.size) (hb : b < r.size) (hc : c < r.size) :
    r.residuum (r.join a b) c = r.meet (r.residuum a c) (r.residuum b c) := by
  have hle := h.isLatticeOrder
  have hab := hle.sup_mem ha hb
  have hac := h.residuum_lt ha hc
  have hbc := h.residuum_lt hb hc
  refine hle.eq_of_forall_le_iff (h.residuum_lt hab hc) (hle.inf_mem hac hbc) fun d hd => ?_
  rw [hle.le_inf_iff hac hbc hd, h.leq_residuum_comm hab hc hd, h.leq_residuum_comm ha hc hd,
    h.leq_residuum_comm hb hc hd, hle.sup_le_iff ha hb (h.residuum_lt hd hc)]

/-- The product distributes over a join on its right. -/
lemma tensor_join_right (h : r.Lawful) (ha : a < r.size) (hb : b < r.size) (hc : c < r.size) :
    r.tensor a (r.join b c) = r.join (r.tensor a b) (r.tensor a c) := by
  rw [h.tensor_comm ha (h.isLatticeOrder.sup_mem hb hc), h.tensor_join hb hc ha,
    h.tensor_comm hb ha, h.tensor_comm hc ha]

/-- Everything implies the top. -/
lemma residuum_top (h : r.Lawful) (ha : a < r.size) : r.residuum a r.top = r.top := by
  refine h.lattice.eq_top_of_leq (h.residuum_lt ha h.top_lt) ?_
  exact (h.adjunction h.top_lt ha h.top_lt).mp (h.lattice.leq_top (h.tensor_lt h.top_lt ha))

lemma tensor_bottom (h : r.Lawful) (ha : a < r.size) : r.tensor a r.bottom = r.bottom := by
  rw [h.tensor_comm ha h.bottom_lt, h.bottom_tensor ha]

end ResiduatedLattice.Lawful

/-! ## Twist structures -/

namespace TwistStructure

/-- Absolute truth implies exactly what holds, everything implies absolute truth, and absolute
falsity implies everything.  Premises may be exchanged, meets on the right and joins on the left of
an implication become meets of implications, and an implication is antitone on its left and monotone
on its right. -/
structure ImplicationLaws (ts : TwistStructure) : Prop where
  absoluteTrue_left : ∀ x, ts.contains x = true → ts.implication ts.absoluteTrue x = x
  absoluteTrue_right : ∀ x, ts.contains x = true →
    ts.implication x ts.absoluteTrue = ts.absoluteTrue
  absoluteFalse_left : ∀ x, ts.contains x = true →
    ts.implication ts.absoluteFalse x = ts.absoluteTrue
  exchange : ∀ x y z, ts.contains x = true → ts.contains y = true → ts.contains z = true →
    ts.implication x (ts.implication y z) = ts.implication y (ts.implication x z)
  meet_right : ∀ x y z, ts.contains x = true → ts.contains y = true → ts.contains z = true →
    ts.implication x (ts.meet y z) = ts.meet (ts.implication x y) (ts.implication x z)
  join_left : ∀ x y z, ts.contains x = true → ts.contains y = true → ts.contains z = true →
    ts.implication (ts.join x y) z = ts.meet (ts.implication x z) (ts.implication y z)
  antitone_left : ∀ x x' y, ts.contains x = true → ts.contains x' = true → ts.contains y = true →
    ts.leq x x' = true → ts.leq (ts.implication x' y) (ts.implication x y) = true
  monotone_right : ∀ x y y', ts.contains x = true → ts.contains y = true → ts.contains y' = true →
    ts.leq y y' = true → ts.leq (ts.implication x y) (ts.implication x y') = true

namespace Lawful

variable {ts : TwistStructure} {x y z : TwistElement}

lemma absoluteTrue_meet (h : ts.Lawful) (hx : ts.contains x = true) :
    ts.meet ts.absoluteTrue x = x :=
  h.leq_antisymm (h.contains_meet h.contains_absoluteTrue hx) hx
    (h.truthOrder.inf_right h.contains_absoluteTrue hx)
    (h.truthOrder.le_inf h.contains_absoluteTrue hx hx (h.leq_absoluteTrue hx) (h.leq_refl hx))

lemma absoluteFalse_meet (h : ts.Lawful) (hx : ts.contains x = true) :
    ts.meet ts.absoluteFalse x = ts.absoluteFalse :=
  h.leq_antisymm (h.contains_meet h.contains_absoluteFalse hx) h.contains_absoluteFalse
    (h.truthOrder.inf_left h.contains_absoluteFalse hx)
    (h.absoluteFalse_leq (h.contains_meet h.contains_absoluteFalse hx))

lemma absoluteTrue_join (h : ts.Lawful) (hx : ts.contains x = true) :
    ts.join ts.absoluteTrue x = ts.absoluteTrue :=
  h.leq_antisymm (h.contains_join h.contains_absoluteTrue hx) h.contains_absoluteTrue
    (h.leq_absoluteTrue (h.contains_join h.contains_absoluteTrue hx))
    (h.truthOrder.left_sup h.contains_absoluteTrue hx)

lemma absoluteFalse_join (h : ts.Lawful) (hx : ts.contains x = true) :
    ts.join ts.absoluteFalse x = x :=
  h.leq_antisymm (h.contains_join h.contains_absoluteFalse hx) hx
    (h.truthOrder.sup_le h.contains_absoluteFalse hx hx (h.absoluteFalse_leq hx) (h.leq_refl hx))
    (h.truthOrder.right_sup h.contains_absoluteFalse hx)

/-- What is implied by absolute truth holds as it is. -/
lemma absoluteTrue_implication (h : ts.Lawful) (hx : ts.contains x = true) :
    ts.implication ts.absoluteTrue x = x := by
  obtain ⟨ht, hf⟩ := contains_iff.mp hx
  rw [implication, absoluteTrue, h.base.top_residuum ht, h.base.top_tensor hf]

/-- Absolute falsity implies everything. -/
lemma absoluteFalse_implication (h : ts.Lawful) (hx : ts.contains x = true) :
    ts.implication ts.absoluteFalse x = ts.absoluteTrue := by
  obtain ⟨ht, hf⟩ := contains_iff.mp hx
  rw [implication, absoluteFalse, h.base.bottom_residuum ht, h.base.bottom_tensor hf, absoluteTrue]

/-- Everything implies absolute truth. -/
lemma implication_absoluteTrue (h : ts.Lawful) (hx : ts.contains x = true) :
    ts.implication x ts.absoluteTrue = ts.absoluteTrue := by
  obtain ⟨ht, -⟩ := contains_iff.mp hx
  rw [implication, absoluteTrue, h.base.residuum_top ht, h.base.tensor_bottom ht]

lemma implication_left_comm (h : ts.Lawful) (hx : ts.contains x = true)
    (hy : ts.contains y = true) (hz : ts.contains z = true) :
    ts.implication x (ts.implication y z) = ts.implication y (ts.implication x z) := by
  obtain ⟨hxt, -⟩ := contains_iff.mp hx
  obtain ⟨hyt, -⟩ := contains_iff.mp hy
  obtain ⟨hzt, hzf⟩ := contains_iff.mp hz
  simp only [implication, h.base.residuum_left_comm hxt hyt hzt,
    h.base.tensor_left_comm hxt hyt hzf]

lemma implication_meet (h : ts.Lawful) (hx : ts.contains x = true)
    (hy : ts.contains y = true) (hz : ts.contains z = true) :
    ts.implication x (ts.meet y z) = ts.meet (ts.implication x y) (ts.implication x z) := by
  obtain ⟨hxt, -⟩ := contains_iff.mp hx
  obtain ⟨hyt, hyf⟩ := contains_iff.mp hy
  obtain ⟨hzt, hzf⟩ := contains_iff.mp hz
  simp only [implication, meet, h.base.residuum_meet hxt hyt hzt,
    h.base.tensor_join_right hxt hyf hzf]

lemma join_implication (h : ts.Lawful) (hx : ts.contains x = true)
    (hy : ts.contains y = true) (hz : ts.contains z = true) :
    ts.implication (ts.join x y) z = ts.meet (ts.implication x z) (ts.implication y z) := by
  obtain ⟨hxt, -⟩ := contains_iff.mp hx
  obtain ⟨hyt, -⟩ := contains_iff.mp hy
  obtain ⟨hzt, hzf⟩ := contains_iff.mp hz
  simp only [implication, meet, join, h.base.join_residuum hxt hyt hzt,
    h.base.tensor_join hxt hyt hzf]

/-- The laws of implication hold wherever those of the base do. -/
theorem implicationLaws (h : ts.Lawful) : ts.ImplicationLaws where
  absoluteTrue_left _ := h.absoluteTrue_implication
  absoluteTrue_right _ := h.implication_absoluteTrue
  absoluteFalse_left _ := h.absoluteFalse_implication
  exchange _ _ _ := h.implication_left_comm
  meet_right _ _ _ := h.implication_meet
  join_left _ _ _ := h.join_implication
  antitone_left _ _ _ hx hx' hy hle :=
    (truthBelow_iff.mp (.implication h (truthBelow_iff.mpr ⟨hx, hx', hle⟩) (.refl h hy))).2.2
  monotone_right _ _ _ hx hy hy' hle :=
    (truthBelow_iff.mp (.implication h (.refl h hx) (truthBelow_iff.mpr ⟨hy, hy', hle⟩))).2.2

end Lawful

/-- Every residuated lattice that was built and extended has a twist structure, in which the laws of
implication hold. -/
theorem implicationLaws_of_generate {elements : List Text} {pairs : List (Text × Text)}
    {l : FiniteLattice} {rows : List (List ElementId)} {r : ResiduatedLattice}
    (hl : FiniteLattice.build elements pairs = .ok l)
    (hr : ResiduatedLattice.extend l rows = .ok r) :
    ∃ ts, generate (some r) = .ok ts ∧ ts.base = r ∧ ts.ImplicationLaws := by
  obtain ⟨ts, hts⟩ := ResiduatedLattice.exists_generate_eq_ok hr
  have hgenerated : ts.Generated := ⟨elements, pairs, l, rows, r, hl, hr, hts⟩
  exact ⟨ts, hts, base_of_generate hts, hgenerated.lawful.implicationLaws⟩

/-- The product of a chain of three elements, in which the middle times itself is the bottom, and
one of two has incomparable elements and is no meet.  The implication between two incomparable
elements of its twist structure is neither of the absolute values. -/
theorem implicationLaws_of_generate_grid :
    let names := [ascii "00", ascii "01", ascii "h0", ascii "h1", ascii "10", ascii "11"]
    let pairs := [(ascii "00", ascii "01"), (ascii "00", ascii "h0"), (ascii "01", ascii "h1"),
      (ascii "h0", ascii "h1"), (ascii "h0", ascii "10"), (ascii "h1", ascii "11"),
      (ascii "10", ascii "11")]
    let rows := [[0, 0, 0, 0, 0, 0], [0, 1, 0, 1, 0, 1], [0, 0, 0, 0, 2, 2], [0, 1, 0, 1, 2, 3],
      [0, 0, 2, 2, 4, 4], [0, 1, 2, 3, 4, 5]]
    let l := (FiniteLattice.build names pairs).toOption.getD fourValued.base.lattice
    let r := (ResiduatedLattice.extend l rows).toOption.getD fourValued.base
    ∃ ts, generate (some r) = .ok ts ∧ ts.ImplicationLaws ∧ ts.size = 36 ∧
      ts.implication ⟨1, 4⟩ ⟨2, 3⟩ = ⟨4, 1⟩ ∧
      ts.implication (ts.join ⟨1, 4⟩ ⟨2, 3⟩) ⟨2, 2⟩ =
        ts.meet (ts.implication ⟨1, 4⟩ ⟨2, 2⟩) (ts.implication ⟨2, 3⟩ ⟨2, 2⟩) := by
  intro names pairs rows l r
  have hl : FiniteLattice.build names pairs = .ok l := eq_ok_getD_of_isSome (by decide +kernel)
  obtain ⟨hsome, hsize, hentries⟩ : (ResiduatedLattice.extend l rows).toOption.isSome = true ∧
      r.size = 6 ∧ (⟨r.residuum 1 2, r.tensor 1 3⟩ : TwistElement) = ⟨4, 1⟩ := by
    decide +kernel
  have hr : ResiduatedLattice.extend l rows = .ok r := eq_ok_getD_of_isSome hsome
  obtain ⟨ts, hts, hbase, hlaws⟩ := implicationLaws_of_generate hl hr
  have hmem : ∀ a b, a < 6 → b < 6 → ts.contains ⟨a, b⟩ = true := by
    intro a b ha hb
    rw [contains_iff, hbase, hsize]
    exact ⟨ha, hb⟩
  refine ⟨ts, hts, hlaws, by rw [size_of_generate hts, hsize], ?_, ?_⟩
  · rw [implication, hbase]
    exact hentries
  · exact hlaws.join_left _ _ _ (hmem 1 4 (by decide) (by decide))
      (hmem 2 3 (by decide) (by decide)) (hmem 2 2 (by decide) (by decide))

end TwistStructure

end TwistLogic
