import TwistLogic.Proofs.Algebra.Twist

/-!
# Operations and orders

How the operations of an algebra act on its orders.  Everything about the product and its residuum
follows from the adjunction: the residuum is monotone on the right and antitone on the left, the
bottom absorbs, the top implies exactly what holds and the bottom implies everything.

A twist element is a pair, so each of its two orders is a pair of comparisons in the base
(`TruthBelow`, `KnowledgeBelow`), and each operation acts on the two sides separately.  The bounds
of either order and negation respect both orders, negation by turning the truth order round.
Material implication respects the knowledge order on both sides; the residuated implication does so
only on its right.

Negation is read from a table of 32-bit positions, so it exchanges the two sides only in a structure
that has no more elements than there are such positions.  `Exact` is the class of structures where
it does (`Generated.exact`).
-/

namespace TwistLogic

/-! ## Lattices -/

namespace FiniteLattice.Lawful

variable {l : FiniteLattice} {a b c d : ElementId}

lemma meet_mono (h : l.Lawful) (ha : a < l.size) (hb : b < l.size) (hc : c < l.size)
    (hd : d < l.size) (hab : l.leq a b = true) (hcd : l.leq c d = true) :
    l.leq (l.meet a c) (l.meet b d) = true := by
  have hm := h.meet_lt ha hc
  exact h.leq_meet hb hd hm (h.leq_trans hm ha hb (h.meet_leq_left ha hc) hab)
    (h.leq_trans hm hc hd (h.meet_leq_right ha hc) hcd)

lemma join_mono (h : l.Lawful) (ha : a < l.size) (hb : b < l.size) (hc : c < l.size)
    (hd : d < l.size) (hab : l.leq a b = true) (hcd : l.leq c d = true) :
    l.leq (l.join a c) (l.join b d) = true := by
  have hj := h.join_lt hb hd
  exact h.join_leq ha hc hj (h.leq_trans ha hb hj hab (h.leq_join_left hb hd))
    (h.leq_trans hc hd hj hcd (h.leq_join_right hb hd))

/-- Only the bottom is below the bottom. -/
lemma eq_bottom_of_leq (h : l.Lawful) (ha : a < l.size) (hab : l.leq a l.bottom = true) :
    a = l.bottom :=
  h.leq_antisymm ha h.bottom_lt hab (h.bottom_leq ha)

/-- Only the top is above the top. -/
lemma eq_top_of_leq (h : l.Lawful) (ha : a < l.size) (hab : l.leq l.top a = true) : a = l.top :=
  h.leq_antisymm ha h.top_lt (h.leq_top ha) hab

end FiniteLattice.Lawful

/-! ## Residuated lattices -/

namespace ResiduatedLattice

/-- Two elements, the first below the second. -/
structure Below (r : ResiduatedLattice) (a b : ElementId) : Prop where
  left : a < r.size
  right : b < r.size
  leq : r.leq a b = true

namespace Lawful

variable {r : ResiduatedLattice} {a b c d : ElementId}

lemma top_lt (h : r.Lawful) : r.top < r.size := h.lattice.top_lt

lemma bottom_lt (h : r.Lawful) : r.bottom < r.size := h.lattice.bottom_lt

lemma below_refl (h : r.Lawful) (ha : a < r.size) : r.Below a a :=
  ⟨ha, ha, h.lattice.leq_refl ha⟩

lemma below_meet (h : r.Lawful) (hab : r.Below a b) (hcd : r.Below c d) :
    r.Below (r.meet a c) (r.meet b d) where
  left := h.lattice.meet_lt hab.left hcd.left
  right := h.lattice.meet_lt hab.right hcd.right
  leq := h.lattice.meet_mono hab.left hab.right hcd.left hcd.right hab.leq hcd.leq

lemma below_join (h : r.Lawful) (hab : r.Below a b) (hcd : r.Below c d) :
    r.Below (r.join a c) (r.join b d) where
  left := h.lattice.join_lt hab.left hcd.left
  right := h.lattice.join_lt hab.right hcd.right
  leq := h.lattice.join_mono hab.left hab.right hcd.left hcd.right hab.leq hcd.leq

/-- The product is monotone in both factors: one factor is checked, and the other follows by
commutativity. -/
lemma below_tensor (h : r.Lawful) (hab : r.Below a b) (hcd : r.Below c d) :
    r.Below (r.tensor a c) (r.tensor b d) := by
  have hac := h.tensor_lt hab.left hcd.left
  have hbc := h.tensor_lt hab.right hcd.left
  have hbd := h.tensor_lt hab.right hcd.right
  have hleft : r.leq (r.tensor a c) (r.tensor b c) = true :=
    h.tensor_mono hab.left hab.right hcd.left hab.leq
  have hright : r.leq (r.tensor b c) (r.tensor b d) = true := by
    rw [h.tensor_comm hab.right hcd.left, h.tensor_comm hab.right hcd.right]
    exact h.tensor_mono hcd.left hcd.right hab.right hcd.leq
  exact ⟨hac, hbd, h.lattice.leq_trans hac hbc hbd hleft hright⟩

/-- What is implied by a factor follows from the product. -/
lemma below_tensor_residuum (h : r.Lawful) (hb : b < r.size) (hc : c < r.size) :
    r.Below (r.tensor (r.residuum b c) b) c where
  left := h.tensor_lt (h.residuum_lt hb hc) hb
  right := hc
  leq := (h.adjunction (h.residuum_lt hb hc) hb hc).mpr
    (h.lattice.leq_refl (h.residuum_lt hb hc))

/-- The residuum is antitone on the left and monotone on the right. -/
lemma below_residuum (h : r.Lawful) (hba : r.Below b a) (hcd : r.Below c d) :
    r.Below (r.residuum a c) (r.residuum b d) := by
  have hac := h.residuum_lt hba.right hcd.left
  have hbd := h.residuum_lt hba.left hcd.right
  refine ⟨hac, hbd, (h.adjunction hac hba.left hcd.right).mp ?_⟩
  have hshrink := h.below_tensor (h.below_refl hac) hba
  have happly := h.below_tensor_residuum hba.right hcd.left
  have hbelow : r.leq (r.tensor (r.residuum a c) b) c = true :=
    h.lattice.leq_trans hshrink.left hshrink.right hcd.left hshrink.leq happly.leq
  exact h.lattice.leq_trans hshrink.left hcd.left hcd.right hbelow hcd.leq

lemma top_tensor (h : r.Lawful) (ha : a < r.size) : r.tensor r.top a = a := by
  rw [h.tensor_comm h.top_lt ha, h.tensor_top ha]

/-- The bottom absorbs every factor: it lies below whatever that factor implies. -/
lemma bottom_tensor (h : r.Lawful) (ha : a < r.size) : r.tensor r.bottom a = r.bottom := by
  have hbottom := h.bottom_lt
  have hleq : r.leq (r.tensor r.bottom a) r.bottom = true :=
    (h.adjunction hbottom ha hbottom).mpr (h.lattice.bottom_leq (h.residuum_lt ha hbottom))
  exact h.lattice.eq_bottom_of_leq (h.tensor_lt hbottom ha) hleq

/-- The top implies exactly what holds. -/
lemma top_residuum (h : r.Lawful) (ha : a < r.size) : r.residuum r.top a = a := by
  have htop := h.top_lt
  have hlt := h.residuum_lt htop ha
  have happly := (h.below_tensor_residuum htop ha).leq
  rw [h.tensor_top hlt] at happly
  refine h.lattice.leq_antisymm hlt ha happly ((h.adjunction ha htop ha).mp ?_)
  rw [h.tensor_top ha]
  exact h.lattice.leq_refl ha

/-- The bottom implies everything. -/
lemma bottom_residuum (h : r.Lawful) (ha : a < r.size) : r.residuum r.bottom a = r.top := by
  have hbottom := h.bottom_lt
  refine h.lattice.eq_top_of_leq (h.residuum_lt hbottom ha) ?_
  refine (h.adjunction h.top_lt hbottom ha).mp ?_
  rw [h.top_tensor hbottom]
  exact h.lattice.bottom_leq ha

end Lawful

end ResiduatedLattice

/-! ## Twist structures -/

namespace TwistStructure

variable {ts : TwistStructure} {x x' y y' : TwistElement}

/-- A lawful structure in which negation exchanges the two sides of every element. -/
structure Exact (ts : TwistStructure) : Prop extends ts.Lawful where
  negation_eq : ∀ {x}, ts.contains x = true → ts.negation x = ⟨x.f, x.t⟩

/-- The pairs of numbers below `n` stand in the order of their positions. -/
lemma getElem?_pairs {n : Nat} {x : TwistElement} (ht : x.t < n) (hf : x.f < n) :
    (pairs n)[position n x]? = some x := by
  have hentry := getElem?_flatMap_map TwistElement.mk (List.getElem?_range ht)
    (List.getElem?_range hf)
  rwa [List.length_range] at hentry

lemma length_pairs (n : Nat) : (pairs n).length = n * n := by
  simp [pairs, List.length_flatMap]

/-- Positions are smaller than the number of pairs. -/
lemma position_lt {n : Nat} (ht : x.t < n) (hf : x.f < n) : position n x < n * n := by
  rw [← length_pairs]
  exact (List.getElem?_eq_some_iff.mp (getElem?_pairs ht hf)).1

lemma base_of_generate {r : ResiduatedLattice} (h : generate (some r) = .ok ts) : ts.base = r := by
  rw [eq_of_generate_eq_ok h]

/-- A structure has an element for every pair of elements of its base. -/
lemma size_of_generate {r : ResiduatedLattice} (h : generate (some r) = .ok ts) :
    ts.size = r.size * r.size := by
  rw [eq_of_generate_eq_ok h, size, List.size_toArray, length_pairs]

/-- Every pair of elements of the base stands in the list of elements at its position. -/
lemma getElem?_elements {r : ResiduatedLattice} (h : generate (some r) = .ok ts)
    (ht : x.t < r.size) (hf : x.f < r.size) : ts.elements[position r.size x]? = some x := by
  rw [eq_of_generate_eq_ok h]
  exact (List.getElem?_toArray ..).trans (getElem?_pairs ht hf)

/-- The table of negation holds, at the position of a pair, what 32 bits keep of the position of the
pair with its sides exchanged. -/
lemma getElem?_negations {r : ResiduatedLattice} (h : generate (some r) = .ok ts)
    (ht : x.t < r.size) (hf : x.f < r.size) :
    ts.negations[position r.size x]? = some (UInt32.ofNat (position r.size ⟨x.f, x.t⟩)) := by
  rw [eq_of_generate_eq_ok h, List.getElem?_toArray, List.getElem?_map, getElem?_pairs ht hf]
  rfl

/-- Where all positions are 32-bit numbers, the table of negation exchanges the two sides. -/
theorem Generated.exact (h : ts.Generated) (hsize : ts.size ≤ UInt32.size) : ts.Exact := by
  refine ⟨h.lawful, fun {x} hx => ?_⟩
  obtain ⟨elements, _, l, rows, r, -, -, hts⟩ := h
  rw [size_of_generate hts] at hsize
  obtain rfl := base_of_generate hts
  obtain ⟨ht, hf⟩ := contains_iff.mp hx
  have hswap : ts.elements[position ts.base.size ⟨x.f, x.t⟩]? = some ⟨x.f, x.t⟩ :=
    getElem?_elements hts hf ht
  have hlt : position ts.base.size ⟨x.f, x.t⟩ < 2 ^ 32 :=
    Nat.lt_of_lt_of_le (position_lt hf ht) hsize
  simp only [negation, index, Array.getD_eq_getD_getElem?, getElem?_negations hts ht hf,
    Option.getD_some, UInt32.toNat_ofNat', Nat.mod_eq_of_lt hlt, hswap]

namespace Exact

lemma negation_absoluteTrue (h : ts.Exact) : ts.negation ts.absoluteTrue = ts.absoluteFalse :=
  h.negation_eq h.contains_absoluteTrue

lemma negation_absoluteFalse (h : ts.Exact) : ts.negation ts.absoluteFalse = ts.absoluteTrue :=
  h.negation_eq h.contains_absoluteFalse

lemma negation_negation (h : ts.Exact) (hx : ts.contains x = true) :
    ts.negation (ts.negation x) = x := by
  have hswap := h.contains_negation x
  rw [h.negation_eq hx] at hswap ⊢
  rw [h.negation_eq hswap]

/-- Negation turns the truth order round. -/
lemma leq_negation (h : ts.Exact) (hx : ts.contains x = true) (hy : ts.contains y = true) :
    ts.leq (ts.negation x) (ts.negation y) = ts.leq y x := by
  rw [h.negation_eq hx, h.negation_eq hy, leq, leq, Bool.and_comm]

end Exact

/-! ### The truth order -/

/-- Two elements, the first below the second in the truth order. -/
structure TruthBelow (ts : TwistStructure) (x y : TwistElement) : Prop where
  pro : ts.base.Below x.t y.t
  con : ts.base.Below y.f x.f

lemma truthBelow_iff : ts.TruthBelow x y ↔
    ts.contains x = true ∧ ts.contains y = true ∧ ts.leq x y = true := by
  simp only [contains_iff, leq, Bool.and_eq_true]
  constructor
  · rintro ⟨hpro, hcon⟩
    exact ⟨⟨hpro.left, hcon.right⟩, ⟨hpro.right, hcon.left⟩, hpro.leq, hcon.leq⟩
  · rintro ⟨⟨hxt, hxf⟩, ⟨hyt, hyf⟩, hpro, hcon⟩
    exact ⟨⟨hxt, hyt, hpro⟩, ⟨hyf, hxf, hcon⟩⟩

namespace TruthBelow

lemma refl (h : ts.Lawful) (hx : ts.contains x = true) : ts.TruthBelow x x :=
  truthBelow_iff.mpr ⟨hx, hx, h.leq_refl hx⟩

lemma meet (h : ts.Lawful) (hx : ts.TruthBelow x x') (hy : ts.TruthBelow y y') :
    ts.TruthBelow (ts.meet x y) (ts.meet x' y') :=
  ⟨h.base.below_meet hx.pro hy.pro, h.base.below_join hx.con hy.con⟩

lemma join (h : ts.Lawful) (hx : ts.TruthBelow x x') (hy : ts.TruthBelow y y') :
    ts.TruthBelow (ts.join x y) (ts.join x' y') :=
  ⟨h.base.below_join hx.pro hy.pro, h.base.below_meet hx.con hy.con⟩

lemma consensus (h : ts.Lawful) (hx : ts.TruthBelow x x') (hy : ts.TruthBelow y y') :
    ts.TruthBelow (ts.consensus x y) (ts.consensus x' y') :=
  ⟨h.base.below_meet hx.pro hy.pro, h.base.below_meet hx.con hy.con⟩

lemma acceptAll (h : ts.Lawful) (hx : ts.TruthBelow x x') (hy : ts.TruthBelow y y') :
    ts.TruthBelow (ts.acceptAll x y) (ts.acceptAll x' y') :=
  ⟨h.base.below_join hx.pro hy.pro, h.base.below_join hx.con hy.con⟩

/-- The residuated implication is antitone on the left and monotone on the right. -/
lemma implication (h : ts.Lawful) (hx : ts.TruthBelow x' x) (hy : ts.TruthBelow y y') :
    ts.TruthBelow (ts.implication x y) (ts.implication x' y') :=
  ⟨h.base.below_residuum hx.pro hy.pro, h.base.below_tensor hx.pro hy.con⟩

lemma negation (h : ts.Exact) (hx : ts.TruthBelow x' x) :
    ts.TruthBelow (ts.negation x) (ts.negation x') := by
  obtain ⟨hx', hx₀, hle⟩ := truthBelow_iff.mp hx
  refine truthBelow_iff.mpr ⟨h.contains_negation x, h.contains_negation x', ?_⟩
  rw [h.leq_negation hx₀ hx', hle]

end TruthBelow

/-! ### The knowledge order -/

/-- Two elements, the first below the second in the knowledge order. -/
structure KnowledgeBelow (ts : TwistStructure) (x y : TwistElement) : Prop where
  pro : ts.base.Below x.t y.t
  con : ts.base.Below x.f y.f

lemma knowledgeBelow_iff : ts.KnowledgeBelow x y ↔
    ts.contains x = true ∧ ts.contains y = true ∧ ts.knowledgeLeq x y = true := by
  simp only [contains_iff, knowledgeLeq, Bool.and_eq_true]
  constructor
  · rintro ⟨hpro, hcon⟩
    exact ⟨⟨hpro.left, hcon.left⟩, ⟨hpro.right, hcon.right⟩, hpro.leq, hcon.leq⟩
  · rintro ⟨⟨hxt, hxf⟩, ⟨hyt, hyf⟩, hpro, hcon⟩
    exact ⟨⟨hxt, hyt, hpro⟩, ⟨hxf, hyf, hcon⟩⟩

namespace KnowledgeBelow

lemma refl (h : ts.Lawful) (hx : ts.contains x = true) : ts.KnowledgeBelow x x := by
  obtain ⟨ht, hf⟩ := contains_iff.mp hx
  exact ⟨h.base.below_refl ht, h.base.below_refl hf⟩

lemma meet (h : ts.Lawful) (hx : ts.KnowledgeBelow x x') (hy : ts.KnowledgeBelow y y') :
    ts.KnowledgeBelow (ts.meet x y) (ts.meet x' y') :=
  ⟨h.base.below_meet hx.pro hy.pro, h.base.below_join hx.con hy.con⟩

lemma join (h : ts.Lawful) (hx : ts.KnowledgeBelow x x') (hy : ts.KnowledgeBelow y y') :
    ts.KnowledgeBelow (ts.join x y) (ts.join x' y') :=
  ⟨h.base.below_join hx.pro hy.pro, h.base.below_meet hx.con hy.con⟩

lemma consensus (h : ts.Lawful) (hx : ts.KnowledgeBelow x x') (hy : ts.KnowledgeBelow y y') :
    ts.KnowledgeBelow (ts.consensus x y) (ts.consensus x' y') :=
  ⟨h.base.below_meet hx.pro hy.pro, h.base.below_meet hx.con hy.con⟩

lemma acceptAll (h : ts.Lawful) (hx : ts.KnowledgeBelow x x') (hy : ts.KnowledgeBelow y y') :
    ts.KnowledgeBelow (ts.acceptAll x y) (ts.acceptAll x' y') :=
  ⟨h.base.below_join hx.pro hy.pro, h.base.below_join hx.con hy.con⟩

/-- The residuated implication is monotone in its right operand, as long as the left one stays. -/
lemma implication (h : ts.Lawful) (hx : ts.contains x = true) (hy : ts.KnowledgeBelow y y') :
    ts.KnowledgeBelow (ts.implication x y) (ts.implication x y') := by
  have ht := h.base.below_refl (contains_iff.mp hx).1
  exact ⟨h.base.below_residuum ht hy.pro, h.base.below_tensor ht hy.con⟩

/-- Negation keeps the knowledge order. -/
lemma negation (h : ts.Exact) (hx : ts.KnowledgeBelow x x') :
    ts.KnowledgeBelow (ts.negation x) (ts.negation x') := by
  obtain ⟨hx₀, hx', -⟩ := knowledgeBelow_iff.mp hx
  rw [h.negation_eq hx₀, h.negation_eq hx']
  exact ⟨hx.con, hx.pro⟩

end KnowledgeBelow

end TwistStructure

end TwistLogic
