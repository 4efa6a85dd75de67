import TwistLogic.Proofs.Algebra.Extension
import TwistLogic.Proofs.Algebra.Monotone

/-!
# Twist structures as bilattices

The elements of a twist structure carry two orders, by truth and by knowledge.  Both are made of the
order of the base, one for each side, and so both have best bounds (`Lawful.truthOrder`,
`Lawful.knowledgeOrder`).  A bound of one order is taken side by side, by the meets and joins of the
base, so it is monotone in the other order too: the two orders are interlaced.

`InterlacedBilattice` collects these laws, and those of the negation that exchanges the sides.
Where all positions are 32-bit numbers, what `generate` makes is such a structure
(`interlacedBilattice_of_generate`).
-/

namespace TwistLogic

namespace TwistStructure

variable {ts : TwistStructure} {x y : TwistElement}

/-- Both operands may be replaced by elements above them. -/
def MonotoneIn (ts : TwistStructure) (rel : TwistElement → TwistElement → Bool)
    (op : TwistElement → TwistElement → TwistElement) : Prop :=
  ∀ x x' y y', ts.contains x = true → ts.contains x' = true → ts.contains y = true →
    ts.contains y' = true → rel x x' = true → rel y y' = true → rel (op x y) (op x' y') = true

/-- The elements are a lattice in the truth order, which is bounded, and in the knowledge order.
The bounds of either order are monotone in both.  Negation turns the truth order round and keeps the
knowledge order, and doing it twice changes nothing. -/
structure InterlacedBilattice (ts : TwistStructure) : Prop where
  mem_elements_iff : ∀ x, x ∈ ts.elements ↔ ts.contains x = true
  truth : IsLatticeOrder (fun x => ts.contains x = true) (fun x y => ts.leq x y = true) ts.meet
    ts.join
  knowledge : IsLatticeOrder (fun x => ts.contains x = true) (fun x y => ts.knowledgeLeq x y = true)
    ts.consensus ts.acceptAll
  contains_bounds : ts.contains ts.absoluteFalse = true ∧ ts.contains ts.absoluteTrue = true
  bounds : ∀ x, ts.contains x = true →
    ts.leq ts.absoluteFalse x = true ∧ ts.leq x ts.absoluteTrue = true
  interlaced : ∀ rel ∈ [ts.leq, ts.knowledgeLeq],
    ∀ op ∈ [ts.meet, ts.join, ts.consensus, ts.acceptAll], ts.MonotoneIn rel op
  contains_negation : ∀ x, ts.contains x = true → ts.contains (ts.negation x) = true
  negation_negation : ∀ x, ts.contains x = true → ts.negation (ts.negation x) = x
  leq_negation : ∀ x y, ts.contains x = true → ts.contains y = true →
    ts.leq (ts.negation x) (ts.negation y) = ts.leq y x
  knowledgeLeq_negation : ∀ x y, ts.contains x = true → ts.contains y = true →
    ts.knowledgeLeq (ts.negation x) (ts.negation y) = ts.knowledgeLeq x y
  negation_meet : ∀ x y, ts.contains x = true → ts.contains y = true →
    ts.negation (ts.meet x y) = ts.join (ts.negation x) (ts.negation y)
  negation_join : ∀ x y, ts.contains x = true → ts.contains y = true →
    ts.negation (ts.join x y) = ts.meet (ts.negation x) (ts.negation y)
  negation_consensus : ∀ x y, ts.contains x = true → ts.contains y = true →
    ts.negation (ts.consensus x y) = ts.consensus (ts.negation x) (ts.negation y)
  negation_acceptAll : ∀ x y, ts.contains x = true → ts.contains y = true →
    ts.negation (ts.acceptAll x y) = ts.acceptAll (ts.negation x) (ts.negation y)

/-! ## The two orders -/

/-- The knowledge order is the order of the base on both sides. -/
lemma Lawful.knowledgeOrder (h : ts.Lawful) :
    IsLatticeOrder (fun x => ts.contains x = true) (fun x y => ts.knowledgeLeq x y = true)
      ts.consensus ts.acceptAll := by
  have horder : IsLatticeOrder (fun x => x.t < ts.base.size ∧ x.f < ts.base.size)
      (fun x y => ts.base.leq x.t y.t = true ∧ ts.base.leq x.f y.f = true) ts.consensus
      ts.acceptAll :=
    h.base.isLatticeOrder.pairs h.base.isLatticeOrder
  simpa only [contains_iff, knowledgeLeq, Bool.and_eq_true] using horder

lemma monotoneIn_leq {op : TwistElement → TwistElement → TwistElement}
    (h : ∀ {x x' y y'}, ts.TruthBelow x x' → ts.TruthBelow y y' →
      ts.TruthBelow (op x y) (op x' y')) : ts.MonotoneIn ts.leq op := by
  intro x x' y y' hx hx' hy hy' hxx' hyy'
  have hbelow := h (truthBelow_iff.mpr ⟨hx, hx', hxx'⟩) (truthBelow_iff.mpr ⟨hy, hy', hyy'⟩)
  exact (truthBelow_iff.mp hbelow).2.2

lemma monotoneIn_knowledgeLeq {op : TwistElement → TwistElement → TwistElement}
    (h : ∀ {x x' y y'}, ts.KnowledgeBelow x x' → ts.KnowledgeBelow y y' →
      ts.KnowledgeBelow (op x y) (op x' y')) : ts.MonotoneIn ts.knowledgeLeq op := by
  intro x x' y y' hx hx' hy hy' hxx' hyy'
  have hbelow :=
    h (knowledgeBelow_iff.mpr ⟨hx, hx', hxx'⟩) (knowledgeBelow_iff.mpr ⟨hy, hy', hyy'⟩)
  exact (knowledgeBelow_iff.mp hbelow).2.2

/-- The bounds of either order are monotone in both. -/
theorem Lawful.interlaced (h : ts.Lawful) : ∀ rel ∈ [ts.leq, ts.knowledgeLeq],
    ∀ op ∈ [ts.meet, ts.join, ts.consensus, ts.acceptAll], ts.MonotoneIn rel op := by
  simp only [List.forall_mem_cons, List.not_mem_nil, false_imp_iff, implies_true, and_true]
  constructor
  · exact ⟨monotoneIn_leq (.meet h), monotoneIn_leq (.join h), monotoneIn_leq (.consensus h),
      monotoneIn_leq (.acceptAll h)⟩
  · exact ⟨monotoneIn_knowledgeLeq (.meet h), monotoneIn_knowledgeLeq (.join h),
      monotoneIn_knowledgeLeq (.consensus h), monotoneIn_knowledgeLeq (.acceptAll h)⟩

/-! ## Negation -/

/-- Where negation exchanges the sides, the laws of a bilattice hold. -/
theorem Exact.interlacedBilattice (h : ts.Exact)
    (helements : ∀ x, ts.contains x = true → x ∈ ts.elements) : ts.InterlacedBilattice := by
  have htruth := h.truthOrder
  have hknowledge := h.knowledgeOrder
  constructor
  case mem_elements_iff => exact fun x => ⟨h.contains_of_mem x, helements x⟩
  case truth => exact htruth
  case knowledge => exact hknowledge
  case contains_bounds => exact ⟨h.contains_absoluteFalse, h.contains_absoluteTrue⟩
  case bounds => exact fun x hx => ⟨h.absoluteFalse_leq hx, h.leq_absoluteTrue hx⟩
  case interlaced => exact h.interlaced
  case contains_negation => exact fun x _ => h.contains_negation x
  case negation_negation => exact fun x => h.negation_negation
  case leq_negation => exact fun x y => h.leq_negation
  case knowledgeLeq_negation =>
    intro x y hx hy
    rw [h.negation_eq hx, h.negation_eq hy, knowledgeLeq, knowledgeLeq, Bool.and_comm]
  case negation_meet =>
    intro x y hx hy
    rw [h.negation_eq (htruth.inf_mem hx hy), h.negation_eq hx, h.negation_eq hy]
    rfl
  case negation_join =>
    intro x y hx hy
    rw [h.negation_eq (htruth.sup_mem hx hy), h.negation_eq hx, h.negation_eq hy]
    rfl
  case negation_consensus =>
    intro x y hx hy
    rw [h.negation_eq (hknowledge.inf_mem hx hy), h.negation_eq hx, h.negation_eq hy]
    rfl
  case negation_acceptAll =>
    intro x y hx hy
    rw [h.negation_eq (hknowledge.sup_mem hx hy), h.negation_eq hx, h.negation_eq hy]
    rfl

/-! ## Generated structures -/

/-- Every residuated lattice that was built and extended has a twist structure.  If there are no
more pairs of its elements than 32-bit numbers, this is an interlaced bilattice with negation. -/
theorem interlacedBilattice_of_generate {elements : List Text} {pairs : List (Text × Text)}
    {l : FiniteLattice} {rows : List (List ElementId)} {r : ResiduatedLattice}
    (hl : FiniteLattice.build elements pairs = .ok l)
    (hr : ResiduatedLattice.extend l rows = .ok r) (hsize : r.size * r.size ≤ UInt32.size) :
    ∃ ts, generate (some r) = .ok ts ∧ ts.base = r ∧ ts.InterlacedBilattice := by
  obtain ⟨ts, hts⟩ := ResiduatedLattice.exists_generate_eq_ok hr
  have hgenerated : ts.Generated := ⟨elements, pairs, l, rows, r, hl, hr, hts⟩
  have hexact : ts.Exact := hgenerated.exact (size_of_generate hts ▸ hsize)
  refine ⟨ts, hts, base_of_generate hts, hexact.interlacedBilattice fun x hx => ?_⟩
  obtain ⟨ht, hf⟩ := contains_iff.mp hx
  rw [eq_of_generate_eq_ok hts] at ht hf ⊢
  exact List.mem_toArray.mpr (List.mem_of_getElem? (getElem?_pairs ht hf))

/-- Over the lattice with two incomparable elements between its bounds, whose product is the meet,
there are sixteen twist elements.  Two of them, one with the first of these elements for and the
second against and one the other way round, are each other's negation.  Accepting both gives all
evidence on both sides, and their meet is absolutely false. -/
theorem interlacedBilattice_of_generate_diamond :
    let names := [ascii "0", ascii "a", ascii "b", ascii "1"]
    let pairs := [(ascii "0", ascii "a"), (ascii "0", ascii "b"), (ascii "a", ascii "1"),
      (ascii "b", ascii "1")]
    let rows := [[0, 0, 0, 0], [0, 1, 0, 1], [0, 0, 2, 2], [0, 1, 2, 3]]
    let l := (FiniteLattice.build names pairs).toOption.getD fourValued.base.lattice
    let r := (ResiduatedLattice.extend l rows).toOption.getD fourValued.base
    ∃ ts, generate (some r) = .ok ts ∧ ts.InterlacedBilattice ∧ ts.size = 16 ∧
      ts.negation ⟨1, 2⟩ = ⟨2, 1⟩ ∧ ts.acceptAll ⟨1, 2⟩ ⟨2, 1⟩ = ⟨3, 3⟩ ∧
      ts.meet ⟨1, 2⟩ ⟨2, 1⟩ = ts.absoluteFalse := by
  intro names pairs rows l r
  have hl : FiniteLattice.build names pairs = .ok l := eq_ok_getD_of_isSome (by decide +kernel)
  have hr : ResiduatedLattice.extend l rows = .ok r := eq_ok_getD_of_isSome (by decide +kernel)
  obtain ⟨ts, hts, -, hlaws⟩ := interlacedBilattice_of_generate hl hr (by decide +kernel)
  obtain rfl := eq_of_generate_eq_ok hts
  refine ⟨_, hts, hlaws, ?_, ?_, ?_, ?_⟩
  · decide +kernel
  · decide +kernel
  · decide +kernel
  · decide +kernel

end TwistStructure

end TwistLogic
