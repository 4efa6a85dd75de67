import TwistLogic.Proofs.Algebra.Renaming

/-!
# Presentations of the same algebra

Presentations are `Equivalent` if they list the same elements, generate the same order and give the
same triples; the order of the three lists, the choice of the pairs and all repetitions are free.
What a build asks of a presentation depends on these three things only
(`Equivalent.isLatticePresentation`, `Equivalent.isProduct`), so equivalent presentations are both
built or both refused, and the algebras differ in the numbers of their elements
(`Equivalent.exists_build`).  So do the twist structures over them (`Equivalent.renames_generate`).
-/

namespace TwistLogic

/-- A best bound depends on the listed elements and on the order among them. -/
lemma IsMeet.congr {elements elements' : List Text} {le le' : Text → Text → Prop} {x y m : Text}
    (hmem : ∀ z, z ∈ elements ↔ z ∈ elements')
    (hle : ∀ z ∈ elements, ∀ w ∈ elements, le z w ↔ le' z w) (hx : x ∈ elements)
    (hy : y ∈ elements) (h : IsMeet elements le x y m) : IsMeet elements' le' x y m where
  mem := (hmem m).mp h.mem
  left := (hle m h.mem x hx).mp h.left
  right := (hle m h.mem y hy).mp h.right
  best z hz hzx hzy := by
    have hz : z ∈ elements := (hmem z).mpr hz
    exact (hle z hz m h.mem).mp (h.best z hz ((hle z hz x hx).mpr hzx) ((hle z hz y hy).mpr hzy))

namespace Presentation

variable {p q : Presentation} {x y z : Text}

/-! ## Equivalent presentations -/

/-- The reflexive and transitive closure of the order pairs on the listed elements.  It is not
reflexive on other names, so it still holds the pairs that name something that is not listed. -/
def orderClosure (p : Presentation) : Text → Text → Prop :=
  Relation.TransGen fun x y => (x, y) ∈ p.order ∨ x = y ∧ x ∈ p.elements

/-- Permuted elements, order pairs with the same closure, and the same set of triples. -/
structure Equivalent (p q : Presentation) : Prop where
  elements : p.elements.Perm q.elements
  order : ∀ x y, p.orderClosure x y ↔ q.orderClosure x y
  products : ∀ t, t ∈ p.products ↔ t ∈ q.products

/-- The order in which the elements are listed is free. -/
lemma equivalent_reverse (p : Presentation) :
    p.Equivalent { p with elements := p.elements.reverse } where
  elements := p.elements.reverse_perm.symm
  order x y := by simp [orderClosure]
  products t := Iff.rfl

lemma orderClosure_iff_generatedOrder (hx : x ∈ p.elements) :
    p.orderClosure x y ↔ GeneratedOrder p.order x y := by
  constructor
  · intro h
    induction h with
    | single h =>
      rcases h with h | ⟨rfl, -⟩
      · exact .single h
      · exact .refl
    | tail _ h ih =>
      rcases h with h | ⟨rfl, -⟩
      · exact ih.tail h
      · exact ih
  · intro h
    rcases Relation.reflTransGen_iff_eq_or_transGen.mp h with rfl | h
    · exact .single (.inr ⟨rfl, hx⟩)
    · exact Relation.TransGen.mono (fun _ _ => .inl) _ _ h

/-- If the order pairs are between listed elements, so is their closure. -/
lemma mem_of_orderClosure (hlisted : ∀ r ∈ p.order, r.1 ∈ p.elements ∧ r.2 ∈ p.elements)
    (h : p.orderClosure x y) : x ∈ p.elements ∧ y ∈ p.elements := by
  have hstep : ∀ {a b : Text}, (a, b) ∈ p.order ∨ a = b ∧ a ∈ p.elements →
      a ∈ p.elements ∧ b ∈ p.elements := by
    rintro a b (h | ⟨rfl, h⟩)
    · exact hlisted _ h
    · exact ⟨h, h⟩
  induction h with
  | single h => exact hstep h
  | tail _ h ih => exact ⟨ih.1, (hstep h).2⟩

/-- What a build is made of. -/
lemma build_eq_ok_iff {r : ResiduatedLattice} :
    p.build = .ok r ↔ ∃ l, FiniteLattice.build p.elements p.order = .ok l ∧
      ∃ rows, productRows l p.products = .ok rows ∧ ResiduatedLattice.extend l rows = .ok r := by
  simp only [build, bind_eq_ok_iff, mapError_eq_ok_iff]

namespace Equivalent

lemma symm (h : p.Equivalent q) : q.Equivalent p :=
  ⟨h.elements.symm, fun x y => (h.order x y).symm, fun t => (h.products t).symm⟩

/-- Listed elements are in the same order. -/
lemma generatedOrder_iff (h : p.Equivalent q) (hx : x ∈ p.elements) :
    GeneratedOrder p.order x y ↔ GeneratedOrder q.order x y := by
  rw [← orderClosure_iff_generatedOrder hx, h.order,
    orderClosure_iff_generatedOrder (h.elements.mem_iff.mp hx)]

lemma gives_iff (h : p.Equivalent q) : Gives p.products x y z ↔ Gives q.products x y z := by
  simp only [Gives, h.products]

/-! ## Acceptance -/

/-- Both presentations describe a lattice, or neither does. -/
theorem isLatticePresentation (h : p.Equivalent q)
    (hp : IsLatticePresentation p.elements p.order) :
    IsLatticePresentation q.elements q.order := by
  have hmem : ∀ z, z ∈ p.elements ↔ z ∈ q.elements := fun z => h.elements.mem_iff
  have hle : ∀ z ∈ p.elements, ∀ w ∈ p.elements,
      GeneratedOrder p.order z w ↔ GeneratedOrder q.order z w :=
    fun z hz w _ => h.generatedOrder_iff hz
  refine ⟨?_, h.elements.nodup_iff.mp hp.nodup, ?_, ?_, ?_, ?_⟩
  · intro hnil
    exact hp.nonempty (List.Perm.eq_nil (hnil ▸ h.elements))
  · intro r hr
    have hclosure : p.orderClosure r.1 r.2 := (h.order _ _).mpr (.single (.inl hr))
    simpa only [hmem] using mem_of_orderClosure hp.listed hclosure
  · intro x hx y hy hxy hyx
    rw [← hmem] at hx hy
    exact hp.antisymm x hx y hy ((hle x hx y hy).mpr hxy) ((hle y hy x hx).mpr hyx)
  · intro x hx y hy
    rw [← hmem] at hx hy
    obtain ⟨m, hm⟩ := hp.meets x hx y hy
    exact ⟨m, hm.congr hmem hle hx hy⟩
  · intro x hx y hy
    rw [← hmem] at hx hy
    obtain ⟨j, hj⟩ := hp.joins x hx y hy
    exact ⟨j, IsMeet.congr hmem (fun z hz w hw => hle w hw z hz) hx hy hj⟩

/-- Both presentations give one product of every two elements, or neither does. -/
theorem isProduct (h : p.Equivalent q) (hp : IsProduct p.elements p.products) :
    IsProduct q.elements q.products := by
  have hmem : ∀ z, z ∈ p.elements ↔ z ∈ q.elements := fun z => h.elements.mem_iff
  constructor
  · intro t ht
    simpa only [hmem] using hp.listed t ((h.products t).mpr ht)
  · intro t ht u hu
    exact hp.consistent t ((h.products t).mpr ht) u ((h.products u).mpr hu)
  · intro x hx y hy
    rw [← hmem] at hx hy
    obtain ⟨z, hz⟩ := hp.total x hx y hy
    exact ⟨z, h.gives_iff.mp hz⟩

/-! ## Equal algebras by name -/

/-- The lattices of both presentations are the same by name. -/
theorem renames_lattice (h : p.Equivalent q) {l l' : FiniteLattice}
    (hl : FiniteLattice.build p.elements p.order = .ok l)
    (hl' : FiniteLattice.build q.elements q.order = .ok l') : l.Renames l' := by
  have hof := FiniteLattice.isLatticeOf_of_build_eq_ok hl
  have hof' := FiniteLattice.isLatticeOf_of_build_eq_ok hl'
  constructor
  case lawful => exact FiniteLattice.lawful_of_build_eq_ok hl
  case lawful' => exact FiniteLattice.lawful_of_build_eq_ok hl'
  case nodup =>
    rw [hof.names_eq]
    exact (FiniteLattice.isLatticePresentation_of_build_eq_ok hl).nodup
  case nodup' =>
    rw [hof'.names_eq]
    exact (FiniteLattice.isLatticePresentation_of_build_eq_ok hl').nodup
  case mem_iff =>
    intro x
    rw [← Array.mem_toList_iff, ← Array.mem_toList_iff, hof.names_eq, hof'.names_eq]
    exact h.elements.mem_iff
  case leq_eq =>
    rintro a b c d ⟨x, hax, hbx⟩ ⟨y, hcy, hdy⟩
    have hx : x ∈ p.elements := hof.names_eq ▸ Array.mem_toList_iff.mpr hax.mem
    rw [Bool.eq_iff_iff, hof.leq_iff a hax.lt_size c hcy.lt_size,
      hof'.leq_iff b hbx.lt_size d hdy.lt_size, hax.name_eq, hbx.name_eq, hcy.name_eq,
      hdy.name_eq]
    exact h.generatedOrder_iff hx

/-- The products of both presentations are the same by name. -/
theorem sameName_entry (h : p.Equivalent q) {l l' : FiniteLattice} (hl : l.Renames l')
    {rows rows' : List (List ElementId)} (hrows : productRows l p.products = .ok rows)
    (hrows' : productRows l' q.products = .ok rows') {a b c d : ElementId}
    (hab : l.SameName l' a b) (hcd : l.SameName l' c d) :
    l.SameName l' (ResiduatedLattice.entry rows a c) (ResiduatedLattice.entry rows' b d) := by
  obtain ⟨x, hax, hbx⟩ := hab
  obtain ⟨y, hcy, hdy⟩ := hcd
  obtain ⟨-, hproduct, hgives⟩ := gives_of_productRows hl.nodup hrows
  obtain ⟨-, -, hgives'⟩ := gives_of_productRows hl.nodup' hrows'
  obtain ⟨z, hz, hgiven⟩ := hgives hax hcy
  obtain ⟨z', hz', hgiven'⟩ := hgives' hbx hdy
  obtain rfl : z = z' := hgiven.unique hproduct.consistent (h.gives_iff.mpr hgiven')
  exact ⟨z, hz, hz'⟩

/-- If one presentation is built, so is the other, and into the same algebra with other numbers. -/
theorem exists_build (h : p.Equivalent q) {r : ResiduatedLattice} (hr : p.build = .ok r) :
    ∃ r', q.build = .ok r' ∧ r.Renames r' := by
  obtain ⟨l, hl, rows, hrows, hextend⟩ := build_eq_ok_iff.mp hr
  -- the lattice of the other presentation
  have hlattice := FiniteLattice.isLatticePresentation_of_build_eq_ok hl
  obtain ⟨l', hl'⟩ := FiniteLattice.exists_build_eq_ok (h.isLatticePresentation hlattice)
  have hrenames := h.renames_lattice hl hl'
  have hnames := (FiniteLattice.isLatticeOf_of_build_eq_ok hl).names_eq
  have hnames' := (FiniteLattice.isLatticeOf_of_build_eq_ok hl').names_eq
  -- its products
  have hproduct : IsProduct p.elements p.products :=
    hnames ▸ (gives_of_productRows hrenames.nodup hrows).2.1
  obtain ⟨rows', hrows'⟩ : ∃ rows', productRows l' q.products = .ok rows' := by
    rw [exists_productRows_iff hrenames.nodup', hnames']
    exact h.isProduct hproduct
  have hentry : ∀ {a b c d}, l.SameName l' a b → l.SameName l' c d →
      l.SameName l' (ResiduatedLattice.entry rows a c) (ResiduatedLattice.entry rows' b d) :=
    h.sameName_entry hrenames hrows hrows'
  -- its residua
  have hresiduated := ResiduatedLattice.isResiduatedProduct_of_extend_eq_ok hrenames.lawful hextend
  obtain ⟨r', hextend'⟩ := (hresiduated.renamed hrenames
    (gives_of_productRows hrenames.nodup' hrows').1 hentry).exists_extend_eq_ok hrenames.lawful'
  exact ⟨r', build_eq_ok_iff.mpr ⟨l', hl', rows', hrows', hextend'⟩,
    .of_extend hrenames hextend hextend' hentry⟩

/-- Both presentations are built, or neither is. -/
theorem exists_build_iff (h : p.Equivalent q) :
    (∃ r, p.build = .ok r) ↔ ∃ r', q.build = .ok r' := by
  constructor
  · rintro ⟨r, hr⟩
    obtain ⟨r', hr', -⟩ := h.exists_build hr
    exact ⟨r', hr'⟩
  · rintro ⟨r', hr'⟩
    obtain ⟨r, hr, -⟩ := h.symm.exists_build hr'
    exact ⟨r, hr⟩

end Equivalent

/-! ## Twist structures -/

section Twist

variable {r r' : ResiduatedLattice} {ts ts' : TwistStructure}

/-- A presented algebra has the listed elements. -/
lemma names_of_build (hr : p.build = .ok r) : r.lattice.names.toList = p.elements := by
  obtain ⟨l, hl, rows, -, hextend⟩ := build_eq_ok_iff.mp hr
  obtain ⟨-, rfl, -, -⟩ := ResiduatedLattice.of_extend_eq_ok hextend
  exact (FiniteLattice.isLatticeOf_of_build_eq_ok hl).names_eq

lemma size_of_build (hr : p.build = .ok r) : r.size = p.elements.length := by
  rw [← names_of_build hr, Array.length_toList]
  rfl

/-- Every presented algebra has a twist structure over it. -/
lemma exists_generate_of_build (hr : p.build = .ok r) :
    ∃ ts, TwistStructure.generate (some r) = .ok ts := by
  obtain ⟨l, -, rows, -, hextend⟩ := build_eq_ok_iff.mp hr
  exact ResiduatedLattice.exists_generate_eq_ok hextend

lemma generated_of_build (hr : p.build = .ok r) (hts : TwistStructure.generate (some r) = .ok ts) :
    ts.Generated := by
  obtain ⟨l, hl, rows, -, hextend⟩ := build_eq_ok_iff.mp hr
  exact ⟨p.elements, p.order, l, rows, r, hl, hextend, hts⟩

/-- Negation exchanges the two sides of every pair over a presented algebra, if the positions of the
pairs are 32-bit numbers. -/
lemma exact_of_build (hr : p.build = .ok r) (hts : TwistStructure.generate (some r) = .ok ts)
    (hlength : p.elements.length ≤ 65536) : ts.Exact := by
  refine (generated_of_build hr hts).exact ?_
  rw [TwistStructure.size_of_generate hts, size_of_build hr]
  exact (Nat.mul_le_mul hlength hlength).trans (by decide)

/-- The twist structures over both algebras are the same by name. -/
theorem Equivalent.renames_generate (h : p.Equivalent q) (hr : p.build = .ok r)
    (hr' : q.build = .ok r') (hts : TwistStructure.generate (some r) = .ok ts)
    (hts' : TwistStructure.generate (some r') = .ok ts') : ts.Renames ts' := by
  obtain ⟨r₁, hbuild, hrenames⟩ := h.exists_build hr
  obtain rfl := Except.ok.inj (hr'.symm.trans hbuild)
  refine ⟨?_, (generated_of_build hr hts).lawful, (generated_of_build hr' hts').lawful⟩
  rw [TwistStructure.base_of_generate hts, TwistStructure.base_of_generate hts']
  exact hrenames

end Twist

end Presentation

end TwistLogic
