import TwistLogic.Algebra.Twist
import TwistLogic.Proofs.Algebra.Residuated

/-!
# Which products make a lattice residuated

`ResiduatedLattice.extend` checks that a product is monotone and then searches for the greatest `a`
with `a * b ≤ c`, for every `b` and `c`.  `IsResiduatedProduct` asks for something that speaks of no
order and no search: besides the laws of a commutative monoid with the top as its unit, the product
distributes over joins.  The two ask for the same (`extend_spec`).

In one direction a product that distributes over joins is monotone, and the bottom absorbs, so the
elements `a` with `a * b ≤ c` are not empty and are closed under joins: one of them is the greatest
(`exists_residuum`).  In the other direction the residuum is adjoint to the product, and a product
with an adjoint distributes over joins (`tensor_join`).  The adjunction itself follows from
monotony and the search alone (`leq_product_iff_leq_greatest`), so checking it refuses nothing.
-/

namespace TwistLogic

namespace FiniteLattice

variable {l : FiniteLattice} {a b : ElementId}

/-- An element is above another exactly if it is their join. -/
lemma Lawful.leq_iff_join_eq (hl : l.Lawful) (ha : a < l.size) (hb : b < l.size) :
    l.leq a b = true ↔ l.join a b = b := by
  constructor
  · intro hab
    have hle : l.leq (l.join a b) b = true := hl.join_leq ha hb hb hab (hl.leq_refl hb)
    exact hl.leq_antisymm (hl.join_lt ha hb) hb hle (hl.leq_join_right ha hb)
  · intro hjoin
    rw [← hjoin]
    exact hl.leq_join_left ha hb

end FiniteLattice

namespace ResiduatedLattice

variable {l : FiniteLattice} {rows : List (List ElementId)}

/-- The rows of a table of elements whose product is commutative and associative, has the top as its
unit and distributes over joins. -/
structure IsResiduatedProduct (l : FiniteLattice) (rows : List (List ElementId)) : Prop where
  rowCount : rows.length = l.size
  rowLength : ∀ row ∈ rows, row.length = l.size
  entries : ∀ row ∈ rows, ∀ c ∈ row, c < l.size
  comm : ∀ a < l.size, ∀ b < l.size, entry rows a b = entry rows b a
  assoc : ∀ a < l.size, ∀ b < l.size, ∀ c < l.size,
    entry rows (entry rows a b) c = entry rows a (entry rows b c)
  unit : ∀ a < l.size, entry rows a l.top = a ∧ entry rows l.top a = a
  join_distrib : ∀ a < l.size, ∀ b < l.size, ∀ c < l.size,
    entry rows (l.join a b) c = l.join (entry rows a c) (entry rows b c)

/-! ## From distributivity to a residuum -/

namespace IsResiduatedProduct

variable {a b c : ElementId}

lemma shapeFault?_eq_none (h : IsResiduatedProduct l rows) : shapeFault? l rows = none :=
  shapeFault?_eq_none_iff.mpr
    ⟨h.rowCount, fun row hrow => ⟨h.rowLength row hrow, h.entries row hrow⟩⟩

lemma entry_lt (h : IsResiduatedProduct l rows) (ha : a < l.size) (hb : b < l.size) :
    entry rows a b < l.size :=
  entry_lt_of_shapeFault?_eq_none h.shapeFault?_eq_none ha hb

/-- A product that distributes over joins is monotone. -/
lemma mono (h : IsResiduatedProduct l rows) (hl : l.Lawful) (ha : a < l.size) (hb : b < l.size)
    (hc : c < l.size) (hab : l.leq a b = true) :
    l.leq (entry rows a c) (entry rows b c) = true := by
  have hjoin : l.join a b = b := (hl.leq_iff_join_eq ha hb).mp hab
  rw [hl.leq_iff_join_eq (h.entry_lt ha hc) (h.entry_lt hb hc), ← h.join_distrib a ha b hb c hc,
    hjoin]

/-- A product with the bottom is below everything. -/
lemma bottom_absorbs (h : IsResiduatedProduct l rows) (hl : l.Lawful) (hb : b < l.size)
    (hc : c < l.size) : l.leq (entry rows l.bottom b) c = true := by
  have hlt : entry rows l.bottom b < l.size := h.entry_lt hl.bottom_lt hb
  have hbottom : l.leq (entry rows l.bottom b) l.bottom = true := by
    have hmono := h.mono hl hb hl.top_lt hl.bottom_lt (hl.leq_top hb)
    rwa [(h.unit l.bottom hl.bottom_lt).2, h.comm b hb l.bottom hl.bottom_lt] at hmono
  exact hl.leq_trans hlt hl.bottom_lt hc hbottom (hl.bottom_leq hc)

/-- Among the elements whose product with `b` is below `c`, there is a greatest one. -/
theorem exists_residuum (h : IsResiduatedProduct l rows) (hl : l.Lawful) (hb : b < l.size)
    (hc : c < l.size) :
    ∃ x, greatest? l.order (residuumCandidates l (tableOfRows rows) b c) = some x := by
  have hmem : ∀ a, a ∈ residuumCandidates l (tableOfRows rows) b c ↔
      a < l.size ∧ l.leq (entry rows a b) c = true := by
    simp [residuumCandidates, get_tableOfRows]
  rw [exists_greatest?_iff]
  refine exists_greatest (R := l.leq) (x := l.bottom) ?_ (fun d e f hd he hf => ?_)
    fun d hd e he => ?_
  · exact (hmem _).mpr ⟨hl.bottom_lt, h.bottom_absorbs hl hb hc⟩
  · exact hl.leq_trans ((hmem d).mp hd).1 ((hmem e).mp he).1 ((hmem f).mp hf).1
  · -- with two elements their join is one of these elements too
    obtain ⟨hdlt, hdc⟩ := (hmem d).mp hd
    obtain ⟨helt, hec⟩ := (hmem e).mp he
    refine ⟨l.join d e, (hmem _).mpr ⟨hl.join_lt hdlt helt, ?_⟩, hl.leq_join_left hdlt helt,
      hl.leq_join_right hdlt helt⟩
    rw [h.join_distrib d hdlt e helt b hb]
    exact hl.join_leq (h.entry_lt hdlt hb) (h.entry_lt helt hb) hc hdc hec

end IsResiduatedProduct

/-! ## From a residuum to distributivity -/

/-- For a monotone product, the elements whose product with `b` is below `c` are those below the
greatest of them. -/
theorem leq_product_iff_leq_greatest (hl : l.Lawful) {p : Table ElementId}
    (hlt : ∀ a < l.size, ∀ b < l.size, p.get a b < l.size)
    (hmono : ∀ a < l.size, ∀ b < l.size, ∀ c < l.size, l.leq a b = true →
      l.leq (p.get a c) (p.get b c) = true)
    {b c x : ElementId} (hb : b < l.size) (hc : c < l.size)
    (hx : greatest? l.order (residuumCandidates l p b c) = some x) :
    x < l.size ∧ ∀ a < l.size, (l.leq (p.get a b) c = true ↔ l.leq a x = true) := by
  obtain ⟨hmem, hbest⟩ := greatest?_eq_some hx
  simp only [residuumCandidates, List.mem_filter, List.mem_range] at hmem hbest
  obtain ⟨hxlt, hxc⟩ := hmem
  refine ⟨hxlt, fun a ha => ⟨fun hac => hbest a ⟨ha, hac⟩, fun hax => ?_⟩⟩
  have hprod : l.leq (p.get a b) (p.get x b) = true := hmono a ha x hxlt b hb hax
  exact hl.leq_trans (hlt a ha b hb) (hlt x hxlt b hb) hc hprod hxc

/-- A product with a residuum distributes over joins. -/
theorem Lawful.tensor_join {r : ResiduatedLattice} (hr : r.Lawful) {a b c : ElementId}
    (ha : a < r.size) (hb : b < r.size) (hc : c < r.size) :
    r.tensor (r.join a b) c = r.join (r.tensor a c) (r.tensor b c) := by
  have hl := hr.lattice
  have hjoin : r.join a b < r.size := hl.join_lt ha hb
  have hac : r.tensor a c < r.size := hr.tensor_lt ha hc
  have hbc : r.tensor b c < r.size := hr.tensor_lt hb hc
  have hsum : r.join (r.tensor a c) (r.tensor b c) < r.size := hl.join_lt hac hbc
  refine hl.leq_antisymm (hr.tensor_lt hjoin hc) hsum ?_ ?_
  · -- both `a` and `b` are below the residuum of the right side
    have hres : r.residuum c (r.join (r.tensor a c) (r.tensor b c)) < r.size :=
      hr.residuum_lt hc hsum
    refine (hr.adjunction hjoin hc hsum).mpr (hl.join_leq ha hb hres ?_ ?_)
    · exact (hr.adjunction ha hc hsum).mp (hl.leq_join_left hac hbc)
    · exact (hr.adjunction hb hc hsum).mp (hl.leq_join_right hac hbc)
  · refine hl.join_leq hac hbc (hr.tensor_lt hjoin hc) ?_ ?_
    · exact hr.tensor_mono ha hjoin hc (hl.leq_join_left ha hb)
    · exact hr.tensor_mono hb hjoin hc (hl.leq_join_right ha hb)

/-! ## Completeness -/

/-- If every entry of the table of residua was found, it is the greatest element that was looked
for. -/
lemma greatest?_eq_some_of_residuumFault?_eq_none {p : Table ElementId}
    (h : residuumFault? l (.ofFn l.size fun b c =>
      greatest? l.order (residuumCandidates l p b c)) = none)
    {b c : ElementId} (hb : b < l.size) (hc : c < l.size) :
    greatest? l.order (residuumCandidates l p b c) =
      some ((Table.ofFn l.size fun b c => ((Table.ofFn l.size fun b c =>
        greatest? l.order (residuumCandidates l p b c)).get b c).getD 0).get b c) := by
  obtain ⟨x, hx⟩ := residuumFault?_eq_none_iff.mp h b hb c hc
  rw [Table.get_ofFn _ hb hc, hx, Option.getD_some, ← hx, Table.get_ofFn _ hb hc]

/-- Checking the adjunction refuses no monotone product whose residua were found. -/
theorem adjunctionFault?_eq_none_of_greatest {r : ResiduatedLattice} (hl : r.lattice.Lawful)
    (hlt : ∀ a < r.size, ∀ b < r.size, r.tensor a b < r.size)
    (hmono : ∀ a < r.size, ∀ b < r.size, ∀ c < r.size, r.leq a b = true →
      r.leq (r.tensor a c) (r.tensor b c) = true)
    (hgreatest : ∀ b < r.size, ∀ c < r.size,
      greatest? r.lattice.order (residuumCandidates r.lattice r.products b c) =
        some (r.residuum b c)) : r.adjunctionFault? = none := by
  rw [adjunctionFault?_eq_none_iff]
  intro a ha b hb c hc
  obtain ⟨-, hiff⟩ := leq_product_iff_leq_greatest hl hlt hmono hb hc (hgreatest b hb c hc)
  exact Bool.eq_iff_iff.mpr (hiff a ha)

/-- A product that passes the checks of its shape and its laws and has all residua passes the check
of the adjunction. -/
lemma adjunctionFault?_eq_none_of_checks (hl : l.Lawful) (hshape : shapeFault? l rows = none)
    (hmonoid : monoidFault? l (tableOfRows rows) = none)
    (hresidua : residuumFault? l (.ofFn l.size fun b c =>
      greatest? l.order (residuumCandidates l (tableOfRows rows) b c)) = none) :
    adjunctionFault? ⟨l, tableOfRows rows, .ofFn l.size fun b c => ((Table.ofFn l.size fun b c =>
      greatest? l.order (residuumCandidates l (tableOfRows rows) b c)).get b c).getD 0⟩ = none := by
  rw [monoidFault?_eq_none_iff] at hmonoid
  refine adjunctionFault?_eq_none_of_greatest hl (fun a ha b hb => ?_)
    (fun a ha b hb c hc => (((hmonoid a ha).2 b hb).2 c hc).2)
    fun b hb c hc => greatest?_eq_some_of_residuumFault?_eq_none hresidua hb hc
  rw [tensor, get_tableOfRows]
  exact entry_lt_of_shapeFault?_eq_none hshape ha hb

/-- Every residuated product extends its lattice. -/
theorem IsResiduatedProduct.exists_extend_eq_ok (h : IsResiduatedProduct l rows) (hl : l.Lawful) :
    ∃ r, extend l rows = .ok r := by
  have hmonoid : monoidFault? l (tableOfRows rows) = none := by
    rw [monoidFault?_eq_none_iff]
    simp only [get_tableOfRows]
    exact fun a ha => ⟨h.unit a ha, fun b hb => ⟨h.comm a ha b hb, fun c hc =>
      ⟨h.assoc a ha b hb c hc, h.mono hl ha hb hc⟩⟩⟩
  have hresidua : residuumFault? l (.ofFn l.size fun b c =>
      greatest? l.order (residuumCandidates l (tableOfRows rows) b c)) = none := by
    rw [residuumFault?_eq_none_iff]
    intro b hb c hc
    rw [Table.get_ofFn _ hb hc]
    exact h.exists_residuum hl hb hc
  unfold extend
  simp only [bind_eq_ok_iff, exists_unit_iff, refuse_eq_ok_iff, pure_eq_ok_iff]
  exact ⟨_, h.shapeFault?_eq_none, hmonoid, hresidua,
    adjunctionFault?_eq_none_of_checks hl h.shapeFault?_eq_none hmonoid hresidua, rfl⟩

/-! ## Soundness -/

/-- A residuated lattice on a lattice whose product is read off rows and whose residuum is the
greatest element with a product below a bound. -/
structure IsResiduationOf (r : ResiduatedLattice) (l : FiniteLattice)
    (rows : List (List ElementId)) : Prop where
  lattice : r.lattice = l
  tensor : ∀ a b, r.tensor a b = entry rows a b
  residuum_lt : ∀ b < l.size, ∀ c < l.size, r.residuum b c < l.size
  residuum_holds : ∀ b < l.size, ∀ c < l.size, r.leq (r.tensor (r.residuum b c) b) c = true
  residuum_greatest : ∀ b < l.size, ∀ c < l.size, ∀ a < l.size,
    r.leq (r.tensor a b) c = true → r.leq a (r.residuum b c) = true
  adjunction : ∀ a < l.size, ∀ b < l.size, ∀ c < l.size,
    (r.leq (r.tensor a b) c = true ↔ r.leq a (r.residuum b c) = true)

section Extended

variable {r : ResiduatedLattice}

/-- A successful extension has passed the check of the shape, and keeps the lattice and the rows. -/
lemma of_extend_eq_ok (h : extend l rows = .ok r) :
    shapeFault? l rows = none ∧ r.lattice = l ∧ r.products = tableOfRows rows ∧
      r.adjunctionFault? = none := by
  unfold extend at h
  simp only [bind_eq_ok_iff, exists_unit_iff, refuse_eq_ok_iff, pure_eq_ok_iff] at h
  obtain ⟨hshape, -, -, hadjunction, rfl⟩ := h
  exact ⟨hshape, rfl, rfl, hadjunction⟩

/-- Only residuated products extend a lattice. -/
theorem isResiduatedProduct_of_extend_eq_ok (hl : l.Lawful) (h : extend l rows = .ok r) :
    IsResiduatedProduct l rows := by
  have hr : r.Lawful := lawful_of_extend_eq_ok hl h
  obtain ⟨hshape, rfl, hproducts, -⟩ := of_extend_eq_ok h
  obtain ⟨hcount, hrows⟩ := shapeFault?_eq_none_iff.mp hshape
  have htensor : ∀ a b, entry rows a b = r.tensor a b := fun a b => by
    rw [tensor, hproducts, get_tableOfRows]
  constructor
  case rowCount => exact hcount
  case rowLength => exact fun row hrow => (hrows row hrow).1
  case entries => exact fun row hrow => (hrows row hrow).2
  case comm =>
    intro a ha b hb
    rw [htensor, htensor]
    exact hr.tensor_comm ha hb
  case assoc =>
    intro a ha b hb c hc
    simp only [htensor]
    exact hr.tensor_assoc ha hb hc
  case unit =>
    intro a ha
    have htop : r.tensor a r.top = a := hr.tensor_top ha
    rw [htensor, htensor]
    exact ⟨htop, (hr.tensor_comm hl.top_lt ha).trans htop⟩
  case join_distrib =>
    intro a ha b hb c hc
    simp only [htensor]
    exact hr.tensor_join ha hb hc

/-- What a successful extension returns. -/
theorem isResiduationOf_of_extend_eq_ok (hl : l.Lawful) (h : extend l rows = .ok r) :
    r.IsResiduationOf l rows := by
  have hr : r.Lawful := lawful_of_extend_eq_ok hl h
  obtain ⟨-, rfl, hproducts, -⟩ := of_extend_eq_ok h
  constructor
  case lattice => rfl
  case tensor =>
    intro a b
    rw [tensor, hproducts, get_tableOfRows]
  case residuum_lt => exact fun b hb c hc => hr.residuum_lt hb hc
  case residuum_holds =>
    intro b hb c hc
    have hlt : r.residuum b c < r.size := hr.residuum_lt hb hc
    exact (hr.adjunction hlt hb hc).mpr (hl.leq_refl hlt)
  case residuum_greatest => exact fun b hb c hc a ha => (hr.adjunction ha hb hc).mp
  case adjunction => exact fun a ha b hb c hc => hr.adjunction ha hb hc

end Extended

/-! ## The check of the adjunction -/

/-- A table of the wrong shape is not refused for its adjunction. -/
lemma ne_noAdjunction_of_shapeFault?_eq_some {fault : ResiduationFault}
    (h : shapeFault? l rows = some fault) (a b c : Text) : fault ≠ .noAdjunction a b c := by
  rintro rfl
  unfold shapeFault? at h
  dsimp only at h
  split at h
  · cases h
  · obtain ⟨⟨row, i⟩, -, hrow⟩ := List.exists_of_findSome?_eq_some h
    dsimp only at hrow
    split at hrow
    · cases hrow
    · obtain ⟨⟨cell, j⟩, -, hcell⟩ := List.exists_of_findSome?_eq_some hrow
      dsimp only at hcell
      split at hcell <;> cases hcell

/-- A product that is no monotone monoid is not refused for its adjunction. -/
lemma ne_noAdjunction_of_monoidFault?_eq_some {p : Table ElementId} {fault : ResiduationFault}
    (h : monoidFault? l p = some fault) (a b c : Text) : fault ≠ .noAdjunction a b c := by
  rintro rfl
  unfold monoidFault? at h
  obtain ⟨x, -, hx⟩ := List.exists_of_findSome?_eq_some h
  split at hx
  · cases hx
  · obtain ⟨y, -, hy⟩ := List.exists_of_findSome?_eq_some hx
    split at hy
    · cases hy
    · obtain ⟨z, -, hz⟩ := List.exists_of_findSome?_eq_some hy
      split at hz
      · cases hz
      · split at hz <;> cases hz

/-- A product without a residuum is not refused for its adjunction. -/
lemma ne_noAdjunction_of_residuumFault?_eq_some {residua : Table (Option ElementId)}
    {fault : ResiduationFault} (h : residuumFault? l residua = some fault) (a b c : Text) :
    fault ≠ .noAdjunction a b c := by
  rintro rfl
  unfold residuumFault? at h
  obtain ⟨x, -, hx⟩ := List.exists_of_findSome?_eq_some h
  obtain ⟨y, -, hy⟩ := List.exists_of_findSome?_eq_some hx
  split at hy <;> cases hy

/-- No extension of a lawful lattice is refused for its adjunction. -/
theorem ne_noAdjunction_of_extend_eq_error (hl : l.Lawful) {fault : ResiduationFault}
    (h : extend l rows = .error fault) (a b c : Text) : fault ≠ .noAdjunction a b c := by
  unfold extend at h
  simp only [bind_eq_error_iff, refuse_eq_error_iff, exists_unit_iff, refuse_eq_ok_iff] at h
  rcases h with hshape | ⟨hshape, hmonoid | ⟨hmonoid, hresidua | ⟨hresidua, hadjunction | h⟩⟩⟩
  · exact ne_noAdjunction_of_shapeFault?_eq_some hshape a b c
  · exact ne_noAdjunction_of_monoidFault?_eq_some hmonoid a b c
  · exact ne_noAdjunction_of_residuumFault?_eq_some hresidua a b c
  · rw [adjunctionFault?_eq_none_of_checks hl hshape hmonoid hresidua] at hadjunction
    cases hadjunction
  · simp [pure, Except.pure] at h

/-- A twist structure is generated over every extension. -/
lemma exists_generate_eq_ok {r : ResiduatedLattice} (h : extend l rows = .ok r) :
    ∃ ts, TwistStructure.generate (some r) = .ok ts := by
  obtain ⟨-, -, -, hadjunction⟩ := of_extend_eq_ok h
  unfold TwistStructure.generate
  simp only [hadjunction]
  exact ⟨_, rfl⟩

/-! ## The main statement -/

/-- Exactly the residuated products extend a lattice that was built, all others are refused, and
none for its adjunction.  What is returned is the lattice with the given product and its residuum,
and a twist structure is generated over it. -/
theorem extend_spec {elements : List Text} {pairs : List (Text × Text)} {l : FiniteLattice}
    (hl : FiniteLattice.build elements pairs = .ok l) (rows : List (List ElementId)) :
    ((∃ r, extend l rows = .ok r) ↔ IsResiduatedProduct l rows) ∧
    ((∃ fault, extend l rows = .error fault) ↔ ¬IsResiduatedProduct l rows) ∧
    (∀ fault, extend l rows = .error fault → ∀ a b c, fault ≠ .noAdjunction a b c) ∧
    ∀ r, extend l rows = .ok r →
      r.IsResiduationOf l rows ∧ r.adjunctionFault? = none ∧
        ∃ ts, TwistStructure.generate (some r) = .ok ts := by
  have hlawful : l.Lawful := FiniteLattice.lawful_of_build_eq_ok hl
  have hiff : (∃ r, extend l rows = .ok r) ↔ IsResiduatedProduct l rows :=
    ⟨fun ⟨_, hr⟩ => isResiduatedProduct_of_extend_eq_ok hlawful hr,
      fun h => h.exists_extend_eq_ok hlawful⟩
  refine ⟨hiff, ?_, fun fault hfault => ne_noAdjunction_of_extend_eq_error hlawful hfault,
    fun r hr => ⟨isResiduationOf_of_extend_eq_ok hlawful hr, (of_extend_eq_ok hr).2.2.2,
      exists_generate_eq_ok hr⟩⟩
  rw [← hiff]
  cases extend l rows <;> simp

/-- The Łukasiewicz product of three elements: the middle times itself is the bottom, and so the
middle implies the bottom to the degree of the middle. -/
theorem extend_spec_of_threeChain :
    let l : FiniteLattice := {
      names := #[ascii "0", ascii "h", ascii "1"]
      order := ⟨#[#[true, true, true], #[false, true, true], #[false, false, true]]⟩
      meets := ⟨#[#[0, 0, 0], #[0, 1, 1], #[0, 1, 2]]⟩
      joins := ⟨#[#[0, 1, 2], #[1, 1, 2], #[2, 2, 2]]⟩
      top := 2
      bottom := 0 }
    let rows := [[0, 0, 0], [0, 0, 1], [0, 1, 2]]
    FiniteLattice.build ([ascii "0", ascii "h", ascii "1"])
      [(ascii "0", ascii "h"), (ascii "h", ascii "1")] = .ok l ∧
    (((∃ r, extend l rows = .ok r) ↔ IsResiduatedProduct l rows) ∧
    ((∃ fault, extend l rows = .error fault) ↔ ¬IsResiduatedProduct l rows) ∧
    (∀ fault, extend l rows = .error fault → ∀ a b c, fault ≠ .noAdjunction a b c) ∧
    ∀ r, extend l rows = .ok r →
      r.IsResiduationOf l rows ∧ r.adjunctionFault? = none ∧
        ∃ ts, TwistStructure.generate (some r) = .ok ts) ∧
    (extend l rows).toOption.map (fun r => (r.tensor 1 1, r.residuum 1 0)) = some (0, 1) := by
  intro l rows
  have hl : FiniteLattice.build ([ascii "0", ascii "h", ascii "1"])
      [(ascii "0", ascii "h"), (ascii "h", ascii "1")] = .ok l := by decide +kernel
  exact ⟨hl, extend_spec hl rows, by decide +kernel⟩

end ResiduatedLattice

end TwistLogic
