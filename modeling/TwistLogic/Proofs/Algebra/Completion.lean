import TwistLogic.Proofs.Algebra.Covers
import TwistLogic.Proofs.Algebra.Equivalence

/-!
# Completing products and restoring algebras

The triples of a presentation need to give a product for one order of its factors only.  Their
table is completed from the triples with the factors exchanged (`Presentation.Completes`), and what
is built depends on which triples there are, not on their order or on how often they are listed.  A
pair and its mirror may still be given different products; this is not noticed before the completed
table is checked for commutativity.

So an algebra can be written down by its names, its covering pairs and half of its products
(`ResiduatedLattice.Exports`), and it is built again from that as it was
(`Presentation.build_completed`).
-/

namespace TwistLogic

namespace ResiduatedLattice

/-- The algebras that are made of a lattice that was built and a product that passed all checks. -/
def Constructed (r : ResiduatedLattice) : Prop :=
  ∃ elements pairs l rows,
    FiniteLattice.build elements pairs = .ok l ∧ extend l rows = .ok r

/-- The product of two elements by name. -/
def triple (r : ResiduatedLattice) (a b : ElementId) : ProductTriple :=
  ⟨r.name a, r.name b, r.name (r.tensor a b)⟩

/-- A presentation lists the names of an algebra, its covering pairs, and products of it, of every
two elements in at least one order. -/
structure Exports (r : ResiduatedLattice) (p : Presentation) : Prop where
  elements : p.elements = r.lattice.names.toList
  order : p.order = r.lattice.namedCovers
  sound : ∀ t ∈ p.products, ∃ a < r.size, ∃ b < r.size, t = r.triple a b
  total : ∀ a < r.size, ∀ b < r.size, r.triple a b ∈ p.products ∨ r.triple b a ∈ p.products

/-- An algebra written down: its names, its covering pairs and all its products. -/
def exported (r : ResiduatedLattice) : Presentation where
  elements := r.lattice.names.toList
  order := r.lattice.namedCovers
  products := (List.range r.size).flatMap fun a => (List.range r.size).map fun b => r.triple a b

lemma exports_exported (r : ResiduatedLattice) : r.Exports r.exported where
  elements := rfl
  order := rfl
  sound t ht := by
    simp only [exported, List.mem_flatMap, List.mem_map, List.mem_range] at ht
    obtain ⟨a, ha, b, hb, rfl⟩ := ht
    exact ⟨a, ha, b, hb, rfl⟩
  total a ha b hb := by
    refine .inl (List.mem_flatMap.mpr ⟨a, List.mem_range.mpr ha, ?_⟩)
    exact List.mem_map.mpr ⟨b, List.mem_range.mpr hb, rfl⟩

/-- Rows of the same shape with the same entries. -/
lemma rows_ext {n : Nat} {rows rows' : List (List ElementId)}
    (h : rows.length = n ∧ ∀ row ∈ rows, row.length = n)
    (h' : rows'.length = n ∧ ∀ row ∈ rows', row.length = n)
    (hentry : ∀ a < n, ∀ b < n, entry rows a b = entry rows' a b) : rows = rows' := by
  refine List.ext_getElem (h.1.trans h'.1.symm) fun a ha ha' => ?_
  have hrow := h.2 _ (List.getElem_mem ha)
  have hrow' := h'.2 _ (List.getElem_mem ha')
  refine List.ext_getElem (hrow.trans hrow'.symm) fun b hb hb' => ?_
  have hab := hentry a (h.1 ▸ ha) b (hrow ▸ hb)
  simpa [entry, ha, ha', hb, hb'] using hab

end ResiduatedLattice

namespace Presentation

open FiniteLattice (HasName)
open ResiduatedLattice (entry rows_ext)

variable {l : FiniteLattice} {triples triples' : List ProductTriple}
  {rows rows' : List (List ElementId)} {p q : Presentation} {r : ResiduatedLattice}
  {x y z : Text}

/-! ## The completed table -/

/-- A table of a product for every two elements, which the triples give for this order of the
factors or else for the other one. -/
structure Completes (l : FiniteLattice) (triples : List ProductTriple)
    (rows : List (List ElementId)) : Prop where
  shape : rows.length = l.size ∧ ∀ row ∈ rows, row.length = l.size
  entry : ∀ {a b x y}, l.HasName a x → l.HasName b y →
    ∃ z, l.HasName (entry rows a b) z ∧ Gives triples x y z

/-- There is no other way to complete the table. -/
lemma Completes.unique (hnodup : l.names.toList.Nodup)
    (hproduct : IsProduct l.names.toList triples) (h : Completes l triples rows)
    (h' : Completes l triples rows') : rows = rows' := by
  refine rows_ext h.shape h'.shape fun a ha b hb => ?_
  obtain ⟨x, hx⟩ := FiniteLattice.exists_hasName_of_lt ha
  obtain ⟨y, hy⟩ := FiniteLattice.exists_hasName_of_lt hb
  obtain ⟨z, hz, hgives⟩ := h.entry hx hy
  obtain ⟨z', hz', hgives'⟩ := h'.entry hx hy
  obtain rfl : z = z' := hgives.unique hproduct.consistent hgives'
  exact hz.inj hnodup hz'

/-- The rows that are computed are the completed table. -/
lemma productRows_eq_ok_iff (hnodup : l.names.toList.Nodup) :
    productRows l triples = .ok rows ↔
      IsProduct l.names.toList triples ∧ Completes l triples rows := by
  have hcompletes : ∀ {rows}, productRows l triples = .ok rows → Completes l triples rows := by
    intro rows h
    obtain ⟨hshape, -, hentry⟩ := gives_of_productRows hnodup h
    exact ⟨hshape, hentry⟩
  constructor
  · intro h
    exact ⟨(gives_of_productRows hnodup h).2.1, hcompletes h⟩
  · rintro ⟨hproduct, h⟩
    obtain ⟨rows', hrows'⟩ := (exists_productRows_iff hnodup).mpr hproduct
    rw [h.unique hnodup hproduct (hcompletes hrows'), hrows']

/-- What is built from a presentation of a lattice. -/
theorem build_eq_ok_iff_completes (hl : FiniteLattice.build p.elements p.order = .ok l) :
    p.build = .ok r ↔ IsProduct p.elements p.products ∧
      ∃ rows, Completes l p.products rows ∧ ResiduatedLattice.extend l rows = .ok r := by
  have hnames := (FiniteLattice.isLatticeOf_of_build_eq_ok hl).names_eq
  have hnodup : l.names.toList.Nodup :=
    hnames ▸ (FiniteLattice.isLatticePresentation_of_build_eq_ok hl).nodup
  simp only [build_eq_ok_iff, hl, Except.ok.injEq, exists_eq_left', productRows_eq_ok_iff hnodup,
    hnames, and_assoc, exists_and_left]

/-- The products are given as the table needs them: of listed names, without a contradiction, and
for at least one order of any two factors. -/
lemma isProduct_iff {elements : List Text} : IsProduct elements triples ↔
    (∀ t ∈ triples, t.left ∈ elements ∧ t.right ∈ elements ∧ t.product ∈ elements) ∧
    (∀ t ∈ triples, ∀ u ∈ triples, t.left = u.left → t.right = u.right →
      t.product = u.product) ∧
    ∀ x ∈ elements, ∀ y ∈ elements, ∃ z, ⟨x, y, z⟩ ∈ triples ∨ ⟨y, x, z⟩ ∈ triples := by
  have hgives : ∀ x y, (∃ z, Gives triples x y z) ↔
      ∃ z, ⟨x, y, z⟩ ∈ triples ∨ ⟨y, x, z⟩ ∈ triples := by
    intro x y
    constructor
    · rintro ⟨z, h | ⟨-, h⟩⟩
      · exact ⟨z, .inl h⟩
      · exact ⟨z, .inr h⟩
    · rintro ⟨z, h | h⟩
      · exact ⟨z, .inl h⟩
      · by_cases hnone : ∃ w, ⟨x, y, w⟩ ∈ triples
        · obtain ⟨w, hw⟩ := hnone
          exact ⟨w, .inl hw⟩
        · exact ⟨z, .inr ⟨not_exists.mp hnone, h⟩⟩
  simp only [← hgives]
  exact ⟨fun h => ⟨h.listed, h.consistent, h.total⟩, fun h => ⟨h.1, h.2.1, h.2.2⟩⟩

/-! ## Order and repetition -/

lemma gives_congr (h : ∀ t, t ∈ triples' ↔ t ∈ triples) :
    Gives triples' x y z ↔ Gives triples x y z := by
  simp only [Gives, h]

lemma isProduct_congr {elements : List Text} (h : ∀ t, t ∈ triples' ↔ t ∈ triples) :
    IsProduct elements triples' ↔ IsProduct elements triples := by
  simp only [isProduct_iff, h]

lemma Completes.congr (hrows : Completes l triples rows) (h : ∀ t, t ∈ triples' ↔ t ∈ triples) :
    Completes l triples' rows where
  shape := hrows.shape
  entry ha hb := by
    obtain ⟨z, hz, hgives⟩ := hrows.entry ha hb
    exact ⟨z, hz, (gives_congr h).mpr hgives⟩

/-- A presentation of a lattice is refused for its products only. -/
lemma exists_residuation_of_build_eq_error
    (hl : FiniteLattice.build p.elements p.order = .ok l) {e : AlgebraError}
    (h : p.build = .error e) : ∃ fault, e = .residuation fault := by
  have hmapped : ∀ {α : Type} {x : Except ResiduationFault α},
      x.mapError AlgebraError.residuation = .error e → ∃ fault, e = .residuation fault := by
    rintro α (fault | a) ⟨⟩
    exact ⟨fault, rfl⟩
  have hbuild : p.build = (do
      let rows ← (productRows l p.products).mapError .residuation
      (ResiduatedLattice.extend l rows).mapError .residuation) := by
    rw [build, hl]
    rfl
  rcases bind_eq_error_iff.mp (hbuild.symm.trans h) with h | ⟨rows, -, h⟩
  · exact hmapped h
  · exact hmapped h

/-- Presentations of a lattice with the same triples are built into the same algebra, or both
refused for their products. -/
lemma build_eq_ok_iff_of_same_triples (hl : FiniteLattice.build p.elements p.order = .ok l)
    (helements : q.elements = p.elements) (horder : q.order = p.order)
    (h : ∀ t, t ∈ q.products ↔ t ∈ p.products) : q.build = .ok r ↔ p.build = .ok r := by
  have hl' : FiniteLattice.build q.elements q.order = .ok l := helements ▸ horder ▸ hl
  rw [build_eq_ok_iff_completes hl, build_eq_ok_iff_completes hl', helements, isProduct_congr h]
  refine and_congr_right fun _ => exists_congr fun rows => and_congr_left fun _ => ?_
  exact ⟨fun hrows => hrows.congr fun t => (h t).symm, fun hrows => hrows.congr h⟩

/-! ## Products of what is built -/

/-- A given product holds in the algebra that is built, for both orders of its factors. -/
lemma exists_numbers_of_build (hl : FiniteLattice.build p.elements p.order = .ok l)
    (h : p.build = .ok r) {t : ProductTriple} (ht : t ∈ p.products) :
    ∃ a b c, Numbers r.lattice t a b c ∧ r.tensor a b = c ∧ r.tensor b a = c := by
  obtain ⟨hproduct, rows, hrows, hextend⟩ := (build_eq_ok_iff_completes hl).mp h
  have hlawful := ResiduatedLattice.lawful_of_extend_eq_ok
    (FiniteLattice.lawful_of_build_eq_ok hl) hextend
  obtain ⟨-, rfl, hproducts, -⟩ := ResiduatedLattice.of_extend_eq_ok hextend
  have hmem : ∀ x, x ∈ p.elements → x ∈ r.lattice.names := fun x hx =>
    Array.mem_toList_iff.mp ((FiniteLattice.isLatticeOf_of_build_eq_ok hl).names_eq ▸ hx)
  obtain ⟨hleft, hright, -⟩ := hproduct.listed t ht
  obtain ⟨a, ha⟩ := FiniteLattice.exists_hasName_of_mem (hmem _ hleft)
  obtain ⟨b, hb⟩ := FiniteLattice.exists_hasName_of_mem (hmem _ hright)
  obtain ⟨z, hz, hgives⟩ := hrows.entry ha hb
  obtain rfl : z = t.product := hgives.unique hproduct.consistent (.inl ht)
  have htensor : r.tensor a b = entry rows a b := by
    rw [ResiduatedLattice.tensor, hproducts, ResiduatedLattice.get_tableOfRows]
  refine ⟨a, b, _, ⟨ha, hb, hz⟩, htensor, ?_⟩
  rw [hlawful.tensor_comm hb.lt_size ha.lt_size, htensor]

end Presentation

/-! ## Writing an algebra down -/

namespace ResiduatedLattice

open FiniteLattice (HasName)
open Presentation (Gives IsProduct)

variable {r : ResiduatedLattice} {p : Presentation} {a b : ElementId} {x y : Text}

/-- The name of the product of two elements. -/
lemma Lawful.hasName_tensor (h : r.Lawful) (ha : a < r.size) (hb : b < r.size) :
    r.lattice.HasName (r.tensor a b) (r.name (r.tensor a b)) := by
  obtain ⟨z, hz⟩ := FiniteLattice.exists_hasName_of_lt (h.tensor_lt ha hb)
  rwa [name, hz.name_eq]

namespace Exports

/-- A triple that is written down has the product of its factors. -/
lemma product_eq (h : r.Exports p) (hnodup : r.lattice.names.toList.Nodup)
    (ha : r.lattice.HasName a x) (hb : r.lattice.HasName b y) {z : Text}
    (hz : ⟨x, y, z⟩ ∈ p.products) : z = r.name (r.tensor a b) := by
  obtain ⟨a', ha', b', hb', heq⟩ := h.sound _ hz
  obtain ⟨rfl, rfl, rfl⟩ := (ProductTriple.mk.injEq ..).mp heq
  obtain ⟨x, hx⟩ := FiniteLattice.exists_hasName_of_lt ha'
  obtain ⟨y, hy⟩ := FiniteLattice.exists_hasName_of_lt hb'
  rw [name, hx.name_eq] at ha
  rw [name, hy.name_eq] at hb
  rw [ha.inj hnodup hx, hb.inj hnodup hy]

/-- The triples that are written down give the products of the algebra, and no others. -/
lemma gives_iff (h : r.Exports p) (hr : r.Lawful) (hnodup : r.lattice.names.toList.Nodup)
    (ha : r.lattice.HasName a x) (hb : r.lattice.HasName b y) {z : Text} :
    Gives p.products x y z ↔ z = r.name (r.tensor a b) := by
  have hcomm : r.tensor b a = r.tensor a b := hr.tensor_comm hb.lt_size ha.lt_size
  constructor
  · rintro (hz | ⟨-, hz⟩)
    · exact h.product_eq hnodup ha hb hz
    · exact hcomm ▸ h.product_eq hnodup hb ha hz
  · rintro rfl
    have htotal := h.total a ha.lt_size b hb.lt_size
    simp only [triple, name, ha.name_eq, hb.name_eq] at htotal
    rcases htotal with hab | hba
    · exact .inl hab
    by_cases hgiven : ∃ w, ⟨x, y, w⟩ ∈ p.products
    · obtain ⟨w, hw⟩ := hgiven
      exact .inl (h.product_eq hnodup ha hb hw ▸ hw)
    · exact .inr ⟨not_exists.mp hgiven, hcomm ▸ hba⟩

/-- What is written down gives the products as the table needs them. -/
lemma isProduct (h : r.Exports p) (hr : r.Lawful) (hnodup : r.lattice.names.toList.Nodup) :
    IsProduct p.elements p.products := by
  have hname : ∀ {a}, a < r.size → r.name a ∈ p.elements := by
    intro a ha
    obtain ⟨x, hx⟩ := FiniteLattice.exists_hasName_of_lt ha
    rw [name, hx.name_eq, h.elements]
    exact Array.mem_toList_iff.mpr hx.mem
  have hexists : ∀ {x}, x ∈ p.elements → ∃ a, r.lattice.HasName a x := fun hx =>
    FiniteLattice.exists_hasName_of_mem (Array.mem_toList_iff.mp (h.elements ▸ hx))
  have hlisted : ∀ t ∈ p.products,
      t.left ∈ p.elements ∧ t.right ∈ p.elements ∧ t.product ∈ p.elements := by
    intro t ht
    obtain ⟨a, ha, b, hb, rfl⟩ := h.sound t ht
    exact ⟨hname ha, hname hb, hname (hr.tensor_lt ha hb)⟩
  refine ⟨hlisted, fun t ht u hu hleft hright => ?_, fun x hx y hy => ?_⟩
  · obtain ⟨a, ha⟩ := hexists (hlisted t ht).1
    obtain ⟨b, hb⟩ := hexists (hlisted t ht).2.1
    rw [h.product_eq hnodup ha hb ht, h.product_eq hnodup (hleft ▸ ha) (hright ▸ hb) hu]
  · obtain ⟨a, ha⟩ := hexists hx
    obtain ⟨b, hb⟩ := hexists hy
    exact ⟨_, (h.gives_iff hr hnodup ha hb).mpr rfl⟩

/-- An algebra is built from what was written down of it, as it was. -/
theorem build_eq (h : r.Exports p) (hr : r.Constructed) : p.build = .ok r := by
  obtain ⟨elements, pairs, l, rows, hl, hextend⟩ := hr
  have hlawful := lawful_of_extend_eq_ok (FiniteLattice.lawful_of_build_eq_ok hl) hextend
  obtain ⟨hshape, rfl, hproducts, -⟩ := of_extend_eq_ok hextend
  have hbuild : FiniteLattice.build p.elements p.order = .ok r.lattice := by
    rw [h.elements, h.order]
    exact FiniteLattice.build_covers hl
  have hnodup : r.lattice.names.toList.Nodup :=
    h.elements ▸ (FiniteLattice.isLatticePresentation_of_build_eq_ok hbuild).nodup
  -- the rows of the algebra itself are what its triples complete to
  have hcompletes : Presentation.Completes r.lattice p.products rows := by
    obtain ⟨hcount, hrows⟩ := shapeFault?_eq_none_iff.mp hshape
    refine ⟨⟨hcount, fun row hrow => (hrows row hrow).1⟩, fun {a b x y} ha hb => ?_⟩
    have htensor : r.tensor a b = entry rows a b := by rw [tensor, hproducts, get_tableOfRows]
    exact ⟨_, htensor ▸ hlawful.hasName_tensor ha.lt_size hb.lt_size,
      (h.gives_iff hlawful hnodup ha hb).mpr rfl⟩
  exact (Presentation.build_eq_ok_iff_completes hbuild).mpr
    ⟨h.isProduct hlawful hnodup, rows, hcompletes, hextend⟩

end Exports

end ResiduatedLattice

/-! ## The main statement -/

namespace Presentation

/-- Over a lattice, a presentation is built exactly if its triples are of listed names, no ordered
pair is given two products, every pair is given for at least one order of its factors, and the
completed table extends the lattice.  The given products then hold for both orders of their factors,
and presentations with the same triples, in whatever order and however often listed, are built into
the same algebra or refused for their products as well.  An algebra that is written down by its
names, its covering pairs and the product of every two elements for at least one order of them is
built again as it was. -/
theorem build_completed :
    (∀ (p : Presentation) (l : FiniteLattice), FiniteLattice.build p.elements p.order = .ok l →
      ((∃ r, p.build = .ok r) ↔
        (∀ t ∈ p.products,
          t.left ∈ p.elements ∧ t.right ∈ p.elements ∧ t.product ∈ p.elements) ∧
        (∀ t ∈ p.products, ∀ u ∈ p.products, t.left = u.left → t.right = u.right →
          t.product = u.product) ∧
        (∀ x ∈ p.elements, ∀ y ∈ p.elements,
          ∃ z, ⟨x, y, z⟩ ∈ p.products ∨ ⟨y, x, z⟩ ∈ p.products) ∧
        ∃ rows, Completes l p.products rows ∧ ∃ r, ResiduatedLattice.extend l rows = .ok r) ∧
      (∀ r, p.build = .ok r → ∀ t ∈ p.products,
        ∃ a b c, Numbers r.lattice t a b c ∧ r.tensor a b = c ∧ r.tensor b a = c) ∧
      ∀ q : Presentation, q.elements = p.elements → q.order = p.order →
        (∀ t, t ∈ q.products ↔ t ∈ p.products) →
        (∀ r, q.build = .ok r ↔ p.build = .ok r) ∧
        ∀ e, q.build = .error e →
          ∃ fault fault', e = .residuation fault ∧ p.build = .error (.residuation fault')) ∧
    ∀ (r : ResiduatedLattice) (p : Presentation), r.Constructed → r.Exports p →
      p.build = .ok r := by
  refine ⟨fun p l hl => ⟨?_, fun r hr t => exists_numbers_of_build hl hr, ?_⟩,
    fun r p hr h => h.build_eq hr⟩
  · simp only [build_eq_ok_iff_completes hl, isProduct_iff]
    constructor
    · rintro ⟨r, ⟨hlisted, hconsistent, htotal⟩, rows, hrows, hextend⟩
      exact ⟨hlisted, hconsistent, htotal, rows, hrows, r, hextend⟩
    · rintro ⟨hlisted, hconsistent, htotal, rows, hrows, r, hextend⟩
      exact ⟨r, ⟨hlisted, hconsistent, htotal⟩, rows, hrows, hextend⟩
  · intro q helements horder htriples
    have hok : ∀ r, q.build = .ok r ↔ p.build = .ok r := fun r =>
      build_eq_ok_iff_of_same_triples hl helements horder htriples
    refine ⟨hok, fun e he => ?_⟩
    have hl' : FiniteLattice.build q.elements q.order = .ok l := helements ▸ horder ▸ hl
    obtain ⟨fault, rfl⟩ := exists_residuation_of_build_eq_error hl' he
    cases hp : p.build with
    | ok r => exact nomatch he.symm.trans ((hok r).mpr hp)
    | error e' =>
      obtain ⟨fault', rfl⟩ := exists_residuation_of_build_eq_error hl hp
      exact ⟨fault, fault', rfl, rfl⟩

/-- The chain of three elements with the Łukasiewicz product is built again from half of its
products, some of them with their factors exchanged, one in both orders and one of them twice. -/
theorem build_completed_threeChain :
    let r : ResiduatedLattice := {
      lattice := {
        names := #[ascii "0", ascii "h", ascii "1"]
        order := ⟨#[#[true, true, true], #[false, true, true], #[false, false, true]]⟩
        meets := ⟨#[#[0, 0, 0], #[0, 1, 1], #[0, 1, 2]]⟩
        joins := ⟨#[#[0, 1, 2], #[1, 1, 2], #[2, 2, 2]]⟩
        top := 2
        bottom := 0 }
      products := ⟨#[#[0, 0, 0], #[0, 0, 1], #[0, 1, 2]]⟩
      residua := ⟨#[#[2, 2, 2], #[1, 2, 2], #[0, 1, 2]]⟩ }
    let p : Presentation := {
      elements := r.lattice.names.toList
      order := [(ascii "0", ascii "h"), (ascii "h", ascii "1")]
      products := [r.triple 2 1, r.triple 1 1, r.triple 0 2, r.triple 2 0, r.triple 1 0,
        r.triple 2 2, r.triple 0 0, r.triple 1 1] }
    r.Constructed ∧ r.Exports p ∧ p.build = .ok r := by
  intro r p
  let rows := [[0, 0, 0], [0, 0, 1], [0, 1, 2]]
  have hr : r.Constructed :=
    ⟨p.elements, p.order, r.lattice, rows, by decide +kernel, by decide +kernel⟩
  have hp : r.Exports p := ⟨rfl, by decide +kernel, by decide +kernel, by decide +kernel⟩
  exact ⟨hr, hp, build_completed.2 r p hr hp⟩

/-- A pair and its mirror that are given different products are no contradiction among the triples.
The completed table is refused, because it is not commutative. -/
example :
    let p : Presentation := {
      elements := [ascii "0", ascii "h", ascii "1"]
      order := [(ascii "0", ascii "h"), (ascii "h", ascii "1")]
      products := [("0", "0", "0"), ("0", "h", "0"), ("h", "0", "h"), ("0", "1", "0"),
        ("h", "h", "h"), ("h", "1", "h"), ("1", "1", "1")].map
          fun t => ⟨ascii t.1, ascii t.2.1, ascii t.2.2⟩ }
    error? p.build = some (.residuation (.notCommutative (ascii "0") (ascii "h"))) := by
  decide +kernel

end Presentation

end TwistLogic
