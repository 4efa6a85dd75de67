import TwistLogic.Algebra.Residuated
import TwistLogic.Proofs.Algebra.Lattice

/-!
# The laws of an extended lattice

`ResiduatedLattice.extend` checks the laws of a product table and tabulates its residuum.  A
residuated lattice is `Lawful` if its product is a commutative, associative and monotone operation
on the elements with the top as its unit, and the residuum is adjoint to it; every lawful lattice
that is extended is lawful again (`lawful_of_extend_eq_ok`).
-/

namespace TwistLogic

namespace ResiduatedLattice

/-- The product is a commutative, associative and monotone operation with the top as its unit, and
the residuum is adjoint to it. -/
structure Lawful (r : ResiduatedLattice) : Prop where
  lattice : r.lattice.Lawful
  tensor_lt : ∀ {a b}, a < r.size → b < r.size → r.tensor a b < r.size
  tensor_top : ∀ {a}, a < r.size → r.tensor a r.top = a
  tensor_comm : ∀ {a b}, a < r.size → b < r.size → r.tensor a b = r.tensor b a
  tensor_assoc : ∀ {a b c}, a < r.size → b < r.size → c < r.size →
    r.tensor (r.tensor a b) c = r.tensor a (r.tensor b c)
  tensor_mono : ∀ {a b c}, a < r.size → b < r.size → c < r.size →
    r.leq a b = true → r.leq (r.tensor a c) (r.tensor b c) = true
  residuum_lt : ∀ {b c}, b < r.size → c < r.size → r.residuum b c < r.size
  adjunction : ∀ {a b c}, a < r.size → b < r.size → c < r.size →
    (r.leq (r.tensor a b) c = true ↔ r.leq a (r.residuum b c) = true)

/-! ## What a successful extension has checked -/

/-- The entry in row `a` and column `b` of some rows. -/
def entry (rows : List (List ElementId)) (a b : ElementId) : ElementId := (rows.getD a []).getD b 0

lemma get_tableOfRows (rows : List (List ElementId)) (a b : ElementId) :
    (tableOfRows rows).get a b = entry rows a b := by
  unfold tableOfRows Table.get entry
  by_cases ha : a < rows.length <;> simp [ha]

/-- Rows have the right shape exactly if there is one for every element, with an element for every
element in it. -/
lemma shapeFault?_eq_none_iff {l : FiniteLattice} {rows : List (List ElementId)} :
    shapeFault? l rows = none ↔ rows.length = l.size ∧
      ∀ row ∈ rows, row.length = l.size ∧ ∀ c ∈ row, c < l.size := by
  have hcell : ∀ (a : Nat) (c b : Nat), (if l.contains c = true then none else
      some (ResiduationFault.notAnElement (l.name a) (l.name b))) = none ↔ c < l.size := by
    intro a c b
    simp [FiniteLattice.contains]
  unfold shapeFault?
  rw [ite_some_eq_none_iff, not_not]
  refine and_congr_right fun _ => findSome?_zipIdx_eq_none_iff fun row a => ?_
  rw [ite_some_eq_none_iff, not_not]
  exact and_congr_right fun _ => findSome?_zipIdx_eq_none_iff (hcell a)

/-- Rows of the right shape have an element in every place. -/
lemma entry_lt_of_shapeFault?_eq_none {l : FiniteLattice} {rows : List (List ElementId)}
    (h : shapeFault? l rows = none) {a b : ElementId} (ha : a < l.size) (hb : b < l.size) :
    entry rows a b < l.size := by
  obtain ⟨hlength, hrows⟩ := shapeFault?_eq_none_iff.mp h
  have harow : a < rows.length := hlength ▸ ha
  obtain ⟨hwidth, hcells⟩ := hrows rows[a] (List.getElem_mem harow)
  have hbrow : b < rows[a].length := hwidth ▸ hb
  have hentry : entry rows a b = rows[a][b] := by simp [entry, harow, hbrow]
  rw [hentry]
  exact hcells _ (List.getElem_mem hbrow)

/-- The laws of a commutative monotone monoid, as they are checked. -/
lemma monoidFault?_eq_none_iff {l : FiniteLattice} {p : Table ElementId} :
    monoidFault? l p = none ↔
      ∀ a < l.size, (p.get a l.top = a ∧ p.get l.top a = a) ∧
        ∀ b < l.size, p.get a b = p.get b a ∧
          ∀ c < l.size, p.get (p.get a b) c = p.get a (p.get b c) ∧
            (l.leq a b = true → l.leq (p.get a c) (p.get b c) = true) := by
  unfold monoidFault?
  simp only [List.findSome?_eq_none_iff, List.mem_range, ite_some_eq_none_iff]
  simp

/-- The residuum is found at every two elements. -/
lemma residuumFault?_eq_none_iff {l : FiniteLattice} {residua : Table (Option ElementId)} :
    residuumFault? l residua = none ↔
      ∀ b < l.size, ∀ c < l.size, ∃ x, residua.get b c = some x := by
  unfold residuumFault?
  simp [List.findSome?_eq_none_iff, Option.ne_none_iff_exists']

/-- The adjunction holds at every three elements. -/
lemma adjunctionFault?_eq_none_iff {r : ResiduatedLattice} :
    r.adjunctionFault? = none ↔
      ∀ a < r.size, ∀ b < r.size, ∀ c < r.size,
        r.leq (r.tensor a b) c = r.leq a (r.residuum b c) := by
  unfold adjunctionFault?
  simp [List.findSome?_eq_none_iff]

/-- Every lattice that is extended obeys the laws. -/
theorem lawful_of_extend_eq_ok {l : FiniteLattice} {rows : List (List ElementId)}
    {r : ResiduatedLattice} (hl : l.Lawful) (h : extend l rows = .ok r) : r.Lawful := by
  unfold extend at h
  simp only [bind_eq_ok_iff, exists_unit_iff, refuse_eq_ok_iff, pure_eq_ok_iff] at h
  obtain ⟨hshape, hmonoid, hresidua, hadj, rfl⟩ := h
  rw [monoidFault?_eq_none_iff] at hmonoid
  rw [residuumFault?_eq_none_iff] at hresidua
  rw [adjunctionFault?_eq_none_iff] at hadj
  constructor
  case lattice => exact hl
  case tensor_lt =>
    intro a b ha hb
    rw [tensor, get_tableOfRows]
    exact entry_lt_of_shapeFault?_eq_none hshape ha hb
  case tensor_top => exact fun ha => (hmonoid _ ha).1.1
  case tensor_comm => exact fun ha hb => ((hmonoid _ ha).2 _ hb).1
  case tensor_assoc => exact fun ha hb hc => (((hmonoid _ ha).2 _ hb).2 _ hc).1
  case tensor_mono => exact fun ha hb hc => (((hmonoid _ ha).2 _ hb).2 _ hc).2
  case residuum_lt =>
    intro b c (hb : b < l.size) (hc : c < l.size)
    obtain ⟨x, hx⟩ := hresidua b hb c hc
    have hmem : x ∈ residuumCandidates l (tableOfRows rows) b c :=
      (greatest?_eq_some ((Table.get_ofFn _ hb hc).symm.trans hx)).1
    have hlt : x < l.size := by
      simp only [residuumCandidates, List.mem_filter, List.mem_range] at hmem
      exact hmem.1
    change (Table.ofFn l.size _).get b c < l.size
    rwa [Table.get_ofFn _ hb hc, hx]
  case adjunction =>
    intro a b c ha hb hc
    rw [hadj _ ha _ hb _ hc]

end ResiduatedLattice

end TwistLogic
