import Mathlib.Tactic.Common
import TwistLogic.Proofs.Algebra.Extension
import TwistLogic.Proofs.Algebra.Monotone

/-!
# Guarded operations

The operations of a twist structure look their results up in tables and do not ask whether the place
that they read exists; where it does not, the default value would be returned without notice.  A
guarded operation asks at every step.  It wants its operands to be elements, the place in the table
to exist and the entry to be an element, and it ends with a `Breach` at the first of these that
fails.

A structure is `Tabulated` if its tables have an entry for all elements.  There every guarded
operation on elements returns what the operation itself returns, so no default value is ever used.
All structures over algebras that passed their checks are tabulated
(`TwistStructure.Generated.tabulated`): the tables of a lattice, the residua and the negations are
filled when they are made, and the product table has passed the check of its shape.  Negation is
found even where a position is too large for 32 bits: what is kept of it is another position.
-/

namespace TwistLogic

/-! ## Filled tables -/

/-- A table has an entry for every two elements. -/
def Table.Covers {α : Type} (t : Table α) (n : Nat) : Prop :=
  ∀ a < n, ∀ b < n, ∃ x, t.get? a b = some x

namespace Table

variable {α : Type} {n : Nat}

lemma covers_ofFn (f : ElementId → ElementId → α) : (ofFn n f).Covers n := by
  intro a ha b hb
  exact ⟨f a b, by rw [get?_ofFn, if_pos ⟨ha, hb⟩]⟩

/-- Where there is an entry, it is what is read. -/
lemma Covers.get?_eq [Inhabited α] {t : Table α} (h : t.Covers n) {a b : ElementId} (ha : a < n)
    (hb : b < n) : t.get? a b = some (t.get a b) := by
  obtain ⟨x, hx⟩ := h a ha b hb
  rw [get_eq, hx, Option.getD_some]

end Table

/-- The closure is tabulated after every pivot. -/
lemma covers_closure (n : Nat) (pairs : List (ElementId × ElementId)) :
    (closure n pairs).Covers n := by
  have hfoldl : ∀ (ks : List ElementId) (r : Table Bool), r.Covers n →
      (ks.foldl (throughPivot n) r).Covers n := by
    intro ks
    induction ks with
    | nil => exact fun _ hr => hr
    | cons k ks ih => exact fun r _ => ih _ (Table.covers_ofFn _)
  exact hfoldl _ _ (Table.covers_ofFn _)

/-- The three tables of a built lattice are filled. -/
lemma FiniteLattice.covers_of_build_eq_ok {elements : List Text} {pairs : List (Text × Text)}
    {l : FiniteLattice} (h : build elements pairs = .ok l) :
    l.order.Covers l.size ∧ l.meets.Covers l.size ∧ l.joins.Covers l.size := by
  unfold build at h
  simp only [throw_bind_eq, ite_throw_eq_ok_iff, bind_eq_ok_iff, exists_unit_iff,
    refuse_eq_ok_iff] at h
  obtain ⟨-, -, ids, -, -, -, h⟩ := h
  split at h
  · simp at h
  · simp at h
  next top bottom _ _ =>
    simp only [pure_eq_ok_iff] at h
    subst h
    exact ⟨covers_closure _ _, Table.covers_ofFn _, Table.covers_ofFn _⟩

namespace ResiduatedLattice

/-- Rows of the right shape make a table without gaps. -/
lemma covers_tableOfRows {l : FiniteLattice} {rows : List (List ElementId)}
    (h : shapeFault? l rows = none) : (tableOfRows rows).Covers l.size := by
  obtain ⟨hcount, hrows⟩ := shapeFault?_eq_none_iff.mp h
  intro a ha b hb
  have harow : a < rows.length := hcount ▸ ha
  have hbrow : b < rows[a].length := (hrows rows[a] (List.getElem_mem harow)).1 ▸ hb
  exact ⟨rows[a][b], by simp [tableOfRows, Table.get?, harow, hbrow]⟩

/-- The two tables of an extended lattice are filled. -/
lemma covers_of_extend_eq_ok {l : FiniteLattice} {rows : List (List ElementId)}
    {r : ResiduatedLattice} (h : extend l rows = .ok r) :
    r.products.Covers l.size ∧ r.residua.Covers l.size := by
  unfold extend at h
  simp only [bind_eq_ok_iff, exists_unit_iff, refuse_eq_ok_iff, pure_eq_ok_iff] at h
  obtain ⟨hshape, -, -, -, rfl⟩ := h
  exact ⟨covers_tableOfRows hshape, Table.covers_ofFn _⟩

end ResiduatedLattice

namespace TwistStructure

variable {ts : TwistStructure} {x y : TwistElement}

/-- The laws hold, and all tables have entries for all elements.  The table of negation has the
position of a listed pair for every element. -/
structure Tabulated (ts : TwistStructure) : Prop where
  lawful : ts.Lawful
  order : ts.base.lattice.order.Covers ts.base.size
  meets : ts.base.lattice.meets.Covers ts.base.size
  joins : ts.base.lattice.joins.Covers ts.base.size
  products : ts.base.products.Covers ts.base.size
  residua : ts.base.residua.Covers ts.base.size
  negations : ∀ x, ts.contains x = true → ∃ i y, ts.negations[ts.index x]? = some i ∧
    ts.elements[i.toNat]? = some y

/-- Generated structures are tabulated.  Reducing a position to 32 bits does not lead out of the
list, so this needs no bound on their size. -/
theorem Generated.tabulated (h : ts.Generated) : ts.Tabulated := by
  have hlawful := h.lawful
  obtain ⟨elements, ps, l, rows, r, hl, hr, hts⟩ := h
  obtain ⟨horder, hmeets, hjoins⟩ := FiniteLattice.covers_of_build_eq_ok hl
  obtain ⟨hproducts, hresidua⟩ := ResiduatedLattice.covers_of_extend_eq_ok hr
  obtain ⟨-, rfl, -, -⟩ := ResiduatedLattice.of_extend_eq_ok hr
  obtain rfl := base_of_generate hts
  refine ⟨hlawful, horder, hmeets, hjoins, hproducts, hresidua, fun x hx => ?_⟩
  obtain ⟨ht, hf⟩ := contains_iff.mp hx
  have hlt : (UInt32.ofNat (position ts.base.size ⟨x.f, x.t⟩)).toNat < ts.size := by
    rw [UInt32.toNat_ofNat', size_of_generate hts]
    exact Nat.lt_of_le_of_lt (Nat.mod_le _ _) (position_lt hf ht)
  exact ⟨_, _, getElem?_negations hts ht hf, Array.getElem?_eq_getElem hlt⟩

end TwistStructure

/-! ## Operations with guards -/

/-- A step at which an operation leaves the algebra. -/
inductive Breach where
  /-- A pair that is no element. -/
  | element (x : TwistElement)
  /-- A place that a table does not have. -/
  | cell (a b : ElementId)
  /-- An entry of a table that is no element of the base. -/
  | entry (a : ElementId)
  /-- A position that the table of negation or the list of elements does not have. -/
  | position (i : Nat)
  deriving DecidableEq

namespace Guarded

variable (ts : TwistStructure)

/-- A pair, if it is an element. -/
def element (x : TwistElement) : Except Breach TwistElement :=
  if ts.contains x then .ok x else .error (.element x)

/-- The entry of a table in a place. -/
def cell {α : Type} (t : Table α) (a b : ElementId) : Except Breach α :=
  match t.get? a b with
  | some x => .ok x
  | none => .error (.cell a b)

/-- The entry of a table in a place, if it is an element of the base. -/
def entry (t : Table ElementId) (a b : ElementId) : Except Breach ElementId := do
  let c ← cell t a b
  if ts.base.lattice.contains c then return c else throw (.entry c)

/-- A pair with two sides that are looked up for two elements. -/
def pair (x y : TwistElement) (pro con : Except Breach ElementId) : Except Breach TwistElement := do
  let _ ← element ts x
  let _ ← element ts y
  let t ← pro
  let f ← con
  return ⟨t, f⟩

def meet (x y : TwistElement) : Except Breach TwistElement :=
  pair ts x y (entry ts ts.base.lattice.meets x.t y.t) (entry ts ts.base.lattice.joins x.f y.f)

def join (x y : TwistElement) : Except Breach TwistElement :=
  pair ts x y (entry ts ts.base.lattice.joins x.t y.t) (entry ts ts.base.lattice.meets x.f y.f)

def implication (x y : TwistElement) : Except Breach TwistElement :=
  pair ts x y (entry ts ts.base.residua x.t y.t) (entry ts ts.base.products x.t y.f)

/-- The negation of an element, found through its position and the position of the result. -/
def negation (x : TwistElement) : Except Breach TwistElement := do
  let _ ← element ts x
  match ts.negations[ts.index x]? with
  | none => throw (.position (ts.index x))
  | some i =>
    match ts.elements[i.toNat]? with
    | none => throw (.position i.toNat)
    | some y => element ts y

/-- The truth order between two elements. -/
def leq (x y : TwistElement) : Except Breach Bool := do
  let _ ← element ts x
  let _ ← element ts y
  let pro ← cell ts.base.lattice.order x.t y.t
  let con ← cell ts.base.lattice.order y.f x.f
  return pro && con

/-- The meet of a sequence, formed step by step. -/
def meetAll (xs : List TwistElement) : Except Breach TwistElement :=
  xs.foldlM (meet ts) ts.absoluteTrue

/-! ### No guard is ever needed -/

variable {ts : TwistStructure} {x y : TwistElement} {a b : ElementId}

lemma element_eq (hx : ts.contains x = true) : element ts x = .ok x := if_pos hx

lemma cell_eq {α : Type} [Inhabited α] {t : Table α} {n : Nat} (ht : t.Covers n) (ha : a < n)
    (hb : b < n) : cell t a b = .ok (t.get a b) := by
  rw [cell, ht.get?_eq ha hb]

lemma entry_eq {t : Table ElementId} (ht : t.Covers ts.base.size) (ha : a < ts.base.size)
    (hb : b < ts.base.size) (hlt : t.get a b < ts.base.size) :
    entry ts t a b = .ok (t.get a b) := by
  have hmem : ts.base.lattice.contains (t.get a b) = true := decide_eq_true hlt
  rw [entry, cell_eq ht ha hb, bind_eq_ok_iff]
  exact ⟨_, rfl, if_pos hmem⟩

lemma pair_eq (hx : ts.contains x = true) (hy : ts.contains y = true)
    {pro con : Except Breach ElementId} (hpro : pro = .ok a) (hcon : con = .ok b) :
    pair ts x y pro con = .ok ⟨a, b⟩ := by
  rw [pair, element_eq hx, element_eq hy, hpro, hcon]
  rfl

section Tabulated

variable (h : ts.Tabulated) (hx : ts.contains x = true) (hy : ts.contains y = true)

include h hx hy

lemma meet_eq : meet ts x y = .ok (ts.meet x y) := by
  obtain ⟨ht, hf⟩ := TwistStructure.contains_iff.mp hx
  obtain ⟨ht', hf'⟩ := TwistStructure.contains_iff.mp hy
  exact pair_eq hx hy (entry_eq h.meets ht ht' (h.lawful.base.lattice.meet_lt ht ht'))
    (entry_eq h.joins hf hf' (h.lawful.base.lattice.join_lt hf hf'))

lemma join_eq : join ts x y = .ok (ts.join x y) := by
  obtain ⟨ht, hf⟩ := TwistStructure.contains_iff.mp hx
  obtain ⟨ht', hf'⟩ := TwistStructure.contains_iff.mp hy
  exact pair_eq hx hy (entry_eq h.joins ht ht' (h.lawful.base.lattice.join_lt ht ht'))
    (entry_eq h.meets hf hf' (h.lawful.base.lattice.meet_lt hf hf'))

lemma implication_eq : implication ts x y = .ok (ts.implication x y) := by
  obtain ⟨ht, -⟩ := TwistStructure.contains_iff.mp hx
  obtain ⟨ht', hf'⟩ := TwistStructure.contains_iff.mp hy
  exact pair_eq hx hy (entry_eq h.residua ht ht' (h.lawful.base.residuum_lt ht ht'))
    (entry_eq h.products ht hf' (h.lawful.base.tensor_lt ht hf'))

lemma leq_eq : leq ts x y = .ok (ts.leq x y) := by
  obtain ⟨ht, hf⟩ := TwistStructure.contains_iff.mp hx
  obtain ⟨ht', hf'⟩ := TwistStructure.contains_iff.mp hy
  rw [leq, element_eq hx, element_eq hy, cell_eq h.order ht ht', cell_eq h.order hf' hf]
  rfl

omit hy in
lemma negation_eq : negation ts x = .ok (ts.negation x) := by
  obtain ⟨i, y, hi, hy⟩ := h.negations x hx
  have hneg : ts.negation x = y := by
    simp only [TwistStructure.negation, Array.getD_eq_getD_getElem?, hi, hy, Option.getD_some]
  have hmem : ts.contains y = true := hneg ▸ h.lawful.contains_negation x
  rw [negation, element_eq hx, hneg, ← element_eq hmem]
  simp only [hi, hy]
  rfl

end Tabulated

/-- Folding by a guarded operation is folding by the operation, and ends at an element. -/
lemma foldlM_eq {op : TwistElement → TwistElement → TwistElement}
    {guarded : TwistElement → TwistElement → Except Breach TwistElement}
    (hop : ∀ {x y}, ts.contains x = true → ts.contains y = true →
      guarded x y = .ok (op x y) ∧ ts.contains (op x y) = true)
    {xs : List TwistElement} (hxs : ∀ y ∈ xs, ts.contains y = true) (hx : ts.contains x = true) :
    xs.foldlM guarded x = .ok (xs.foldl op x) ∧ ts.contains (xs.foldl op x) = true := by
  induction xs generalizing x with
  | nil => exact ⟨rfl, hx⟩
  | cons y xs ih =>
    obtain ⟨hguarded, hmem⟩ := hop hx (hxs y List.mem_cons_self)
    rw [List.foldlM_cons, hguarded, List.foldl_cons]
    exact ih (fun z hz => hxs z (List.mem_cons_of_mem y hz)) hmem

lemma meetAll_eq (h : ts.Tabulated) {xs : List TwistElement}
    (hxs : ∀ y ∈ xs, ts.contains y = true) :
    meetAll ts xs = .ok (ts.meetAll xs) ∧ ts.contains (ts.meetAll xs) = true :=
  foldlM_eq (fun hx hy => ⟨meet_eq h hx hy, h.lawful.contains_meet hx hy⟩) hxs
    h.lawful.contains_absoluteTrue

end Guarded

end TwistLogic
