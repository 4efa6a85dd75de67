import TwistLogic.Proofs.Algebra.Monotone
import TwistLogic.Proofs.Algebra.Presentation
import TwistLogic.Proofs.Related

/-!
# The same algebra with other numbers

Elements of two lattices correspond if they have the same name.  Two lattices `Renames` each other
if they have the same names and the same order on them; the numbers of the elements, and with them
all tables, may differ.  What is determined by the order is then the same up to the numbers: meets,
joins, top, bottom and residua are each the best element with some property, and elements that are
best in corresponding orders with corresponding properties correspond
(`Renames.sameName_of_isBest`).

A twist element has the same names as another if both of its sides do, and all operations of the
twist structures but negation keep this (`TwistStructure.SameNames`).  Negation is looked up in a
table, and it keeps this if the table exchanges the sides of all pairs.  So elements
`Correspond` if they belong to the structures, and have the same names under this condition.
-/

namespace TwistLogic

/-- The greatest of the numbers below `n` with a property. -/
structure IsBest (n : Nat) (le : ElementId → ElementId → Bool) (P : ElementId → Prop)
    (x : ElementId) : Prop where
  lt : x < n
  holds : P x
  best : ∀ a, a < n → P a → le a x = true

/-! ## Lattices -/

namespace FiniteLattice

variable {l l' : FiniteLattice} {a b c d : ElementId}

/-- Elements of two lattices that have the same name. -/
def SameName (l l' : FiniteLattice) (a b : ElementId) : Prop := ∃ x, l.HasName a x ∧ l'.HasName b x

lemma SameName.symm (h : l.SameName l' a b) : l'.SameName l b a := by
  obtain ⟨x, ha, hb⟩ := h
  exact ⟨x, hb, ha⟩

lemma SameName.left_lt (h : l.SameName l' a b) : a < l.size := by
  obtain ⟨x, ha, -⟩ := h
  exact ha.lt_size

lemma SameName.right_lt (h : l.SameName l' a b) : b < l'.size := h.symm.left_lt

lemma SameName.name?_eq (h : l.SameName l' a b) : l.name? a = l'.name? b := by
  obtain ⟨x, ha, hb⟩ := h
  simp only [HasName] at ha hb
  simp only [name?, ha, hb]

/-- If the names of a lattice are listed in reverse, the numbers of its elements count from the
other end. -/
lemma sameName_of_reverse (h : l'.names.toList = l.names.toList.reverse) {k : Nat}
    (hk : k < l.size) : l.SameName l' k (l.size - 1 - k) := by
  obtain ⟨x, hx⟩ := exists_hasName_of_lt hk
  refine ⟨x, hx, ?_⟩
  have hlength : l.names.toList.length = l.size := Array.length_toList
  rw [HasName, ← Array.getElem?_toList, h, List.getElem?_reverse (by omega), hlength,
    show l.size - 1 - (l.size - 1 - k) = k by omega, Array.getElem?_toList]
  exact hx

/-- The same names, and the same order on them. -/
structure Renames (l l' : FiniteLattice) : Prop where
  lawful : l.Lawful
  lawful' : l'.Lawful
  nodup : l.names.toList.Nodup
  nodup' : l'.names.toList.Nodup
  mem_iff : ∀ x, x ∈ l.names ↔ x ∈ l'.names
  leq_eq : ∀ {a b c d}, l.SameName l' a b → l.SameName l' c d → l.leq a c = l'.leq b d

namespace Renames

lemma symm (h : l.Renames l') : l'.Renames l where
  lawful := h.lawful'
  lawful' := h.lawful
  nodup := h.nodup'
  nodup' := h.nodup
  mem_iff x := (h.mem_iff x).symm
  leq_eq hab hcd := (h.leq_eq hab.symm hcd.symm).symm

lemma exists_right (h : l.Renames l') (ha : a < l.size) : ∃ b, l.SameName l' a b := by
  obtain ⟨x, hx⟩ := exists_hasName_of_lt ha
  obtain ⟨b, hb⟩ := exists_hasName_of_mem ((h.mem_iff x).mp hx.mem)
  exact ⟨b, x, hx, hb⟩

lemma exists_left (h : l.Renames l') (hb : b < l'.size) : ∃ a, l.SameName l' a b := by
  obtain ⟨a, ha⟩ := h.symm.exists_right hb
  exact ⟨a, ha.symm⟩

lemma right_unique (h : l.Renames l') (hb : l.SameName l' a b) (hc : l.SameName l' a c) :
    b = c := by
  obtain ⟨x, hax, hbx⟩ := hb
  obtain ⟨y, hay, hcy⟩ := hc
  obtain rfl := hax.unique hay
  exact hbx.inj h.nodup' hcy

/-- Corresponding elements are equal to other corresponding elements together. -/
lemma eq_iff (h : l.Renames l') (hab : l.SameName l' a b) (hcd : l.SameName l' c d) :
    a = c ↔ b = d := by
  constructor
  · rintro rfl
    exact h.right_unique hab hcd
  · rintro rfl
    exact h.symm.right_unique hab.symm hcd.symm

/-- A name is found in both lattices or in neither. -/
lemma rel_find? (h : l.Renames l') (x : Text) :
    Option.Rel (l.SameName l') (l.find? x) (l'.find? x) := by
  cases hx : l.find? x with
  | some a =>
    have ha := (find?_eq_some_iff h.nodup).mp hx
    obtain ⟨b, hb⟩ := exists_hasName_of_mem ((h.mem_iff x).mp ha.mem)
    rw [(find?_eq_some_iff h.nodup').mpr hb]
    exact .some ⟨x, ha, hb⟩
  | none =>
    cases hx' : l'.find? x with
    | none => exact .none
    | some b =>
      have hb := (find?_eq_some_iff h.nodup').mp hx'
      obtain ⟨a, ha⟩ := exists_hasName_of_mem ((h.mem_iff x).mpr hb.mem)
      exact absurd ((find?_eq_some_iff h.nodup).mpr ha) (by simp [hx])

/-- Elements that are best in corresponding orders with corresponding properties correspond. -/
theorem sameName_of_isBest (h : l.Renames l') {le le' : ElementId → ElementId → Bool}
    {P P' : ElementId → Prop} {x y : ElementId}
    (hle : ∀ {a b c d}, l.SameName l' a b → l.SameName l' c d → le a c = le' b d)
    (hantisymm : ∀ {a b}, a < l'.size → b < l'.size → le' a b = true → le' b a = true → a = b)
    (hP : ∀ {a b}, l.SameName l' a b → (P a ↔ P' b)) (hx : IsBest l.size le P x)
    (hy : IsBest l'.size le' P' y) : l.SameName l' x y := by
  obtain ⟨b, hxb⟩ := h.exists_right hx.lt
  obtain ⟨a, hay⟩ := h.exists_left hy.lt
  have hby : le' b y = true := hy.best b hxb.right_lt ((hP hxb).mp hx.holds)
  have hyb : le' y b = true := by
    rw [← hle hay hxb]
    exact hx.best a hay.left_lt ((hP hay).mpr hy.holds)
  obtain rfl := hantisymm hxb.right_lt hy.lt hby hyb
  exact hxb

lemma meet (h : l.Renames l') (hab : l.SameName l' a b) (hcd : l.SameName l' c d) :
    l.SameName l' (l.meet a c) (l'.meet b d) := by
  have hbest : ∀ {k : FiniteLattice}, k.Lawful → ∀ {a c}, a < k.size → c < k.size →
      IsBest k.size k.leq (fun e => k.leq e a = true ∧ k.leq e c = true) (k.meet a c) :=
    fun hk _ _ ha hc => ⟨hk.meet_lt ha hc, ⟨hk.meet_leq_left ha hc, hk.meet_leq_right ha hc⟩,
      fun _ he hbounds => hk.leq_meet ha hc he hbounds.1 hbounds.2⟩
  refine h.sameName_of_isBest h.leq_eq h.lawful'.leq_antisymm (fun hef => ?_)
    (hbest h.lawful hab.left_lt hcd.left_lt) (hbest h.lawful' hab.right_lt hcd.right_lt)
  rw [h.leq_eq hef hab, h.leq_eq hef hcd]

lemma join (h : l.Renames l') (hab : l.SameName l' a b) (hcd : l.SameName l' c d) :
    l.SameName l' (l.join a c) (l'.join b d) := by
  have hbest : ∀ {k : FiniteLattice}, k.Lawful → ∀ {a c}, a < k.size → c < k.size →
      IsBest k.size (fun e f => k.leq f e) (fun e => k.leq a e = true ∧ k.leq c e = true)
        (k.join a c) :=
    fun hk _ _ ha hc => ⟨hk.join_lt ha hc, ⟨hk.leq_join_left ha hc, hk.leq_join_right ha hc⟩,
      fun _ he hbounds => hk.join_leq ha hc he hbounds.1 hbounds.2⟩
  refine h.sameName_of_isBest (fun hef hgh => h.leq_eq hgh hef)
    (fun he hf hfe hef => h.lawful'.leq_antisymm he hf hef hfe) (fun hef => ?_)
    (hbest h.lawful hab.left_lt hcd.left_lt) (hbest h.lawful' hab.right_lt hcd.right_lt)
  rw [h.leq_eq hab hef, h.leq_eq hcd hef]

lemma top (h : l.Renames l') : l.SameName l' l.top l'.top := by
  have hbest : ∀ {k : FiniteLattice}, k.Lawful → IsBest k.size k.leq (fun _ => True) k.top :=
    fun hk => ⟨hk.top_lt, trivial, fun _ he _ => hk.leq_top he⟩
  exact h.sameName_of_isBest h.leq_eq h.lawful'.leq_antisymm (fun _ => Iff.rfl) (hbest h.lawful)
    (hbest h.lawful')

lemma bottom (h : l.Renames l') : l.SameName l' l.bottom l'.bottom := by
  have hbest : ∀ {k : FiniteLattice}, k.Lawful →
      IsBest k.size (fun e f => k.leq f e) (fun _ => True) k.bottom :=
    fun hk => ⟨hk.bottom_lt, trivial, fun _ he _ => hk.bottom_leq he⟩
  exact h.sameName_of_isBest (fun hef hgh => h.leq_eq hgh hef)
    (fun he hf hfe hef => h.lawful'.leq_antisymm he hf hef hfe) (fun _ => Iff.rfl)
    (hbest h.lawful) (hbest h.lawful')

end Renames

end FiniteLattice

/-! ## Residuated lattices -/

namespace ResiduatedLattice

variable {r r' : ResiduatedLattice} {a b c d : ElementId}

/-- The same lattice with other numbers, and the same product. -/
structure Renames (r r' : ResiduatedLattice) : Prop where
  lattice : r.lattice.Renames r'.lattice
  lawful : r.Lawful
  lawful' : r'.Lawful
  tensor : ∀ {a b c d}, r.lattice.SameName r'.lattice a b → r.lattice.SameName r'.lattice c d →
    r.lattice.SameName r'.lattice (r.tensor a c) (r'.tensor b d)

/-- Residua are determined by the order and the product. -/
lemma Renames.residuum (h : r.Renames r') (hab : r.lattice.SameName r'.lattice a b)
    (hcd : r.lattice.SameName r'.lattice c d) :
    r.lattice.SameName r'.lattice (r.residuum a c) (r'.residuum b d) := by
  have hbest : ∀ {q : ResiduatedLattice}, q.Lawful → ∀ {a c}, a < q.size → c < q.size →
      IsBest q.lattice.size q.lattice.leq (fun e => q.lattice.leq (q.tensor e a) c = true)
        (q.residuum a c) :=
    fun hq _ _ ha hc => ⟨hq.residuum_lt ha hc, (hq.below_tensor_residuum ha hc).leq,
      fun _ he => (hq.adjunction he ha hc).mp⟩
  refine h.lattice.sameName_of_isBest h.lattice.leq_eq h.lattice.lawful'.leq_antisymm
    (fun hef => ?_) (hbest h.lawful hab.left_lt hcd.left_lt)
    (hbest h.lawful' hab.right_lt hcd.right_lt)
  rw [h.lattice.leq_eq (h.tensor hef hab) hcd]

section Products

variable {l l' : FiniteLattice} {rows rows' : List (List ElementId)}

/-- Corresponding products extend corresponding lattices into the same algebra with other
numbers. -/
theorem Renames.of_extend (h : l.Renames l') (hr : extend l rows = .ok r)
    (hr' : extend l' rows' = .ok r')
    (hentry : ∀ {a b c d}, l.SameName l' a b → l.SameName l' c d →
      l.SameName l' (entry rows a c) (entry rows' b d)) : r.Renames r' := by
  have hlawful := lawful_of_extend_eq_ok h.lawful hr
  have hlawful' := lawful_of_extend_eq_ok h.lawful' hr'
  have hof := isResiduationOf_of_extend_eq_ok h.lawful hr
  have hof' := isResiduationOf_of_extend_eq_ok h.lawful' hr'
  obtain rfl := hof.lattice
  obtain rfl := hof'.lattice
  refine ⟨h, hlawful, hlawful', fun hab hcd => ?_⟩
  rw [hof.tensor, hof'.tensor]
  exact hentry hab hcd

/-- A product that makes a lattice residuated does so with other numbers too. -/
theorem IsResiduatedProduct.renamed (h : l.Renames l') (hp : IsResiduatedProduct l rows)
    (hshape : rows'.length = l'.size ∧ ∀ row ∈ rows', row.length = l'.size)
    (hentry : ∀ {a b c d}, l.SameName l' a b → l.SameName l' c d →
      l.SameName l' (entry rows a c) (entry rows' b d)) : IsResiduatedProduct l' rows' := by
  constructor
  case rowCount => exact hshape.1
  case rowLength => exact hshape.2
  case entries =>
    intro row hrow c hc
    obtain ⟨b, hb, rfl⟩ := List.getElem_of_mem hrow
    obtain ⟨d, hd, rfl⟩ := List.getElem_of_mem hc
    obtain ⟨a, hab⟩ := h.exists_left (hshape.1 ▸ hb)
    obtain ⟨c, hcd⟩ := h.exists_left (hshape.2 _ hrow ▸ hd)
    have hlt := (hentry hab hcd).right_lt
    simpa [entry, hb, hd] using hlt
  case comm =>
    intro b hb d hd
    obtain ⟨a, hab⟩ := h.exists_left hb
    obtain ⟨c, hcd⟩ := h.exists_left hd
    refine (h.eq_iff (hentry hab hcd) (hentry hcd hab)).mp ?_
    exact hp.comm a hab.left_lt c hcd.left_lt
  case assoc =>
    intro b hb d hd f hf
    obtain ⟨a, hab⟩ := h.exists_left hb
    obtain ⟨c, hcd⟩ := h.exists_left hd
    obtain ⟨e, hef⟩ := h.exists_left hf
    refine (h.eq_iff (hentry (hentry hab hcd) hef) (hentry hab (hentry hcd hef))).mp ?_
    exact hp.assoc a hab.left_lt c hcd.left_lt e hef.left_lt
  case unit =>
    intro b hb
    obtain ⟨a, hab⟩ := h.exists_left hb
    obtain ⟨hright, hleft⟩ := hp.unit a hab.left_lt
    exact ⟨(h.eq_iff (hentry hab h.top) hab).mp hright, (h.eq_iff (hentry h.top hab) hab).mp hleft⟩
  case join_distrib =>
    intro b hb d hd f hf
    obtain ⟨a, hab⟩ := h.exists_left hb
    obtain ⟨c, hcd⟩ := h.exists_left hd
    obtain ⟨e, hef⟩ := h.exists_left hf
    refine (h.eq_iff (hentry (h.join hab hcd) hef)
      (h.join (hentry hab hef) (hentry hcd hef))).mp ?_
    exact hp.join_distrib a hab.left_lt c hcd.left_lt e hef.left_lt

end Products

end ResiduatedLattice

/-! ## Twist structures -/

namespace TwistStructure

/-- Elements of two structures with the same names on both sides. -/
structure SameNames (ts ts' : TwistStructure) (x y : TwistElement) : Prop where
  pro : ts.base.lattice.SameName ts'.base.lattice x.t y.t
  con : ts.base.lattice.SameName ts'.base.lattice x.f y.f

/-- Elements of two structures.  They have the same names if negation exchanges the two sides of all
pairs in both structures. -/
structure Correspond (ts ts' : TwistStructure) (x y : TwistElement) : Prop where
  contains_left : ts.contains x = true
  contains_right : ts'.contains y = true
  sameNames : ts.Exact → ts'.Exact → ts.SameNames ts' x y

/-- Structures over the same algebra with other numbers. -/
structure Renames (ts ts' : TwistStructure) : Prop where
  base : ts.base.Renames ts'.base
  lawful : ts.Lawful
  lawful' : ts'.Lawful

variable {ts ts' : TwistStructure} {x x' y y' : TwistElement}

namespace SameNames

lemma contains_left (h : ts.SameNames ts' x y) : ts.contains x = true :=
  contains_iff.mpr ⟨h.pro.left_lt, h.con.left_lt⟩

lemma contains_right (h : ts.SameNames ts' x y) : ts'.contains y = true :=
  contains_iff.mpr ⟨h.pro.right_lt, h.con.right_lt⟩

lemma names?_eq (h : ts.SameNames ts' x y) : ts.names? x = ts'.names? y := by
  rw [names?, names?, h.pro.name?_eq, h.con.name?_eq]

lemma correspond (h : ts.SameNames ts' x y) : ts.Correspond ts' x y :=
  ⟨h.contains_left, h.contains_right, fun _ _ => h⟩

end SameNames

namespace Renames

variable (h : ts.Renames ts')

include h

lemma absoluteTrue : ts.SameNames ts' ts.absoluteTrue ts'.absoluteTrue :=
  ⟨h.base.lattice.top, h.base.lattice.bottom⟩

lemma absoluteFalse : ts.SameNames ts' ts.absoluteFalse ts'.absoluteFalse :=
  ⟨h.base.lattice.bottom, h.base.lattice.top⟩

/-- Corresponding elements are absolute truth together. -/
lemma eq_absoluteTrue_iff (hx : ts.SameNames ts' x x') :
    x = ts.absoluteTrue ↔ x' = ts'.absoluteTrue := by
  have hpro := h.base.lattice.eq_iff hx.pro h.absoluteTrue.pro
  have hcon := h.base.lattice.eq_iff hx.con h.absoluteTrue.con
  cases x
  cases x'
  simp only [TwistStructure.absoluteTrue, TwistElement.mk.injEq] at *
  exact and_congr hpro hcon

lemma meet (hx : ts.SameNames ts' x x') (hy : ts.SameNames ts' y y') :
    ts.SameNames ts' (ts.meet x y) (ts'.meet x' y') :=
  ⟨h.base.lattice.meet hx.pro hy.pro, h.base.lattice.join hx.con hy.con⟩

lemma join (hx : ts.SameNames ts' x x') (hy : ts.SameNames ts' y y') :
    ts.SameNames ts' (ts.join x y) (ts'.join x' y') :=
  ⟨h.base.lattice.join hx.pro hy.pro, h.base.lattice.meet hx.con hy.con⟩

lemma implication (hx : ts.SameNames ts' x x') (hy : ts.SameNames ts' y y') :
    ts.SameNames ts' (ts.implication x y) (ts'.implication x' y') :=
  ⟨h.base.residuum hx.pro hy.pro, h.base.tensor hx.pro hy.con⟩

/-- A pair of names is resolved in both structures, or it is refused for the same name. -/
lemma related_element? (t f : Text) :
    Related (ts.SameNames ts') (ts.element? t f) (ts'.element? t f) := by
  have ht := h.base.lattice.rel_find? t
  have hf := h.base.lattice.rel_find? f
  unfold element?
  generalize ts.base.lattice.find? t = a at ht
  generalize ts'.base.lattice.find? t = b at ht
  generalize ts.base.lattice.find? f = c at hf
  generalize ts'.base.lattice.find? f = d at hf
  cases ht with
  | none => exact .error _
  | some hab =>
    cases hf with
    | none => exact .error _
    | some hcd => exact .ok ⟨hab, hcd⟩

end Renames

namespace Correspond

lemma meet (h : ts.Renames ts') (hx : ts.Correspond ts' x x') (hy : ts.Correspond ts' y y') :
    ts.Correspond ts' (ts.meet x y) (ts'.meet x' y') where
  contains_left := h.lawful.contains_meet hx.contains_left hy.contains_left
  contains_right := h.lawful'.contains_meet hx.contains_right hy.contains_right
  sameNames hts hts' := h.meet (hx.sameNames hts hts') (hy.sameNames hts hts')

lemma join (h : ts.Renames ts') (hx : ts.Correspond ts' x x') (hy : ts.Correspond ts' y y') :
    ts.Correspond ts' (ts.join x y) (ts'.join x' y') where
  contains_left := h.lawful.contains_join hx.contains_left hy.contains_left
  contains_right := h.lawful'.contains_join hx.contains_right hy.contains_right
  sameNames hts hts' := h.join (hx.sameNames hts hts') (hy.sameNames hts hts')

lemma implication (h : ts.Renames ts') (hx : ts.Correspond ts' x x')
    (hy : ts.Correspond ts' y y') :
    ts.Correspond ts' (ts.implication x y) (ts'.implication x' y') where
  contains_left := h.lawful.contains_implication hx.contains_left hy.contains_left
  contains_right := h.lawful'.contains_implication hx.contains_right hy.contains_right
  sameNames hts hts' := h.implication (hx.sameNames hts hts') (hy.sameNames hts hts')

lemma negation (h : ts.Renames ts') (hx : ts.Correspond ts' x x') :
    ts.Correspond ts' (ts.negation x) (ts'.negation x') where
  contains_left := h.lawful.contains_negation x
  contains_right := h.lawful'.contains_negation x'
  sameNames hts hts' := by
    obtain ⟨hpro, hcon⟩ := hx.sameNames hts hts'
    rw [hts.negation_eq hx.contains_left, hts'.negation_eq hx.contains_right]
    exact ⟨hcon, hpro⟩

end Correspond

end TwistStructure

end TwistLogic
