import Mathlib.Logic.Relation
import TwistLogic.Proofs.Basic

/-!
# The laws of a built lattice

`FiniteLattice.build` closes the given pairs step by step, one pivot after the other.
`closure_get_iff` says that the result is the least reflexive and transitive relation that holds of
the pairs.  A lattice is `Lawful` if its order is a partial order on its elements, its operations
are greatest lower and least upper bounds, and its top and bottom bound all elements; every lattice
that is built is lawful (`lawful_of_build_eq_ok`).
-/

namespace TwistLogic

/-! ## The closure of an order -/

section Closure

variable {n : Nat} {r : Table Bool} {a b k : ElementId}

/-- One step through a pivot. -/
lemma get_throughPivot (ha : a < n) (hb : b < n) :
    (throughPivot n r k).get a b = true ↔
      r.get a b = true ∨ r.get a k = true ∧ r.get k b = true := by
  rw [throughPivot, Table.get_ofFn _ ha hb, Bool.or_eq_true, Bool.and_eq_true]

/-- A relation is closed at a pivot if a step to it and a step from it make one step. -/
def ClosedAt (n : Nat) (r : Table Bool) (k : ElementId) : Prop :=
  ∀ a < n, ∀ b < n, r.get a k = true → r.get k b = true → r.get a b = true

/-- Stepping through a pivot closes a relation there. -/
lemma closedAt_throughPivot_self (hk : k < n) : ClosedAt n (throughPivot n r k) k := by
  intro a ha b hb hak hkb
  rw [get_throughPivot ha hk] at hak
  rw [get_throughPivot hk hb] at hkb
  rw [get_throughPivot ha hb]
  exact .inr ⟨hak.elim id And.left, hkb.elim id And.right⟩

/-- Stepping through a pivot keeps a relation closed where it was. -/
lemma ClosedAt.throughPivot {j : ElementId} (hj : j < n) (hk : k < n) (h : ClosedAt n r j) :
    ClosedAt n (throughPivot n r k) j := by
  intro a ha b hb haj hjb
  rw [get_throughPivot ha hj] at haj
  rw [get_throughPivot hj hb] at hjb
  rw [get_throughPivot ha hb]
  rcases haj with haj | ⟨hak, hkj⟩
  · rcases hjb with hjb | ⟨hjk, hkb⟩
    · exact .inl (h a ha b hb haj hjb)
    · exact .inr ⟨h a ha k hk haj hjk, hkb⟩
  · rcases hjb with hjb | ⟨hjk, hkb⟩
    · exact .inr ⟨hak, h k hk b hb hkj hjb⟩
    · exact .inr ⟨hak, hkb⟩

/-- Stepping through several pivots closes a relation at each of them. -/
lemma closedAt_foldl {ks : List ElementId} (hks : ∀ k ∈ ks, k < n) {j : ElementId} (hj : j < n)
    (h : j ∈ ks ∨ ClosedAt n r j) : ClosedAt n (ks.foldl (throughPivot n) r) j := by
  induction ks generalizing r with
  | nil => simpa using h
  | cons k ks ih =>
    have hk := hks k List.mem_cons_self
    refine ih (fun i hi => hks i (List.mem_cons_of_mem k hi)) ?_
    rcases h with h | h
    · rcases List.mem_cons.mp h with rfl | h
      · exact .inr (closedAt_throughPivot_self hj)
      · exact .inl h
    · exact .inr (h.throughPivot hj hk)

/-- Stepping through pivots only adds. -/
lemma get_foldl_of_get {ks : List ElementId} (ha : a < n) (hb : b < n)
    (h : r.get a b = true) : (ks.foldl (throughPivot n) r).get a b = true := by
  induction ks generalizing r with
  | nil => exact h
  | cons k ks ih => exact ih ((get_throughPivot ha hb).mpr (.inl h))

/-- Stepping through pivots stays inside every transitive relation that held before. -/
lemma rel_of_get_foldl {R : ElementId → ElementId → Prop}
    (htrans : ∀ {x y z}, R x y → R y z → R x z) {ks : List ElementId} (hks : ∀ k ∈ ks, k < n)
    (hr : ∀ {x y}, x < n → y < n → r.get x y = true → R x y) (ha : a < n) (hb : b < n)
    (h : (ks.foldl (throughPivot n) r).get a b = true) : R a b := by
  induction ks generalizing r with
  | nil => exact hr ha hb h
  | cons k ks ih =>
    have hk := hks k List.mem_cons_self
    refine ih (fun i hi => hks i (List.mem_cons_of_mem k hi)) (fun hx hy hxy => ?_) h
    rcases (get_throughPivot hx hy).mp hxy with hxy | ⟨hxk, hky⟩
    · exact hr hx hy hxy
    · exact htrans (hr hx hk hxk) (hr hk hy hky)

/-- The closure is the least reflexive and transitive relation that holds of the pairs. -/
theorem closure_get_iff {pairs : List (ElementId × ElementId)}
    (hpairs : ∀ p ∈ pairs, p.1 < n ∧ p.2 < n) (ha : a < n) (hb : b < n) :
    (closure n pairs).get a b = true ↔
      Relation.ReflTransGen (fun x y => (x, y) ∈ pairs) a b := by
  have hbase : ∀ {x y}, x < n → y < n →
      ((Table.ofFn n fun x y => x == y || pairs.contains (x, y)).get x y = true ↔
        x = y ∨ (x, y) ∈ pairs) := by
    intro x y hx hy
    rw [Table.get_ofFn _ hx hy]
    simp
  have hrange : ∀ k ∈ List.range n, k < n := fun k => List.mem_range.mp
  constructor
  · refine rel_of_get_foldl (R := Relation.ReflTransGen _) Relation.ReflTransGen.trans hrange
      (fun hx hy hxy => ?_) ha hb
    rcases (hbase hx hy).mp hxy with rfl | hmem
    · exact .refl
    · exact .single hmem
  · intro h
    induction h with
    | refl => exact get_foldl_of_get ha ha ((hbase ha ha).mpr (.inl rfl))
    | @tail c d _ hcd ih =>
      obtain ⟨hc, hd⟩ := hpairs _ hcd
      have hclosed : ClosedAt n (closure n pairs) c :=
        closedAt_foldl hrange hc (.inl (List.mem_range.mpr hc))
      exact hclosed a ha d hd (ih hc) (get_foldl_of_get hc hd ((hbase hc hd).mpr (.inr hcd)))

end Closure

/-! ## Best bounds -/

/-- If every two members of a list have an upper bound in it, one member is above all. -/
theorem exists_greatest {α : Type} {R : α → α → Bool} {xs : List α} {x : α} (hx : x ∈ xs)
    (htrans : ∀ a b c, a ∈ xs → b ∈ xs → c ∈ xs → R a b = true → R b c = true → R a c = true)
    (hbound : ∀ a ∈ xs, ∀ b ∈ xs, ∃ j ∈ xs, R a j = true ∧ R b j = true) :
    ∃ t ∈ xs, ∀ a ∈ xs, R a t = true := by
  -- more and more of the members have an upper bound among all of them
  suffices hpart : ∀ ys ⊆ xs, ∃ t ∈ xs, ∀ a ∈ ys, R a t = true from hpart xs (List.Subset.refl xs)
  intro ys hys
  induction ys with
  | nil => exact ⟨x, hx, by simp⟩
  | cons y ys ih =>
    obtain ⟨hy, hys⟩ := List.cons_subset.mp hys
    obtain ⟨t, ht, htop⟩ := ih hys
    obtain ⟨j, hj, hyj, htj⟩ := hbound y hy t ht
    refine ⟨j, hj, fun a ha => ?_⟩
    rcases List.mem_cons.mp ha with rfl | ha
    · exact hyj
    · exact htrans a t j (hys ha) ht hj (htop a ha) htj

/-- An element that is found to be greatest is one of the elements and above all of them. -/
lemma greatest?_eq_some {order : Table Bool} {xs : List ElementId} {x : ElementId}
    (h : greatest? order xs = some x) : x ∈ xs ∧ ∀ y ∈ xs, order.get y x = true := by
  refine ⟨List.mem_of_find?_eq_some h, ?_⟩
  simpa using List.find?_some h

/-- An element that is found to be least is one of the elements and below all of them. -/
lemma least?_eq_some {order : Table Bool} {xs : List ElementId} {x : ElementId}
    (h : least? order xs = some x) : x ∈ xs ∧ ∀ y ∈ xs, order.get x y = true := by
  refine ⟨List.mem_of_find?_eq_some h, ?_⟩
  simpa using List.find?_some h

/-- A greatest element is found exactly if there is one. -/
lemma exists_greatest?_iff {order : Table Bool} {xs : List ElementId} :
    (∃ x, greatest? order xs = some x) ↔ ∃ x ∈ xs, ∀ y ∈ xs, order.get y x = true := by
  rw [← Option.isSome_iff_exists, greatest?, List.find?_isSome]
  simp only [List.all_eq_true]

/-- A least element is found exactly if there is one. -/
lemma exists_least?_iff {order : Table Bool} {xs : List ElementId} :
    (∃ x, least? order xs = some x) ↔ ∃ x ∈ xs, ∀ y ∈ xs, order.get x y = true := by
  rw [← Option.isSome_iff_exists, least?, List.find?_isSome]
  simp only [List.all_eq_true]

namespace FiniteLattice

/-- The order of a lattice is a partial order on its elements, its operations give best bounds, and
its top and bottom bound all elements. -/
structure Lawful (l : FiniteLattice) : Prop where
  leq_refl : ∀ {a}, a < l.size → l.leq a a = true
  leq_trans : ∀ {a b c}, a < l.size → b < l.size → c < l.size →
    l.leq a b = true → l.leq b c = true → l.leq a c = true
  leq_antisymm : ∀ {a b}, a < l.size → b < l.size →
    l.leq a b = true → l.leq b a = true → a = b
  meet_lt : ∀ {a b}, a < l.size → b < l.size → l.meet a b < l.size
  meet_leq_left : ∀ {a b}, a < l.size → b < l.size → l.leq (l.meet a b) a = true
  meet_leq_right : ∀ {a b}, a < l.size → b < l.size → l.leq (l.meet a b) b = true
  leq_meet : ∀ {a b c}, a < l.size → b < l.size → c < l.size →
    l.leq c a = true → l.leq c b = true → l.leq c (l.meet a b) = true
  join_lt : ∀ {a b}, a < l.size → b < l.size → l.join a b < l.size
  leq_join_left : ∀ {a b}, a < l.size → b < l.size → l.leq a (l.join a b) = true
  leq_join_right : ∀ {a b}, a < l.size → b < l.size → l.leq b (l.join a b) = true
  join_leq : ∀ {a b c}, a < l.size → b < l.size → c < l.size →
    l.leq a c = true → l.leq b c = true → l.leq (l.join a b) c = true
  top_lt : l.top < l.size
  leq_top : ∀ {a}, a < l.size → l.leq a l.top = true
  bottom_lt : l.bottom < l.size
  bottom_leq : ∀ {a}, a < l.size → l.leq l.bottom a = true

/-! ## What a successful build has checked -/

/-- A name is found at a position of the array. -/
lemma lt_size_of_idxOf? {names : Array Text} {name : Text} {a : Nat}
    (h : names.idxOf? name = some a) : a < names.size := by
  rw [Array.idxOf?_eq_map_finIdxOf?_val] at h
  obtain ⟨i, -, rfl⟩ := Option.map_eq_some_iff.mp h
  exact i.isLt

/-- The numbers of a pair of names are element numbers. -/
lemma lt_size_of_orderPair {names : Array Text} {p : Text × Text} {q : ElementId × ElementId}
    (h : orderPair names p = .ok q) : q.1 < names.size ∧ q.2 < names.size := by
  unfold orderPair at h
  split at h
  next a b ha hb =>
    obtain rfl : (a, b) = q := Except.ok.inj h
    exact ⟨lt_size_of_idxOf? ha, lt_size_of_idxOf? hb⟩
  all_goals cases h

/-- The numbers of many pairs of names are element numbers. -/
lemma lt_length_of_mapM_orderPair {elements : List Text} {pairs : List (Text × Text)}
    {ids : List (ElementId × ElementId)}
    (h : pairs.mapM (orderPair elements.toArray) = .ok ids) :
    ∀ p ∈ ids, p.1 < elements.length ∧ p.2 < elements.length := by
  intro p hp
  obtain ⟨q, -, hq⟩ := exists_of_mem_of_mapM_eq_ok h hp
  exact lt_size_of_orderPair hq

/-- No name is found twice exactly if the names are distinct and none was seen before. -/
lemma duplicate?_eq_none_iff {seen names : List Text} :
    duplicate? seen names = none ↔ names.Nodup ∧ ∀ name ∈ names, name ∉ seen := by
  induction names generalizing seen with
  | nil => simp [duplicate?]
  | cons name names ih =>
    rw [duplicate?, ite_some_eq_none_iff, ih, List.nodup_cons, List.contains_iff_mem]
    constructor
    · rintro ⟨hseen, hnodup, hfresh⟩
      have hname : name ∉ names := fun hmem => hfresh name hmem List.mem_cons_self
      refine ⟨⟨hname, hnodup⟩, fun x hx => ?_⟩
      rcases List.mem_cons.mp hx with rfl | hx
      · exact hseen
      · exact fun hmem => hfresh x hx (List.mem_cons_of_mem _ hmem)
    · rintro ⟨⟨hname, hnodup⟩, hfresh⟩
      refine ⟨hfresh name List.mem_cons_self, hnodup, fun x hx hmem => ?_⟩
      rcases List.mem_cons.mp hmem with rfl | hmem
      · exact hname hx
      · exact hfresh x (List.mem_cons_of_mem _ hx) hmem

/-- The fields of a built lattice, and what was checked about them. -/
structure BuiltFrom (elements : List Text) (pairs : List (ElementId × ElementId))
    (l : FiniteLattice) : Prop where
  names_eq : l.names = elements.toArray
  nodup : elements.Nodup
  pairs_lt : ∀ p ∈ pairs, p.1 < l.size ∧ p.2 < l.size
  order_eq : l.order = closure l.size pairs
  antisymm : ∀ {a b}, a < b → b < l.size → ¬(l.leq a b = true ∧ l.leq b a = true)
  meets : ∀ {a b}, a ≤ b → b < l.size →
    ∃ x, greatest? l.order (lowerBounds l.size l.order a b) = some x
  joins : ∀ {a b}, a ≤ b → b < l.size →
    ∃ x, least? l.order (upperBounds l.size l.order a b) = some x
  maximal_eq : maximal l.size l.order = [l.top]
  minimal_eq : minimal l.size l.order = [l.bottom]
  meet_eq : ∀ {a b}, a < l.size → b < l.size →
    l.meet a b = (greatest? l.order (lowerBounds l.size l.order a b)).getD 0
  join_eq : ∀ {a b}, a < l.size → b < l.size →
    l.join a b = (least? l.order (upperBounds l.size l.order a b)).getD 0

/-- If no element and a later one are below each other, elements that are below each other are
equal. -/
lemma eq_of_forall_lt_not {n : Nat} {R : ElementId → ElementId → Bool} {a b : ElementId}
    (h : ∀ a b, a < b → b < n → ¬(R a b = true ∧ R b a = true)) (ha : a < n) (hb : b < n)
    (hab : R a b = true) (hba : R b a = true) : a = b := by
  rcases Nat.lt_trichotomy a b with hlt | heq | hlt
  · exact absurd ⟨hab, hba⟩ (h a b hlt hb)
  · exact heq
  · exact absurd ⟨hba, hab⟩ (h b a hlt ha)

/-- No antisymmetry fault is found exactly if no two elements are below each other. -/
lemma antisymmetryFault?_eq_none_iff {names : Array Text} {order : Table Bool} :
    antisymmetryFault? names order = none ↔
      ∀ a b, a < b → b < names.size → ¬(order.get a b = true ∧ order.get b a = true) := by
  unfold antisymmetryFault?
  simp only [List.findSome?_eq_none_iff, List.mem_range, List.mem_range'_1]
  constructor
  · intro h a b hab hb
    have hab' := h a (by omega) b ⟨hab, by omega⟩
    simpa using hab'
  · intro h a ha b hb
    have hab' := h a b (by omega) (by omega)
    simpa using hab'

/-- No bound fault is found exactly if every two elements have a meet and a join. -/
lemma boundFault?_eq_none_iff {names : Array Text} {order : Table Bool}
    {meets joins : Table (Option ElementId)} :
    boundFault? names order meets joins = none ↔
      ∀ a b, a ≤ b → b < names.size →
        (∃ x, meets.get a b = some x) ∧ ∃ x, joins.get a b = some x := by
  unfold boundFault?
  simp only [List.findSome?_eq_none_iff, List.mem_range, List.mem_range'_1]
  have hcell : ∀ a b (f g : LatticeFault), (if (meets.get a b).isNone = true then some f
      else if (joins.get a b).isNone = true then some g else none) = none ↔
      (∃ x, meets.get a b = some x) ∧ ∃ x, joins.get a b = some x := by
    intro a b f g
    cases meets.get a b <;> cases joins.get a b <;> simp
  constructor
  · intro h a b hab hb
    exact (hcell a b _ _).mp (h a (by omega) b ⟨hab, by omega⟩)
  · intro h a ha b hb
    exact (hcell a b _ _).mpr (h a b (by omega) (by omega))

/-- The only member of a list. -/
lemma only?_eq_some_iff {α : Type} {xs : List α} {x : α} : only? xs = some x ↔ xs = [x] := by
  unfold only?
  split <;> simp_all

/-- Every build that succeeds has made all its checks. -/
theorem exists_builtFrom_of_build {elements : List Text} {pairs : List (Text × Text)}
    {l : FiniteLattice} (h : build elements pairs = .ok l) :
    ∃ ids, pairs.mapM (orderPair elements.toArray) = .ok ids ∧ BuiltFrom elements ids l := by
  unfold build at h
  simp only [throw_bind_eq, ite_throw_eq_ok_iff, bind_eq_ok_iff, exists_unit_iff,
    refuse_eq_ok_iff] at h
  obtain ⟨-, hdistinct, ids, hids, hantisymm, hbounds, h⟩ := h
  rw [Option.map_eq_none_iff, duplicate?_eq_none_iff] at hdistinct
  refine ⟨ids, hids, ?_⟩
  rw [antisymmetryFault?_eq_none_iff] at hantisymm
  rw [boundFault?_eq_none_iff] at hbounds
  split at h
  · simp at h
  · simp at h
  next top bottom htop hbottom =>
    simp only [pure_eq_ok_iff] at h
    subst h
    rw [only?_eq_some_iff] at htop hbottom
    constructor
    case names_eq => rfl
    case nodup => exact hdistinct.1
    case pairs_lt => exact lt_length_of_mapM_orderPair hids
    case order_eq => rfl
    case antisymm => exact fun hab hb => hantisymm _ _ hab hb
    case meets =>
      intro a b hab (hb : b < elements.toArray.size)
      have hmeet := (hbounds a b hab hb).1
      rwa [Table.get_ofFn _ (Nat.lt_of_le_of_lt hab hb) hb] at hmeet
    case joins =>
      intro a b hab (hb : b < elements.toArray.size)
      have hjoin := (hbounds a b hab hb).2
      rwa [Table.get_ofFn _ (Nat.lt_of_le_of_lt hab hb) hb] at hjoin
    case maximal_eq => exact htop
    case minimal_eq => exact hbottom
    case meet_eq =>
      intro a b (ha : a < elements.toArray.size) (hb : b < elements.toArray.size)
      rw [← Table.get_ofFn (fun a b => greatest? _ (lowerBounds _ _ a b)) ha hb]
      exact Table.get_ofFn _ ha hb
    case join_eq =>
      intro a b (ha : a < elements.toArray.size) (hb : b < elements.toArray.size)
      rw [← Table.get_ofFn (fun a b => least? _ (upperBounds _ _ a b)) ha hb]
      exact Table.get_ofFn _ ha hb

/-! ## The laws -/

namespace BuiltFrom

variable {elements : List Text} {pairs : List (ElementId × ElementId)} {l : FiniteLattice}
  {a b c : ElementId}

/-- The order of a built lattice is the closure of the given pairs. -/
theorem leq_iff (h : BuiltFrom elements pairs l) (ha : a < l.size) (hb : b < l.size) :
    l.leq a b = true ↔ Relation.ReflTransGen (fun x y => (x, y) ∈ pairs) a b := by
  rw [leq, h.order_eq]
  exact closure_get_iff h.pairs_lt ha hb

/-- The bounds of two elements do not depend on their order. -/
lemma lowerBounds_comm (n : Nat) (order : Table Bool) (a b : ElementId) :
    lowerBounds n order a b = lowerBounds n order b a := by
  simp only [lowerBounds, Bool.and_comm]

lemma upperBounds_comm (n : Nat) (order : Table Bool) (a b : ElementId) :
    upperBounds n order a b = upperBounds n order b a := by
  simp only [upperBounds, Bool.and_comm]

lemma mem_lowerBounds_iff :
    c ∈ lowerBounds l.size l.order a b ↔ c < l.size ∧ l.leq c a = true ∧ l.leq c b = true := by
  simp [lowerBounds, leq]

lemma mem_upperBounds_iff :
    c ∈ upperBounds l.size l.order a b ↔ c < l.size ∧ l.leq a c = true ∧ l.leq b c = true := by
  simp [upperBounds, leq]

/-- The meet of two elements is their greatest lower bound. -/
theorem meet_spec (h : BuiltFrom elements pairs l) (ha : a < l.size) (hb : b < l.size) :
    l.meet a b < l.size ∧ l.leq (l.meet a b) a = true ∧ l.leq (l.meet a b) b = true ∧
      ∀ c < l.size, l.leq c a = true → l.leq c b = true → l.leq c (l.meet a b) = true := by
  obtain ⟨x, hx⟩ : ∃ x, greatest? l.order (lowerBounds l.size l.order a b) = some x := by
    rcases Nat.le_total a b with hab | hba
    · exact h.meets hab hb
    · obtain ⟨x, hx⟩ := h.meets hba ha
      exact ⟨x, lowerBounds_comm l.size l.order b a ▸ hx⟩
  have hmeet : l.meet a b = x := by rw [h.meet_eq ha hb, hx, Option.getD_some]
  obtain ⟨hmem, hbest⟩ := greatest?_eq_some hx
  obtain ⟨hlt, hxa, hxb⟩ := mem_lowerBounds_iff.mp hmem
  rw [hmeet]
  exact ⟨hlt, hxa, hxb, fun c hc hca hcb => hbest c (mem_lowerBounds_iff.mpr ⟨hc, hca, hcb⟩)⟩

/-- The join of two elements is their least upper bound. -/
theorem join_spec (h : BuiltFrom elements pairs l) (ha : a < l.size) (hb : b < l.size) :
    l.join a b < l.size ∧ l.leq a (l.join a b) = true ∧ l.leq b (l.join a b) = true ∧
      ∀ c < l.size, l.leq a c = true → l.leq b c = true → l.leq (l.join a b) c = true := by
  obtain ⟨x, hx⟩ : ∃ x, least? l.order (upperBounds l.size l.order a b) = some x := by
    rcases Nat.le_total a b with hab | hba
    · exact h.joins hab hb
    · obtain ⟨x, hx⟩ := h.joins hba ha
      exact ⟨x, upperBounds_comm l.size l.order b a ▸ hx⟩
  have hjoin : l.join a b = x := by rw [h.join_eq ha hb, hx, Option.getD_some]
  obtain ⟨hmem, hbest⟩ := least?_eq_some hx
  obtain ⟨hlt, hax, hbx⟩ := mem_upperBounds_iff.mp hmem
  rw [hjoin]
  exact ⟨hlt, hax, hbx, fun c hc hac hbc => hbest c (mem_upperBounds_iff.mpr ⟨hc, hac, hbc⟩)⟩

lemma leq_antisymm (h : BuiltFrom elements pairs l) (ha : a < l.size) (hb : b < l.size)
    (hab : l.leq a b = true) (hba : l.leq b a = true) : a = b :=
  eq_of_forall_lt_not (fun _ _ => h.antisymm) ha hb hab hba

/-- The only maximal element is above every other: their join is not above it. -/
lemma leq_top (h : BuiltFrom elements pairs l) :
    l.top < l.size ∧ ∀ a < l.size, l.leq a l.top = true := by
  have hmem : l.top ∈ maximal l.size l.order := by simp [h.maximal_eq]
  simp only [maximal, List.mem_filter, List.mem_range, List.all_eq_true] at hmem
  obtain ⟨htop, hmax⟩ := hmem
  refine ⟨htop, fun a ha => ?_⟩
  obtain ⟨hlt, haj, htj, -⟩ := h.join_spec ha htop
  have hj : l.top = l.join a l.top := by
    have hcase := hmax _ hlt
    rw [Bool.or_eq_true, beq_iff_eq, Bool.not_eq_true'] at hcase
    exact hcase.resolve_right fun hfalse => by
      rw [leq, hfalse] at htj
      cases htj
  rwa [← hj] at haj

/-- The only minimal element is below every other: their meet is not below it. -/
lemma bottom_leq (h : BuiltFrom elements pairs l) :
    l.bottom < l.size ∧ ∀ a < l.size, l.leq l.bottom a = true := by
  have hmem : l.bottom ∈ minimal l.size l.order := by simp [h.minimal_eq]
  simp only [minimal, List.mem_filter, List.mem_range, List.all_eq_true] at hmem
  obtain ⟨hbottom, hmin⟩ := hmem
  refine ⟨hbottom, fun a ha => ?_⟩
  obtain ⟨hlt, hma, hmb, -⟩ := h.meet_spec ha hbottom
  have hm : l.bottom = l.meet a l.bottom := by
    have hcase := hmin _ hlt
    rw [Bool.or_eq_true, beq_iff_eq, Bool.not_eq_true'] at hcase
    exact hcase.resolve_right fun hfalse => by
      rw [leq, hfalse] at hmb
      cases hmb
  rwa [← hm] at hma

theorem lawful (h : BuiltFrom elements pairs l) : l.Lawful where
  leq_refl ha := (h.leq_iff ha ha).mpr .refl
  leq_trans ha hb hc hab hbc :=
    (h.leq_iff ha hc).mpr (((h.leq_iff ha hb).mp hab).trans ((h.leq_iff hb hc).mp hbc))
  leq_antisymm := h.leq_antisymm
  meet_lt ha hb := (h.meet_spec ha hb).1
  meet_leq_left ha hb := (h.meet_spec ha hb).2.1
  meet_leq_right ha hb := (h.meet_spec ha hb).2.2.1
  leq_meet ha hb hc := (h.meet_spec ha hb).2.2.2 _ hc
  join_lt ha hb := (h.join_spec ha hb).1
  leq_join_left ha hb := (h.join_spec ha hb).2.1
  leq_join_right ha hb := (h.join_spec ha hb).2.2.1
  join_leq ha hb hc := (h.join_spec ha hb).2.2.2 _ hc
  top_lt := h.leq_top.1
  leq_top ha := h.leq_top.2 _ ha
  bottom_lt := h.bottom_leq.1
  bottom_leq ha := h.bottom_leq.2 _ ha

end BuiltFrom

/-- Every lattice that is built obeys the laws. -/
theorem lawful_of_build_eq_ok {elements : List Text} {pairs : List (Text × Text)}
    {l : FiniteLattice} (h : build elements pairs = .ok l) : l.Lawful := by
  obtain ⟨ids, -, hl⟩ := exists_builtFrom_of_build h
  exact hl.lawful

end FiniteLattice

end TwistLogic
