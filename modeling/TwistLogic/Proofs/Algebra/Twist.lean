import Mathlib.Data.Set.Insert
import TwistLogic.Algebra.Chain
import TwistLogic.Algebra.Twist
import TwistLogic.Proofs.Algebra.Residuated

/-!
# The truth order of a twist structure

A twist structure is `Generated` if it is made over a residuated lattice that was built and
extended; then it is `Lawful`: its base obeys the laws of residuated lattices, and every pair that
its table of negation names is an element.

An element is a pair, and the truth order compares the two sides separately, by the order of the
base and by its reverse.  Such an order of pairs has best bounds if both orders do
(`IsLatticeOrder.pairs`), so meet and join are the greatest lower and the least upper bound in the
truth order (`Lawful.truthOrder`).  `IsGlb` and `IsLub` are the greatest lower and the least upper
bound of a set of elements, and `isGlb_foldl_meet` and `isLub_foldl_join` say that folding a list
gives the bound of its members; the two are one argument about an order and its reverse
(`IsLatticeOrder.isBestBound_foldl`).
-/

namespace TwistLogic

/-! ## Orders on pairs -/

/-- An order on the members of a type in which every two of them have a greatest lower and a least
upper bound. -/
structure IsLatticeOrder {α : Type} (mem : α → Prop) (le : α → α → Prop) (inf sup : α → α → α) :
    Prop where
  refl : ∀ {a}, mem a → le a a
  trans : ∀ {a b c}, mem a → mem b → mem c → le a b → le b c → le a c
  antisymm : ∀ {a b}, mem a → mem b → le a b → le b a → a = b
  inf_mem : ∀ {a b}, mem a → mem b → mem (inf a b)
  inf_left : ∀ {a b}, mem a → mem b → le (inf a b) a
  inf_right : ∀ {a b}, mem a → mem b → le (inf a b) b
  le_inf : ∀ {a b c}, mem a → mem b → mem c → le c a → le c b → le c (inf a b)
  sup_mem : ∀ {a b}, mem a → mem b → mem (sup a b)
  left_sup : ∀ {a b}, mem a → mem b → le a (sup a b)
  right_sup : ∀ {a b}, mem a → mem b → le b (sup a b)
  sup_le : ∀ {a b c}, mem a → mem b → mem c → le a c → le b c → le (sup a b) c

lemma FiniteLattice.Lawful.isLatticeOrder {l : FiniteLattice} (h : l.Lawful) :
    IsLatticeOrder (· < l.size) (fun a b => l.leq a b = true) l.meet l.join :=
  ⟨h.leq_refl, h.leq_trans, h.leq_antisymm, h.meet_lt, h.meet_leq_left, h.meet_leq_right,
    h.leq_meet, h.join_lt, h.leq_join_left, h.leq_join_right, h.join_leq⟩

lemma ResiduatedLattice.Lawful.isLatticeOrder {r : ResiduatedLattice} (h : r.Lawful) :
    IsLatticeOrder (· < r.size) (fun a b => r.leq a b = true) r.meet r.join :=
  h.lattice.isLatticeOrder

namespace IsLatticeOrder

/-- Turned round, an order has the same bounds, the lower ones for the upper ones. -/
lemma dual {α : Type} {mem : α → Prop} {le : α → α → Prop} {inf sup : α → α → α}
    (h : IsLatticeOrder mem le inf sup) : IsLatticeOrder mem (fun a b => le b a) sup inf where
  refl := h.refl
  trans ha hb hc hab hbc := h.trans hc hb ha hbc hab
  antisymm ha hb hab hba := h.antisymm ha hb hba hab
  inf_mem := h.sup_mem
  inf_left := h.left_sup
  inf_right := h.right_sup
  le_inf := h.sup_le
  sup_mem := h.inf_mem
  left_sup := h.inf_left
  right_sup := h.inf_right
  sup_le := h.le_inf

/-- An order for each side gives an order on pairs, with the bounds of each side. -/
lemma pairs {mem : ElementId → Prop} {le le' : ElementId → ElementId → Prop}
    {inf sup inf' sup' : ElementId → ElementId → ElementId}
    (h : IsLatticeOrder mem le inf sup) (h' : IsLatticeOrder mem le' inf' sup') :
    IsLatticeOrder (fun x : TwistElement => mem x.t ∧ mem x.f)
      (fun x y => le x.t y.t ∧ le' x.f y.f) (fun x y => ⟨inf x.t y.t, inf' x.f y.f⟩)
      (fun x y => ⟨sup x.t y.t, sup' x.f y.f⟩) where
  refl hx := ⟨h.refl hx.1, h'.refl hx.2⟩
  trans hx hy hz hxy hyz :=
    ⟨h.trans hx.1 hy.1 hz.1 hxy.1 hyz.1, h'.trans hx.2 hy.2 hz.2 hxy.2 hyz.2⟩
  antisymm {x y} hx hy hxy hyx := by
    obtain ⟨a, b⟩ := x
    obtain ⟨c, d⟩ := y
    have ht : a = c := h.antisymm hx.1 hy.1 hxy.1 hyx.1
    have hf : b = d := h'.antisymm hx.2 hy.2 hxy.2 hyx.2
    rw [ht, hf]
  inf_mem hx hy := ⟨h.inf_mem hx.1 hy.1, h'.inf_mem hx.2 hy.2⟩
  inf_left hx hy := ⟨h.inf_left hx.1 hy.1, h'.inf_left hx.2 hy.2⟩
  inf_right hx hy := ⟨h.inf_right hx.1 hy.1, h'.inf_right hx.2 hy.2⟩
  le_inf hx hy hz hzx hzy :=
    ⟨h.le_inf hx.1 hy.1 hz.1 hzx.1 hzy.1, h'.le_inf hx.2 hy.2 hz.2 hzx.2 hzy.2⟩
  sup_mem hx hy := ⟨h.sup_mem hx.1 hy.1, h'.sup_mem hx.2 hy.2⟩
  left_sup hx hy := ⟨h.left_sup hx.1 hy.1, h'.left_sup hx.2 hy.2⟩
  right_sup hx hy := ⟨h.right_sup hx.1 hy.1, h'.right_sup hx.2 hy.2⟩
  sup_le hx hy hz hxz hyz :=
    ⟨h.sup_le hx.1 hy.1 hz.1 hxz.1 hyz.1, h'.sup_le hx.2 hy.2 hz.2 hxz.2 hyz.2⟩

end IsLatticeOrder

/-! ## Best bounds of a set -/

/-- The member `x` is related to all elements of `S`, and all other members that are so are related
to it. -/
structure IsBestBound {α : Type} (mem : α → Prop) (le : α → α → Prop) (S : Set α) (x : α) :
    Prop where
  mem_self : mem x
  bound : ∀ y ∈ S, le x y
  best : ∀ z, mem z → (∀ y ∈ S, le z y) → le z x

namespace IsLatticeOrder

variable {α : Type} {mem : α → Prop} {le : α → α → Prop} {inf sup : α → α → α}
  (h : IsLatticeOrder mem le inf sup) {S S' : Set α} {x y : α} {xs : List α}

include h

/-- A set has at most one best bound. -/
lemma isBestBound_unique (hx : IsBestBound mem le S x) (hy : IsBestBound mem le S y) : x = y :=
  h.antisymm hx.mem_self hy.mem_self (hy.best x hx.mem_self hx.bound)
    (hx.best y hy.mem_self hy.bound)

/-- The best bound of two bounds is that of both sets together. -/
lemma isBestBound_union (hS : ∀ z ∈ S, mem z) (hS' : ∀ z ∈ S', mem z)
    (hx : IsBestBound mem le S x) (hy : IsBestBound mem le S' y) :
    IsBestBound mem le (S ∪ S') (inf x y) := by
  have hmem := hx.mem_self
  have hmem' := hy.mem_self
  have hinf := h.inf_mem hmem hmem'
  refine ⟨hinf, ?_, fun z hz hall => h.le_inf hmem hmem' hz ?_ ?_⟩
  · rintro z (hz | hz)
    · exact h.trans hinf hmem (hS z hz) (h.inf_left hmem hmem') (hx.bound z hz)
    · exact h.trans hinf hmem' (hS' z hz) (h.inf_right hmem hmem') (hy.bound z hz)
  · exact hx.best z hz fun w hw => hall w (.inl hw)
  · exact hy.best z hz fun w hw => hall w (.inr hw)

lemma isBestBound_singleton (hx : mem x) : IsBestBound mem le {x} x :=
  ⟨hx, fun _ hy => (Set.eq_of_mem_singleton hy).symm ▸ h.refl hx, fun _ _ hall => hall x rfl⟩

/-- Folding a list from a best bound gives the best bound of the set and the list together. -/
lemma isBestBound_foldl (hS : ∀ z ∈ S, mem z) (hx : IsBestBound mem le S x)
    (hxs : ∀ y ∈ xs, mem y) : IsBestBound mem le (S ∪ {y | y ∈ xs}) (xs.foldl inf x) := by
  induction xs generalizing S x with
  | nil => simpa using hx
  | cons y xs ih =>
    obtain ⟨hy, hxs⟩ := List.forall_mem_cons.mp hxs
    have hsingle : ∀ z ∈ ({y} : Set α), mem z := fun z hz => Set.eq_of_mem_singleton hz ▸ hy
    have hstep := h.isBestBound_union hS hsingle hx (h.isBestBound_singleton hy)
    have hset : S ∪ {z | z ∈ y :: xs} = S ∪ {y} ∪ {z | z ∈ xs} := by
      ext z
      simp [or_assoc, or_left_comm]
    rw [hset]
    refine ih (fun z hz => ?_) hstep hxs
    exact hz.elim (hS z) (hsingle z)

/-- Folding a list from the best bound of no elements gives the best bound of its members. -/
lemma isBestBound_members (hx : IsBestBound mem le ∅ x) (hxs : ∀ y ∈ xs, mem y) :
    IsBestBound mem le {y | y ∈ xs} (xs.foldl inf x) := by
  rw [← Set.empty_union {y | y ∈ xs}]
  exact h.isBestBound_foldl nofun hx hxs

end IsLatticeOrder

/-! ## Lawful structures -/

namespace TwistStructure

variable {ts : TwistStructure} {x y z : TwistElement}

/-- The structures over algebras that passed all checks. -/
def Generated (ts : TwistStructure) : Prop :=
  ∃ elements pairs l rows r, FiniteLattice.build elements pairs = .ok l ∧
    ResiduatedLattice.extend l rows = .ok r ∧ generate (some r) = .ok ts

/-- The base obeys the laws of residuated lattices, and all listed pairs are elements. -/
structure Lawful (ts : TwistStructure) : Prop where
  base : ts.base.Lawful
  contains_of_mem : ∀ x ∈ ts.elements, ts.contains x = true

lemma contains_iff : ts.contains x = true ↔ x.t < ts.base.size ∧ x.f < ts.base.size := by
  simp [contains]

/-- The elements of a structure are all pairs, and its table of negation exchanges their sides. -/
lemma eq_of_generate_eq_ok {r : ResiduatedLattice} (h : generate (some r) = .ok ts) :
    ts = {
      base := r
      elements := (TwistStructure.pairs r.size).toArray
      negations := ((TwistStructure.pairs r.size).map fun x =>
        UInt32.ofNat (position r.size ⟨x.f, x.t⟩)).toArray } := by
  unfold generate at h
  simp only [bind_eq_ok_iff, exists_unit_iff, refuse_eq_ok_iff, pure_eq_ok_iff] at h
  exact h.2.symm

/-- A generated structure obeys the laws. -/
theorem Generated.lawful (h : ts.Generated) : ts.Lawful := by
  obtain ⟨elements, pairs, l, rows, r, hl, hr, hts⟩ := h
  obtain rfl := eq_of_generate_eq_ok hts
  constructor
  · exact ResiduatedLattice.lawful_of_extend_eq_ok (FiniteLattice.lawful_of_build_eq_ok hl) hr
  · intro x hx
    simp only [List.mem_toArray, TwistStructure.pairs, List.mem_flatMap, List.mem_map,
      List.mem_range] at hx
    obtain ⟨t, ht, f, hf, rfl⟩ := hx
    exact contains_iff.mpr ⟨ht, hf⟩

/-! ## Elements -/

namespace Lawful

lemma contains_absoluteTrue (h : ts.Lawful) : ts.contains ts.absoluteTrue = true :=
  contains_iff.mpr ⟨h.base.lattice.top_lt, h.base.lattice.bottom_lt⟩

lemma contains_absoluteFalse (h : ts.Lawful) : ts.contains ts.absoluteFalse = true :=
  contains_iff.mpr ⟨h.base.lattice.bottom_lt, h.base.lattice.top_lt⟩

lemma contains_implication (h : ts.Lawful) (hx : ts.contains x = true)
    (hy : ts.contains y = true) : ts.contains (ts.implication x y) = true := by
  rw [contains_iff] at *
  have hfor : ts.base.residuum x.t y.t < ts.base.size := h.base.residuum_lt hx.1 hy.1
  have hagainst : ts.base.tensor x.t y.f < ts.base.size := h.base.tensor_lt hx.1 hy.2
  exact ⟨hfor, hagainst⟩

/-- Whatever the table of negation names, the negation is an element. -/
lemma contains_negation (h : ts.Lawful) (x : TwistElement) :
    ts.contains (ts.negation x) = true := by
  unfold negation
  rw [Array.getD_eq_getD_getElem?]
  generalize (ts.negations.getD (ts.index x) 0).toNat = i
  cases hi : ts.elements[i]? with
  | some y => exact h.contains_of_mem y (Array.mem_of_getElem? hi)
  | none =>
    have hpos : 0 < ts.base.size := Nat.lt_of_le_of_lt (Nat.zero_le _) h.base.lattice.top_lt
    exact contains_iff.mpr ⟨hpos, hpos⟩

/-! ## The truth order -/

/-- The truth order is the order of the base for and its reverse against. -/
lemma truthOrder (h : ts.Lawful) :
    IsLatticeOrder (fun x => ts.contains x = true) (fun x y => ts.leq x y = true) ts.meet
      ts.join := by
  have horder : IsLatticeOrder (fun x => x.t < ts.base.size ∧ x.f < ts.base.size)
      (fun x y => ts.base.leq x.t y.t = true ∧ ts.base.leq y.f x.f = true) ts.meet ts.join :=
    h.base.isLatticeOrder.pairs h.base.isLatticeOrder.dual
  simpa only [contains_iff, leq, Bool.and_eq_true] using horder

lemma leq_refl (h : ts.Lawful) (hx : ts.contains x = true) : ts.leq x x = true :=
  h.truthOrder.refl hx

lemma leq_trans (h : ts.Lawful) (hx : ts.contains x = true) (hy : ts.contains y = true)
    (hz : ts.contains z = true) (hxy : ts.leq x y = true) (hyz : ts.leq y z = true) :
    ts.leq x z = true :=
  h.truthOrder.trans hx hy hz hxy hyz

lemma leq_antisymm (h : ts.Lawful) (hx : ts.contains x = true) (hy : ts.contains y = true)
    (hxy : ts.leq x y = true) (hyx : ts.leq y x = true) : x = y :=
  h.truthOrder.antisymm hx hy hxy hyx

lemma contains_meet (h : ts.Lawful) (hx : ts.contains x = true) (hy : ts.contains y = true) :
    ts.contains (ts.meet x y) = true :=
  h.truthOrder.inf_mem hx hy

lemma contains_join (h : ts.Lawful) (hx : ts.contains x = true) (hy : ts.contains y = true) :
    ts.contains (ts.join x y) = true :=
  h.truthOrder.sup_mem hx hy

lemma leq_absoluteTrue (h : ts.Lawful) (hx : ts.contains x = true) :
    ts.leq x ts.absoluteTrue = true := by
  rw [contains_iff] at hx
  have hfor : ts.base.leq x.t ts.base.top = true := h.base.lattice.leq_top hx.1
  have hagainst : ts.base.leq ts.base.bottom x.f = true := h.base.lattice.bottom_leq hx.2
  exact Bool.and_eq_true_iff.mpr ⟨hfor, hagainst⟩

lemma absoluteFalse_leq (h : ts.Lawful) (hx : ts.contains x = true) :
    ts.leq ts.absoluteFalse x = true := by
  rw [contains_iff] at hx
  have hfor : ts.base.leq ts.base.bottom x.t = true := h.base.lattice.bottom_leq hx.1
  have hagainst : ts.base.leq x.f ts.base.top = true := h.base.lattice.leq_top hx.2
  exact Bool.and_eq_true_iff.mpr ⟨hfor, hagainst⟩

end Lawful

/-! ## Best bounds of a set -/

/-- The element `x` is related to all members of `S`, and all others that are so are related to
it. -/
structure IsBound (ts : TwistStructure) (rel : TwistElement → TwistElement → Bool)
    (S : Set TwistElement) (x : TwistElement) : Prop where
  contains : ts.contains x = true
  bound : ∀ y ∈ S, rel x y = true
  best : ∀ z, ts.contains z = true → (∀ y ∈ S, rel z y = true) → rel z x = true

/-- The greatest lower bound of a set in the truth order. -/
def IsGlb (ts : TwistStructure) (S : Set TwistElement) (x : TwistElement) : Prop :=
  ts.IsBound ts.leq S x

/-- The least upper bound of a set in the truth order. -/
def IsLub (ts : TwistStructure) (S : Set TwistElement) (x : TwistElement) : Prop :=
  ts.IsBound (fun x y => ts.leq y x) S x

/-- A set has at most one greatest lower bound. -/
lemma Lawful.isGlb_unique (h : ts.Lawful) {S : Set TwistElement} (hx : ts.IsGlb S x)
    (hy : ts.IsGlb S y) : x = y :=
  h.leq_antisymm hx.contains hy.contains (hy.best x hx.contains hx.bound)
    (hx.best y hy.contains hy.bound)

/-- A set has at most one least upper bound. -/
lemma Lawful.isLub_unique (h : ts.Lawful) {S : Set TwistElement} (hx : ts.IsLub S x)
    (hy : ts.IsLub S y) : x = y :=
  h.leq_antisymm hx.contains hy.contains (hx.best y hy.contains hy.bound)
    (hy.best x hx.contains hx.bound)

lemma isBound_iff {rel : TwistElement → TwistElement → Bool} {S : Set TwistElement} :
    ts.IsBound rel S x ↔
      IsBestBound (fun x => ts.contains x = true) (fun x y => rel x y = true) S x :=
  ⟨fun h => ⟨h.contains, h.bound, h.best⟩, fun h => ⟨h.mem_self, h.bound, h.best⟩⟩

/-- Folding a list by the best bound of two elements gives the best bound of all its members and
the start. -/
lemma isBound_foldl {rel : TwistElement → TwistElement → Bool}
    {op op' : TwistElement → TwistElement → TwistElement}
    (h : IsLatticeOrder (fun x => ts.contains x = true) (fun x y => rel x y = true) op op')
    {xs : List TwistElement} (hxs : ∀ y ∈ xs, ts.contains y = true) (hx : ts.contains x = true) :
    ts.IsBound rel {y | y ∈ x :: xs} (xs.foldl op x) := by
  have hset : {y | y ∈ x :: xs} = {x} ∪ {y | y ∈ xs} := by
    ext y
    simp
  rw [hset]
  exact isBound_iff.mpr
    (h.isBestBound_foldl (fun z hz => Set.eq_of_mem_singleton hz ▸ hx)
      (h.isBestBound_singleton hx) hxs)

/-- The meet of a list is the greatest lower bound of its members. -/
theorem Lawful.isGlb_foldl_meet (h : ts.Lawful) {xs : List TwistElement}
    (hxs : ∀ y ∈ xs, ts.contains y = true) (hx : ts.contains x = true) :
    ts.IsGlb {y | y ∈ x :: xs} (xs.foldl ts.meet x) :=
  isBound_foldl h.truthOrder hxs hx

/-- The join of a list is the least upper bound of its members. -/
theorem Lawful.isLub_foldl_join (h : ts.Lawful) {xs : List TwistElement}
    (hxs : ∀ y ∈ xs, ts.contains y = true) (hx : ts.contains x = true) :
    ts.IsLub {y | y ∈ x :: xs} (xs.foldl ts.join x) :=
  isBound_foldl h.truthOrder.dual hxs hx

/-- The meet of a sequence is the greatest lower bound of its members, absolute truth for the empty
sequence. -/
theorem Lawful.isGlb_meetAll (h : ts.Lawful) {xs : List TwistElement}
    (hxs : ∀ y ∈ xs, ts.contains y = true) : ts.IsGlb {y | y ∈ xs} (ts.meetAll xs) := by
  refine isBound_iff.mpr (h.truthOrder.isBestBound_members ?_ hxs)
  exact ⟨h.contains_absoluteTrue, nofun, fun _ hz _ => h.leq_absoluteTrue hz⟩

/-- A greatest lower bound is absolute truth only if there is nothing else in the set. -/
lemma Lawful.isGlb_eq_absoluteTrue_iff (h : ts.Lawful) {S : Set TwistElement}
    (hS : ∀ y ∈ S, ts.contains y = true) (hx : ts.IsGlb S x) :
    x = ts.absoluteTrue ↔ ∀ y ∈ S, y = ts.absoluteTrue := by
  constructor
  · rintro rfl y hy
    exact h.leq_antisymm (hS y hy) hx.contains (h.leq_absoluteTrue (hS y hy)) (hx.bound y hy)
  · intro hall
    refine h.leq_antisymm hx.contains h.contains_absoluteTrue (h.leq_absoluteTrue hx.contains) ?_
    refine hx.best _ h.contains_absoluteTrue fun y hy => ?_
    rw [hall y hy]
    exact h.leq_refl h.contains_absoluteTrue

/-! ## The structure of four values -/

/-- The pairs over the two truth values: true, false, both and neither. -/
def fourValued : TwistStructure where
  base := {
    lattice := {
      names := #[ascii "0", ascii "1"]
      order := ⟨#[#[true, true], #[false, true]]⟩
      meets := ⟨#[#[0, 0], #[0, 1]]⟩
      joins := ⟨#[#[0, 1], #[1, 1]]⟩
      top := 1
      bottom := 0 }
    products := ⟨#[#[0, 0], #[0, 1]]⟩
    residua := ⟨#[#[1, 1], #[0, 1]]⟩ }
  elements := #[⟨0, 0⟩, ⟨0, 1⟩, ⟨1, 0⟩, ⟨1, 1⟩]
  negations := #[0, 2, 1, 3]

/-- The structure of four values is the one over the algebra that is called boolean. -/
lemma boolean_generates_fourValued :
    Chain.build .goedel 2 = .ok fourValued.base ∧
      generate (some fourValued.base) = .ok fourValued := by
  decide +kernel

/-- The structure of four values is generated. -/
lemma generated_fourValued : fourValued.Generated := by
  obtain ⟨hbase, htwist⟩ := boolean_generates_fourValued
  unfold Chain.build at hbase
  simp only [bind_eq_ok_iff, mapError_eq_ok_iff] at hbase
  obtain ⟨l, hl, hr⟩ := hbase
  exact ⟨_, _, l, _, _, hl, hr, htwist⟩

end TwistStructure

end TwistLogic
