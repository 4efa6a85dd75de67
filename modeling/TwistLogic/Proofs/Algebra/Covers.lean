import Mathlib.Data.Finset.Card
import Mathlib.Data.Set.Lattice
import Mathlib.Order.CompletePartialOrder
import TwistLogic.Proofs.Algebra.Construction

/-!
# The covering pairs of a lattice

One element covers another if it lies above it and nothing lies between them.  Between any two
elements of which one is above the other there is a chain of covering pairs, since what lies between
them becomes less with every element that is put in (`reflTransGen_covers`).  So the covering pairs
generate the order, and a lattice that is built again from its names and its covering pairs is the
same in every table (`build_covers`).

None of them can be spared.  Steps upwards that lead from an element to one that covers it cannot
stop on the way, so one of them is the step between the two (`rel_of_reflTransGen_of_isCover`), and
without this step less is generated (`covers_spec`).
-/

namespace TwistLogic

/-! ## Closures as tables -/

section Closure

variable {n : Nat} {pairs pairs' : List (ElementId × ElementId)}

/-- A closure is tabulated. -/
lemma closure_eq_ofFn (n : Nat) (pairs : List (ElementId × ElementId)) :
    closure n pairs = .ofFn n (closure n pairs).get := by
  have htable : ∀ (ks : List ElementId) (f : ElementId → ElementId → Bool),
      ∃ g, ks.foldl (throughPivot n) (.ofFn n f) = .ofFn n g := by
    intro ks
    induction ks with
    | nil => exact fun f => ⟨f, rfl⟩
    | cons k ks ih => exact fun f => ih _
  obtain ⟨g, hg⟩ := htable (List.range n) fun a b => a == b || pairs.contains (a, b)
  have hclosure : closure n pairs = .ofFn n g := hg
  rw [hclosure]
  exact Table.ofFn_congr fun a ha b hb => (Table.get_ofFn g ha hb).symm

/-- Closures that relate the same elements are the same table. -/
lemma closure_congr (h : ∀ a < n, ∀ b < n,
    (closure n pairs).get a b = true ↔ (closure n pairs').get a b = true) :
    closure n pairs = closure n pairs' := by
  rw [closure_eq_ofFn n pairs, closure_eq_ofFn n pairs']
  exact Table.ofFn_congr fun a ha b hb => Bool.eq_iff_iff.mpr (h a ha b hb)

end Closure

namespace FiniteLattice

variable {l : FiniteLattice} {a b c : ElementId} {elements : List Text}
  {pairs pairs' : List (Text × Text)}

/-! ## Chains of covering pairs -/

lemma isCover_iff : l.isCover a b = true ↔
    a ≠ b ∧ l.leq a b = true ∧
      ∀ c < l.size, l.leq a c = true → l.leq c b = true → c = a ∨ c = b := by
  simp only [isCover, Bool.and_eq_true, bne_iff_ne, List.all_eq_true, List.mem_range,
    Bool.or_eq_true, beq_iff_eq, Bool.not_eq_true', Bool.and_eq_false_iff, and_assoc]
  refine and_congr_right fun _ => and_congr_right fun _ => forall₂_congr fun c _ => ?_
  cases l.leq a c <;> cases l.leq c b <;> simp

lemma mem_covers_iff :
    (a, b) ∈ l.covers ↔ a < l.size ∧ b < l.size ∧ l.isCover a b = true := by
  simp [covers]

/-- The elements between two others, these included. -/
def interval (l : FiniteLattice) (a b : ElementId) : Finset ElementId :=
  (Finset.range l.size).filter fun c => l.leq a c = true ∧ l.leq c b = true

lemma mem_interval : c ∈ l.interval a b ↔ c < l.size ∧ l.leq a c = true ∧ l.leq c b = true := by
  simp [interval]

/-- An element that is put between two others leaves less between itself and either of them. -/
lemma Lawful.card_interval_lt (hl : l.Lawful) (ha : a < l.size) (hb : b < l.size)
    (hc : c < l.size) (hac : l.leq a c = true) (hcb : l.leq c b = true) (hca : c ≠ a)
    (hne : c ≠ b) :
    (l.interval a c).card < (l.interval a b).card ∧
      (l.interval c b).card < (l.interval a b).card := by
  have hab : l.leq a b = true := hl.leq_trans ha hc hb hac hcb
  constructor
  · refine Finset.card_lt_card ((Finset.ssubset_iff_of_subset fun x hx => ?_).mpr ⟨b, ?_, ?_⟩)
    · obtain ⟨hx, hax, hxc⟩ := mem_interval.mp hx
      exact mem_interval.mpr ⟨hx, hax, hl.leq_trans hx hc hb hxc hcb⟩
    · exact mem_interval.mpr ⟨hb, hab, hl.leq_refl hb⟩
    · intro h
      exact hne (hl.leq_antisymm hc hb hcb (mem_interval.mp h).2.2)
  · refine Finset.card_lt_card ((Finset.ssubset_iff_of_subset fun x hx => ?_).mpr ⟨a, ?_, ?_⟩)
    · obtain ⟨hx, hcx, hxb⟩ := mem_interval.mp hx
      exact mem_interval.mpr ⟨hx, hl.leq_trans ha hc hx hac hcx, hxb⟩
    · exact mem_interval.mpr ⟨ha, hl.leq_refl ha, hab⟩
    · intro h
      exact hca (hl.leq_antisymm hc ha (mem_interval.mp h).2.1 hac)

/-- From an element to one above it there is a chain of covering pairs. -/
theorem Lawful.reflTransGen_covers (hl : l.Lawful) (ha : a < l.size) (hb : b < l.size)
    (hab : l.leq a b = true) : Relation.ReflTransGen (fun x y => (x, y) ∈ l.covers) a b := by
  induction hcard : (l.interval a b).card using Nat.strong_induction_on generalizing a b with
  | _ k ih =>
    subst hcard
    by_cases heq : a = b
    · exact heq ▸ .refl
    by_cases hcover : l.isCover a b = true
    · exact .single (mem_covers_iff.mpr ⟨ha, hb, hcover⟩)
    -- something else lies between the two
    obtain ⟨c, hc, hac, hcb, hca, hne⟩ : ∃ c < l.size, l.leq a c = true ∧ l.leq c b = true ∧
        c ≠ a ∧ c ≠ b := by
      by_contra hnone
      push Not at hnone
      refine hcover (isCover_iff.mpr ⟨heq, hab, fun c hc hac hcb => ?_⟩)
      by_cases hca : c = a
      · exact .inl hca
      · exact .inr (hnone c hc hac hcb hca)
    obtain ⟨hleft, hright⟩ := hl.card_interval_lt ha hb hc hac hcb hca hne
    exact (ih _ hleft ha hc hac rfl).trans (ih _ hright hc hb hcb rfl)

/-- Steps from elements to elements above them. -/
def Ascends (l : FiniteLattice) (R : ElementId → ElementId → Prop) : Prop :=
  ∀ x y, R x y → x < l.size ∧ y < l.size ∧ l.leq x y = true

lemma ascends_covers (l : FiniteLattice) : l.Ascends fun x y => (x, y) ∈ l.covers := by
  intro x y h
  obtain ⟨hx, hy, hcover⟩ := mem_covers_iff.mp h
  exact ⟨hx, hy, (isCover_iff.mp hcover).2.1⟩

/-- Steps upwards lead upwards. -/
lemma Lawful.leq_of_reflTransGen (hl : l.Lawful) {R : ElementId → ElementId → Prop}
    (hR : l.Ascends R) (ha : a < l.size) (h : Relation.ReflTransGen R a b) :
    l.leq a b = true := by
  induction h with
  | refl => exact hl.leq_refl ha
  | tail _ hstep ih =>
    obtain ⟨hc, hb, hcb⟩ := hR _ _ hstep
    exact hl.leq_trans ha hc hb ih hcb

/-- The covering pairs generate the order. -/
theorem Lawful.reflTransGen_covers_iff (hl : l.Lawful) (ha : a < l.size) (hb : b < l.size) :
    Relation.ReflTransGen (fun x y => (x, y) ∈ l.covers) a b ↔ l.leq a b = true :=
  ⟨hl.leq_of_reflTransGen l.ascends_covers ha, hl.reflTransGen_covers ha hb⟩

/-! ## Covering pairs that are left out -/

/-- Steps upwards that lead from an element to one that covers it include the step between the
two. -/
theorem Lawful.rel_of_reflTransGen_of_isCover (hl : l.Lawful) {R : ElementId → ElementId → Prop}
    (hR : l.Ascends R) (hcover : l.isCover a b = true) (h : Relation.ReflTransGen R a b) :
    R a b := by
  obtain ⟨hne, -, hbetween⟩ := isCover_iff.mp hcover
  induction h using Relation.ReflTransGen.head_induction_on with
  | refl => exact absurd rfl hne
  | @head a c hstep hrest ih =>
    obtain ⟨-, hc, hac⟩ := hR _ _ hstep
    -- the first step leads nowhere or all the way
    rcases hbetween c hc hac (hl.leq_of_reflTransGen hR hc hrest) with rfl | rfl
    · exact ih hcover hne hbetween
    · exact hstep

/-- Each covering pair is listed once. -/
lemma nodup_covers (l : FiniteLattice) : l.covers.Nodup := by
  refine List.nodup_flatMap.mpr ⟨fun a _ => ?_, ?_⟩
  · exact (List.nodup_range.filter _).map fun b c h => (Prod.mk.inj h).2
  · refine List.nodup_range.imp fun {a b} hne => ?_
    simp only [Function.onFun, List.disjoint_left, List.mem_map]
    rintro _ ⟨c, -, rfl⟩ ⟨d, -, h⟩
    exact hne (Prod.mk.inj h).1.symm

/-- The pairs that are related by the least reflexive and transitive relation that holds of some
pairs. -/
def generatedPairs (pairs : Set (ElementId × ElementId)) : Set (ElementId × ElementId) :=
  {q | Relation.ReflTransGen (fun x y => (x, y) ∈ pairs) q.1 q.2}

/-- The covering pairs as a set. -/
def coverSet (l : FiniteLattice) : Set (ElementId × ElementId) := {q | q ∈ l.covers}

/-- Without one of the covering pairs, less is generated. -/
theorem Lawful.generatedPairs_sdiff_ssubset (hl : l.Lawful) {p : ElementId × ElementId}
    (hp : p ∈ l.covers) : generatedPairs (l.coverSet \ {p}) ⊂ generatedPairs l.coverSet := by
  have hrest : ∀ x y, (x, y) ∈ l.coverSet \ {p} → (x, y) ∈ l.coverSet := fun _ _ => And.left
  have hsubset : generatedPairs (l.coverSet \ {p}) ⊆ generatedPairs l.coverSet := fun q hq =>
    Relation.ReflTransGen.mono hrest _ _ hq
  refine (Set.ssubset_iff_of_subset hsubset).mpr ⟨p, .single hp, fun h => ?_⟩
  have hcover : l.isCover p.1 p.2 = true := (mem_covers_iff.mp hp).2.2
  have hkept : p ∈ l.coverSet \ {p} :=
    hl.rel_of_reflTransGen_of_isCover (fun x y hxy => l.ascends_covers x y (hrest x y hxy)) hcover h
  exact hkept.2 rfl

/-! ## Building a lattice again -/

/-- A build depends on the closure of the order pairs only. -/
lemma build_congr {ids ids' : List (ElementId × ElementId)}
    (hids : pairs.mapM (orderPair elements.toArray) = .ok ids)
    (hids' : pairs'.mapM (orderPair elements.toArray) = .ok ids')
    (h : closure elements.length ids = closure elements.length ids') :
    build elements pairs = build elements pairs' := by
  have hclosure : closure elements.toArray.size ids = closure elements.toArray.size ids' := h
  simp only [build, hids, hids', bind, Except.bind, hclosure]

/-- The covering pairs by name. -/
def namedCovers (l : FiniteLattice) : List (Text × Text) :=
  l.covers.map fun (a, b) => (l.name a, l.name b)

/-- A lattice that is built from its names and its covering pairs is the same again. -/
theorem build_covers (h : build elements pairs = .ok l) :
    build l.names.toList l.namedCovers = .ok l := by
  obtain ⟨ids, hids, hbuilt⟩ := exists_builtFrom_of_build h
  have hlawful := lawful_of_build_eq_ok h
  have hsize : l.size = elements.length := by simp [size, hbuilt.names_eq]
  have hcovers : l.namedCovers.mapM (orderPair elements.toArray) = .ok l.covers := by
    rw [mapM_eq_ok_iff, namedCovers, List.forall₂_map_left_iff, List.forall₂_same]
    rintro ⟨a, b⟩ hab
    obtain ⟨ha, hb, -⟩ := mem_covers_iff.mp hab
    rw [orderPair_eq_ok_iff hbuilt.nodup]
    rw [hsize] at ha hb
    simp [name, hbuilt.names_eq, ha, hb]
  have hclosure : closure elements.length l.covers = closure elements.length ids := by
    refine closure_congr fun a ha b hb => ?_
    rw [← hsize] at ha hb
    rw [← hsize, ← hbuilt.order_eq, closure_get_iff (fun p hp => ?_) ha hb]
    · exact hlawful.reflTransGen_covers_iff ha hb
    · obtain ⟨hp₁, hp₂, -⟩ := mem_covers_iff.mp hp
      exact ⟨hp₁, hp₂⟩
  rw [hbuilt.names_eq, List.toList_toArray, build_congr hcovers hids hclosure]
  exact h

/-! ## The main statement -/

/-- The covering pairs of a lattice that was built are its pairs of elements, one above the other,
with nothing between them, and each is listed once.  They generate exactly the order, and less if
any one of them is left out.  From its names and its covering pairs the same lattice is built again.
-/
theorem covers_spec (h : build elements pairs = .ok l) :
    l.covers.Nodup ∧
    (∀ a b, (a, b) ∈ l.covers ↔ a < l.size ∧ b < l.size ∧ a ≠ b ∧ l.leq a b = true ∧
      ∀ c < l.size, l.leq a c = true → l.leq c b = true → c = a ∨ c = b) ∧
    (∀ a < l.size, ∀ b < l.size, (a, b) ∈ generatedPairs l.coverSet ↔ l.leq a b = true) ∧
    (∀ p ∈ l.covers, generatedPairs (l.coverSet \ {p}) ⊂ generatedPairs l.coverSet) ∧
    build l.names.toList l.namedCovers = .ok l := by
  have hlawful := lawful_of_build_eq_ok h
  refine ⟨l.nodup_covers, fun a b => ?_, fun a ha b hb => hlawful.reflTransGen_covers_iff ha hb,
    fun p => hlawful.generatedPairs_sdiff_ssubset, build_covers h⟩
  rw [mem_covers_iff, isCover_iff]

/-- In the pentagon the pair of its bounds, given beside the others, is no covering pair.  Without
the step from `a` to `b` less is generated, although both still lie between the bounds. -/
theorem covers_spec_of_pentagon :
    let elements := ["0", "a", "b", "c", "1"].map ascii
    let pairs := [("0", "1"), ("0", "a"), ("a", "b"), ("b", "1"), ("0", "c"), ("c", "1")].map
      fun p => (ascii p.1, ascii p.2)
    ∃ l, build elements pairs = .ok l ∧
      l.covers = [(0, 1), (0, 3), (1, 2), (2, 4), (3, 4)] ∧
      generatedPairs (l.coverSet \ {(1, 2)}) ⊂ generatedPairs l.coverSet ∧
      build l.names.toList
        ([("0", "a"), ("0", "c"), ("a", "b"), ("b", "1"), ("c", "1")].map
          fun p => (ascii p.1, ascii p.2)) = .ok l := by
  intro elements pairs
  have hbuild : ((build elements pairs).toOption.map fun l => (l.covers, l.namedCovers)) =
      some ([(0, 1), (0, 3), (1, 2), (2, 4), (3, 4)],
        [("0", "a"), ("0", "c"), ("a", "b"), ("b", "1"), ("c", "1")].map
          fun p => (ascii p.1, ascii p.2)) := by decide +kernel
  obtain ⟨l, hl, hlists⟩ := Option.map_eq_some_iff.mp hbuild
  rw [toOption_eq_some_iff] at hl
  obtain ⟨hcovers, hnamed⟩ := Prod.mk.inj hlists
  obtain ⟨-, -, -, hminimal, hagain⟩ := covers_spec hl
  exact ⟨l, hl, hcovers, hminimal (1, 2) (by rw [hcovers]; decide), hnamed ▸ hagain⟩

end FiniteLattice

end TwistLogic
