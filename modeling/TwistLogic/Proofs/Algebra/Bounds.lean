import TwistLogic.Proofs.Algebra.Twist

/-!
# Meets and joins of lists

A lattice folds a list by its meet, from the top on, and by its join, from the bottom on.  A fold
whose start is the best bound of no elements gives the best bound of the members of the list
(`IsLatticeOrder.boundsLists`).  There is only one such bound, so neither the order nor the
repetition of the members matters, and a list may be folded in parts (`BoundsLists`).

The argument is made once and holds of meet and join, in a lattice and in the truth order of a twist
structure.  In a twist structure the sides of a meet of a list are the meet and the join of the
sides (`TwistStructure.meetAll_eq`).
-/

namespace TwistLogic

/-- A function gives the best bound of the members of a list.  It is `start` for the empty list, it
depends on nothing but the members, and `op` puts the bounds of two parts together. -/
structure BoundsLists {α : Type} (mem : α → Prop) (le : α → α → Prop) (start : α)
    (op : α → α → α) (all : List α → α) : Prop where
  isBestBound : ∀ {xs}, (∀ x ∈ xs, mem x) → IsBestBound mem le {x | x ∈ xs} (all xs)
  nil : all [] = start
  congr : ∀ {xs ys}, (∀ x ∈ xs, mem x) → (∀ x, x ∈ xs ↔ x ∈ ys) → all xs = all ys
  append : ∀ {xs ys}, (∀ x ∈ xs, mem x) → (∀ y ∈ ys, mem y) →
    all (xs ++ ys) = op (all xs) (all ys)

/-- Folding from the best bound of no elements gives the bounds of lists. -/
theorem IsLatticeOrder.boundsLists {α : Type} {mem : α → Prop} {le : α → α → Prop}
    {inf sup : α → α → α} (h : IsLatticeOrder mem le inf sup) {start : α}
    (hstart : IsBestBound mem le ∅ start) :
    BoundsLists mem le start inf fun xs => xs.foldl inf start := by
  have hbest : ∀ {xs : List α}, (∀ x ∈ xs, mem x) →
      IsBestBound mem le {x | x ∈ xs} (xs.foldl inf start) := h.isBestBound_members hstart
  constructor
  case isBestBound => exact hbest
  case nil => rfl
  case congr =>
    intro xs ys hxs hiff
    have hset : {x | x ∈ xs} = {x | x ∈ ys} := Set.ext hiff
    have hys := hbest fun y hy => hxs y ((hiff y).mpr hy)
    exact h.isBestBound_unique (hbest hxs) (hset ▸ hys)
  case append =>
    intro xs ys hxs hys
    have hset : {x | x ∈ xs ++ ys} = {x | x ∈ xs} ∪ {x | x ∈ ys} := by
      ext x
      simp
    have hboth := h.isBestBound_union hxs hys (hbest hxs) (hbest hys)
    refine h.isBestBound_unique (hbest fun x hx => ?_) (hset ▸ hboth)
    exact (List.mem_append.mp hx).elim (hxs x) (hys x)

/-! ## Lattices -/

namespace FiniteLattice.Lawful

variable {l : FiniteLattice}

/-- The meet of a list is the greatest lower bound of its members. -/
lemma boundsLists_meetAll (h : l.Lawful) :
    BoundsLists (· < l.size) (fun a b => l.leq a b = true) l.top l.meet l.meetAll :=
  h.isLatticeOrder.boundsLists ⟨h.top_lt, nofun, fun _ ha _ => h.leq_top ha⟩

/-- The join of a list is the least upper bound of its members. -/
lemma boundsLists_joinAll (h : l.Lawful) :
    BoundsLists (· < l.size) (fun a b => l.leq b a = true) l.bottom l.join l.joinAll :=
  h.isLatticeOrder.dual.boundsLists ⟨h.bottom_lt, nofun, fun _ ha _ => h.bottom_leq ha⟩

end FiniteLattice.Lawful

/-! ## Twist structures -/

namespace TwistStructure

/-- Folding pairs side by side folds the sides. -/
lemma foldl_sides (op op' : ElementId → ElementId → ElementId) (x : TwistElement)
    (xs : List TwistElement) :
    xs.foldl (fun x y => ⟨op x.t y.t, op' x.f y.f⟩) x =
      ⟨(xs.map TwistElement.t).foldl op x.t, (xs.map TwistElement.f).foldl op' x.f⟩ := by
  induction xs generalizing x with
  | nil => rfl
  | cons y xs ih => exact ih _

/-- The sides of a meet of a list are the meet and the join of the sides, -/
theorem meetAll_eq (ts : TwistStructure) (xs : List TwistElement) :
    ts.meetAll xs = ⟨ts.base.lattice.meetAll (xs.map TwistElement.t),
      ts.base.lattice.joinAll (xs.map TwistElement.f)⟩ :=
  foldl_sides ts.base.meet ts.base.join ts.absoluteTrue xs

/-- and conversely for joins. -/
theorem joinAll_eq (ts : TwistStructure) (xs : List TwistElement) :
    ts.joinAll xs = ⟨ts.base.lattice.joinAll (xs.map TwistElement.t),
      ts.base.lattice.meetAll (xs.map TwistElement.f)⟩ :=
  foldl_sides ts.base.join ts.base.meet ts.absoluteFalse xs

namespace Lawful

variable {ts : TwistStructure}

/-- The meet of a list is the greatest lower bound of its members in the truth order. -/
lemma boundsLists_meetAll (h : ts.Lawful) :
    BoundsLists (fun x => ts.contains x = true) (fun x y => ts.leq x y = true) ts.absoluteTrue
      ts.meet ts.meetAll :=
  h.truthOrder.boundsLists ⟨h.contains_absoluteTrue, nofun, fun _ hx _ => h.leq_absoluteTrue hx⟩

/-- The join of a list is the least upper bound of its members in the truth order. -/
lemma boundsLists_joinAll (h : ts.Lawful) :
    BoundsLists (fun x => ts.contains x = true) (fun x y => ts.leq y x = true) ts.absoluteFalse
      ts.join ts.joinAll :=
  h.truthOrder.dual.boundsLists
    ⟨h.contains_absoluteFalse, nofun, fun _ hx _ => h.absoluteFalse_leq hx⟩

end Lawful

end TwistStructure

/-- In a lattice that was built, the meet and the join of a list are the greatest lower and the
least upper bound of its members, and likewise in the truth order of a twist structure. -/
theorem boundsLists_of_built {elements : List Text} {pairs : List (Text × Text)}
    {l : FiniteLattice} (hl : FiniteLattice.build elements pairs = .ok l) {ts : TwistStructure}
    (hts : ts.Generated) :
    BoundsLists (· < l.size) (fun a b => l.leq a b = true) l.top l.meet l.meetAll ∧
    BoundsLists (· < l.size) (fun a b => l.leq b a = true) l.bottom l.join l.joinAll ∧
    BoundsLists (fun x => ts.contains x = true) (fun x y => ts.leq x y = true) ts.absoluteTrue
      ts.meet ts.meetAll ∧
    BoundsLists (fun x => ts.contains x = true) (fun x y => ts.leq y x = true) ts.absoluteFalse
      ts.join ts.joinAll := by
  have hlattice := FiniteLattice.lawful_of_build_eq_ok hl
  exact ⟨hlattice.boundsLists_meetAll, hlattice.boundsLists_joinAll,
    hts.lawful.boundsLists_meetAll, hts.lawful.boundsLists_joinAll⟩

/-- Two incomparable elements between top and bottom, and the structure of four values. -/
theorem boundsLists_of_diamond :
    let l := (FiniteLattice.build [ascii "0", ascii "a", ascii "b", ascii "1"]
      [(ascii "0", ascii "a"), (ascii "0", ascii "b"), (ascii "a", ascii "1"),
        (ascii "b", ascii "1")]).toOption.getD TwistStructure.fourValued.base.lattice
    let ts := TwistStructure.fourValued
    l.meetAll [1, 3, 2, 1] = l.meetAll [2, 1, 3] ∧ l.meetAll [2, 1, 3] = 0 ∧
    l.joinAll ([1] ++ [2, 1]) = l.join (l.joinAll [1]) (l.joinAll [2, 1]) ∧
    ts.IsGlb {x | x ∈ [⟨1, 1⟩, ⟨0, 0⟩]} ts.absoluteFalse := by
  intro l ts
  have hl : FiniteLattice.build _ _ = .ok l := eq_ok_getD_of_isSome (by decide +kernel)
  have hsize : l.size = 4 := by decide +kernel
  have hmem : ∀ xs : List ElementId, (∀ x ∈ xs, x < 4) → ∀ x ∈ xs, x < l.size :=
    fun _ h => hsize ▸ h
  obtain ⟨hmeet, hjoin, htwist, -⟩ := boundsLists_of_built hl TwistStructure.generated_fourValued
  have hsame : ∀ x, x ∈ [1, 3, 2, 1] ↔ x ∈ [2, 1, 3] := by
    intro x
    simp only [List.mem_cons, List.not_mem_nil, or_false]
    tauto
  refine ⟨hmeet.congr (hmem _ (by decide)) hsame, by decide +kernel,
    hjoin.append (hmem _ (by decide)) (hmem _ (by decide)), ?_⟩
  have hbound : IsBestBound (fun x => ts.contains x = true) (fun x y => ts.leq x y = true)
      {x | x ∈ [⟨1, 1⟩, ⟨0, 0⟩]} (ts.meetAll [⟨1, 1⟩, ⟨0, 0⟩]) := htwist.isBestBound (by decide)
  exact TwistStructure.isBound_iff.mpr hbound

end TwistLogic
