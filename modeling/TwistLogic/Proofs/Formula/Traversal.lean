import TwistLogic.Proofs.Formula.Reach

/-!
# What a walk over a stored formula visits

In a store whose nodes were made over formulas that exist, a walk from any number `Visits` the
numbers below it, each once and no other; it takes one turn for the start and one for every child of
a visited node, and every turn finds its mark and its node (`Built.exists_visits`).

Interning appends nodes and changes none, so the turns are the same in all stores that come later,
whatever is interned there; only the marks of the new numbers are added (`turns_of_extends`,
`Visits.mono`).

The names that are collected on the way are those in the formula of the number, in increasing order
and each once (`Built.collects`).
-/

namespace TwistLogic

/-- The first texts are those among the second, in increasing order and each once. -/
structure Text.Lists (xs names : List Text) : Prop where
  increasing : xs.Pairwise fun x y => compare x y = .lt
  mem_iff : ∀ x, x ∈ xs ↔ x ∈ names

lemma Text.lists_sortedSet (names : List Text) : Text.Lists (Text.sortedSet names) names where
  increasing := Std.TreeSet.ordered_toList
  mem_iff _ := Text.mem_sortedSet

namespace FormulaStore

variable {s s' : FormulaStore} {id a : FormulaId} {ids : List FormulaId} {nodes : List Node}

/-! ## Walks in later stores -/

/-- All marks of a walk are marks of another one, which may have more. -/
def MarksExtend (seen seen' : Array Bool) : Prop :=
  ∀ (a : FormulaId) (mark : Bool), seen[a]? = some mark → seen'[a]? = some mark

lemma Extends.size_le (h : s.Extends s') : s.size ≤ s'.size := by
  refine Nat.le_of_not_lt fun hlt => ?_
  obtain ⟨n, hn⟩ := node?_isSome_iff.mpr hlt
  exact Nat.lt_irrefl _ (lt_size_of_node? (h _ n hn))

lemma marksExtend_start (h : s.Extends s') :
    MarksExtend (WalkState.start s id).seen (WalkState.start s' id).seen := by
  intro a mark ha
  simp only [WalkState.start, Array.getElem?_replicate] at ha ⊢
  split at ha
  next hlt => rwa [if_pos (Nat.lt_of_lt_of_le hlt h.size_le)]
  next => cases ha

/-- A turn finds the same mark and the same node in a later store. -/
lemma turn_of_extends (hext : s.Extends s') {w w' : WalkState} (h : s.turn w = some w')
    {seen : Array Bool} (hseen : MarksExtend w.seen seen) :
    ∃ seen', s'.turn { w with seen } = some { w' with seen := seen' } ∧
      MarksExtend w'.seen seen' := by
  obtain ⟨stack, marks, visited⟩ := w
  obtain ⟨id, rest, hlt, rfl, hcase⟩ := turn_cases h
  obtain ⟨hlt', hmark'⟩ :=
    Array.getElem?_eq_some_iff.mp (hseen id marks[id] (Array.getElem?_eq_getElem hlt))
  rcases hcase with ⟨hmark, rfl⟩ | ⟨n, hmark, hn, rfl⟩
  · exact ⟨seen, turn_of_marked hlt' (hmark'.trans hmark), hseen⟩
  · refine ⟨seen.set id true, turn_of_unmarked hlt' (hmark' ▸ hmark) (hext id n hn), ?_⟩
    intro a mark ha
    rw [Array.getElem?_set] at ha ⊢
    by_cases hid : id = a
    · rwa [if_pos hid] at ha ⊢
    · rw [if_neg hid] at ha ⊢
      exact hseen a mark ha

/-- A walk takes the same turns in a later store. -/
theorem turns_of_extends (hext : s.Extends s') {k : Nat} {w w' : WalkState}
    (h : s.turns k w = some w') {seen : Array Bool} (hseen : MarksExtend w.seen seen) :
    ∃ seen', s'.turns k { w with seen } = some { w' with seen := seen' } := by
  induction k generalizing w seen with
  | zero =>
    obtain rfl : w = w' := Option.some.inj h
    exact ⟨seen, rfl⟩
  | succ k ih =>
    obtain ⟨next, hturn, hturns⟩ := Option.bind_eq_some_iff.mp h
    obtain ⟨seen', hturn', hseen'⟩ := turn_of_extends hext hturn hseen
    obtain ⟨last, hturns'⟩ := ih hturns hseen'
    exact ⟨last, Option.bind_eq_some_iff.mpr ⟨_, hturn', hturns'⟩⟩

/-! ## Visits -/

/-- A walk from a number visits `ids`, the last one first, whose nodes are `nodes`.  It takes one
turn for the start and one for every child of a visited node; then its stack is empty.  It has
visited every number below the start once, and no other. -/
structure Visits (s : FormulaStore) (id : FormulaId) (ids : List FormulaId) (nodes : List Node) :
    Prop where
  run : ∃ seen, s.turns (1 + (nodes.flatMap Node.children).length) (.start s id) =
    some ⟨[], seen, ids⟩
  nodup : ids.Nodup
  mem_iff : ∀ a, a ∈ ids ↔ s.Below id a
  node?_eq : ids.map s.node? = nodes.map some
  nodup_nodes : nodes.Nodup
  subformulas?_eq : s.subformulas? id = some nodes

/-- What is below a number of a built store has a node. -/
lemma Built.lt_size_of_below (hs : s.Built) (hid : id < s.size) (h : s.Below id a) :
    a < s.size := by
  cases h with
  | refl => exact hid
  | child _ hn hb =>
    obtain ⟨b, hlt, heq⟩ := hs.over hn _ hb
    exact Option.some.inj heq ▸ hlt

lemma filterMap_node?_eq (h : ids.map s.node? = nodes.map some) :
    ids.filterMap s.node? = nodes := by
  have hsome : (ids.filterMap s.node?).map some = nodes.map some := by
    rw [List.map_filterMap_some_eq_filter_map_isSome, h, List.filter_eq_self]
    simp
  exact (List.map_inj_right fun _ _ => Option.some.inj).mp hsome

lemma Visits.exists_node? (h : s.Visits id ids nodes) (ha : a ∈ ids) :
    ∃ n, s.node? a = some n := by
  have hmem : s.node? a ∈ nodes.map some := h.node?_eq ▸ List.mem_map_of_mem ha
  obtain ⟨n, -, hn⟩ := List.mem_map.mp hmem
  exact ⟨n, hn.symm⟩

/-- Every walk in a built store ends, after it has visited what is below its start. -/
theorem Built.exists_visits (hs : s.Built) (hid : id < s.size) :
    ∃ ids nodes, s.Visits id ids nodes := by
  obtain ⟨new, seen, hturns, hdone⟩ := (Walking.start hid).exists_turns hs
  rw [List.append_nil] at hturns hdone
  have hnodes : new.map s.node? = (new.filterMap s.node?).map some := by
    rw [List.map_filterMap_some_eq_filter_map_isSome, eq_comm, List.filter_eq_self]
    intro c hc
    obtain ⟨a, ha, rfl⟩ := List.mem_map.mp hc
    obtain ⟨n, hn⟩ := node?_isSome_iff.mpr (hs.lt_size_of_below hid (hdone.below a ha))
    rw [hn, Option.isSome_some]
  have hdistinct : (new.filterMap s.node?).Nodup := by
    refine hdone.nodup.filterMap fun a b n ha hb => ?_
    have hexact := hs.reachable.exact
    exact Option.some.inj (((hexact n a).mpr ha).symm.trans ((hexact n b).mpr hb))
  exact ⟨new, _, ⟨seen, hturns⟩, hdone.nodup, hdone.mem_iff_below, hnodes, hdistinct,
    subformulas?_of_turns hturns rfl⟩

/-- In a later store, the same numbers are below a number that was there. -/
lemma Visits.below_iff_of_extends (h : s.Visits id ids nodes) (hext : s.Extends s') :
    s'.Below id a ↔ s.Below id a := by
  constructor
  · intro ha
    induction ha with
    | refl => exact .refl
    | @child b _ n _ hn hc ih =>
      obtain ⟨m, hm⟩ := h.exists_node? ((h.mem_iff b).mpr ih)
      obtain rfl : m = n := Option.some.inj ((hext b m hm).symm.trans hn)
      exact .child ih hm hc
  · intro ha
    induction ha with
    | refl => exact .refl
    | child _ hn hc ih => exact .child ih (hext _ _ hn) hc

/-- A walk visits the same numbers and nodes in all later stores. -/
theorem Visits.mono (h : s.Visits id ids nodes) (hext : s.Extends s') :
    s'.Visits id ids nodes := by
  obtain ⟨seen, hrun⟩ := h.run
  obtain ⟨seen', hrun'⟩ := turns_of_extends hext hrun (marksExtend_start hext)
  have hnodes : ids.map s'.node? = nodes.map some := by
    rw [← h.node?_eq]
    refine List.map_congr_left fun a ha => ?_
    obtain ⟨n, hn⟩ := h.exists_node? ha
    rw [hn, hext a n hn]
  refine ⟨⟨seen', hrun'⟩, h.nodup, fun a => ?_, hnodes, h.nodup_nodes, ?_⟩
  · rw [h.mem_iff, h.below_iff_of_extends hext]
  · rw [subformulas?_of_turns hrun' rfl, filterMap_node?_eq hnodes]

/-! ## Collected names -/

/-- In a store whose nodes were made over formulas that exist, every number stands for a formula.  A
walk from it visits what is below it, and the names of atoms and of actions that it collects are
those that occur in the formula.  In every store that has all nodes in the same places, as any
interning leaves them (`extends_intern`), the walk and the names are the same. -/
theorem Built.collects (hs : s.Built) (hid : id < s.size) :
    ∃ φ ids nodes names labels, s.tree? id = some φ ∧ s.Visits id ids nodes ∧
      s.atoms? id = some names ∧ Text.Lists names φ.atoms ∧
      s.actions? id = some labels ∧ Text.Lists labels φ.actions ∧
      ∀ s', s.Extends s' →
        s'.Visits id ids nodes ∧ s'.atoms? id = some names ∧ s'.actions? id = some labels := by
  obtain ⟨φ, hφ⟩ := hs.exists_denotes id hid
  obtain ⟨ids, nodes, hvisits⟩ := hs.exists_visits hid
  refine ⟨φ, ids, nodes, _, _, tree?_eq_some_iff.mpr hφ, hvisits, hs.atoms?_eq hφ,
    Text.lists_sortedSet _, hs.actions?_eq hφ, Text.lists_sortedSet _, fun s' hext => ?_⟩
  have hlater := hvisits.mono hext
  have hsame : s'.subformulas? id = s.subformulas? id :=
    hlater.subformulas?_eq.trans hvisits.subformulas?_eq.symm
  refine ⟨hlater, ?_, ?_⟩
  · rw [← hs.atoms?_eq hφ, atoms?, atoms?, hsame]
  · rw [← hs.actions?_eq hφ, actions?, actions?, hsame]

/-- In `[a] (p & q) | (p & q)` the conjunction is shared.  A walk takes six turns and visits five
nodes, the conjunction before the box; when it meets the conjunction again, it drops it.  A node
that is interned later over an operand that does not exist changes nothing. -/
theorem Built.collects_shared :
    let conjunction := Formula.binary .and (.atom (ascii "p")) (.atom (ascii "q"))
    let added := FormulaStore.initial.add
      (.binary .or (.modal .box (ascii "a") conjunction) conjunction)
    let s := added.2
    let s' := (s.intern (.binary .and 6 99)).2
    let nodes := [.unary (.modal .box (ascii "a")) 4, .leaf (.atom (ascii "p")),
      .leaf (.atom (ascii "q")), .binary .and 2 3, .binary .or 5 4]
    added.1 = 6 ∧ s.Visits 6 [5, 2, 3, 4, 6] nodes ∧ s'.Visits 6 [5, 2, 3, 4, 6] nodes ∧
      s'.size = 8 ∧ s'.atoms? 6 = some [ascii "p", ascii "q"] ∧
      s'.actions? 6 = some [ascii "a"] := by
  intro conjunction added s s' nodes
  have hs : s.Built := Built.initial.add _
  obtain ⟨hnumber, hlt, hsize⟩ : added.1 = 6 ∧ 6 < s.size ∧ s'.size = 8 := by decide +kernel
  obtain ⟨φ, ids, nodes', names, labels, -, hvisits, hnames, -, hlabels, -, hlater⟩ :=
    collects hs hlt
  obtain ⟨hvisits', hnames', hlabels'⟩ := hlater s' (extends_intern _ _)
  obtain ⟨hfound, hatoms, hactions⟩ : s.subformulas? 6 = some nodes ∧
      s.atoms? 6 = some [ascii "p", ascii "q"] ∧ s.actions? 6 = some [ascii "a"] := by
    decide +kernel
  obtain rfl : nodes' = nodes := Option.some.inj (hvisits.subformulas?_eq.symm.trans hfound)
  obtain ⟨seen, hrun⟩ := hvisits.run
  have hsix : s.turns 6 (.start s 6) =
      some ⟨[], #[false, false, true, true, true, true, true], [5, 2, 3, 4, 6]⟩ := by
    decide +kernel
  obtain ⟨-, -, rfl⟩ := WalkState.mk.inj (Option.some.inj (hrun.symm.trans hsix))
  exact ⟨hnumber, hvisits, hvisits', hsize, hnames'.trans (hnames.symm.trans hatoms),
    hlabels'.trans (hlabels.symm.trans hactions)⟩

end FormulaStore

end TwistLogic
