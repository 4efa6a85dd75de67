import TwistLogic.Formula.Reach
import TwistLogic.Proofs.Formula.Interning

/-!
# The nodes below a formula

`FormulaStore.Below` is the relation of a number to all those that paths of children lead to.
`FormulaStore.walk` meets exactly these numbers and each of them once (`Built.subformulas?_eq`).
It goes on by turns (`turn`), which visit a number or drop one that was visited before.  Its
invariant `Walking` says that what has been visited is below the start, and that its children have
been visited too or are waiting on the stack; so every turn that is asked for is possible, and the
stack is empty after one turn for the start and one for every child of a visited node
(`Walking.exists_turns`).

The roots below a number are those of the formula that it stands for (`Denotes.mem_roots_iff`), so
`FormulaStore.atoms?` and `FormulaStore.actions?` are the sorted sets of the names in that formula.
-/

namespace TwistLogic

/-- Putting names in order adds and loses none. -/
lemma Text.mem_sortedSet {x : Text} {xs : List Text} : x ∈ Text.sortedSet xs ↔ x ∈ xs := by
  rw [Text.sortedSet, Std.TreeSet.mem_toList, Std.TreeSet.mem_ofList, List.contains_iff_mem]

lemma Text.sortedSet_eq_nil_iff {xs : List Text} : Text.sortedSet xs = [] ↔ xs = [] := by
  simp only [List.eq_nil_iff_forall_not_mem, mem_sortedSet]

/-- Names in order depend only on which names there are. -/
lemma Text.sortedSet_congr {xs ys : List Text} (h : ∀ x, x ∈ xs ↔ x ∈ ys) :
    Text.sortedSet xs = Text.sortedSet ys := by
  refine Std.TreeSet.Equiv.toList_eq (Std.TreeSet.Equiv.of_forall_mem_iff fun x => ?_)
  rw [Std.TreeSet.mem_ofList, Std.TreeSet.mem_ofList, List.contains_iff_mem, List.contains_iff_mem]
  exact h x

namespace FormulaStore

/-! ## Paths of children -/

/-- A path of children leads from a number to another. -/
inductive Below (s : FormulaStore) (id : FormulaId) : FormulaId → Prop
  | refl : Below s id id
  | child {a b : FormulaId} {n : Node} :
    Below s id a → s.node? a = some n → some b ∈ n.children → Below s id b

section Below

variable {s : FormulaStore} {id a b : FormulaId} {n : Node}

lemma Below.trans (h : s.Below id a) (h' : s.Below a b) : s.Below id b := by
  induction h' with
  | refl => exact h
  | child _ hn hb ih => exact .child ih hn hb

/-- A path from a number is empty or goes through one of its children. -/
lemma below_iff (hn : s.node? id = some n) :
    s.Below id a ↔ a = id ∨ ∃ b, some b ∈ n.children ∧ s.Below b a := by
  constructor
  · intro h
    induction h with
    | refl => exact .inl rfl
    | @child a c m _ hm hc ih =>
      rcases ih with rfl | ⟨b, hb, hba⟩
      · rw [hn, Option.some.injEq] at hm
        exact .inr ⟨c, hm ▸ hc, .refl⟩
      · exact .inr ⟨b, hb, .child hba hm hc⟩
  · rintro (rfl | ⟨b, hb, hba⟩)
    · exact .refl
    · exact (Below.child .refl hn hb).trans hba

end Below

/-- The children of every node of a built store have smaller numbers than the node. -/
lemma Built.over_number {s : FormulaStore} (hs : s.Built) {id : FormulaId} {n : Node}
    (hn : s.node? id = some n) : n.Over id := by
  have hleaf : ∀ {k : NodeKind} {bound : Nat}, k.arity = 0 → (Node.leaf k).Over bound :=
    fun hk => (Node.Fits.leaf hk).over
  induction hs generalizing id n with
  | initial =>
    rcases node?_intern hn with hn | ⟨-, rfl⟩
    · rcases node?_intern hn with hn | ⟨-, rfl⟩
      · simp [node?] at hn
      · exact hleaf rfl
    · exact hleaf rfl
  | intern _ hover ih =>
    rcases node?_intern hn with hn | ⟨rfl, rfl⟩
    · exact ih hn
    · exact hover

/-- The children of every node of a built store are numbers of nodes. -/
lemma Built.over {s : FormulaStore} (hs : s.Built) {id : FormulaId} {n : Node}
    (hn : s.node? id = some n) : n.Over s.size := by
  intro c hc
  obtain ⟨a, ha, rfl⟩ := hs.over_number hn c hc
  exact ⟨a, Nat.lt_trans ha (lt_size_of_node? hn), rfl⟩

/-! ## The walk -/

/-- Where a walk stands: its stack, its marks, and the numbers that it has visited, the last one
first. -/
structure WalkState where
  stack : List (Option FormulaId)
  seen : Array Bool
  visited : List FormulaId
  deriving DecidableEq

/-- Nothing is marked when a walk starts. -/
def WalkState.start (s : FormulaStore) (id : FormulaId) : WalkState where
  stack := [some id]
  seen := Array.replicate s.size false
  visited := []

/-- One turn of a walk takes a number from the stack.  A marked number is dropped; any other number
is marked and visited, and its children are put on the stack.  The turn fails if there is nothing on
the stack, and if what it takes has no mark or names no node. -/
def turn (s : FormulaStore) (w : WalkState) : Option WalkState :=
  match w.stack with
  | some id :: rest =>
    if h : id < w.seen.size then
      if w.seen[id] then some { w with stack := rest }
      else (s.node? id).map fun n =>
        { stack := n.children.reverse ++ rest
          seen := w.seen.set id true
          visited := id :: w.visited }
    else none
  | _ => none

/-- A number of turns, each of which is possible. -/
def turns (s : FormulaStore) : Nat → WalkState → Option WalkState
  | 0, w => some w
  | k + 1, w => (s.turn w).bind (s.turns k)

section Turn

variable {s : FormulaStore} {id : FormulaId} {stack : List (Option FormulaId)} {seen : Array Bool}
  {visited : List FormulaId} {n : Node}

lemma turn_of_marked (hlt : id < seen.size) (h : seen[id] = true) :
    s.turn ⟨some id :: stack, seen, visited⟩ = some ⟨stack, seen, visited⟩ := by
  simp only [turn]
  rw [dif_pos hlt, if_pos h]

lemma turn_of_unmarked (hlt : id < seen.size) (h : ¬seen[id] = true) (hn : s.node? id = some n) :
    s.turn ⟨some id :: stack, seen, visited⟩ =
      some ⟨n.children.reverse ++ stack, seen.set id true, id :: visited⟩ := by
  simp only [turn]
  rw [dif_pos hlt, if_neg h, hn, Option.map_some]

/-- A turn drops a marked number or visits one that is not marked; nothing else is possible. -/
lemma turn_cases {w w' : WalkState} (h : s.turn w = some w') :
    ∃ id rest, ∃ hlt : id < w.seen.size, w.stack = some id :: rest ∧
      ((w.seen[id] = true ∧ w' = ⟨rest, w.seen, w.visited⟩) ∨
        ∃ n, ¬w.seen[id] = true ∧ s.node? id = some n ∧
          w' = ⟨n.children.reverse ++ rest, w.seen.set id true, id :: w.visited⟩) := by
  unfold turn at h
  split at h
  next id rest hstack =>
    split at h
    next hlt =>
      refine ⟨id, rest, hlt, hstack, ?_⟩
      split at h
      next hmark => exact .inl ⟨hmark, (Option.some.inj h).symm⟩
      next hmark =>
        obtain ⟨n, hn, rfl⟩ := Option.map_eq_some_iff.mp h
        exact .inr ⟨n, hmark, hn, rfl⟩
    next => cases h
  next => cases h

/-- A walk that takes a turn ends as it would from there. -/
lemma walk_of_turn {w w' : WalkState} (h : s.turn w = some w') :
    s.walk w.stack w.seen (w.visited.filterMap s.node?) =
      s.walk w'.stack w'.seen (w'.visited.filterMap s.node?) := by
  obtain ⟨id, rest, hlt, hstack, ⟨hmark, rfl⟩ | ⟨n, hmark, hn, rfl⟩⟩ := turn_cases h
  · rw [hstack, walk, dif_pos hlt, if_pos hmark]
  · rw [hstack, walk, dif_pos hlt, if_neg hmark, hn, List.filterMap_cons_some hn]

lemma walk_of_turns {k : Nat} {w w' : WalkState} (h : s.turns k w = some w') :
    s.walk w.stack w.seen (w.visited.filterMap s.node?) =
      s.walk w'.stack w'.seen (w'.visited.filterMap s.node?) := by
  induction k generalizing w with
  | zero =>
    obtain rfl : w = w' := Option.some.inj h
    rfl
  | succ k ih =>
    obtain ⟨next, hturn, hturns⟩ := Option.bind_eq_some_iff.mp h
    exact (walk_of_turn hturn).trans (ih hturns)

/-- A walk whose turns empty the stack returns the nodes that it has visited. -/
lemma subformulas?_of_turns {k : Nat} {w : WalkState} (h : s.turns k (.start s id) = some w)
    (hdone : w.stack = []) : s.subformulas? id = some (w.visited.filterMap s.node?) := by
  have hwalk := walk_of_turns h
  rw [hdone, walk] at hwalk
  exact hwalk

end Turn

/-- A walk from `root` has met the numbers `ids`, each once.  All that it has met or is still to
meet is below the root, and what is next to something it has met has been met or is on the stack. -/
structure Walking (s : FormulaStore) (root : FormulaId) (stack : List (Option FormulaId))
    (seen : Array Bool) (ids : List FormulaId) : Prop where
  size : seen.size = s.size
  nodup : ids.Nodup
  mem_iff : ∀ a, a ∈ ids ↔ seen[a]? = some true
  below : ∀ a ∈ ids, s.Below root a
  pending : ∀ c ∈ stack, ∃ a < s.size, c = some a ∧ s.Below root a
  root : some root ∈ stack ∨ root ∈ ids
  closed : ∀ a ∈ ids, ∀ n, s.node? a = some n → ∀ b, some b ∈ n.children →
    some b ∈ stack ∨ b ∈ ids

namespace Walking

variable {s : FormulaStore} {root id : FormulaId} {stack : List (Option FormulaId)}
  {seen : Array Bool} {ids : List FormulaId}

/-- Nothing has been met before the first step. -/
lemma start (hroot : root < s.size) :
    s.Walking root [some root] (Array.replicate s.size false) [] where
  size := by simp
  nodup := List.nodup_nil
  mem_iff a := by simp [Array.getElem?_replicate]
  below := by simp
  pending c hc := ⟨root, hroot, List.mem_singleton.mp hc, .refl⟩
  root := .inl (List.mem_singleton_self _)
  closed := by simp

/-- A number that has been met before is skipped. -/
lemma skip (h : s.Walking root (some id :: stack) seen ids) (hid : id ∈ ids) :
    s.Walking root stack seen ids := by
  have hdrop : ∀ {a : FormulaId},
      some a ∈ some id :: stack ∨ a ∈ ids → some a ∈ stack ∨ a ∈ ids := by
    intro a ha
    rcases ha with ha | ha
    · rcases List.mem_cons.mp ha with ha | ha
      · exact .inr (Option.some.inj ha ▸ hid)
      · exact .inl ha
    · exact .inr ha
  exact { h with
    pending := fun c hc => h.pending c (List.mem_cons_of_mem _ hc)
    root := hdrop h.root
    closed := fun a ha n hn b hb => hdrop (h.closed a ha n hn b hb) }

/-- A number that is met for the first time is replaced by its children. -/
lemma visit (h : s.Walking root (some id :: stack) seen ids) (hid : id ∉ ids)
    (hlt : id < seen.size) {n : Node} (hn : s.node? id = some n) (hover : n.Over s.size) :
    s.Walking root (n.children.reverse ++ stack) (seen.set id true) (id :: ids) := by
  obtain ⟨a, -, ha, hbelow⟩ := h.pending _ List.mem_cons_self
  obtain rfl : id = a := Option.some.inj ha
  have hkeep : ∀ {a : FormulaId}, some a ∈ some id :: stack ∨ a ∈ ids →
      some a ∈ n.children.reverse ++ stack ∨ a ∈ id :: ids := by
    intro a ha
    rcases ha with ha | ha
    · rcases List.mem_cons.mp ha with ha | ha
      · exact .inr (Option.some.inj ha ▸ List.mem_cons_self)
      · exact .inl (List.mem_append_right _ ha)
    · exact .inr (List.mem_cons_of_mem _ ha)
  constructor
  case size => rw [Array.size_set, h.size]
  case nodup => exact List.nodup_cons.mpr ⟨hid, h.nodup⟩
  case mem_iff =>
    intro a
    rw [List.mem_cons, h.mem_iff, Array.getElem?_set]
    by_cases heq : id = a
    · simp [heq]
    · simp [heq, Ne.symm heq]
  case below =>
    intro a ha
    rcases List.mem_cons.mp ha with rfl | ha
    · exact hbelow
    · exact h.below a ha
  case pending =>
    intro c hc
    rcases List.mem_append.mp hc with hc | hc
    · rw [List.mem_reverse] at hc
      obtain ⟨b, hb, rfl⟩ := hover c hc
      exact ⟨b, hb, rfl, .child hbelow hn hc⟩
    · exact h.pending c (List.mem_cons_of_mem _ hc)
  case root => exact hkeep h.root
  case closed =>
    intro a ha m hm b hb
    rcases List.mem_cons.mp ha with rfl | ha
    · rw [hn, Option.some.injEq] at hm
      exact .inl (List.mem_append_left _ (List.mem_reverse.mpr (hm ▸ hb)))
    · exact hkeep (h.closed a ha m hm b hb)

/-- When nothing is waiting, everything below the root has been met. -/
lemma mem_iff_below (h : s.Walking root [] seen ids) (a : FormulaId) :
    a ∈ ids ↔ s.Below root a := by
  refine ⟨h.below a, fun ha => ?_⟩
  induction ha with
  | refl => exact h.root.resolve_left List.not_mem_nil
  | child _ hn hb ih => exact (h.closed _ ih _ hn _ hb).resolve_left List.not_mem_nil

/-- A walk has as many turns left as there are slots on its stack and children of the nodes that it
is still to visit; then the stack is empty. -/
theorem exists_turns (hs : s.Built) (h : s.Walking root stack seen ids) :
    ∃ new seen', s.turns (stack.length + ((new.filterMap s.node?).flatMap Node.children).length)
        ⟨stack, seen, ids⟩ = some ⟨[], seen', new ++ ids⟩ ∧
      s.Walking root [] seen' (new ++ ids) := by
  -- the recursion of the walk does not look at what it has found
  have found : List Node := []
  induction stack, seen, found using walk.induct s generalizing ids with
  | case1 seen => exact ⟨[], seen, rfl, h⟩
  | case2 seen found rest =>
    obtain ⟨a, -, ha, -⟩ := h.pending none List.mem_cons_self
    cases ha
  | case3 seen found id rest hlt hseen ih =>
    have hid : id ∈ ids := by rw [h.mem_iff, Array.getElem?_eq_getElem hlt, hseen]
    obtain ⟨new, seen', hturns, hdone⟩ := ih (h.skip hid)
    refine ⟨new, seen', ?_, hdone⟩
    rw [List.length_cons, Nat.add_right_comm, turns, turn_of_marked hlt hseen]
    exact hturns
  | case4 seen found id rest hlt hseen hn =>
    obtain ⟨n, hsome⟩ := node?_isSome_iff.mpr (h.size ▸ hlt)
    exact absurd (hn.symm.trans hsome) (by simp)
  | case5 seen found id rest hlt hseen n hn ih =>
    have hid : id ∉ ids := by
      rw [h.mem_iff, Array.getElem?_eq_getElem hlt, Option.some.injEq]
      exact hseen
    obtain ⟨new, seen', hturns, hdone⟩ := ih (h.visit hid hlt hn (hs.over hn))
    refine ⟨new ++ [id], seen', ?_, by rwa [List.append_assoc]⟩
    have hcount : (some id :: rest).length +
          (((new ++ [id]).filterMap s.node?).flatMap Node.children).length =
        (n.children.reverse ++ rest).length +
          ((new.filterMap s.node?).flatMap Node.children).length + 1 := by
      simp only [List.filterMap_append, List.filterMap_cons_some hn, List.filterMap_nil,
        List.flatMap_append, List.flatMap_cons, List.flatMap_nil, List.length_append,
        List.length_reverse, List.length_cons, List.length_nil]
      omega
    rw [hcount, turns, turn_of_unmarked hlt hseen hn, List.append_assoc]
    exact hturns
  | case6 seen found id rest hlt =>
    obtain ⟨a, ha, heq, -⟩ := h.pending (some id) List.mem_cons_self
    exact absurd (h.size ▸ Option.some.inj heq ▸ ha) hlt

end Walking

/-- The subformulas of a formula in a built store are the nodes below it, each once. -/
theorem Built.subformulas?_eq {s : FormulaStore} (hs : s.Built) {id : FormulaId}
    (hid : id < s.size) :
    ∃ ids : List FormulaId, ids.Nodup ∧ (∀ a, a ∈ ids ↔ s.Below id a) ∧
      s.subformulas? id = some (ids.filterMap s.node?) := by
  obtain ⟨new, seen, hturns, hdone⟩ := (Walking.start hid).exists_turns hs
  exact ⟨new ++ [], hdone.nodup, hdone.mem_iff_below, subformulas?_of_turns hturns rfl⟩

/-! ## Names -/

/-- The roots of a formula are those below its number. -/
theorem Denotes.mem_roots_iff {s : FormulaStore} {id : FormulaId} {φ : Formula}
    (h : s.Denotes id φ) {k : NodeKind} :
    k ∈ φ.roots ↔ ∃ a n, s.Below id a ∧ s.node? a = some n ∧ n.kind = k := by
  -- a root is that of the number itself or below one of its children
  have hsplit : ∀ {id : FormulaId} {n : Node}, s.node? id = some n →
      ((∃ a m, s.Below id a ∧ s.node? a = some m ∧ m.kind = k) ↔
        n.kind = k ∨ ∃ b, some b ∈ n.children ∧
          ∃ a m, s.Below b a ∧ s.node? a = some m ∧ m.kind = k) := by
    intro id n hn
    constructor
    · rintro ⟨a, m, ha, hm, hk⟩
      rcases (below_iff hn).mp ha with rfl | ⟨b, hb, hba⟩
      · rw [hn, Option.some.injEq] at hm
        exact .inl (hm ▸ hk)
      · exact .inr ⟨b, hb, a, m, hba, hm, hk⟩
    · rintro (hk | ⟨b, hb, a, m, hba, hm, hk⟩)
      · exact ⟨id, n, .refl, hn, hk⟩
      · exact ⟨a, m, (below_iff hn).mpr (.inr ⟨b, hb, hba⟩), hm, hk⟩
  induction h with
  | top hn hk | bot hn hk | atom hn hk =>
    rw [hsplit hn]
    simp [Formula.roots, Node.children, NodeKind.arity, hk, eq_comm]
  | neg hn hk hl _ ih | modal hn hk hl _ ih =>
    rw [hsplit hn, Formula.roots, List.mem_cons]
    simp [ih, Node.children, NodeKind.arity, hk, hl, eq_comm]
  | binary hn hk hl hr _ _ ihl ihr =>
    rw [hsplit hn, Formula.roots, List.mem_cons, List.mem_append]
    simp [ihl, ihr, Node.children, NodeKind.arity, hk, hl, hr, eq_comm]

end FormulaStore

namespace Formula

lemma mem_atoms_iff {φ : Formula} {name : Text} : name ∈ φ.atoms ↔ .atom name ∈ φ.roots := by
  induction φ <;> simp_all [atoms, roots]

lemma mem_actions_iff {φ : Formula} {action : Text} :
    action ∈ φ.actions ↔ ∃ m, .modal m action ∈ φ.roots := by
  induction φ <;> simp_all [actions, roots, exists_or]

end Formula

namespace FormulaStore

variable {s : FormulaStore} {id : FormulaId} {φ : Formula}

/-- Names that are read off the nodes below a formula are those that the roots of the formula
have. -/
lemma Built.sortedSet_subformulas? (hs : s.Built) (hφ : s.Denotes id φ) {f : Node → Option Text}
    {names : List Text} {P : NodeKind → Text → Prop}
    (hf : ∀ n name, f n = some name ↔ P n.kind name)
    (hnames : ∀ name, name ∈ names ↔ ∃ k ∈ φ.roots, P k name) :
    (s.subformulas? id).map (fun ns => Text.sortedSet (ns.filterMap f)) =
      some (Text.sortedSet names) := by
  obtain ⟨ids, -, hids, heq⟩ := hs.subformulas?_eq hφ.lt_size
  rw [heq, Option.map_some, Option.some.injEq]
  refine Text.sortedSet_congr fun name => ?_
  simp only [List.mem_filterMap, hids, hf, hnames, hφ.mem_roots_iff]
  constructor
  · rintro ⟨n, ⟨a, ha, hn⟩, hname⟩
    exact ⟨n.kind, ⟨a, n, ha, hn, rfl⟩, hname⟩
  · rintro ⟨_, ⟨a, n, ha, hn, rfl⟩, hname⟩
    exact ⟨n, ⟨a, ha, hn⟩, hname⟩

/-- The names of the atoms of a stored formula. -/
theorem Built.atoms?_eq (hs : s.Built) (hφ : s.Denotes id φ) :
    s.atoms? id = some (Text.sortedSet φ.atoms) := by
  refine hs.sortedSet_subformulas? hφ (P := fun k name => k = .atom name) (fun n name => ?_)
    fun name => by simp [Formula.mem_atoms_iff]
  unfold atomName?
  split <;> simp_all

/-- The actions of a stored formula. -/
theorem Built.actions?_eq (hs : s.Built) (hφ : s.Denotes id φ) :
    s.actions? id = some (Text.sortedSet φ.actions) := by
  refine hs.sortedSet_subformulas? hφ (P := fun k name => ∃ m, k = .modal m name)
    (fun n name => ?_) fun name => by simp [Formula.mem_actions_iff]
  unfold actionName?
  split <;> simp_all

/-- The modal depth of a stored formula. -/
lemma Denotes.depth?_eq (hφ : s.Denotes id φ) : s.depth? id = some φ.depth := by
  rw [depth?, tree?_eq_some_iff.mpr hφ, Option.map_some]

/-- The text of a stored formula. -/
lemma Denotes.text?_eq (hφ : s.Denotes id φ) : s.text? id = some φ.text := by
  rw [text?, tree?_eq_some_iff.mpr hφ, Option.map_some]

end FormulaStore

end TwistLogic
