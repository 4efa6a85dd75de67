import Mathlib.Tactic.Common
import TwistLogic.Proofs.Basic

/-!
# What a store keeps

A store changes only by interning.  `FormulaStore.Reachable` holds of every store that interning can
make, whatever the slots of its nodes name; `FormulaStore.Built` asks in addition that every node
was made over formulas that were there already.

The index of a reachable store is the inverse of its nodes (`Reachable.exact`), so interning gives a
number whose node is the interned one and leaves all other nodes alone (`Exact.intern_spec`).
`FormulaStore.Denotes` says which formula a number stands for.  It follows the formula and needs no
bound, and `tree?_eq_some_iff` shows that `FormulaStore.tree?` computes exactly that: on a path
below a number the heights of the formulas decrease, so no number repeats and the bound is never
met.

`FormulaStore.Grows` relates a store to those that come after it when only nodes that fit are
interned.  All nodes keep their numbers on the way (`Grows.extends`), and adding a formula is an
instance of it (`Exact.grows_add`).

The main statements are `Exact.add_spec`, which says that an added formula is what its number
stands for, and `Built.exists_tree?`, which says that every number of a built store stands for one.
-/

namespace TwistLogic

/-! ## Stores and their nodes -/

/-- The children of a node are numbers below a bound. -/
def Node.Over (n : Node) (bound : Nat) : Prop :=
  ∀ c ∈ n.children, ∃ a < bound, c = some a

@[simp] lemma Node.children_leaf {k : NodeKind} (hk : k.arity = 0) :
    (Node.leaf k).children = [] := by
  rw [children, leaf, hk, List.take_zero]

@[simp] lemma Node.children_unary {k : NodeKind} (hk : k.arity = 1) (a : FormulaId) :
    (Node.unary k a).children = [some a] := by
  simp [children, unary, hk]

@[simp] lemma Node.children_binary (c : Connective) (a b : FormulaId) :
    (Node.binary c a b).children = [some a, some b] := rfl

namespace FormulaStore

/-- The stores that interning makes, whatever the slots of the nodes hold. -/
inductive Reachable : FormulaStore → Prop
  | initial : Reachable .initial
  | intern {s : FormulaStore} (n : Node) : Reachable s → Reachable (s.intern n).2

/-- The stores that are made by interning nodes over formulas that exist. -/
inductive Built : FormulaStore → Prop
  | initial : Built .initial
  | intern {s : FormulaStore} {n : Node} : Built s → n.Over s.size → Built (s.intern n).2

/-- The index finds the number of every node and nothing else. -/
def Exact (s : FormulaStore) : Prop :=
  ∀ n id, s.index[n]? = some id ↔ s.node? id = some n

/-- Every node of `s` stands at the same place in `s'`. -/
def Extends (s s' : FormulaStore) : Prop :=
  ∀ id n, s.node? id = some n → s'.node? id = some n

theorem Built.reachable {s : FormulaStore} (h : s.Built) : s.Reachable := by
  induction h with
  | initial => exact .initial
  | intern _ _ ih => exact .intern _ ih

lemma Extends.trans {s s' s'' : FormulaStore} (h : s.Extends s') (h' : s'.Extends s'') :
    s.Extends s'' := fun id n hn => h' id n (h id n hn)

/-- The nodes of `s` are the first nodes of `s'`. -/
lemma Extends.isPrefix {s s' : FormulaStore} (h : s.Extends s') :
    s.nodes.toList <+: s'.nodes.toList := by
  rw [List.prefix_iff_getElem?]
  intro id hid
  have hnode : s'.node? id = some s.nodes[id] := h id _ (Array.getElem?_eq_getElem hid)
  rw [Array.getElem?_toList, Array.getElem_toList]
  exact hnode

/-- A number names a node exactly if it is below the size. -/
lemma node?_isSome_iff {s : FormulaStore} {id : FormulaId} :
    (∃ n, s.node? id = some n) ↔ id < s.size := by
  unfold node? size
  rw [← Option.isSome_iff_exists, isSome_getElem?]

lemma lt_size_of_node? {s : FormulaStore} {id : FormulaId} {n : Node}
    (h : s.node? id = some n) : id < s.size :=
  node?_isSome_iff.mp ⟨n, h⟩

/-! ## Interning -/

/-- A node that the index does not find is appended under the next number. -/
lemma intern_of_none {s : FormulaStore} {n : Node} (h : s.index[n]? = none) :
    s.intern n = (s.size, { nodes := s.nodes.push n, index := s.index.insert n s.size }) := by
  unfold intern
  rw [h]
  rfl

/-- A node that the index finds changes nothing. -/
lemma intern_of_some {s : FormulaStore} {n : Node} {id : FormulaId}
    (h : s.index[n]? = some id) : s.intern n = (id, s) := by
  unfold intern
  rw [h]

/-- The node behind a number after one node was appended. -/
lemma node?_push (nodes : Array Node) (index : Std.TreeMap Node FormulaId) (n : Node)
    (id : FormulaId) :
    node? { nodes := nodes.push n, index } id =
      if id = nodes.size then some n else nodes[id]? := by
  simp only [node?, Array.getElem?_push]

/-- After a node was interned, the store has the nodes that it had and this one. -/
lemma node?_intern {s : FormulaStore} {n m : Node} {id : FormulaId}
    (h : (s.intern n).2.node? id = some m) :
    s.node? id = some m ∨ id = s.size ∧ m = n := by
  cases hi : s.index[n]? with
  | some a =>
    rw [intern_of_some hi] at h
    exact .inl h
  | none =>
    rw [intern_of_none hi, node?_push] at h
    by_cases hid : id = s.nodes.size
    · rw [if_pos hid, Option.some.injEq] at h
      exact .inr ⟨hid, h.symm⟩
    · rw [if_neg hid] at h
      exact .inl h

/-- Interning appends at most. -/
theorem extends_intern (s : FormulaStore) (n : Node) : s.Extends (s.intern n).2 := by
  intro id m hm
  cases h : s.index[n]? with
  | some a => rwa [intern_of_some h]
  | none =>
    have hne : id ≠ s.nodes.size := Nat.ne_of_lt (lt_size_of_node? hm)
    rw [intern_of_none h, node?_push, if_neg hne]
    exact hm

/-- The index stays the inverse of the nodes. -/
theorem Exact.intern {s : FormulaStore} (hs : s.Exact) (n : Node) : (s.intern n).2.Exact := by
  cases h : s.index[n]? with
  | some a => rwa [intern_of_some h]
  | none =>
    rw [intern_of_none h]
    intro m id
    rw [node?_push, getElem?_insert_eq_ite]
    by_cases hnm : n = m
    · subst hnm
      have hfree : s.nodes[id]? ≠ some n := fun hid => by simp [(hs n id).mpr hid] at h
      by_cases hid : id = s.nodes.size
      · simp [hid, size]
      · simpa [hid, size, eq_comm] using hfree
    · by_cases hid : id = s.nodes.size
      · have hout : s.index[m]? ≠ some id := fun hm =>
          Nat.ne_of_lt (lt_size_of_node? ((hs m id).mp hm)) hid
        simp [hnm, hid ▸ hout, hid]
      · rw [if_neg hnm, if_neg hid]
        exact hs m id

/-- The number that interning returns names the interned node. -/
theorem Exact.node?_intern {s : FormulaStore} (hs : s.Exact) (n : Node) :
    (s.intern n).2.node? (s.intern n).1 = some n := by
  cases h : s.index[n]? with
  | some a =>
    rw [intern_of_some h]
    exact (hs n a).mp h
  | none =>
    rw [intern_of_none h, node?_push]
    exact if_pos rfl

/-- The store without nodes has an exact index. -/
lemma exact_empty : Exact { nodes := #[], index := ∅ } := by
  intro n id
  simp [node?]

/-- The index of every reachable store is the inverse of its nodes. -/
theorem Reachable.exact {s : FormulaStore} (h : s.Reachable) : s.Exact := by
  induction h with
  | initial => exact (exact_empty.intern _).intern _
  | intern n _ ih => exact ih.intern n

end FormulaStore

/-! ## The formula of a number -/

/-- The number of nodes on the longest path of a formula. -/
def Formula.height : Formula → Nat
  | .top | .bot | .atom _ => 1
  | .neg φ | .modal _ _ φ => φ.height + 1
  | .binary _ φ ψ => max φ.height ψ.height + 1

/-- A bound that covers a formula is not zero. -/
lemma Formula.exists_fuel_eq_succ {φ : Formula} {fuel : Nat} (hf : φ.height ≤ fuel) :
    ∃ k, fuel = k + 1 := by
  have hpos : 0 < φ.height := by cases φ <;> simp [height]
  exact Nat.exists_eq_succ_of_ne_zero (by omega)

namespace FormulaStore

/-- A number stands for a formula if its node has the root of the formula and the slots that the
root uses stand for the formulas below it. -/
inductive Denotes (s : FormulaStore) : FormulaId → Formula → Prop
  | top {id : FormulaId} {n : Node} :
    s.node? id = some n → n.kind = .top → Denotes s id .top
  | bot {id : FormulaId} {n : Node} :
    s.node? id = some n → n.kind = .bot → Denotes s id .bot
  | atom {id : FormulaId} {n : Node} {name : Text} :
    s.node? id = some n → n.kind = .atom name → Denotes s id (.atom name)
  | neg {id a : FormulaId} {n : Node} {φ : Formula} :
    s.node? id = some n → n.kind = .neg → n.left = some a → Denotes s a φ → Denotes s id (.neg φ)
  | binary {id a b : FormulaId} {n : Node} {c : Connective} {φ ψ : Formula} :
    s.node? id = some n → n.kind = .binary c → n.left = some a → n.right = some b →
    Denotes s a φ → Denotes s b ψ → Denotes s id (.binary c φ ψ)
  | modal {id a : FormulaId} {n : Node} {m : Modality} {action : Text} {φ : Formula} :
    s.node? id = some n → n.kind = .modal m action → n.left = some a → Denotes s a φ →
    Denotes s id (.modal m action φ)

/-- A number that stands for a formula names a node. -/
lemma Denotes.lt_size {s : FormulaStore} {id : FormulaId} {φ : Formula} (h : s.Denotes id φ) :
    id < s.size := by
  cases h <;> exact lt_size_of_node? ‹_›

/-- A number keeps its formula while the store grows. -/
theorem Denotes.mono {s s' : FormulaStore} (hs : s.Extends s') {id : FormulaId} {φ : Formula}
    (h : s.Denotes id φ) : s'.Denotes id φ := by
  induction h with
  | top hn hk => exact .top (hs _ _ hn) hk
  | bot hn hk => exact .bot (hs _ _ hn) hk
  | atom hn hk => exact .atom (hs _ _ hn) hk
  | neg hn hk hl _ ih => exact .neg (hs _ _ hn) hk hl ih
  | binary hn hk hl hr _ _ ihl ihr => exact .binary (hs _ _ hn) hk hl hr ihl ihr
  | modal hn hk hl _ ih => exact .modal (hs _ _ hn) hk hl ih

/-- Reading a formula back succeeds as soon as the bound covers its longest path. -/
theorem Denotes.treeWithin_eq {s : FormulaStore} {id : FormulaId} {φ : Formula}
    (h : s.Denotes id φ) {fuel : Nat} (hf : φ.height ≤ fuel) :
    s.treeWithin fuel (some id) = some φ := by
  induction h generalizing fuel with
  | top hn hk | bot hn hk | atom hn hk =>
    obtain ⟨k, rfl⟩ := Formula.exists_fuel_eq_succ hf
    simp [treeWithin, hn, hk]
  | neg hn hk hl _ ih | modal hn hk hl _ ih =>
    obtain ⟨k, rfl⟩ := Formula.exists_fuel_eq_succ hf
    simp only [Formula.height, Nat.add_le_add_iff_right] at hf
    simp [treeWithin, hn, hk, hl, ih hf]
  | binary hn hk hl hr _ _ ihl ihr =>
    obtain ⟨k, rfl⟩ := Formula.exists_fuel_eq_succ hf
    simp only [Formula.height, Nat.add_le_add_iff_right, Nat.max_le] at hf
    simp [treeWithin, hn, hk, hl, hr, ihl hf.1, ihr hf.2]

/-- A number stands for at most one formula. -/
theorem Denotes.unique {s : FormulaStore} {id : FormulaId} {φ ψ : Formula}
    (h : s.Denotes id φ) (h' : s.Denotes id ψ) : φ = ψ :=
  Option.some.inj ((h.treeWithin_eq (Nat.le_max_left _ ψ.height)).symm.trans
    (h'.treeWithin_eq (Nat.le_max_right φ.height _)))

/-- What is read back within a bound is what the number stands for. -/
theorem denotes_of_treeWithin {s : FormulaStore} {fuel : Nat} {id : FormulaId} {φ : Formula}
    (h : s.treeWithin fuel (some id) = some φ) : s.Denotes id φ := by
  induction fuel generalizing id φ with
  | zero => simp [treeWithin] at h
  | succ fuel ih =>
    -- an empty slot is never read back, so a slot that was read holds a number
    have slot : ∀ {c : Option FormulaId} {ψ : Formula}, s.treeWithin fuel c = some ψ →
        ∃ a, c = some a ∧ s.Denotes a ψ := by
      intro c ψ hc
      cases c with
      | none => cases fuel <;> simp [treeWithin] at hc
      | some a => exact ⟨a, rfl, ih hc⟩
    cases hn : s.node? id with
    | none => simp [treeWithin, hn] at h
    | some n =>
      simp only [treeWithin, hn, Option.bind_eq_bind, Option.bind_some] at h
      cases hk : n.kind with
      | top =>
        obtain rfl : Formula.top = φ := by simpa [hk] using h
        exact .top hn hk
      | bot =>
        obtain rfl : Formula.bot = φ := by simpa [hk] using h
        exact .bot hn hk
      | atom name =>
        obtain rfl : Formula.atom name = φ := by simpa [hk] using h
        exact .atom hn hk
      | neg =>
        simp only [hk, Option.map_eq_map, Option.map_eq_some_iff] at h
        obtain ⟨ψ, hψ, rfl⟩ := h
        obtain ⟨a, hl, ha⟩ := slot hψ
        exact .neg hn hk hl ha
      | binary c =>
        simp only [hk, Option.bind_eq_some_iff, Option.pure_def, Option.some.injEq] at h
        obtain ⟨ψ, hψ, χ, hχ, rfl⟩ := h
        obtain ⟨a, hl, ha⟩ := slot hψ
        obtain ⟨b, hr, hb⟩ := slot hχ
        exact .binary hn hk hl hr ha hb
      | modal m action =>
        simp only [hk, Option.map_eq_map, Option.map_eq_some_iff] at h
        obtain ⟨ψ, hψ, rfl⟩ := h
        obtain ⟨a, hl, ha⟩ := slot hψ
        exact .modal hn hk hl ha

/-- On a longest path below a number no number repeats: the heights of their formulas decrease. -/
lemma Denotes.exists_path {s : FormulaStore} {id : FormulaId} {φ : Formula}
    (h : s.Denotes id φ) :
    ∃ path : List FormulaId, path.Nodup ∧ path.length = φ.height ∧
      ∀ a ∈ path, ∃ ψ, s.Denotes a ψ ∧ ψ.height ≤ φ.height := by
  -- a number over a path of lower formulas is not on it
  have extend : ∀ {path : List FormulaId} {χ ψ : Formula} {id : FormulaId}, s.Denotes id χ →
      χ.height = ψ.height + 1 → path.Nodup → path.length = ψ.height →
      (∀ a ∈ path, ∃ θ, s.Denotes a θ ∧ θ.height ≤ ψ.height) →
      ∃ path : List FormulaId, path.Nodup ∧ path.length = χ.height ∧
        ∀ a ∈ path, ∃ θ, s.Denotes a θ ∧ θ.height ≤ χ.height := by
    intro path χ ψ id hχ hheight hnodup hlength hpath
    refine ⟨id :: path, List.nodup_cons.mpr ⟨?_, hnodup⟩, by simp [hlength, hheight], ?_⟩
    · intro hmem
      obtain ⟨θ, hθ, hle⟩ := hpath id hmem
      rw [hθ.unique hχ] at hle
      omega
    · intro a ha
      rcases List.mem_cons.mp ha with rfl | ha
      · exact ⟨χ, hχ, Nat.le_refl _⟩
      · obtain ⟨θ, hθ, hle⟩ := hpath a ha
        exact ⟨θ, hθ, by omega⟩
  induction h with
  | @top id _ hn hk =>
    exact ⟨[id], by simp, rfl, by simpa using ⟨_, .top hn hk, Nat.le_refl _⟩⟩
  | @bot id _ hn hk =>
    exact ⟨[id], by simp, rfl, by simpa using ⟨_, .bot hn hk, Nat.le_refl _⟩⟩
  | @atom id _ _ hn hk =>
    exact ⟨[id], by simp, rfl, by simpa using ⟨_, .atom hn hk, Nat.le_refl _⟩⟩
  | neg hn hk hl h ih =>
    obtain ⟨path, hnodup, hlength, hpath⟩ := ih
    exact extend (.neg hn hk hl h) rfl hnodup hlength hpath
  | modal hn hk hl h ih =>
    obtain ⟨path, hnodup, hlength, hpath⟩ := ih
    exact extend (.modal hn hk hl h) rfl hnodup hlength hpath
  | @binary _ _ _ _ _ φ ψ hn hk hl hr h h' ih ih' =>
    have hd : s.Denotes _ _ := .binary hn hk hl hr h h'
    rcases Nat.le_total φ.height ψ.height with hle | hle
    · obtain ⟨path, hnodup, hlength, hpath⟩ := ih'
      exact extend hd (by simp [Formula.height, hle]) hnodup hlength hpath
    · obtain ⟨path, hnodup, hlength, hpath⟩ := ih
      exact extend hd (by simp [Formula.height, hle]) hnodup hlength hpath

/-- A stored formula is no higher than the store is large. -/
theorem Denotes.height_le_size {s : FormulaStore} {id : FormulaId} {φ : Formula}
    (h : s.Denotes id φ) : φ.height ≤ s.size := by
  obtain ⟨path, hnodup, hlength, hpath⟩ := h.exists_path
  have hsub : path ⊆ List.range s.size := by
    intro a ha
    obtain ⟨ψ, hψ, -⟩ := hpath a ha
    exact List.mem_range.mpr hψ.lt_size
  have hle : path.length ≤ (List.range s.size).length := List.Nodup.length_le_of_subset hnodup hsub
  rwa [hlength, List.length_range] at hle

/-- Reading back computes the formula that a number stands for, in every store. -/
theorem tree?_eq_some_iff {s : FormulaStore} {id : FormulaId} {φ : Formula} :
    s.tree? id = some φ ↔ s.Denotes id φ :=
  ⟨denotes_of_treeWithin, fun h => h.treeWithin_eq h.height_le_size⟩

/-! ## Stores over existing formulas -/

/-- A node whose children stand for formulas stands for one. -/
lemma exists_denotes_of_children {s : FormulaStore} {id : FormulaId} {n : Node}
    (hn : s.node? id = some n)
    (hc : ∀ c ∈ n.children, ∃ a φ, c = some a ∧ s.Denotes a φ) : ∃ φ, s.Denotes id φ := by
  cases hk : n.kind with
  | top => exact ⟨_, .top hn hk⟩
  | bot => exact ⟨_, .bot hn hk⟩
  | atom name => exact ⟨_, .atom hn hk⟩
  | neg =>
    obtain ⟨a, φ, hl, ha⟩ := hc n.left (by simp [Node.children, hk, NodeKind.arity])
    exact ⟨_, .neg hn hk hl ha⟩
  | binary c =>
    obtain ⟨a, φ, hl, ha⟩ := hc n.left (by simp [Node.children, hk, NodeKind.arity])
    obtain ⟨b, ψ, hr, hb⟩ := hc n.right (by simp [Node.children, hk, NodeKind.arity])
    exact ⟨_, .binary hn hk hl hr ha hb⟩
  | modal m action =>
    obtain ⟨a, φ, hl, ha⟩ := hc n.left (by simp [Node.children, hk, NodeKind.arity])
    exact ⟨_, .modal hn hk hl ha⟩

/-- Every number that names a node stands for a formula, if the same held before the node was
interned over existing formulas. -/
lemma exists_denotes_intern {s : FormulaStore} {n : Node} (hover : n.Over s.size)
    (hs : ∀ id < s.size, ∃ φ, s.Denotes id φ) {id : FormulaId} (hid : id < (s.intern n).2.size) :
    ∃ φ, (s.intern n).2.Denotes id φ := by
  have hext : s.Extends (s.intern n).2 := extends_intern s n
  obtain ⟨m, hm⟩ := node?_isSome_iff.mpr hid
  rcases node?_intern hm with hold | ⟨rfl, rfl⟩
  · obtain ⟨φ, hφ⟩ := hs id (lt_size_of_node? hold)
    exact ⟨φ, hφ.mono hext⟩
  · refine exists_denotes_of_children hm fun c hc => ?_
    obtain ⟨a, ha, rfl⟩ := hover c hc
    obtain ⟨φ, hφ⟩ := hs a ha
    exact ⟨a, φ, rfl, hφ.mono hext⟩

/-- Every number of a built store stands for a formula. -/
theorem Built.exists_denotes {s : FormulaStore} (h : s.Built) :
    ∀ id < s.size, ∃ φ, s.Denotes id φ := by
  induction h with
  | initial =>
    have hover : ∀ k b, k.arity = 0 → (Node.leaf k).Over b := by
      intro k b hk c hc
      simp [hk] at hc
    intro id hid
    refine exists_denotes_intern (hover .bot _ rfl) (fun a ha => ?_) hid
    refine exists_denotes_intern (hover .top _ rfl) (fun b hb => ?_) ha
    exact absurd hb (Nat.not_lt_zero _)
  | intern _ hover ih => exact fun id hid => exists_denotes_intern hover ih hid

/-- In a built store exactly the numbers that name a node are read back. -/
theorem Built.exists_tree?_iff {s : FormulaStore} (h : s.Built) {id : FormulaId} :
    (∃ φ, s.tree? id = some φ) ↔ id < s.size := by
  simp only [tree?_eq_some_iff]
  exact ⟨fun ⟨_, hφ⟩ => hφ.lt_size, h.exists_denotes id⟩

/-! ## Growing stores -/

end FormulaStore

/-- A node whose slots hold its children and nothing else, all of them numbers below a bound. -/
inductive Node.Fits (bound : Nat) : Node → Prop
  | leaf {k : NodeKind} : k.arity = 0 → Fits bound (.leaf k)
  | unary {k : NodeKind} {a : FormulaId} : k.arity = 1 → a < bound → Fits bound (.unary k a)
  | binary {c : Connective} {a b : FormulaId} :
    a < bound → b < bound → Fits bound (.binary c a b)

lemma Node.Fits.over {n : Node} {bound : Nat} (h : n.Fits bound) : n.Over bound := by
  cases h with
  | leaf hk => simp [Over, hk]
  | unary hk ha => simpa [Over, hk] using ha
  | binary ha hb => simpa [Over] using ⟨ha, hb⟩

namespace Formula

/-- The roots of the subformulas, from left to right, with repetition. -/
def roots : Formula → List NodeKind
  | top => [.top]
  | bot => [.bot]
  | atom name => [.atom name]
  | neg φ => .neg :: φ.roots
  | binary c φ ψ => .binary c :: (φ.roots ++ ψ.roots)
  | modal m action φ => .modal m action :: φ.roots

/-- Every root in a formula has a property. -/
def Uses (K : NodeKind → Prop) (φ : Formula) : Prop := ∀ k ∈ φ.roots, K k

section Uses

variable {K : NodeKind → Prop} {φ ψ : Formula}

@[simp] lemma uses_top : top.Uses K ↔ K .top := by simp [Uses, roots]

@[simp] lemma uses_bot : bot.Uses K ↔ K .bot := by simp [Uses, roots]

@[simp] lemma uses_atom {name : Text} : (atom name).Uses K ↔ K (.atom name) := by
  simp [Uses, roots]

@[simp] lemma uses_neg : (neg φ).Uses K ↔ K .neg ∧ φ.Uses K := by simp [Uses, roots]

@[simp] lemma uses_binary {c : Connective} :
    (binary c φ ψ).Uses K ↔ K (.binary c) ∧ φ.Uses K ∧ ψ.Uses K := by
  simp [Uses, roots, or_imp, forall_and]

@[simp] lemma uses_modal {m : Modality} {action : Text} :
    (modal m action φ).Uses K ↔ K (.modal m action) ∧ φ.Uses K := by
  simp [Uses, roots]

end Uses

end Formula

namespace FormulaStore

/-- The stores that arise from a store by interning nodes over formulas that exist.  The roots of
these nodes have a property. -/
inductive Grows (K : NodeKind → Prop) (s : FormulaStore) : FormulaStore → Prop
  | refl : Grows K s s
  | intern {s' : FormulaStore} {n : Node} :
    Grows K s s' → n.Fits s'.size → K n.kind → Grows K s (s'.intern n).2

namespace Grows

variable {K K' : NodeKind → Prop} {s s' s'' : FormulaStore}

lemma trans (h : s.Grows K s') (h' : s'.Grows K s'') : s.Grows K s'' := by
  induction h' with
  | refl => exact h
  | intern _ hn hk ih => exact ih.intern hn hk

lemma mono (hK : ∀ k, K k → K' k) (h : s.Grows K s') : s.Grows K' s' := by
  induction h with
  | refl => exact .refl
  | intern _ hn hk ih => exact ih.intern hn (hK _ hk)

lemma «extends» (h : s.Grows K s') : s.Extends s' := by
  induction h with
  | refl => exact fun _ _ hn => hn
  | intern _ _ _ ih => exact ih.trans (extends_intern _ _)

lemma exact (h : s.Grows K s') (hs : s.Exact) : s'.Exact := by
  induction h with
  | refl => exact hs
  | intern _ _ _ ih => exact ih.intern _

lemma built (h : s.Grows K s') (hs : s.Built) : s'.Built := by
  induction h with
  | refl => exact hs
  | intern _ hn _ ih => exact ih.intern hn.over

end Grows

/-! ## Adding formulas -/

/-- An added formula is what its number stands for, and nothing else changes. -/
theorem Exact.add_spec {s : FormulaStore} (hs : s.Exact) (φ : Formula) :
    (s.add φ).2.Exact ∧ s.Extends (s.add φ).2 ∧ (s.add φ).2.Denotes (s.add φ).1 φ := by
  induction φ generalizing s with
  | top | bot | atom name =>
    refine ⟨hs.intern _, extends_intern s _, ?_⟩
    constructor
    · exact hs.node?_intern _
    · rfl
  | neg φ ih =>
    obtain ⟨hex, hext, hden⟩ := ih hs
    have hext' := extends_intern (s.add φ).2 (.unary .neg (s.add φ).1)
    exact ⟨hex.intern _, hext.trans hext',
      .neg (hex.node?_intern _) rfl rfl (hden.mono hext')⟩
  | modal m action φ ih =>
    obtain ⟨hex, hext, hden⟩ := ih hs
    have hext' := extends_intern (s.add φ).2 (.unary (.modal m action) (s.add φ).1)
    exact ⟨hex.intern _, hext.trans hext',
      .modal (hex.node?_intern _) rfl rfl (hden.mono hext')⟩
  | binary c φ ψ ihl ihr =>
    obtain ⟨hex, hext, hden⟩ := ihl hs
    obtain ⟨hex', hext', hden'⟩ := ihr hex
    have hext'' := extends_intern ((s.add φ).2.add ψ).2
      (.binary c (s.add φ).1 ((s.add φ).2.add ψ).1)
    exact ⟨hex'.intern _, (hext.trans hext').trans hext'',
      .binary (hex'.node?_intern _) rfl rfl rfl ((hden.mono hext').mono hext'')
        (hden'.mono hext'')⟩

/-- Adding a formula interns a node for each of its roots. -/
theorem Exact.grows_add {K : NodeKind → Prop} {s : FormulaStore} (hs : s.Exact) {φ : Formula}
    (hφ : φ.Uses K) : s.Grows K (s.add φ).2 := by
  -- a child that was added is still there when its parent is
  have hlt : ∀ {s : FormulaStore}, s.Exact → ∀ φ : Formula, (s.add φ).1 < (s.add φ).2.size :=
    fun hs φ => (hs.add_spec φ).2.2.lt_size
  induction φ generalizing s with
  | top => exact Grows.refl.intern (.leaf rfl) (Formula.uses_top.mp hφ)
  | bot => exact Grows.refl.intern (.leaf rfl) (Formula.uses_bot.mp hφ)
  | atom name => exact Grows.refl.intern (.leaf rfl) (Formula.uses_atom.mp hφ)
  | neg φ ih =>
    obtain ⟨hneg, hφ⟩ := Formula.uses_neg.mp hφ
    exact (ih hs hφ).intern (.unary rfl (hlt hs φ)) hneg
  | modal m action φ ih =>
    obtain ⟨hm, hφ⟩ := Formula.uses_modal.mp hφ
    exact (ih hs hφ).intern (.unary rfl (hlt hs φ)) hm
  | binary c φ ψ ihl ihr =>
    obtain ⟨hc, hφ, hψ⟩ := Formula.uses_binary.mp hφ
    obtain ⟨hex, -, hden⟩ := hs.add_spec φ
    have hext := (hex.add_spec ψ).2.1
    exact ((ihl hs hφ).trans (ihr hex hψ)).intern
      (.binary (hden.mono hext).lt_size (hlt hex ψ)) hc

lemma Exact.grows_addAll {K : NodeKind → Prop} {s : FormulaStore} (hs : s.Exact)
    {φs : List Formula} (hφs : ∀ φ ∈ φs, φ.Uses K) : s.Grows K (s.addAll φs) := by
  induction φs generalizing s with
  | nil => exact .refl
  | cons φ φs ih =>
    obtain ⟨hφ, hφs⟩ := List.forall_mem_cons.mp hφs
    exact (hs.grows_add hφ).trans (ih (hs.add_spec φ).1 hφs)

/-- Adding a formula interns nodes over formulas that exist. -/
theorem Built.add {s : FormulaStore} (hs : s.Built) (φ : Formula) : (s.add φ).2.Built :=
  (hs.reachable.exact.grows_add (K := fun _ => True) fun _ _ => trivial).built hs

end FormulaStore

end TwistLogic
