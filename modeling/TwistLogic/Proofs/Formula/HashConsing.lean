import Mathlib.Data.List.Nodup
import TwistLogic.Formula.Parser
import TwistLogic.Proofs.Formula.Material

/-!
# Stores that share every formula

A store is changed by making a formula over others, by reading, by eliminating material connectives
and by rebuilding a root over other formulas.  `FormulaStore.Operation` has these calls with their
arguments, and `FormulaStore.Called` holds of the stores that admitted calls make.

Each call only interns nodes that fit (`Operation.Admitted.settles`), so such stores keep their
promises (`Made.hashConsed`): the index is the inverse of the nodes, the children of a node have
smaller numbers, and numbers are equal exactly if their formulas are.  A call that is made again
finds in any later store all the nodes that it interned before.  So it returns the same number and
changes nothing (`Operation.Admitted.run_again`).
-/

namespace TwistLogic

namespace FormulaStore

/-! ## Operations -/

/-- One call of an operation on a store. -/
inductive Operation where
  /-- Makes a formula out of its root and the numbers below it. -/
  | make (n : Node)
  /-- Reads a source that is one formula. -/
  | parse (source : Text) (line : UInt32)
  /-- Reads one formula where a parser stands. -/
  | read (p : Parser)
  /-- Eliminates the material connectives of a formula. -/
  | eliminate (id : FormulaId)
  /-- Puts the root of a formula over other slots. -/
  | rebuild (id : FormulaId) (left right : Option FormulaId)

namespace Operation

/-- All that a call refers to is in the store, and slots hold children and nothing else. -/
def Admitted (s : FormulaStore) : Operation → Prop
  | make n => n.Fits s.size
  | parse _ _ | read _ => True
  | eliminate id => id < s.size
  | rebuild id left right => ∃ n, s.node? id = some n ∧ Node.Fits s.size { n with left, right }

/-- The number that a call returns, unless it fails, and the store that it leaves. -/
def run (s : FormulaStore) : Operation → Option FormulaId × FormulaStore
  | make n => (s.intern n).map some id
  | parse source line => (s.parse source line).map Except.toOption id
  | read p => (s.addRead p.readFormula.1).map Except.toOption id
  | eliminate id => s.eliminateMaterial id
  | rebuild id left right =>
    match s.rebuild? id left right with
    | some (e, s') => (some e, s')
    | none => (none, s)

/-- The call reads a source, which may fail. -/
def Reads : Operation → Prop
  | parse _ _ | read _ => True
  | _ => False

end Operation

/-- The stores that admitted calls make out of a store. -/
inductive Becomes (s : FormulaStore) : FormulaStore → Prop
  | refl : Becomes s s
  | call {s' : FormulaStore} (o : Operation) :
    Becomes s s' → o.Admitted s' → Becomes s (o.run s').2

/-- The stores that admitted calls make. -/
def Called (s : FormulaStore) : Prop := Becomes .initial s

/-- What a store promises in which every formula is kept once. -/
structure HashConsed (s : FormulaStore) : Prop where
  top : s.node? 0 = some (.leaf .top)
  bot : s.node? 1 = some (.leaf .bot)
  nodes_nodup : s.nodes.toList.Nodup
  /-- The index is the inverse of the nodes. -/
  exact : s.Exact
  /-- A node has its children in its slots and nothing else, and these have smaller numbers. -/
  fits : ∀ id n, s.node? id = some n → n.Fits id
  exists_tree : ∀ id < s.size, ∃ φ, s.tree? id = some φ
  tree_inj : ∀ id < s.size, ∀ id' < s.size, s.tree? id = s.tree? id' ↔ id = id'
  rebuild_self : ∀ id n, s.node? id = some n → s.rebuild? id n.left n.right = some (id, s)

/-! ## Shared formulas -/

lemma node?_initial :
    initial.node? 0 = some (.leaf .top) ∧ initial.node? 1 = some (.leaf .bot) := by
  decide

/-- An exact index tells the places of nodes apart. -/
lemma Exact.nodup {s : FormulaStore} (hs : s.Exact) : s.nodes.toList.Nodup := by
  rw [List.nodup_iff_getElem?_ne_getElem?]
  intro i j hij hj heq
  have hj' : j < s.nodes.size := hj
  have hnode : s.node? j = some s.nodes[j] := Array.getElem?_eq_getElem hj'
  have hnode' : s.node? i = some s.nodes[j] := by
    rw [node?, ← Array.getElem?_toList, heq, Array.getElem?_toList]
    exact hnode
  have hsome : some i = some j := ((hs _ i).mpr hnode').symm.trans ((hs _ j).mpr hnode)
  exact Nat.ne_of_lt hij (Option.some.inj hsome)

namespace Made

variable {K : NodeKind → Prop} {s : FormulaStore}

/-- A store that is filled with nodes that fit keeps every formula once. -/
theorem hashConsed (h : s.Made K) : s.HashConsed where
  top := Grows.extends h _ _ node?_initial.1
  bot := Grows.extends h _ _ node?_initial.2
  nodes_nodup := h.exact.nodup
  exact := h.exact
  fits := fun _ _ hn => h.fits hn
  exists_tree := fun _ hid => h.built.exists_tree?_iff.mpr hid
  tree_inj := by
    intro id hid id' _
    refine ⟨fun heq => ?_, fun heq => heq ▸ rfl⟩
    obtain ⟨φ, hφ⟩ := h.built.exists_tree?_iff.mpr hid
    exact h.denotes_inj (tree?_eq_some_iff.mp hφ) (tree?_eq_some_iff.mp (heq ▸ hφ))
  rebuild_self := by
    intro id n hn
    rw [rebuild?, hn]
    exact congrArg some (h.exact.intern_eq_of_node? hn)

/-- Adding formulas that are there changes nothing. -/
lemma addAll_eq_of_denotes (h : s.Made K) {φs : List Formula}
    (hφs : ∀ φ ∈ φs, ∃ id, s.Denotes id φ) : s.addAll φs = s := by
  induction φs with
  | nil => rfl
  | cons φ φs ih =>
    obtain ⟨⟨id, hφ⟩, hφs⟩ := List.forall_mem_cons.mp hφs
    rw [addAll, List.foldl_cons, h.add_eq_of_denotes hφ]
    exact ih hφs

end Made

/-- Formulas that were added are there. -/
lemma Exact.exists_denotes_addAll {s : FormulaStore} (hs : s.Exact) {φs : List Formula} :
    ∀ φ ∈ φs, ∃ id, (s.addAll φs).Denotes id φ := by
  induction φs generalizing s with
  | nil => exact nofun
  | cons φ φs ih =>
    obtain ⟨hs', -, hφ⟩ := hs.add_spec φ
    refine List.forall_mem_cons.mpr ⟨⟨(s.add φ).1, ?_⟩, ih hs'⟩
    have hgrows : (s.add φ).2.Grows (fun _ => True) ((s.add φ).2.addAll φs) :=
      hs'.grows_addAll fun _ _ _ _ => trivial
    exact hφ.mono hgrows.extends

/-! ## What one call does -/

section Call

variable {s s' : FormulaStore}

/-- The outcome of a reading is added once. -/
lemma Exact.addRead_spec (hs : s.Exact) (r : Except ReadFailure Formula) :
    s.Grows (fun _ => True) (s.addRead r).2 ∧
    (∀ id, (s.addRead r).1.toOption = some id → ∃ φ, (s.addRead r).2.Denotes id φ) ∧
    ∀ s', s'.Made (fun _ => True) → (s.addRead r).2.Extends s' →
      s'.addRead r = ((s.addRead r).1, s') := by
  cases r with
  | ok φ =>
    have hφ := (hs.add_spec φ).2.2
    refine ⟨hs.grows_add fun _ _ => trivial, ?_, fun s' hs' hext => ?_⟩
    · rintro _ ⟨⟩
      exact ⟨φ, hφ⟩
    · rw [addRead, hs'.add_eq_of_denotes (hφ.mono hext)]
      rfl
  | error f =>
    refine ⟨hs.grows_addAll fun _ _ _ _ => trivial, nofun, fun s' hs' hext => ?_⟩
    have hthere : ∀ φ ∈ f.completed, ∃ id, s'.Denotes id φ := by
      intro φ hφ
      obtain ⟨id, hid⟩ := hs.exists_denotes_addAll φ hφ
      exact ⟨id, hid.mono hext⟩
    rw [addRead, hs'.addAll_eq_of_denotes hthere]
    rfl

namespace Operation

/-- Putting a root over other slots makes a node. -/
lemma run_rebuild {id : FormulaId} {n : Node} (hn : s.node? id = some n)
    (left right : Option FormulaId) :
    (rebuild id left right).run s = (make { n with left, right }).run s := by
  simp only [run, rebuild?, hn]
  rfl

/-- What a call that is admitted does: it interns nodes that fit, the number that it returns stands
for a formula, and the same call finds all of this in every store that holds it. -/
structure Settles (o : Operation) (s : FormulaStore) : Prop where
  grows : s.Grows (fun _ => True) (o.run s).2
  denotes : ∀ id, (o.run s).1 = some id → ∃ φ, (o.run s).2.Denotes id φ
  reads : (o.run s).1 = none → o.Reads
  again : ∀ s', s'.Made (fun _ => True) → (o.run s).2.Extends s' → o.run s' = ((o.run s).1, s')

/-- A new node stands for a formula, and it is found again. -/
lemma settles_make (hs : s.Made fun _ => True) {n : Node} (hn : n.Fits s.size) :
    (make n).Settles s := by
  have hnode := hs.exact.node?_intern n
  have hgrows : s.Grows (fun _ => True) (s.intern n).2 := Grows.refl.intern hn trivial
  constructor
  case grows => exact hgrows
  case denotes =>
    rintro _ ⟨⟩
    exact (hgrows.built hs.built).exists_denotes _ (lt_size_of_node? hnode)
  case reads => exact nofun
  case again =>
    intro s' hs' hext
    change (s'.intern n).map some id = _
    rw [hs'.exact.intern_eq_of_node? (hext _ _ hnode)]
    rfl

/-- A call that adds the outcome of a reading finds all of it again. -/
lemma settles_reading (hs : s.Made fun _ => True) {o : Operation} {r : Except ReadFailure Formula}
    (hrun : ∀ s, o.run s = (s.addRead r).map Except.toOption id) (hreads : o.Reads) :
    o.Settles s := by
  obtain ⟨hgrows, hdenotes, hagain⟩ := hs.exact.addRead_spec r
  have hreturns := hrun s
  constructor
  case grows => exact hreturns ▸ hgrows
  case denotes => exact hreturns ▸ hdenotes
  case reads => exact fun _ => hreads
  case again =>
    intro s' hs' hext
    rw [hreturns] at hext ⊢
    rw [hrun s', hagain s' hs' hext]
    rfl

/-- The expansion of a formula is found again. -/
lemma settles_eliminate (hs : s.Made fun _ => True) {id : FormulaId} (hid : id < s.size) :
    (eliminate id).Settles s := by
  obtain ⟨φ, hφ⟩ := hs.built.exists_denotes id hid
  obtain ⟨e, s', hrun, hgrows, he⟩ := hs.exact.makes_eliminateMaterial (K := fun _ => True)
    trivial trivial trivial hφ fun _ _ => trivial
  have hreturns : (eliminate id).run s = (some e, s') := hrun
  constructor
  case grows => exact hreturns ▸ hgrows
  case denotes =>
    rw [hreturns]
    rintro _ ⟨⟩
    exact ⟨φ.expand, he⟩
  case reads =>
    rw [hreturns]
    exact nofun
  case again =>
    rw [hreturns]
    intro s'' hs'' hext
    exact hs''.eliminateMaterial_of_expand (hφ.mono (hgrows.extends.trans hext)) (he.mono hext)

/-- A root over other slots is a node, which is made again in every store that has the root. -/
lemma settles_rebuild (hs : s.Made fun _ => True) {id : FormulaId} {n : Node}
    (hn : s.node? id = some n) {left right : Option FormulaId}
    (hfits : Node.Fits s.size { n with left, right }) : (rebuild id left right).Settles s := by
  have hrun := run_rebuild hn left right
  have hmake := settles_make hs hfits
  constructor
  case grows => exact hrun ▸ hmake.grows
  case denotes => exact hrun ▸ hmake.denotes
  case reads => exact hrun ▸ hmake.reads
  case again =>
    intro s' hs' hext
    rw [hrun] at hext ⊢
    rw [run_rebuild (hext _ _ (hmake.grows.extends _ _ hn)), hmake.again s' hs' hext]

/-- Every admitted call is settled. -/
theorem Admitted.settles {o : Operation} (ho : o.Admitted s) (hs : s.Made fun _ => True) :
    o.Settles s := by
  cases o with
  | make n => exact settles_make hs ho
  | parse source line => exact settles_reading hs (fun _ => rfl) trivial
  | read p => exact settles_reading hs (fun _ => rfl) trivial
  | eliminate id => exact settles_eliminate hs ho
  | rebuild id left right =>
    obtain ⟨n, hn, hfits⟩ := ho
    exact settles_rebuild hs hn hfits

end Operation

end Call

/-! ## Runs -/

/-- Calls only intern nodes that fit. -/
lemma Becomes.grows {s s' : FormulaStore} (h : s.Becomes s') (hs : s.Made fun _ => True) :
    s.Grows (fun _ => True) s' := by
  induction h with
  | refl => exact .refl
  | call o _ ho ih => exact ih.trans (ho.settles (hs.grows ih)).grows

lemma Called.made {s : FormulaStore} (h : s.Called) : s.Made fun _ => True :=
  Becomes.grows h .refl

/-- A call that is made again, after whatever calls have followed it, returns the same and changes
nothing. -/
lemma Operation.Admitted.run_again {s s' : FormulaStore} {o : Operation} (ho : o.Admitted s)
    (hs : s.Called) (hs' : (o.run s).2.Becomes s') : o.run s' = ((o.run s).1, s') := by
  have hsettles := ho.settles hs.made
  have hmade : (o.run s).2.Made fun _ => True := hs.made.grows hsettles.grows
  have hgrows := hs'.grows hmade
  exact hsettles.again s' (hmade.grows hgrows) hgrows.extends

/-- After any admitted calls, every formula is kept once.  A further one returns a number unless it
is a reading that fails.  Whatever calls follow, the number stands for the same formula, and the
same call returns the same number again and changes nothing. -/
theorem called_spec {s : FormulaStore} (hs : s.Called) :
    s.HashConsed ∧
    ∀ o : Operation, o.Admitted s →
      ((o.run s).1 = none → o.Reads) ∧
      ∀ s' : FormulaStore, (o.run s).2.Becomes s' →
        (∀ id, (o.run s).1 = some id →
          ∃ φ, (o.run s).2.tree? id = some φ ∧ s'.tree? id = some φ) ∧
        o.run s' = ((o.run s).1, s') := by
  refine ⟨hs.made.hashConsed, fun o ho => ?_⟩
  have hsettles := ho.settles hs.made
  refine ⟨hsettles.reads, fun s' hs' => ⟨fun id hid => ?_, ho.run_again hs hs'⟩⟩
  have hgrows := hs'.grows (hs.made.grows hsettles.grows)
  obtain ⟨φ, hφ⟩ := hsettles.denotes id hid
  exact ⟨φ, tree?_eq_some_iff.mpr hφ, tree?_eq_some_iff.mpr (hφ.mono hgrows.extends)⟩

/-- A biconditional is spelled out.  After a reading that fails behind `r & p`, its expansion still
has the number `9`, and spelling it out again finds that number. -/
theorem called_spec_of_iff :
    let s := ((Operation.parse (ascii "p <-> q") 1).run initial).2
    let o := Operation.eliminate 4
    let s' := ((Operation.parse (ascii "r & p &") 1).run (o.run s).2).2
    s.HashConsed ∧ (o.run s).1 = some 9 ∧
    s'.text? 9 = some (ascii "(((~p) | q) & ((~q) | p))") ∧
    s'.size = 12 ∧ o.run s' = (some 9, s') := by
  intro s o s'
  have hs : s.Called := .call _ .refl trivial
  have ho : o.Admitted s := by
    change 4 < s.size
    decide +kernel
  have hs' : (o.run s).2.Becomes s' := .call _ .refl trivial
  have hnine : (o.run s).1 = some 9 := by decide +kernel
  obtain ⟨hcons, hcall⟩ := called_spec hs
  obtain ⟨-, hagain⟩ := (hcall o ho).2 s' hs'
  refine ⟨hcons, hnine, ?_, ?_, hnine ▸ hagain⟩
  · decide +kernel
  · decide +kernel

end FormulaStore

end TwistLogic
