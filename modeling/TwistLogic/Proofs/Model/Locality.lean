import TwistLogic.Proofs.Formula.Reach
import TwistLogic.Proofs.Model.Meaning

/-!
# What a formula reads of a model

A formula reads values of its atoms and transitions under its actions, and from a world it looks as
many transitions ahead as it nests modalities.  `Model.frontier` lists the worlds that paths of
one length lead to, and `Model.AgreeNear` says that two models agree on what can be read on the
frontiers within a depth.  Then a formula of this depth has the same value in both, or fails with
the same error (`Model.AgreeNear.value_eq`).

The induction is on the formula and carries the distance from the world: a modality is one step
further out and one level less deep.  The names and the depth that bound what is read are those that
`FormulaStore.atoms?`, `FormulaStore.actions?` and `FormulaStore.depth?` find in the store
(`Evaluator.answers_local`).
-/

namespace TwistLogic

namespace Model

variable {m m' m'' : Model} {atoms actions : List Text} {depth k : Nat} {w u : WorldIndex}

/-! ## Agreement near a world -/

/-- The worlds at which paths of `k` transitions under certain actions end. -/
def frontier (m : Model) (actions : List Text) (w : WorldIndex) : Nat → List WorldIndex
  | 0 => [w]
  | k + 1 => (m.frontier actions w k).flatMap fun u =>
    actions.flatMap fun action => (m.successors u action).map (·.target)

lemma mem_frontier_succ : u ∈ m.frontier actions w (k + 1) ↔
    ∃ v ∈ m.frontier actions w k, ∃ action ∈ actions, ∃ tr ∈ m.successors v action,
      tr.target = u := by
  simp only [frontier, List.mem_flatMap, List.mem_map]

/-- Two models know the same of certain actions, and they agree on the worlds that at most `depth`
transitions lead to: on their names, on the values of certain atoms there, and, unless they are the
last ones, on the transitions from there. -/
structure AgreeNear (m m' : Model) (atoms actions : List Text) (depth : Nat) (w : WorldIndex) :
    Prop where
  hasAction_eq : ∀ action ∈ actions, m.hasAction action = m'.hasAction action
  name_eq : ∀ k ≤ depth, ∀ u ∈ m.frontier actions w k,
    (m.worlds[u]?).map (·.id) = (m'.worlds[u]?).map (·.id)
  value?_eq : ∀ k ≤ depth, ∀ u ∈ m.frontier actions w k, ∀ p ∈ atoms,
    m.value? u p = m'.value? u p
  successors_eq : ∀ k < depth, ∀ u ∈ m.frontier actions w k, ∀ action ∈ actions,
    m.successors u action = m'.successors u action

/-- On the frontiers, the formulas that fit into the rest of the depth have the same values and the
same failures. -/
theorem AgreeNear.value_eq (h : m.AgreeNear m' atoms actions depth w) (htwist : m.twist = m'.twist)
    {φ : Formula} (hatoms : φ.atoms ⊆ atoms) (hactions : φ.actions ⊆ actions)
    (hdepth : k + φ.depth ≤ depth) (hu : u ∈ m.frontier actions w k) :
    φ.value m u = φ.value m' u := by
  induction φ generalizing k u with
  | top | bot => simp only [Formula.value, htwist]
  | atom p =>
    have hk : k ≤ depth := hdepth
    have hid := worldId_eq_of_map_id_eq (h.name_eq k hk u hu)
    have hp : p ∈ atoms := hatoms (List.mem_singleton_self p)
    simp only [Formula.value, h.value?_eq k hk u hu p hp, hid]
  | neg φ ih => simp only [Formula.value, htwist, ih hatoms hactions hdepth hu]
  | binary c φ ψ ihφ ihψ =>
    simp only [Formula.atoms, Formula.actions, List.append_subset] at hatoms hactions
    simp only [Formula.depth] at hdepth
    have hφ := ihφ hatoms.1 hactions.1 (by omega) hu
    have hψ := ihψ hatoms.2 hactions.2 (by omega) hu
    simp only [Formula.value, htwist, hφ, hψ]
  | modal mod action φ ih =>
    simp only [Formula.actions, List.cons_subset] at hactions
    simp only [Formula.depth] at hdepth
    obtain ⟨haction, hactions⟩ := hactions
    have hid := worldId_eq_of_map_id_eq (h.name_eq k (by omega) u hu)
    have hsteps := h.successors_eq k (by omega) u hu action haction
    -- the targets are one step further out, and the operand is one level less deep
    have htargets : ∀ tr ∈ m'.successors u action,
        φ.value m tr.target = φ.value m' tr.target := by
      intro tr htr
      have hk : k + 1 + φ.depth ≤ depth := by omega
      refine ih hatoms hactions hk (mem_frontier_succ.mpr ?_)
      exact ⟨u, hu, action, haction, tr, hsteps ▸ htr, rfl⟩
    have hterms : (m'.successors u action).mapM (fun tr => do
          let x ← φ.value m tr.target
          return mod.term m'.twist tr.weight x) =
        (m'.successors u action).mapM fun tr => do
          let x ← φ.value m' tr.target
          return mod.term m'.twist tr.weight x :=
      mapM_congr fun tr htr => by rw [htargets tr htr]
    simp only [Formula.value, htwist, h.hasAction_eq action haction, hsteps, hid, hterms]

/-! ## Models that have grown -/

/-- The worlds of a model are worlds of another one too, and nothing that certain names refer to has
changed there. -/
structure Extended (atoms actions : List Text) (m m' : Model) : Prop where
  twist_eq : m.twist = m'.twist
  hasAction_eq : ∀ action ∈ actions, m.hasAction action = m'.hasAction action
  name_eq : ∀ u < m.worlds.size, (m.worlds[u]?).map (·.id) = (m'.worlds[u]?).map (·.id)
  value?_eq : ∀ u < m.worlds.size, ∀ p ∈ atoms, m.value? u p = m'.value? u p
  successors_eq : ∀ u < m.worlds.size, ∀ action ∈ actions,
    m.successors u action = m'.successors u action

namespace Extended

lemma refl (atoms actions : List Text) (m : Model) : m.Extended atoms actions m :=
  ⟨rfl, fun _ _ => rfl, fun _ _ => rfl, fun _ _ _ _ => rfl, fun _ _ _ _ => rfl⟩

lemma lt_size (h : Extended atoms actions m m') (hu : u < m.worlds.size) : u < m'.worlds.size :=
  (lt_size_iff_of_map_id_eq (h.name_eq u hu)).mp hu

lemma trans (h : Extended atoms actions m m') (h' : Extended atoms actions m' m'') :
    Extended atoms actions m m'' where
  twist_eq := h.twist_eq.trans h'.twist_eq
  hasAction_eq a ha := (h.hasAction_eq a ha).trans (h'.hasAction_eq a ha)
  name_eq u hu := (h.name_eq u hu).trans (h'.name_eq u (h.lt_size hu))
  value?_eq u hu p hp := (h.value?_eq u hu p hp).trans (h'.value?_eq u (h.lt_size hu) p hp)
  successors_eq u hu a ha :=
    (h.successors_eq u hu a ha).trans (h'.successors_eq u (h.lt_size hu) a ha)

end Extended

/-- Transitions do not lead out of a well-formed model. -/
lemma WellFormed.lt_size_of_mem_frontier (hm : m.WellFormed) (hw : w < m.worlds.size)
    (hu : u ∈ m.frontier actions w k) : u < m.worlds.size := by
  cases k with
  | zero => exact List.mem_singleton.mp hu ▸ hw
  | succ k =>
    obtain ⟨v, -, action, -, tr, htr, rfl⟩ := mem_frontier_succ.mp hu
    exact hm.target_lt v action tr htr

/-- A model and one that it has grown into agree near every world, at any depth. -/
lemma Extended.agreeNear (h : Extended atoms actions m m') (hm : m.WellFormed)
    (hw : w < m.worlds.size) (depth : Nat) : m.AgreeNear m' atoms actions depth w where
  hasAction_eq := h.hasAction_eq
  name_eq _ _ u hu := h.name_eq u (hm.lt_size_of_mem_frontier hw hu)
  value?_eq _ _ u hu := h.value?_eq u (hm.lt_size_of_mem_frontier hw hu)
  successors_eq _ _ u hu := h.successors_eq u (hm.lt_size_of_mem_frontier hw hu)

/-! ### Edits -/

lemma Extended.withRevision (h : Extended atoms actions m m') (r : Nat) :
    Extended atoms actions m { m' with revision := r } :=
  ⟨h.twist_eq, h.hasAction_eq, h.name_eq, h.value?_eq, h.successors_eq⟩

lemma extended_of_place {spec : WorldSpec} (h : m.place spec = .ok m') :
    Extended atoms actions m m' := by
  obtain ⟨-, -, rfl⟩ := place_eq_ok_iff.mp h
  constructor
  case twist_eq => rfl
  case hasAction_eq => exact fun _ _ => rfl
  case name_eq =>
    intro u hu
    rw [Array.getElem?_push, if_neg (Nat.ne_of_lt hu)]
  case value?_eq =>
    intro u hu p _
    rw [value?_push, if_neg (Nat.ne_of_lt hu)]
  case successors_eq => exact fun u _ action _ => (m.successors_push rfl u action).symm

lemma extended_of_addWorld {id : Text} {v : Valuation} {i : WorldIndex}
    (h : m.addWorld id v = .ok (i, m')) : Extended atoms actions m m' := by
  obtain ⟨m₁, hplace, -, rfl⟩ := addWorld_eq_ok_iff.mp h
  exact (extended_of_place hplace).withRevision _

lemma extended_of_addWorlds {specs : List WorldSpec} (h : m.addWorlds specs = .ok m') :
    Extended atoms actions m m' := by
  obtain ⟨m₁, hfold, rfl⟩ := addWorlds_eq_ok_iff.mp h
  exact (foldlM_eq_ok_induction (Extended atoms actions m)
    (fun _ _ _ hm hplace => hm.trans (extended_of_place hplace)) (.refl _ _ m) hfold).withRevision _

lemma extended_of_assign {world p : Text} {x : TwistElement} (hp : p ∉ atoms)
    (h : m.assign world p x = .ok m') : Extended atoms actions m m' := by
  obtain ⟨i, hi, -, rfl⟩ := assign_eq_ok_iff.mp h
  constructor
  case twist_eq => rfl
  case hasAction_eq => exact fun _ _ => rfl
  case name_eq =>
    have hname : ∀ v : World, { v with valuation := v.valuation.insert p x }.id = v.id :=
      fun _ => rfl
    intro u _
    rw [← Array.getElem?_map, ← Array.getElem?_map, map_modify_eq hname]
  case value?_eq =>
    intro u _ q hq
    refine Eq.trans (Eq.symm (if_neg ?_)) (m.value?_assign (lt_size_of_findWorld? hi) p x u q).symm
    rintro ⟨-, rfl⟩
    exact hp hq
  case successors_eq => exact fun u _ action _ => (m.successors_assign i p x u action).symm

lemma extended_of_addRelation {source target action : Text} {weight : TwistElement}
    (haction : action ∉ actions) (h : m.addRelation source target action weight = .ok m') :
    Extended atoms actions m m' := by
  obtain ⟨src, dst, hsrc, -, -, rfl⟩ := addRelation_eq_ok_iff.mp h
  have hother : ∀ a ∈ actions, a ≠ action := fun a ha heq => haction (heq ▸ ha)
  constructor
  case twist_eq => rfl
  case hasAction_eq =>
    intro a ha
    simp [hasAction, Std.TreeSet.contains_insert, (hother a ha).symm]
  case name_eq =>
    have hname : ∀ v : World, (v.addEdge action { target := dst, weight }).id = v.id :=
      fun _ => rfl
    intro u _
    rw [← Array.getElem?_map, ← Array.getElem?_map, map_modify_eq hname]
  case value?_eq => exact fun u _ p _ => (m.value?_addEdge src action _ u p).symm
  case successors_eq =>
    intro u _ a ha
    refine Eq.trans (Eq.symm (if_neg ?_))
      (m.successors_addEdge (lt_size_of_findWorld? hsrc) action _ u a).symm
    exact fun hat => hother a ha hat.2

lemma extended_declareAction {action : Text} (haction : action ∉ actions) :
    Extended atoms actions m (m.declareAction action) := by
  unfold declareAction
  split
  · exact .refl _ _ m
  · have hother : ∀ a ∈ actions, action ≠ a := fun a ha heq => haction (heq ▸ ha)
    refine ⟨rfl, fun a ha => ?_, fun _ _ => rfl, fun _ _ _ _ => rfl, fun _ _ _ _ => rfl⟩
    simp [hasAction, Std.TreeSet.contains_insert, hother a ha]

end Model

/-- The edit gives no value to certain atoms, and it adds no transition under certain actions and
does not make them known. -/
def Edit.Spares (atoms actions : List Text) : Edit → Prop
  | addWorld _ _ | addWorldNamed _ _ | addWorlds _ => True
  | assign _ p _ => p ∉ atoms
  | addRelation _ _ action _ | addRelationNamed _ _ action _ _ | declareAction action =>
    action ∉ actions

instance (atoms actions : List Text) : (e : Edit) → Decidable (e.Spares atoms actions)
  | .addWorld _ _ | .addWorldNamed _ _ | .addWorlds _ => inferInstanceAs (Decidable True)
  | .assign _ p _ => inferInstanceAs (Decidable (p ∉ atoms))
  | .addRelation _ _ action _ | .addRelationNamed _ _ action _ _ | .declareAction action =>
    inferInstanceAs (Decidable (action ∉ actions))

/-- An edit that spares some names changes nothing that they refer to. -/
theorem Edit.Spares.extended {atoms actions : List Text} {e : Edit} {m m' : Model}
    (h : e.Spares atoms actions) (he : e.apply m = .ok m') : m.Extended atoms actions m' := by
  cases e with
  | addWorld id v =>
    obtain ⟨⟨i, m₁⟩, hadd, hm⟩ := bind_eq_ok_iff.mp he
    obtain rfl : m₁ = m' := by simpa using hm
    exact Model.extended_of_addWorld hadd
  | addWorldNamed id v =>
    obtain ⟨⟨i, m₁⟩, hadd, hm⟩ := bind_eq_ok_iff.mp he
    obtain rfl : m₁ = m' := by simpa using hm
    obtain ⟨v', -, hadd'⟩ := Model.addWorldNamed_eq_ok_iff.mp hadd
    exact Model.extended_of_addWorld hadd'
  | addWorlds specs => exact Model.extended_of_addWorlds he
  | assign world p x => exact Model.extended_of_assign h he
  | addRelation source target action weight => exact Model.extended_of_addRelation h he
  | addRelationNamed source target action t f =>
    obtain ⟨weight, -, hadd⟩ := Model.addRelationNamed_eq_ok_iff.mp he
    exact Model.extended_of_addRelation h hadd
  | declareAction action => exact Except.ok.inj he ▸ Model.extended_declareAction h

/-- So do any edits, one after the other. -/
lemma Model.extended_of_edits {atoms actions : List Text} {m m' : Model} {es : List Edit}
    (hes : ∀ e ∈ es, e.Spares atoms actions) (h : es.foldlM Edit.apply m = .ok m') :
    m.Extended atoms actions m' := by
  induction es generalizing m with
  | nil =>
    obtain rfl : m = m' := by simpa using h
    exact .refl _ _ m
  | cons e es ih =>
    rw [List.foldlM_cons, bind_eq_ok_iff] at h
    obtain ⟨m₁, he, hrest⟩ := h
    obtain ⟨hspares, hes⟩ := List.forall_mem_cons.mp hes
    exact (hspares.extended he).trans (ih hes hrest)

/-! ## Evaluation -/

namespace Evaluator

/-- At one numbered world, all evaluators of two models give the same answer. -/
def SameAnswerAt (s : FormulaStore) (id : FormulaId) (w : WorldIndex) (m m' : Model) : Prop :=
  ∀ ev ev' : Evaluator, ev.Coherent s m → ev'.Coherent s m' →
    (ev.ask (evaluateAt s m id w)).1 = (ev'.ask (evaluateAt s m' id w)).1

/-- If two models agree near a world on the names in a formula, up to its depth, evaluators answer
alike there. -/
lemma sameAnswerAt_of_agreeNear {s : FormulaStore} (hs : s.Built) {id : FormulaId} {φ : Formula}
    (hφ : s.Denotes id φ) {m m' : Model} (htwist : m.twist = m'.twist) {w : WorldIndex}
    {atoms actions : List Text} (hatoms : φ.atoms ⊆ atoms) (hactions : φ.actions ⊆ actions)
    (h : m.AgreeNear m' atoms actions φ.depth w) : SameAnswerAt s id w m m' := by
  intro ev ev' hev hev'
  rw [(hev.ask_evaluateAt hs id w).1, (hev'.ask_evaluateAt hs id w).1]
  have hstart : w ∈ m.frontier actions w 0 := List.mem_singleton_self w
  have hsize := Model.lt_size_iff_of_map_id_eq (h.name_eq 0 (Nat.zero_le _) w hstart)
  have hvalue : φ.value m w = φ.value m' w :=
    h.value_eq htwist hatoms hactions (Nat.le_of_eq (Nat.zero_add _)) hstart
  simp only [FormulaStore.valueAt, FormulaStore.tree?_eq_some_iff.mpr hφ, hvalue,
    ← Nat.not_lt, hsize]

/-- At a number that is a world of neither model, there is nothing to agree on. -/
lemma sameAnswerAt_of_not_lt {s : FormulaStore} (hs : s.Built) {id : FormulaId} {m m' : Model}
    {w : WorldIndex} (hw : ¬w < m.worlds.size) (hw' : ¬w < m'.worlds.size) :
    SameAnswerAt s id w m m' := by
  intro ev ev' hev hev'
  rw [(hev.ask_evaluateAt hs id w).1, (hev'.ask_evaluateAt hs id w).1]
  simp only [FormulaStore.valueAt, Nat.not_lt.mp hw, Nat.not_lt.mp hw', if_true]

/-- The answer about a stored formula at a world is settled by what its atoms and actions refer to
near the world, within the depth of the formula.  So it stays the same whatever worlds are added,
whatever other propositions get values and whatever transitions of other actions are added; only a
number that was no world before may have become one. -/
theorem answers_local {s : FormulaStore} (hs : s.Built) {id : FormulaId} (hid : id < s.size) :
    ∃ atoms actions depth, s.atoms? id = some atoms ∧ s.actions? id = some actions ∧
      s.depth? id = some depth ∧
      (∀ (m m' : Model) (w : WorldIndex), m.twist = m'.twist →
        m.AgreeNear m' atoms actions depth w → SameAnswerAt s id w m m') ∧
      ∀ (ts : TwistStructure) (m m' : Model) (es : List Edit), Model.Reachable ts m →
        es.foldlM Edit.apply m = .ok m' → (∀ e ∈ es, e.Spares atoms actions) →
        ∀ w, (w < m.worlds.size ↔ w < m'.worlds.size) → SameAnswerAt s id w m m' := by
  obtain ⟨φ, hφ⟩ := hs.exists_denotes id hid
  have hatoms : φ.atoms ⊆ Text.sortedSet φ.atoms := fun _ => Text.mem_sortedSet.mpr
  have hactions : φ.actions ⊆ Text.sortedSet φ.actions := fun _ => Text.mem_sortedSet.mpr
  refine ⟨_, _, _, hs.atoms?_eq hφ, hs.actions?_eq hφ, hφ.depth?_eq, ?_, ?_⟩
  · intro m m' w htwist h
    exact sameAnswerAt_of_agreeNear hs hφ htwist hatoms hactions h
  · intro ts m m' es hm hedits hes w hsize
    by_cases hw : w < m.worlds.size
    · have hextended := Model.extended_of_edits hes hedits
      exact sameAnswerAt_of_agreeNear hs hφ hextended.twist_eq hatoms hactions
        (hextended.agreeNear hm.wellFormed.2 hw φ.depth)
    · exact sameAnswerAt_of_not_lt hs hw (hsize.not.mp hw)

/-- In the seesaw, a diamond over `p` looks from `v` one transition ahead, to `u`.  A value of `q`,
a further transition from `u` and one under another action change nothing at `v`, and neither do
worlds that are added; at `u` the further transition changes the value. -/
theorem answers_local_seesaw :
    let s := FormulaStore.initial.add (.modal .diamond (ascii "a") (.atom (ascii "p")))
    let grow : List Edit := [.addWorld (ascii "x") ∅,
      .addRelation (ascii "v") (ascii "v") (ascii "b") ⟨1, 0⟩,
      .assign (ascii "u") (ascii "q") ⟨1, 1⟩]
    let further : List Edit := [.addRelation (ascii "u") (ascii "u") (ascii "a") ⟨1, 0⟩]
    let m := (grow.foldlM Edit.apply .seesaw).toOption.getD .seesaw
    let m' := (further.foldlM Edit.apply m).toOption.getD m
    (∀ w < 2, SameAnswerAt s.2 s.1 w .seesaw m) ∧ SameAnswerAt s.2 s.1 1 m m' ∧
    ((start .seesaw true).ask (evaluateAt s.2 .seesaw s.1 1)).1 = .ok ⟨1, 0⟩ ∧
    ((start m' true).ask (evaluateAt s.2 m' s.1 1)).1 = .ok ⟨1, 0⟩ ∧
    ((start m true).ask (evaluateAt s.2 m s.1 0)).1 = .ok ⟨1, 1⟩ ∧
    ((start m' true).ask (evaluateAt s.2 m' s.1 0)).1 = .ok ⟨1, 0⟩ := by
  intro s grow further m m'
  have hid : s.1 < s.2.size := by decide +kernel
  obtain ⟨atoms, actions, depth, hatoms, hactions, hdepth, hnear, hgrow⟩ :=
    answers_local (FormulaStore.Built.initial.add _) hid
  obtain rfl : [ascii "p"] = atoms := Option.some.inj (Eq.trans (by decide +kernel) hatoms)
  obtain rfl : [ascii "a"] = actions := Option.some.inj (Eq.trans (by decide +kernel) hactions)
  obtain rfl : 1 = depth := Option.some.inj (Eq.trans (by decide +kernel) hdepth)
  have hm : grow.foldlM Edit.apply .seesaw = .ok m := eq_ok_getD_of_isSome (by decide +kernel)
  have hspares : ∀ e ∈ grow, e.Spares [ascii "p"] [ascii "a"] := by decide +kernel
  have hagree : m.AgreeNear m' [ascii "p"] [ascii "a"] 1 1 :=
    ⟨by decide +kernel, by decide +kernel, by decide +kernel, by decide +kernel⟩
  refine ⟨fun w hw => ?_, hnear m m' 1 (by decide +kernel) hagree, ?_, ?_, ?_, ?_⟩
  · have hsizes : Model.seesaw.worlds.size = 2 ∧ m.worlds.size = 3 := by decide +kernel
    refine hgrow .fourValued .seesaw m grow Model.reachable_seesaw hm hspares w ?_
    rw [hsizes.1, hsizes.2]
    exact iff_of_true hw (Nat.lt_succ_of_lt hw)
  · decide +kernel
  · decide +kernel
  · decide +kernel
  · decide +kernel

end Evaluator

end TwistLogic
