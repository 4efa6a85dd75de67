import TwistLogic.Proofs.Model.Integrity
import TwistLogic.Proofs.Model.Meaning

/-!
# Bisimilar worlds

Two worlds are bisimilar if they give the same values to the same atoms and every transition of one
is matched by a transition of the other, with the same action and weight and a bisimilar target.
The value of a modality is the best bound of the set of what its transitions contribute
(`Formula.hasValue_modal_iff`), and matched transitions contribute the same.  So a formula has at
bisimilar worlds the same value or at neither a value (`Bisimulation.hasValue_iff`).

Worlds of two models are bisimilar if they have the same name and the models agree, name by name, on
all that can be reached from them (`Model.AgreeOn.bisimulation`).  The order of worlds and of
transitions, repeated transitions and all other worlds are therefore irrelevant to evaluators
(`Evaluator.bisimilar_answers`).
-/

namespace TwistLogic

/-! ## Bisimulations -/

/-- A relation between the worlds of two models that is a weighted bisimulation. -/
structure Bisimulation (m m' : Model) (Z : WorldIndex → WorldIndex → Prop) : Prop where
  lt_size : ∀ w w', Z w w' → w < m.worlds.size ∧ w' < m'.worlds.size
  value?_eq : ∀ w w', Z w w' → ∀ prop, m.value? w prop = m'.value? w' prop
  forth : ∀ w w', Z w w' → ∀ action, ∀ tr ∈ m.successors w action,
    ∃ tr' ∈ m'.successors w' action, Z tr.target tr'.target ∧ tr.weight = tr'.weight
  back : ∀ w w', Z w w' → ∀ action, ∀ tr' ∈ m'.successors w' action,
    ∃ tr ∈ m.successors w action, Z tr.target tr'.target ∧ tr.weight = tr'.weight

namespace Bisimulation

variable {m m' : Model} {Z : WorldIndex → WorldIndex → Prop} {w w' : WorldIndex} {φ : Formula}
  {x : TwistElement}

lemma symm (h : Bisimulation m m' Z) : Bisimulation m' m fun w' w => Z w w' where
  lt_size w' w hw := (h.lt_size w w' hw).symm
  value?_eq w' w hw prop := (h.value?_eq w w' hw prop).symm
  forth w' w hw action tr' htr' := by
    obtain ⟨tr, htr, htarget, hweight⟩ := h.back w w' hw action tr' htr'
    exact ⟨tr, htr, htarget, hweight.symm⟩
  back w' w hw action tr htr := by
    obtain ⟨tr', htr', htarget, hweight⟩ := h.forth w w' hw action tr htr
    exact ⟨tr', htr', htarget, hweight.symm⟩

/-- If matched transitions lead to the same values, they contribute the same. -/
lemma contributions_eq (h : Bisimulation m m' Z) (hw : Z w w') (htwist : m.twist = m'.twist)
    (mod : Modality) (action : Text) {v v' : WorldIndex → TwistElement}
    (hv : ∀ tr ∈ m.successors w action, ∀ tr' ∈ m'.successors w' action, Z tr.target tr'.target →
      v tr.target = v' tr'.target) :
    {y | ∃ tr ∈ m.successors w action, y = mod.term m.twist tr.weight (v tr.target)} =
      {y | ∃ tr' ∈ m'.successors w' action, y = mod.term m'.twist tr'.weight (v' tr'.target)} := by
  ext y
  constructor
  · rintro ⟨tr, htr, rfl⟩
    obtain ⟨tr', htr', htarget, hweight⟩ := h.forth w w' hw action tr htr
    exact ⟨tr', htr', by rw [htwist, hweight, hv tr htr tr' htr' htarget]⟩
  · rintro ⟨tr', htr', rfl⟩
    obtain ⟨tr, htr, htarget, hweight⟩ := h.back w w' hw action tr' htr'
    exact ⟨tr, htr, by rw [htwist, hweight, hv tr htr tr' htr' htarget]⟩

/-- A value at a world is the value at every bisimilar world. -/
theorem hasValue (h : Bisimulation m m' Z) (htwist : m.twist = m'.twist) (hts : m'.twist.Lawful)
    (hm' : m'.WellFormed) (hactions : ∀ action, m.hasAction action = m'.hasAction action)
    (hw : Z w w') (hx : φ.HasValue m w x) : φ.HasValue m' w' x := by
  induction φ generalizing w w' x with
  | top =>
    cases hx
    exact htwist ▸ .top
  | bot =>
    cases hx
    exact htwist ▸ .bot
  | atom p =>
    cases hx with
    | atom hp => exact .atom (h.value?_eq w w' hw p ▸ hp)
  | neg φ ih =>
    cases hx with
    | neg hy => exact htwist ▸ .neg (ih hw hy)
  | binary c φ ψ ihφ ihψ =>
    obtain ⟨y, z, hy, hz, rfl⟩ := Formula.hasValue_binary_iff.mp hx
    exact Formula.hasValue_binary_iff.mpr ⟨y, z, ihφ hw hy, ihψ hw hz, by rw [htwist]⟩
  | modal mod action φ ih =>
    obtain ⟨haction, v, hv, hbest⟩ := Formula.hasValue_modal_iff.mp hx
    have hvalues : ∀ tr' ∈ m'.successors w' action, ∃ y, φ.HasValue m' tr'.target y := by
      intro tr' htr'
      obtain ⟨tr, htr, htarget, -⟩ := h.back w w' hw action tr' htr'
      exact ⟨v tr.target, ih htarget (hv tr htr)⟩
    obtain ⟨v', hv'⟩ := exists_values_at_targets (P := φ.HasValue m') hvalues
    have heq : ∀ tr ∈ m.successors w action, ∀ tr' ∈ m'.successors w' action,
        Z tr.target tr'.target → v tr.target = v' tr'.target := by
      intro tr htr tr' htr' htarget
      exact (ih htarget (hv tr htr)).unique hts hm' (hv' tr' htr')
    refine Formula.hasValue_modal_iff.mpr ⟨hactions action ▸ haction, v', hv', ?_⟩
    rw [← h.contributions_eq hw htwist mod action heq]
    exact htwist ▸ hbest

/-- At bisimilar worlds a formula has the same values. -/
theorem hasValue_iff {ts : TwistStructure} (hts : ts.Generated) (hm : Model.Reachable ts m)
    (hm' : Model.Reachable ts m') (hactions : ∀ action, m.hasAction action = m'.hasAction action)
    (h : Bisimulation m m' Z) (hw : Z w w') : φ.HasValue m w x ↔ φ.HasValue m' w' x := by
  obtain ⟨htwist, hwf⟩ := hm.wellFormed
  obtain ⟨htwist', hwf'⟩ := hm'.wellFormed
  have heq : m.twist = m'.twist := htwist.trans htwist'.symm
  have hactions' : ∀ action, m'.hasAction action = m.hasAction action :=
    fun action => (hactions action).symm
  constructor
  · exact h.hasValue heq (htwist' ▸ hts.lawful) hwf' hactions hw
  · exact h.symm.hasValue heq.symm (htwist ▸ hts.lawful) hwf hactions' hw

end Bisimulation

/-! ## Worlds with the same names -/

namespace Model

variable {m m' : Model}

/-- The transitions from the world with a name under an action, each as the name of its target and
its weight. -/
def namedSteps (m : Model) (world action : Text) : List (Text × TwistElement) :=
  match m.findWorld? world with
  | some w => (m.successors w action).map fun tr => (m.worldId tr.target, tr.weight)
  | none => []

/-- Two models have worlds with certain names, these worlds have the same values and the same
transitions, and no transition leaves them. -/
structure AgreeOn (m m' : Model) (names : Set Text) : Prop where
  exists_world : ∀ id ∈ names, ∃ w w', m.findWorld? id = some w ∧ m'.findWorld? id = some w' ∧
    ∀ prop, m.value? w prop = m'.value? w' prop
  mem_namedSteps_iff : ∀ id ∈ names, ∀ action p,
    p ∈ m.namedSteps id action ↔ p ∈ m'.namedSteps id action
  closed : ∀ id ∈ names, ∀ action, ∀ p ∈ m.namedSteps id action, p.1 ∈ names

lemma AgreeOn.symm {names : Set Text} (h : m.AgreeOn m' names) : m'.AgreeOn m names where
  exists_world id hid := by
    obtain ⟨w, w', hw, hw', hvalue⟩ := h.exists_world id hid
    exact ⟨w', w, hw', hw, fun prop => (hvalue prop).symm⟩
  mem_namedSteps_iff id hid action p := (h.mem_namedSteps_iff id hid action p).symm
  closed id hid action p hp :=
    h.closed id hid action p ((h.mem_namedSteps_iff id hid action p).mpr hp)

/-- A world that exists is found under its name. -/
lemma Named.findWorld?_worldId (hm : m.Named) {w : WorldIndex} (hw : w < m.worlds.size) :
    m.findWorld? (m.worldId w) = some w := by
  refine hm.findWorld?_eq_some_iff.mpr ⟨m.worlds[w], Array.getElem?_eq_getElem hw, ?_⟩
  rw [worldId, Array.getElem?_eq_getElem hw]
  rfl

/-- A transition between worlds on which two models agree is matched. -/
lemma AgreeOn.exists_transition {names : Set Text} (h : m.AgreeOn m' names) {ts : TwistStructure}
    (hm : Reachable ts m) (hm' : Reachable ts m') {id : Text} (hid : id ∈ names)
    {w w' : WorldIndex} (hw : m.findWorld? id = some w) (hw' : m'.findWorld? id = some w')
    {action : Text} {tr : Transition} (htr : tr ∈ m.successors w action) :
    ∃ tr' ∈ m'.successors w' action, tr.weight = tr'.weight ∧
      ∃ target ∈ names, m.findWorld? target = some tr.target ∧
        m'.findWorld? target = some tr'.target := by
  have hstep : (m.worldId tr.target, tr.weight) ∈ m.namedSteps id action := by
    rw [namedSteps, hw]
    exact List.mem_map_of_mem htr
  have hstep' := (h.mem_namedSteps_iff id hid action _).mp hstep
  rw [namedSteps, hw', List.mem_map] at hstep'
  obtain ⟨tr', htr', hpair⟩ := hstep'
  obtain ⟨htarget, hweight⟩ := Prod.mk.inj hpair
  refine ⟨tr', htr', hweight.symm, m.worldId tr.target, h.closed id hid action _ hstep, ?_, ?_⟩
  · exact hm.named.findWorld?_worldId (hm.wellFormed.2.target_lt w action tr htr)
  · rw [← htarget]
    exact hm'.named.findWorld?_worldId (hm'.wellFormed.2.target_lt w' action tr' htr')

/-- The values at the world with a name. -/
def namedValues (m : Model) (world : Text) : Option (List (Text × TwistElement)) :=
  (m.findWorld? world).bind fun w => (m.worlds[w]?).map (·.valuation.toList)

lemma namedValues_eq_some_iff {id : Text} {entries : List (Text × TwistElement)} :
    m.namedValues id = some entries ↔ ∃ w u, m.findWorld? id = some w ∧ m.worlds[w]? = some u ∧
      u.valuation.toList = entries := by
  simp [namedValues, Option.bind_eq_some_iff]

/-- Only known actions have transitions. -/
lemma Named.mem_actions_of_mem_namedSteps (hm : m.Named) {id action : Text}
    {p : Text × TwistElement} (hp : p ∈ m.namedSteps id action) : action ∈ m.actions.toList := by
  rw [Std.TreeSet.mem_toList]
  unfold namedSteps at hp
  split at hp
  next w _ => exact hm.action_known w action fun hnil => by simp [hnil] at hp
  next => cases hp

/-- Agreement on finitely many worlds is a finite check. -/
theorem agreeOn_of_forall_mem {ids : List Text} (hm : m.Named) (hm' : m'.Named)
    (hactions : m.actions.toList = m'.actions.toList)
    (hids : ∀ id ∈ ids, (m.namedValues id).isSome ∧ m.namedValues id = m'.namedValues id ∧
      ∀ action ∈ m.actions.toList, m.namedSteps id action ⊆ m'.namedSteps id action ∧
        m'.namedSteps id action ⊆ m.namedSteps id action ∧
        ∀ p ∈ m.namedSteps id action, p.1 ∈ ids) : m.AgreeOn m' {id | id ∈ ids} := by
  constructor
  case exists_world =>
    intro id hid
    obtain ⟨hsome, heq, -⟩ := hids id hid
    obtain ⟨entries, hentries⟩ := Option.isSome_iff_exists.mp hsome
    obtain ⟨w, u, hw, hu, hlist⟩ := namedValues_eq_some_iff.mp hentries
    obtain ⟨w', u', hw', hu', hlist'⟩ := namedValues_eq_some_iff.mp (heq.symm.trans hentries)
    have hequiv := Std.TreeMap.equiv_iff_toList_eq.mpr (hlist.trans hlist'.symm)
    refine ⟨w, w', hw, hw', fun prop => ?_⟩
    simpa only [value?, hu, hu', Option.bind_some] using hequiv.getElem?_eq
  case mem_namedSteps_iff =>
    intro id hid action p
    have hsteps := (hids id hid).2.2 action
    constructor
    · intro hp
      exact (hsteps (hm.mem_actions_of_mem_namedSteps hp)).1 hp
    · intro hp
      exact (hsteps (hactions ▸ hm'.mem_actions_of_mem_namedSteps hp)).2.1 hp
  case closed =>
    intro id hid action p hp
    exact ((hids id hid).2.2 action (hm.mem_actions_of_mem_namedSteps hp)).2.2 p hp

/-- Worlds with the same name are bisimilar where two models agree. -/
theorem AgreeOn.bisimulation {names : Set Text} (h : m.AgreeOn m' names) {ts : TwistStructure}
    (hm : Reachable ts m) (hm' : Reachable ts m') :
    Bisimulation m m' fun w w' =>
      ∃ id ∈ names, m.findWorld? id = some w ∧ m'.findWorld? id = some w' := by
  constructor
  case lt_size =>
    rintro w w' ⟨id, -, hw, hw'⟩
    exact ⟨lt_size_of_findWorld? hw, lt_size_of_findWorld? hw'⟩
  case value?_eq =>
    rintro w w' ⟨id, hid, hw, hw'⟩ prop
    obtain ⟨u, u', hu, hu', hvalue⟩ := h.exists_world id hid
    obtain rfl : w = u := Option.some.inj (hw.symm.trans hu)
    obtain rfl : w' = u' := Option.some.inj (hw'.symm.trans hu')
    exact hvalue prop
  case forth =>
    rintro w w' ⟨id, hid, hw, hw'⟩ action tr htr
    obtain ⟨tr', htr', hweight, target, htarget, hfind, hfind'⟩ :=
      h.exists_transition hm hm' hid hw hw' htr
    exact ⟨tr', htr', ⟨target, htarget, hfind, hfind'⟩, hweight⟩
  case back =>
    rintro w w' ⟨id, hid, hw, hw'⟩ action tr' htr'
    obtain ⟨tr, htr, hweight, target, htarget, hfind', hfind⟩ :=
      h.symm.exists_transition hm' hm hid hw' hw htr'
    exact ⟨tr, htr, ⟨target, htarget, hfind, hfind'⟩, hweight.symm⟩

end Model

/-! ## Evaluation -/

/-- Evaluators give the same value at bisimilar worlds, or at neither a value.  This is so in
particular for the worlds with the same name if two models agree on all that these worlds reach, in
whatever order and however often their transitions were added and whatever other worlds there are.
-/
theorem Evaluator.bisimilar_answers {ts : TwistStructure} (hts : ts.Generated) {m m' : Model}
    (hm : Model.Reachable ts m) (hm' : Model.Reachable ts m')
    (hactions : ∀ action, m.hasAction action = m'.hasAction action) {s : FormulaStore}
    (hs : s.Built) (id : FormulaId) {ev ev' : Evaluator} (hev : ev.Coherent s m)
    (hev' : ev'.Coherent s m') :
    (∀ Z, Bisimulation m m' Z → ∀ w w', Z w w' → ∀ x,
      (ev.ask (evaluateAt s m id w)).1 = .ok x ↔ (ev'.ask (evaluateAt s m' id w')).1 = .ok x) ∧
    ∀ names, m.AgreeOn m' names → ∀ world ∈ names, ∀ x,
      (ev.ask (evaluate s m id world)).1 = .ok x ↔
        (ev'.ask (evaluate s m' id world)).1 = .ok x := by
  have hat : ∀ Z, Bisimulation m m' Z → ∀ w w', Z w w' → ∀ x,
      s.valueAt m id w = .ok x ↔ s.valueAt m' id w' = .ok x := by
    intro Z hZ w w' hw x
    obtain ⟨htwist, hwf⟩ := hm.wellFormed
    obtain ⟨htwist', hwf'⟩ := hm'.wellFormed
    obtain ⟨hlt, hlt'⟩ := hZ.lt_size w w' hw
    simp only [FormulaStore.valueAt, Nat.not_le.mpr hlt, Nat.not_le.mpr hlt', if_false]
    cases s.tree? id with
    | none => exact Iff.rfl
    | some φ =>
      rw [Formula.value_eq_ok_iff (htwist ▸ hts.lawful) hwf,
        Formula.value_eq_ok_iff (htwist' ▸ hts.lawful) hwf']
      exact hZ.hasValue_iff hts hm hm' hactions hw
  constructor
  · intro Z hZ w w' hw x
    rw [(hev.ask_evaluateAt hs id w).1, (hev'.ask_evaluateAt hs id w').1]
    exact hat Z hZ w w' hw x
  · intro names hnames world hworld x
    obtain ⟨w, w', hw, hw', -⟩ := hnames.exists_world world hworld
    rw [(hev.ask_evaluate hs id world).1, (hev'.ask_evaluate hs id world).1]
    simp only [FormulaStore.valueIn, hw, hw']
    exact hat _ (hnames.bisimulation hm hm') w w' ⟨world, hworld, hw, hw'⟩ x

/-! ## The circular model in another order -/

/-- The worlds of the circular model in another order, with one of the transitions twice, and with a
third world that no transition leads to. -/
def Edit.reordered : List Edit :=
  [.addWorlds [⟨ascii "v", ∅⟩, ⟨ascii "x", ∅⟩, ⟨ascii "u", ∅⟩],
    .assign (ascii "v") (ascii "q") ⟨0, 0⟩,
    .assign (ascii "v") (ascii "p") ⟨1, 1⟩,
    .assign (ascii "u") (ascii "p") ⟨1, 0⟩,
    .addRelation (ascii "x") (ascii "v") (ascii "a") ⟨0, 1⟩,
    .addRelation (ascii "v") (ascii "u") (ascii "a") ⟨1, 0⟩,
    .addRelation (ascii "u") (ascii "u") (ascii "a") ⟨1, 1⟩,
    .addRelation (ascii "u") (ascii "v") (ascii "a") ⟨1, 0⟩,
    .addRelation (ascii "u") (ascii "u") (ascii "a") ⟨1, 1⟩]

/-- The model that these edits make over the structure of four values. -/
def Model.reordered : Model := .made .fourValued Edit.reordered

/-- An evaluator without memory finds the same value at `u` in the other order. -/
theorem Evaluator.bisimilar_answers_reordered :
    let φ : Formula := .modal .box (ascii "a") (.modal .diamond (ascii "a") (.atom (ascii "p")))
    let s := FormulaStore.initial.add φ
    Model.seesaw.AgreeOn .reordered {id | id ∈ [ascii "u", ascii "v"]} ∧
    ((start .seesaw true).ask (evaluate s.2 .seesaw s.1 (ascii "u"))).1 = .ok ⟨1, 1⟩ ∧
    ((start .reordered false).ask (evaluate s.2 .reordered s.1 (ascii "u"))).1 = .ok ⟨1, 1⟩ := by
  intro φ s
  have hm : Model.Reachable .fourValued .seesaw := Model.reachable_seesaw
  have hm' : Model.Reachable .fourValued .reordered := Model.reachable_made Edit.reordered
  have hknown : Model.seesaw.actions.toList = Model.reordered.actions.toList := by decide +kernel
  have hactions : ∀ action, Model.seesaw.hasAction action = Model.reordered.hasAction action := by
    intro action
    rw [Model.hasAction, Model.hasAction, Bool.eq_iff_iff, ← Std.TreeSet.mem_iff_contains,
      ← Std.TreeSet.mem_iff_contains, ← Std.TreeSet.mem_toList, hknown, Std.TreeSet.mem_toList]
  have hagree : Model.seesaw.AgreeOn .reordered {id | id ∈ [ascii "u", ascii "v"]} :=
    Model.agreeOn_of_forall_mem hm.named hm'.named hknown (by decide +kernel)
  have hvalue : ((start .seesaw true).ask (evaluate s.2 .seesaw s.1 (ascii "u"))).1 =
      .ok ⟨1, 1⟩ := by
    decide +kernel
  have hanswers := bisimilar_answers TwistStructure.generated_fourValued hm hm' hactions
    (FormulaStore.Built.initial.add φ) s.1 (coherent_start s.2 .seesaw true)
    (coherent_start s.2 .reordered false)
  exact ⟨hagree, hvalue, (hanswers.2 _ hagree (ascii "u") (by simp) ⟨1, 1⟩).mp hvalue⟩

end TwistLogic
