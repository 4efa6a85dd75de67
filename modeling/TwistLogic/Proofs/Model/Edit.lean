import Mathlib.Tactic.Common
import TwistLogic.Model.Basic
import TwistLogic.Proofs.Basic

/-!
# Changes of a model

An `Edit` is one call of an operation that changes a model, with its arguments; `Edit.apply` is the
call.  `Model.Reachable` holds of the models that edits make out of the empty model over a twist
structure.

`Edit.apply_eq_ok` says what a successful edit does to a model, field by field, and everything
else is read off it: the twist structure never changes, the revision counts every change
(`Edit.eq_or_revision_lt`), and all values and weights that a reachable model holds are elements of
its twist structure (`Reachable.wellFormed`).
-/

namespace TwistLogic

/-- One call of an operation that changes a model. -/
inductive Edit where
  | addWorld (id : Text) (v : Valuation)
  | addWorldNamed (id : Text) (v : NamedValuation)
  | addWorlds (specs : List WorldSpec)
  | assign (world prop : Text) (x : TwistElement)
  | addRelation (source target action : Text) (weight : TwistElement)
  | addRelationNamed (source target action t f : Text)
  | declareAction (action : Text)

/-- The outcome of an edit. -/
def Edit.apply (m : Model) : Edit → Except ModelError Model
  | addWorld id v => do
    let (_, m') ← m.addWorld id v
    return m'
  | addWorldNamed id v => do
    let (_, m') ← m.addWorldNamed id v
    return m'
  | addWorlds specs => m.addWorlds specs
  | assign world prop x => m.assign world prop x
  | addRelation source target action weight => m.addRelation source target action weight
  | addRelationNamed source target action t f => m.addRelationNamed source target action t f
  | declareAction action => .ok (m.declareAction action)

/-- The models that edits make out of the empty model over a twist structure. -/
inductive Model.Reachable (ts : TwistStructure) : Model → Prop
  | empty : Reachable ts (.empty ts)
  | edit {m m' : Model} (e : Edit) : Reachable ts m → e.apply m = .ok m' → Reachable ts m'

/-- Edits that succeed one after the other lead from a reachable model to a reachable one. -/
lemma Model.Reachable.edits {ts : TwistStructure} {m m' : Model} (hm : Reachable ts m)
    {es : List Edit} (h : es.foldlM Edit.apply m = .ok m') : Reachable ts m' :=
  foldlM_eq_ok_induction (Reachable ts) (fun _ e _ hm he => hm.edit e he) hm h

/-- The model that edits make out of the empty model, if none of them is refused. -/
def Model.made (ts : TwistStructure) (es : List Edit) : Model :=
  (es.foldlM Edit.apply (.empty ts)).toOption.getD (.empty ts)

lemma Model.reachable_made {ts : TwistStructure} (es : List Edit) : Reachable ts (made ts es) := by
  unfold made
  cases h : es.foldlM Edit.apply (.empty ts) with
  | error e => exact .empty
  | ok m => exact Reachable.empty.edits h

/-! ## Checks -/

/-- A pair passes the check of a twist structure exactly if it is an element. -/
lemma TwistStructure.require_eq_ok_iff {ts : TwistStructure} {x : TwistElement} {what : Text} :
    ts.require x what = .ok () ↔ ts.contains x = true := by
  unfold require
  split <;> simp_all

/-- The world that a specification describes, without transitions. -/
def WorldSpec.world (spec : WorldSpec) : World :=
  { id := spec.id, valuation := spec.valuation, edges := ∅ }

namespace Model

/-- A valuation passes its check exactly if all its values are elements. -/
lemma checkValuation_eq_ok_iff {ts : TwistStructure} {world : Text} {v : Valuation} :
    checkValuation ts world v = .ok () ↔
      ∀ (prop : Text) (x : TwistElement), v[prop]? = some x → ts.contains x = true := by
  unfold checkValuation
  simp only [forM_eq_ok_iff, TwistStructure.require_eq_ok_iff, Prod.forall,
    Std.TreeMap.mem_toList_iff_getElem?_eq_some]

/-- A world name resolves exactly to the number at which it is found. -/
lemma worldIndex_eq_ok_iff {m : Model} {id : Text} {w : WorldIndex} :
    m.worldIndex id = .ok w ↔ m.findWorld? id = some w := by
  unfold worldIndex
  cases m.findWorld? id <;> simp

/-- What placing a world does. -/
theorem place_eq_ok_iff {m m' : Model} {spec : WorldSpec} :
    m.place spec = .ok m' ↔
      m.findWorld? spec.id = none ∧
      (∀ (prop : Text) (x : TwistElement), spec.valuation[prop]? = some x →
        m.twist.contains x = true) ∧
      m' = { m with worlds := m.worlds.push spec.world } := by
  unfold place
  simp only [throw_bind_eq, ite_throw_eq_ok_iff, bind_eq_ok_iff, exists_unit_iff,
    mapError_eq_ok_iff, checkValuation_eq_ok_iff, pure_eq_ok_iff, Bool.not_eq_true,
    Option.isSome_eq_false_iff, Option.isNone_iff_eq_none, eq_comm (a := m'), WorldSpec.world]

/-- A world that is found has a number below the number of worlds. -/
lemma lt_size_of_findWorld? {m : Model} {id : Text} {w : WorldIndex}
    (h : m.findWorld? id = some w) : w < m.worlds.size := by
  obtain ⟨hw, -⟩ := Array.findIdx?_eq_some_iff_getElem.mp h
  exact hw

/-- The names of the worlds, in the order of their numbers. -/
def ids (m : Model) : List Text := m.worlds.toList.map (·.id)

/-- Which world is found depends on the names of the worlds only. -/
lemma findWorld?_eq_idxOf? (m : Model) (id : Text) : m.findWorld? id = m.ids.idxOf? id := by
  rw [List.idxOf?, ids, List.findIdx?_map, ← List.findIdx?_toArray, Array.toArray_toList]
  rfl

lemma findWorld?_eq_none_iff {m : Model} {id : Text} : m.findWorld? id = none ↔ id ∉ m.ids := by
  rw [findWorld?_eq_idxOf?, List.idxOf?_eq_none_iff]

/-- Among distinct names, a world is found at the place where its name stands. -/
lemma findWorld?_eq_some_iff {m : Model} (h : m.ids.Nodup) {id : Text} {w : WorldIndex} :
    m.findWorld? id = some w ↔ m.ids[w]? = some id := by
  rw [findWorld?_eq_idxOf?, idxOf?_eq_some_iff_of_nodup h]

/-- A number that has the same world name in two models names the same in messages. -/
lemma worldId_eq_of_map_id_eq {m m' : Model} {w : WorldIndex}
    (h : (m.worlds[w]?).map (·.id) = (m'.worlds[w]?).map (·.id)) : m.worldId w = m'.worldId w := by
  unfold worldId
  cases hw : m.worlds[w]? <;> cases hw' : m'.worlds[w]? <;> simp_all

/-- A number that has the same world name in two models is the number of a world in both or in
neither. -/
lemma lt_size_iff_of_map_id_eq {m m' : Model} {w : WorldIndex}
    (h : (m.worlds[w]?).map (·.id) = (m'.worlds[w]?).map (·.id)) :
    w < m.worlds.size ↔ w < m'.worlds.size := by
  have hsome := congrArg Option.isSome h
  rw [Option.isSome_map, Option.isSome_map, Bool.eq_iff_iff] at hsome
  rwa [isSome_getElem?, isSome_getElem?] at hsome

/-- What adding a world does. -/
theorem addWorld_eq_ok_iff {m m' : Model} {id : Text} {v : Valuation} {w : WorldIndex} :
    m.addWorld id v = .ok (w, m') ↔
      ∃ m₁, m.place { id, valuation := v } = .ok m₁ ∧ w = m.worlds.size ∧
        m' = { m₁ with revision := m.revision + 1 } := by
  unfold addWorld
  simp only [bind_eq_ok_iff, pure_eq_ok_iff, Prod.mk.injEq, eq_comm (a := w), eq_comm (a := m')]

/-- Adding a world by names is adding it by the values that the names stand for. -/
theorem addWorldNamed_eq_ok_iff {m : Model} {id : Text} {v : NamedValuation}
    {r : WorldIndex × Model} :
    m.addWorldNamed id v = .ok r ↔
      ∃ v', resolve m.twist v = .ok v' ∧ m.addWorld id v' = .ok r := by
  unfold addWorldNamed
  simp only [throw_bind_eq, ite_throw_eq_ok_iff, bind_eq_ok_iff, mapError_eq_ok_iff]
  constructor
  · rintro ⟨-, v', hv, h⟩
    exact ⟨v', hv, h⟩
  · rintro ⟨v', hv, h⟩
    refine ⟨?_, v', hv, h⟩
    obtain ⟨m₁, hplace, -⟩ := addWorld_eq_ok_iff.mp h
    simp [(place_eq_ok_iff.mp hplace).1]

/-- What adding several worlds does. -/
theorem addWorlds_eq_ok_iff {m m' : Model} {specs : List WorldSpec} :
    m.addWorlds specs = .ok m' ↔
      ∃ m₁, specs.foldlM place m = .ok m₁ ∧
        m' = { m₁ with revision := if specs.isEmpty then m.revision else m.revision + 1 } := by
  unfold addWorlds
  simp only [bind_eq_ok_iff, pure_eq_ok_iff, eq_comm (a := m')]

/-- What giving a proposition a value does. -/
theorem assign_eq_ok_iff {m m' : Model} {world prop : Text} {x : TwistElement} :
    m.assign world prop x = .ok m' ↔
      ∃ w, m.findWorld? world = some w ∧ m.twist.contains x = true ∧
        m' = { m with
          worlds := m.worlds.modify w fun u => { u with valuation := u.valuation.insert prop x }
          revision := m.revision + 1 } := by
  unfold assign
  simp only [bind_eq_ok_iff, exists_unit_iff, worldIndex_eq_ok_iff, mapError_eq_ok_iff,
    TwistStructure.require_eq_ok_iff, pure_eq_ok_iff, eq_comm (a := m')]

/-- What adding a transition does. -/
theorem addRelation_eq_ok_iff {m m' : Model} {source target action : Text}
    {weight : TwistElement} :
    m.addRelation source target action weight = .ok m' ↔
      ∃ src dst, m.findWorld? source = some src ∧ m.findWorld? target = some dst ∧
        m.twist.contains weight = true ∧
        m' = { m with
          worlds := m.worlds.modify src (World.addEdge · action { target := dst, weight })
          actions := m.actions.insert action
          revision := m.revision + 1 } := by
  unfold addRelation
  simp only [bind_eq_ok_iff, exists_unit_iff, worldIndex_eq_ok_iff, mapError_eq_ok_iff,
    TwistStructure.require_eq_ok_iff, pure_eq_ok_iff, eq_comm (a := m'), exists_and_left]

/-- Adding a transition by names is adding it with the weight that the names stand for. -/
theorem addRelationNamed_eq_ok_iff {m m' : Model} {source target action t f : Text} :
    m.addRelationNamed source target action t f = .ok m' ↔
      ∃ weight, m.twist.element? t f = .ok weight ∧
        m.addRelation source target action weight = .ok m' := by
  unfold addRelationNamed
  simp only [bind_eq_ok_iff, worldIndex_eq_ok_iff, mapError_eq_ok_iff]
  constructor
  · rintro ⟨-, -, -, -, weight, hw, h⟩
    exact ⟨weight, hw, h⟩
  · rintro ⟨weight, hw, h⟩
    obtain ⟨src, dst, hsrc, hdst, -⟩ := addRelation_eq_ok_iff.mp h
    exact ⟨src, hsrc, dst, hdst, weight, hw, h⟩

end Model

/-- A change of one member that a view does not see changes nothing in the view. -/
lemma map_modify_eq {α β : Type} {f : α → α} {g : α → β} {xs : Array α} {i : Nat}
    (h : ∀ a, g (f a) = g a) : (xs.modify i f).map g = xs.map g := by
  refine Array.ext_getElem? fun j => ?_
  rw [Array.getElem?_map, Array.getElem?_map, Array.getElem?_modify]
  split
  · rw [Option.map_map]
    exact congrArg (fun k => Option.map k xs[j]?) (funext h)
  · rfl

/-! ## What every edit preserves -/

namespace Edit

/-- A successful edit is one of five changes. -/
theorem apply_eq_ok {m m' : Model} {e : Edit} (h : e.apply m = .ok m') :
    (∃ id v, m.addWorld id v = .ok (m.worlds.size, m')) ∨
    (∃ specs, m.addWorlds specs = .ok m') ∨
    (∃ world prop x, m.assign world prop x = .ok m') ∨
    (∃ source target action weight, m.addRelation source target action weight = .ok m') ∨
    ∃ action, m.declareAction action = m' := by
  -- the number of a new world is the old number of worlds
  have hadd : ∀ {id v w}, m.addWorld id v = .ok (w, m') →
      m.addWorld id v = .ok (m.worlds.size, m') := by
    intro id v w hw
    obtain ⟨m₁, hplace, -, hm'⟩ := Model.addWorld_eq_ok_iff.mp hw
    exact Model.addWorld_eq_ok_iff.mpr ⟨m₁, hplace, rfl, hm'⟩
  cases e with
  | addWorld id v =>
    obtain ⟨⟨w, m₁⟩, hw, hm⟩ := bind_eq_ok_iff.mp h
    obtain rfl : m₁ = m' := by simpa using hm
    exact .inl ⟨id, v, hadd hw⟩
  | addWorldNamed id v =>
    obtain ⟨⟨w, m₁⟩, hw, hm⟩ := bind_eq_ok_iff.mp h
    obtain rfl : m₁ = m' := by simpa using hm
    obtain ⟨v', -, hw'⟩ := Model.addWorldNamed_eq_ok_iff.mp hw
    exact .inl ⟨id, v', hadd hw'⟩
  | addWorlds specs => exact .inr (.inl ⟨specs, h⟩)
  | assign world prop x => exact .inr (.inr (.inl ⟨world, prop, x, h⟩))
  | addRelation source target action weight =>
    exact .inr (.inr (.inr (.inl ⟨source, target, action, weight, h⟩)))
  | addRelationNamed source target action t f =>
    obtain ⟨weight, -, hw⟩ := Model.addRelationNamed_eq_ok_iff.mp h
    exact .inr (.inr (.inr (.inl ⟨source, target, action, weight, hw⟩)))
  | declareAction action => exact .inr (.inr (.inr (.inr ⟨action, Except.ok.inj h⟩)))

/-- A successful edit changes nothing or raises the revision. -/
theorem eq_or_revision_lt {m m' : Model} {e : Edit} (h : e.apply m = .ok m') :
    m' = m ∨ m.revision < m'.revision := by
  rcases apply_eq_ok h with ⟨id, v, h⟩ | ⟨specs, h⟩ | ⟨world, prop, x, h⟩ |
    ⟨source, target, action, weight, h⟩ | ⟨action, h⟩
  · obtain ⟨m₁, -, -, rfl⟩ := Model.addWorld_eq_ok_iff.mp h
    exact .inr (Nat.lt_succ_self _)
  · obtain ⟨m₁, hfold, rfl⟩ := Model.addWorlds_eq_ok_iff.mp h
    cases specs with
    | nil =>
      obtain rfl : m = m₁ := by simpa using hfold
      exact .inl rfl
    | cons spec specs => exact .inr (Nat.lt_succ_self _)
  · obtain ⟨w, -, -, rfl⟩ := Model.assign_eq_ok_iff.mp h
    exact .inr (Nat.lt_succ_self _)
  · obtain ⟨src, dst, -, -, -, rfl⟩ := Model.addRelation_eq_ok_iff.mp h
    exact .inr (Nat.lt_succ_self _)
  · unfold Model.declareAction at h
    split at h
    · exact .inl h.symm
    · exact .inr (h ▸ Nat.lt_succ_self _)

end Edit

/-! ## Well-formed models -/

namespace Model

/-- All values and weights of a model are elements of its twist structure, and all transitions lead
to worlds. -/
structure WellFormed (m : Model) : Prop where
  value_mem : ∀ w prop x, m.value? w prop = some x → m.twist.contains x = true
  weight_mem : ∀ w action, ∀ tr ∈ m.successors w action, m.twist.contains tr.weight = true
  target_lt : ∀ w action, ∀ tr ∈ m.successors w action, tr.target < m.worlds.size

/-- The values after a world was placed. -/
lemma value?_push (m : Model) (u : World) (w : WorldIndex) (prop : Text) :
    value? { m with worlds := m.worlds.push u } w prop =
      if w = m.worlds.size then u.valuation[prop]? else m.value? w prop := by
  simp only [value?, Array.getElem?_push]
  split <;> rfl

/-- The transitions after a world without transitions was placed. -/
lemma successors_push (m : Model) {u : World} (hu : u.edges = ∅) (w : WorldIndex)
    (action : Text) :
    successors { m with worlds := m.worlds.push u } w action = m.successors w action := by
  simp only [successors, Array.getElem?_push]
  split
  next hw => simp [hw, hu]
  next => rfl

/-- The values after one was assigned. -/
lemma value?_assign (m : Model) {i : WorldIndex} (hi : i < m.worlds.size) (p : Text)
    (x : TwistElement) (w : WorldIndex) (prop : Text) :
    value? { m with
        worlds := m.worlds.modify i fun u => { u with valuation := u.valuation.insert p x } }
      w prop = if w = i ∧ prop = p then some x else m.value? w prop := by
  simp only [value?, Array.getElem?_modify]
  by_cases hw : i = w
  · subst hw
    simp only [if_true, Array.getElem?_eq_getElem hi, Option.map_some, Option.bind_some,
      getElem?_insert_eq_ite, true_and, eq_comm (a := prop)]
  · simp [hw, Ne.symm hw]

/-- The transitions after a value was assigned. -/
lemma successors_assign (m : Model) (i : WorldIndex) (p : Text) (x : TwistElement)
    (w : WorldIndex) (action : Text) :
    successors { m with
        worlds := m.worlds.modify i fun u => { u with valuation := u.valuation.insert p x } }
      w action = m.successors w action := by
  simp only [successors, Array.getElem?_modify]
  by_cases hw : i = w
  · subst hw
    cases m.worlds[i]? <;> simp
  · simp [hw]

/-- The values after a transition was added. -/
lemma value?_addEdge (m : Model) (i : WorldIndex) (a : Text) (tr : Transition) (w : WorldIndex)
    (prop : Text) :
    value? { m with worlds := m.worlds.modify i (World.addEdge · a tr) } w prop =
      m.value? w prop := by
  simp only [value?, Array.getElem?_modify]
  by_cases hw : i = w
  · subst hw
    cases m.worlds[i]? <;> simp [World.addEdge]
  · simp [hw]

/-- The transitions after one was added. -/
lemma successors_addEdge (m : Model) {i : WorldIndex} (hi : i < m.worlds.size) (a : Text)
    (tr : Transition) (w : WorldIndex) (action : Text) :
    successors { m with worlds := m.worlds.modify i (World.addEdge · a tr) } w action =
      if w = i ∧ action = a then m.successors w action ++ [tr] else m.successors w action := by
  simp only [successors, Array.getElem?_modify]
  by_cases hw : i = w
  · subst hw
    simp only [if_true, Array.getElem?_eq_getElem hi, Option.map_some, Option.bind_some,
      World.addEdge, getElem?_insert_eq_ite, true_and, eq_comm (a := action)]
    by_cases ha : a = action
    · subst ha
      simp
    · simp [ha]
  · simp [hw, Ne.symm hw]

lemma wellFormed_empty (ts : TwistStructure) : (empty ts).WellFormed where
  value_mem := by simp [value?, empty]
  weight_mem := by simp [successors, empty]
  target_lt := by simp [successors, empty]

/-- The revision does not matter for the contents of a model. -/
lemma WellFormed.withRevision {m : Model} (h : m.WellFormed) (r : Nat) :
    WellFormed { m with revision := r } :=
  ⟨h.value_mem, h.weight_mem, h.target_lt⟩

lemma WellFormed.place {m m' : Model} {spec : WorldSpec} (h : m.WellFormed)
    (hm : m.place spec = .ok m') : m'.WellFormed := by
  obtain ⟨-, hv, rfl⟩ := place_eq_ok_iff.mp hm
  constructor
  · intro w prop x hx
    rw [value?_push] at hx
    split at hx
    · exact hv prop x hx
    · exact h.value_mem w prop x hx
  · intro w action tr htr
    rw [successors_push m rfl] at htr
    exact h.weight_mem w action tr htr
  · intro w action tr htr
    rw [successors_push m rfl] at htr
    rw [Array.size_push]
    exact Nat.lt_succ_of_lt (h.target_lt w action tr htr)

lemma WellFormed.assign {m m' : Model} {world prop : Text} {x : TwistElement} (h : m.WellFormed)
    (hm : m.assign world prop x = .ok m') : m'.WellFormed := by
  obtain ⟨i, hi, hx, rfl⟩ := assign_eq_ok_iff.mp hm
  have hmem : ∀ {w a tr}, tr ∈ successors { m with
      worlds := m.worlds.modify i fun u => { u with valuation := u.valuation.insert prop x } } w a →
      tr ∈ m.successors w a := by
    intro w a tr htr
    rwa [successors_assign] at htr
  constructor
  · intro w p y hy
    have hy' := (value?_assign m (lt_size_of_findWorld? hi) prop x w p).symm.trans hy
    split at hy'
    · exact Option.some.inj hy' ▸ hx
    · exact h.value_mem w p y hy'
  · exact fun w a tr htr => h.weight_mem w a tr (hmem htr)
  · intro w a tr htr
    simpa using h.target_lt w a tr (hmem htr)

lemma WellFormed.addRelation {m m' : Model} {source target action : Text} {weight : TwistElement}
    (h : m.WellFormed) (hm : m.addRelation source target action weight = .ok m') :
    m'.WellFormed := by
  obtain ⟨src, dst, hsrc, hdst, hweight, rfl⟩ := addRelation_eq_ok_iff.mp hm
  have hmem : ∀ {w a tr}, tr ∈ successors { m with
      worlds := m.worlds.modify src (World.addEdge · action { target := dst, weight }) } w a →
      tr ∈ m.successors w a ∨ tr = { target := dst, weight } := by
    intro w a tr htr
    rw [successors_addEdge m (lt_size_of_findWorld? hsrc)] at htr
    split at htr
    · simpa using htr
    · exact .inl htr
  constructor
  · intro w p y hy
    exact h.value_mem w p y ((value?_addEdge m src action _ w p).symm.trans hy)
  · intro w a tr htr
    rcases hmem htr with htr | rfl
    · exact h.weight_mem w a tr htr
    · exact hweight
  · intro w a tr htr
    rcases hmem htr with htr | rfl
    · simpa using h.target_lt w a tr htr
    · simpa using lt_size_of_findWorld? hdst

end Model

/-- An edit keeps the twist structure of a model and its well-formedness. -/
theorem Edit.wellFormed_apply {m m' : Model} {e : Edit} (hm : m.WellFormed)
    (h : e.apply m = .ok m') : m'.twist = m.twist ∧ m'.WellFormed := by
  rcases apply_eq_ok h with ⟨id, v, h⟩ | ⟨specs, h⟩ | ⟨world, prop, x, h⟩ |
    ⟨source, target, action, weight, h⟩ | ⟨action, h⟩
  · obtain ⟨m₁, hplace, -, rfl⟩ := Model.addWorld_eq_ok_iff.mp h
    refine ⟨?_, (hm.place hplace).withRevision _⟩
    obtain ⟨-, -, rfl⟩ := Model.place_eq_ok_iff.mp hplace
    rfl
  · obtain ⟨m₁, hfold, rfl⟩ := Model.addWorlds_eq_ok_iff.mp h
    have hinv : m₁.twist = m.twist ∧ m₁.WellFormed := by
      refine foldlM_eq_ok_induction (fun m₁ => m₁.twist = m.twist ∧ m₁.WellFormed)
        (fun m₁ spec m₂ h₁ hplace => ?_) ⟨rfl, hm⟩ hfold
      refine ⟨?_, h₁.2.place hplace⟩
      obtain ⟨-, -, rfl⟩ := Model.place_eq_ok_iff.mp hplace
      exact h₁.1
    exact ⟨hinv.1, hinv.2.withRevision _⟩
  · refine ⟨?_, hm.assign h⟩
    obtain ⟨i, -, -, rfl⟩ := Model.assign_eq_ok_iff.mp h
    rfl
  · refine ⟨?_, hm.addRelation h⟩
    obtain ⟨src, dst, -, -, -, rfl⟩ := Model.addRelation_eq_ok_iff.mp h
    rfl
  · unfold Model.declareAction at h
    split at h
    · exact ⟨h ▸ rfl, h ▸ hm⟩
    · exact ⟨h ▸ rfl, h ▸ ⟨hm.value_mem, hm.weight_mem, hm.target_lt⟩⟩

/-- A reachable model is well-formed and has the twist structure that it was made over. -/
theorem Model.Reachable.wellFormed {ts : TwistStructure} {m : Model} (h : Reachable ts m) :
    m.twist = ts ∧ m.WellFormed := by
  induction h with
  | empty => exact ⟨rfl, wellFormed_empty ts⟩
  | edit e _ happly ih =>
    obtain ⟨htwist, hwell⟩ := e.wellFormed_apply ih.2 happly
    exact ⟨htwist.trans ih.1, hwell⟩

end TwistLogic
