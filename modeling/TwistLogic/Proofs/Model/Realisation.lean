import Mathlib.Data.List.Induction
import TwistLogic.Model.Description
import TwistLogic.Proofs.Algebra.Twist
import TwistLogic.Proofs.Model.Integrity

/-!
# What a description describes

A description is built if its values and weights are given by names of base elements, if the names
of its worlds are distinct and if its relations run between these worlds.  The model then has the
worlds in the order in which they are listed, and the transitions of a world under an action are the
relations that leave this world under this action, one for each of them and in their order
(`Model.Realises`).

Three things may be wrong with a description, and all values are looked at before any world is added
and all worlds are added before any relation.  So a strange name in a value is reported even if a
name is given to two worlds, and that is reported whatever the relations are
(`ModelDescription.build_realises`).
-/

namespace TwistLogic

/-! ## Names of elements -/

namespace TwistStructure

variable {ts : TwistStructure} {t f : Text} {x : TwistElement}

/-- Why two names stand for no pair: the first of them that no element of the base has. -/
def namesFault? (ts : TwistStructure) (t f : Text) : Option Mismatch :=
  if t ∉ ts.base.lattice.names then some (.twistNames t f t)
  else if f ∉ ts.base.lattice.names then some (.twistNames t f f)
  else none

lemma namesFault?_eq_none_iff :
    ts.namesFault? t f = none ↔ t ∈ ts.base.lattice.names ∧ f ∈ ts.base.lattice.names := by
  rw [namesFault?, ite_some_eq_none_iff, ite_some_eq_none_iff, not_not, not_not]
  tauto

lemma error?_element? (ts : TwistStructure) (t f : Text) :
    error? (ts.element? t f) = ts.namesFault? t f := by
  have hnone : ∀ name, ts.base.lattice.find? name = none ↔ name ∉ ts.base.lattice.names :=
    fun name => Array.idxOf?_eq_none_iff
  unfold element? namesFault?
  simp only [← hnone]
  cases ts.base.lattice.find? t <;> cases ts.base.lattice.find? f <;> rfl

/-- Names stand for elements only. -/
lemma contains_of_element?_eq_ok (h : ts.element? t f = .ok x) : ts.contains x = true := by
  unfold element? at h
  split at h
  next a b ha hb =>
    obtain rfl : TwistElement.mk a b = x := Except.ok.inj h
    have hlt : a < ts.base.size ∧ b < ts.base.size :=
      ⟨FiniteLattice.lt_size_of_idxOf? ha, FiniteLattice.lt_size_of_idxOf? hb⟩
    simpa [contains] using hlt
  all_goals cases h

end TwistStructure

/-- Resolving a valuation resolves each of its values. -/
lemma Model.getElem?_of_resolve_eq_ok {ts : TwistStructure} {v : NamedValuation} {v' : Valuation}
    (h : resolve ts v = .ok v') (prop : Text) (x : TwistElement) :
    v'[prop]? = some x ↔ ∃ t f, v[prop]? = some (t, f) ∧ ts.element? t f = .ok x := by
  obtain ⟨entries, hentries, hv'⟩ := bind_eq_ok_iff.mp h
  obtain rfl : Std.TreeMap.ofList entries compare = v' := pure_eq_ok_iff.mp hv'
  have hkeys : entries.map Prod.fst = v.toList.map Prod.fst := by
    refine map_eq_map_of_forall₂ (fun e e' he => ?_) (mapM_eq_ok_iff.mp hentries)
    obtain ⟨y, -, hy⟩ := bind_eq_ok_iff.mp he
    exact (congrArg Prod.fst (pure_eq_ok_iff.mp hy)).symm
  have hnodup : (entries.map Prod.fst).Nodup := by
    rw [hkeys, Std.TreeMap.map_fst_toList_eq_keys]
    exact Std.TreeMap.nodup_keys
  rw [getElem?_ofList_iff hnodup]
  constructor
  · intro hx
    obtain ⟨⟨p, t, f⟩, he, hstep⟩ := exists_of_mem_of_mapM_eq_ok hentries hx
    obtain ⟨y, hy, hpair⟩ := by simpa only [bind_eq_ok_iff, pure_eq_ok_iff] using hstep
    obtain ⟨rfl, rfl⟩ := Prod.mk.inj hpair
    exact ⟨t, f, Std.TreeMap.mem_toList_iff_getElem?_eq_some.mp he, hy⟩
  · rintro ⟨t, f, hvalue, hx⟩
    obtain ⟨e, he, hstep⟩ := exists_mem_of_mapM_eq_ok hentries
      (Std.TreeMap.mem_toList_iff_getElem?_eq_some.mpr hvalue)
    obtain ⟨y, hy, rfl⟩ := by simpa only [bind_eq_ok_iff, pure_eq_ok_iff] using hstep
    rwa [← Except.ok.inj (hy.symm.trans hx)]

/-! ## Adding the worlds -/

/-- A list that repeats something has a first member that stands before. -/
lemma exists_first_repeat {α : Type} {xs : List α} (h : ¬xs.Nodup) :
    ∃ before x after, xs = before ++ x :: after ∧ before.Nodup ∧ x ∈ before := by
  induction xs using List.reverseRecOn with
  | nil => exact absurd List.nodup_nil h
  | append_singleton xs x ih =>
    by_cases hxs : xs.Nodup
    · refine ⟨xs, x, [], rfl, hxs, ?_⟩
      by_contra hx
      exact h (List.concat_eq_append ▸ List.Nodup.concat hx hxs)
    · obtain ⟨before, y, after, rfl, hbefore, hy⟩ := ih hxs
      exact ⟨before, y, after ++ [x], by simp, hbefore, hy⟩

namespace Model

variable {m m' : Model} {ts : TwistStructure} {specs : List WorldSpec} {id : Text}
  {w : WorldIndex}

/-- The model without transitions that has some worlds. -/
def ofSpecs (ts : TwistStructure) (specs : List WorldSpec) (revision : Nat) : Model where
  twist := ts
  worlds := (specs.map WorldSpec.world).toArray
  actions := ∅
  revision := revision

section OfSpecs

variable (ts : TwistStructure) (specs : List WorldSpec) (revision : Nat)

lemma ids_ofSpecs : (ofSpecs ts specs revision).ids = specs.map (·.id) := by
  simp [ids, ofSpecs, WorldSpec.world]

lemma value?_ofSpecs (w : WorldIndex) (prop : Text) :
    (ofSpecs ts specs revision).value? w prop = (specs[w]?).bind (·.valuation[prop]?) := by
  simp only [value?, ofSpecs, List.getElem?_toArray, List.getElem?_map]
  cases specs[w]? <;> rfl

lemma successors_ofSpecs (w : WorldIndex) (action : Text) :
    (ofSpecs ts specs revision).successors w action = [] := by
  simp only [successors, ofSpecs, List.getElem?_toArray, List.getElem?_map]
  cases specs[w]? <;> simp [WorldSpec.world]

lemma relationCount_ofSpecs : (ofSpecs ts specs revision).relationCount = 0 := by
  have hnone : ∀ spec : WorldSpec, spec.world.edges.values.flatten = [] := fun _ => rfl
  simp [relationCount, ofSpecs, List.flatMap_map, hnone]

end OfSpecs

/-- Worlds with distinct names and proper values are placed one after the other. -/
lemma foldlM_place_of_nodup (hvalues : ∀ spec ∈ specs, ∀ (prop : Text) (x : TwistElement),
      spec.valuation[prop]? = some x → ts.contains x = true)
    (h : (specs.map (·.id)).Nodup) :
    specs.foldlM place (empty ts) = .ok (ofSpecs ts specs 0) := by
  induction specs using List.reverseRecOn with
  | nil => rfl
  | append_singleton specs spec ih =>
    rw [List.map_append, List.nodup_append'] at h
    obtain ⟨hnodup, -, hfresh⟩ := h
    have hplace : (ofSpecs ts specs 0).place spec = .ok (ofSpecs ts (specs ++ [spec]) 0) := by
      refine place_eq_ok_iff.mpr ⟨?_, hvalues spec (by simp), ?_⟩
      · rw [findWorld?_eq_none_iff, ids_ofSpecs]
        exact fun hmem => hfresh hmem (List.mem_singleton_self _)
      · simp [ofSpecs]
    rw [List.foldlM_append, ih (fun s hs => hvalues s (List.mem_append_left _ hs)) hnodup]
    change [spec].foldlM place (ofSpecs ts specs 0) = _
    rw [List.foldlM_cons, hplace]
    rfl

/-- Of worlds whose names are not distinct, the first is refused whose name was given before. -/
lemma foldlM_place_of_repeat (hvalues : ∀ spec ∈ specs, ∀ (prop : Text) (x : TwistElement),
      spec.valuation[prop]? = some x → ts.contains x = true)
    {before after : List WorldSpec} {spec : WorldSpec} (hsplit : specs = before ++ spec :: after)
    (hbefore : (before.map (·.id)).Nodup) (hspec : spec.id ∈ before.map (·.id)) :
    specs.foldlM place (empty ts) = .error (.duplicateWorld spec.id) := by
  subst hsplit
  have hplaced := foldlM_place_of_nodup (fun s hs => hvalues s (List.mem_append_left _ hs)) hbefore
  have hfound : ((ofSpecs ts before 0).findWorld? spec.id).isSome = true := by
    rw [Option.isSome_iff_ne_none, Ne, findWorld?_eq_none_iff, ids_ofSpecs, not_not]
    exact hspec
  have hplace : (ofSpecs ts before 0).place spec = .error (.duplicateWorld spec.id) := by
    rw [place, hfound]
    rfl
  rw [List.foldlM_append, hplaced]
  change (spec :: after).foldlM place (ofSpecs ts before 0) = _
  rw [List.foldlM_cons, hplace]
  rfl

end Model

/-! ## Counting transitions -/

section Count

variable {α : Type}

lemma values_eq_map_snd (t : Std.TreeMap Text α) : t.values = t.toList.map Prod.snd := by
  have hfoldr : t.values = t.foldr (fun _ v vs => v :: vs) [] := rfl
  rw [hfoldr, Std.TreeMap.foldr_eq_foldr_toList]
  exact List.map_eq_foldr.symm

/-- What is put behind the entry of a key is one more. -/
lemma length_flatten_insert (t : Std.TreeMap Text (List α)) (k : Text) (a : α) :
    (t.insert k ((t[k]?).getD [] ++ [a])).values.flatten.length =
      t.values.flatten.length + 1 := by
  -- the entries of the other keys
  set others := t.toList.filter fun e => decide ¬(k == e.1) = true with hothers
  have hinsert : ∀ as, (t.insert k as).values.flatten.length =
      as.length + (others.map Prod.snd).flatten.length := by
    intro as
    rw [values_eq_map_snd, (Std.TreeMap.toList_insert_perm.map Prod.snd).flatten.length_eq]
    simp [hothers]
  rw [hinsert]
  cases hk : t[k]? with
  | some as =>
    have hsame : (t.insert k as).Equiv t := by
      refine .of_forall_constGet?_eq fun k' => ?_
      rw [getElem?_insert_eq_ite]
      split
      next h => rw [← h, hk]
      next => rfl
    rw [← hsame.values_eq, hinsert, Option.getD_some, List.length_append, List.length_singleton,
      Nat.add_right_comm]
  | none =>
    have hall : others = t.toList := by
      refine List.filter_eq_self.mpr fun e he => ?_
      have hentry := Std.TreeMap.mem_toList_iff_getElem?_eq_some.mp he
      have hne : k ≠ e.1 := by
        rintro rfl
        rw [hk] at hentry
        cases hentry
      simpa using hne
    rw [hall, ← values_eq_map_snd, Option.getD_none, List.nil_append, List.length_singleton,
      Nat.add_comm]

end Count

namespace Model

/-- One more transition is counted as one more. -/
lemma relationCount_addEdge (m : Model) {w : WorldIndex} (hw : w < m.worlds.size) (action : Text)
    (tr : Transition) :
    relationCount { m with worlds := m.worlds.modify w (World.addEdge · action tr) } =
      m.relationCount + 1 := by
  have hlt : w < m.worlds.toList.length := by simpa using hw
  have hmodify : (m.worlds.modify w (World.addEdge · action tr)).toList =
      m.worlds.toList.take w ++ m.worlds[w].addEdge action tr :: m.worlds.toList.drop (w + 1) := by
    rw [Array.toList_modify, List.modify_eq_take_cons_drop hlt, Array.getElem_toList]
  have hsplit : m.worlds.toList =
      m.worlds.toList.take w ++ m.worlds[w] :: m.worlds.toList.drop (w + 1) := by
    rw [← Array.getElem_toList, ← List.drop_eq_getElem_cons, List.take_append_drop]
  have hcount : (m.worlds[w].addEdge action tr).edges.values.flatten.length =
      m.worlds[w].edges.values.flatten.length + 1 := length_flatten_insert _ action tr
  rw [relationCount, relationCount, hmodify]
  conv_rhs => rw [hsplit]
  simp only [List.flatMap_append, List.flatMap_cons, List.length_append, hcount]
  omega

end Model

/-! ## Adding the relations -/

namespace RelationDescription

/-- Whether a relation leaves a world under an action, if the worlds have the names `ids`. -/
def leaves (ids : List Text) (w : WorldIndex) (action : Text) (r : RelationDescription) : Bool :=
  ids[w]? == some r.source && r.action == action

/-- A relation becomes a transition to the world that it names, with the weight that it names. -/
structure Becomes (ts : TwistStructure) (ids : List Text) (r : RelationDescription)
    (tr : Transition) : Prop where
  target : ids[tr.target]? = some r.target
  weight : ts.element? r.t r.f = .ok tr.weight

/-- Why a relation is refused between worlds with the names `ids`: the worlds come first. -/
def fault? (ts : TwistStructure) (ids : List Text) (r : RelationDescription) : Option ModelError :=
  if r.source ∉ ids then some (.unknownWorld r.source)
  else if r.target ∉ ids then some (.unknownWorld r.target)
  else (ts.namesFault? r.t r.f).map .mismatch

end RelationDescription

namespace Model

open RelationDescription (leaves Becomes fault?)

variable {m m' m'' : Model} {r : RelationDescription} {rs rs' : List RelationDescription}

/-- A model with some relations more. -/
structure ExtendedBy (m : Model) (rs : List RelationDescription) (m' : Model) : Prop where
  twist : m'.twist = m.twist
  ids : m'.ids = m.ids
  value?_eq : ∀ w prop, m'.value? w prop = m.value? w prop
  successors : ∀ w action, ∃ added,
    List.Forall₂ (Becomes m.twist m.ids) (rs.filter (leaves m.ids w action)) added ∧
      m'.successors w action = m.successors w action ++ added
  mem_actions : ∀ action,
    action ∈ m'.actions ↔ action ∈ m.actions ∨ ∃ r ∈ rs, r.action = action
  relationCount : m'.relationCount = m.relationCount + rs.length

lemma ExtendedBy.refl (m : Model) : m.ExtendedBy [] m where
  twist := rfl
  ids := rfl
  value?_eq _ _ := rfl
  successors _ _ := ⟨[], .nil, (List.append_nil _).symm⟩
  mem_actions _ := by simp
  relationCount := rfl

lemma ExtendedBy.trans (h : m.ExtendedBy rs m') (h' : m'.ExtendedBy rs' m'') :
    m.ExtendedBy (rs ++ rs') m'' where
  twist := h'.twist.trans h.twist
  ids := h'.ids.trans h.ids
  value?_eq w prop := (h'.value?_eq w prop).trans (h.value?_eq w prop)
  successors w action := by
    obtain ⟨added, hadded, hsucc⟩ := h.successors w action
    obtain ⟨added', hadded', hsucc'⟩ := h'.successors w action
    rw [h.twist, h.ids] at hadded'
    refine ⟨added ++ added', ?_, by rw [hsucc', hsucc, List.append_assoc]⟩
    rw [List.filter_append]
    exact List.rel_append hadded hadded'
  mem_actions action := by
    simp only [h'.mem_actions, h.mem_actions, List.mem_append, or_and_right, exists_or, or_assoc]
  relationCount := by
    rw [h'.relationCount, h.relationCount, List.length_append, Nat.add_assoc]

/-- What one relation adds. -/
lemma extendedBy_addRelation (hnodup : m.ids.Nodup)
    (h : ModelDescription.addRelation m r = .ok m') : m.ExtendedBy [r] m' := by
  obtain ⟨weight, hweight, hadd⟩ := addRelationNamed_eq_ok_iff.mp h
  obtain ⟨src, dst, hsrc, hdst, -, rfl⟩ := addRelation_eq_ok_iff.mp hadd
  have hlt := lt_size_of_findWorld? hsrc
  rw [findWorld?_eq_some_iff hnodup] at hsrc hdst
  constructor
  case twist => rfl
  case ids =>
    rw [Model.ids, Model.ids, ← Array.toList_map, ← Array.toList_map]
    exact congrArg Array.toList
      (map_modify_eq (f := (World.addEdge · r.action ⟨dst, weight⟩)) fun _ => rfl)
  case value?_eq => exact m.value?_addEdge src r.action ⟨dst, weight⟩
  case successors =>
    intro w action
    have hleaves : leaves m.ids w action r = true ↔ w = src ∧ action = r.action := by
      rw [leaves, Bool.and_eq_true, beq_iff_eq, beq_iff_eq, ← hsrc, eq_comm (a := r.action)]
      refine and_congr_left fun _ => ⟨fun hw => ?_, fun hw => hw ▸ rfl⟩
      have hin : w < m.ids.length := (List.getElem?_eq_some_iff.mp (hw.trans hsrc)).1
      exact (List.getElem?_inj hin hnodup).mp hw
    have hsucc := m.successors_addEdge hlt r.action ⟨dst, weight⟩ w action
    by_cases hw : w = src ∧ action = r.action
    · rw [if_pos hw] at hsucc
      refine ⟨[⟨dst, weight⟩], ?_, hsucc⟩
      rw [List.filter_singleton, hleaves.mpr hw]
      exact .cons ⟨hdst, hweight⟩ .nil
    · rw [if_neg hw] at hsucc
      refine ⟨[], ?_, hsucc.trans (List.append_nil _).symm⟩
      rw [List.filter_singleton, Bool.eq_false_iff.mpr (hleaves.not.mpr hw)]
      exact .nil
  case mem_actions =>
    intro action
    rw [Std.TreeSet.mem_insert, Std.LawfulEqCmp.compare_eq_iff_eq, or_comm]
    simp
  case relationCount => exact m.relationCount_addEdge hlt r.action ⟨dst, weight⟩

/-- A relation is refused for its source, else for its target, else for its weight. -/
lemma error?_addRelation (m : Model) (r : RelationDescription) :
    error? (ModelDescription.addRelation m r) = r.fault? m.twist m.ids := by
  unfold ModelDescription.addRelation addRelationNamed fault? worldIndex
  simp only [← findWorld?_eq_none_iff]
  cases hsrc : m.findWorld? r.source with
  | none => rfl
  | some src =>
    cases hdst : m.findWorld? r.target with
    | none => rfl
    | some dst =>
      rw [if_neg nofun, if_neg nofun, ← TwistStructure.error?_element?]
      cases hweight : m.twist.element? r.t r.f with
      | error e => rfl
      | ok weight =>
        refine error?_eq_none_iff.mpr ⟨_, addRelation_eq_ok_iff.mpr ⟨src, dst, hsrc, hdst, ?_, rfl⟩⟩
        exact TwistStructure.contains_of_element?_eq_ok hweight

/-- What some relations add. -/
lemma extendedBy_of_foldlM (hnodup : m.ids.Nodup)
    (h : rs.foldlM ModelDescription.addRelation m = .ok m') : m.ExtendedBy rs m' := by
  induction rs generalizing m with
  | nil =>
    obtain rfl : m = m' := pure_eq_ok_iff.mp h
    exact .refl m
  | cons r rs ih =>
    rw [List.foldlM_cons, bind_eq_ok_iff] at h
    obtain ⟨m₁, hr, hrest⟩ := h
    have h₁ := extendedBy_addRelation hnodup hr
    exact h₁.trans (ih (h₁.ids ▸ hnodup) hrest)

/-- Some relations are refused for the first of them that is. -/
lemma error?_foldlM_addRelation (hnodup : m.ids.Nodup) (rs : List RelationDescription) :
    error? (rs.foldlM ModelDescription.addRelation m) =
      rs.findSome? (fault? m.twist m.ids) := by
  induction rs generalizing m with
  | nil => rfl
  | cons r rs ih =>
    rw [List.foldlM_cons, List.findSome?_cons, ← error?_addRelation]
    cases hr : ModelDescription.addRelation m r with
    | error e => rfl
    | ok m₁ =>
      have h₁ := extendedBy_addRelation hnodup hr
      have hrest := ih (h₁.ids ▸ hnodup)
      rw [h₁.ids, h₁.twist] at hrest
      exact hrest

end Model

/-! ## Declaring the actions -/

/-- Declaring actions changes which actions are known, and nothing else that can be looked up. -/
lemma Model.foldl_declareAction (m : Model) (as : List Text) :
    ∃ actions revision, as.foldl declareAction m = { m with actions, revision } ∧
      ∀ action, action ∈ actions ↔ action ∈ m.actions ∨ action ∈ as := by
  induction as generalizing m with
  | nil => exact ⟨m.actions, m.revision, rfl, by simp⟩
  | cons a as ih =>
    obtain ⟨actions, revision, heq, hmem⟩ := ih (m.declareAction a)
    refine ⟨actions, revision, ?_, fun action => ?_⟩
    · rw [List.foldl_cons, heq, declareAction]
      split <;> rfl
    · have hdeclared : action ∈ (m.declareAction a).actions ↔ action ∈ m.actions ∨ action = a := by
        unfold declareAction hasAction
        split
        next ha =>
          refine ⟨.inl, ?_⟩
          rintro (h | rfl)
          · exact h
          · exact ha
        next =>
          rw [Std.TreeSet.mem_insert, Std.LawfulEqCmp.compare_eq_iff_eq, or_comm, eq_comm]
      rw [hmem, hdeclared, List.mem_cons, or_assoc]

/-! ## The main statement -/

namespace ModelDescription

open RelationDescription (leaves Becomes fault?)

variable {d : ModelDescription} {ts : TwistStructure}

/-- The names of the worlds, in the order in which they are listed. -/
def ids (d : ModelDescription) : List Text := d.worlds.map (·.id)

/-- All values are given by names of base elements. -/
def ValuesNamed (d : ModelDescription) (ts : TwistStructure) : Prop :=
  ∀ u ∈ d.worlds, ∀ (prop t f : Text), u.valuation[prop]? = some (t, f) →
    t ∈ ts.base.lattice.names ∧ f ∈ ts.base.lattice.names

/-- All relations run between listed worlds and have weights that are given by names of base
elements. -/
def RelationsFit (d : ModelDescription) (ts : TwistStructure) : Prop :=
  ∀ r ∈ d.relations, r.source ∈ d.ids ∧ r.target ∈ d.ids ∧
    r.t ∈ ts.base.lattice.names ∧ r.f ∈ ts.base.lattice.names

/-- Why the values of a world are refused. -/
def valueFault? (ts : TwistStructure) (u : WorldDescription) : Option Mismatch :=
  u.valuation.toList.findSome? fun (_, t, f) => ts.namesFault? t f

/-- A model over a twist structure is as a description says. -/
structure RealisedBy (d : ModelDescription) (ts : TwistStructure) (m : Model) : Prop where
  twist : m.twist = ts
  ids : m.ids = d.ids
  value?_iff : ∀ {w u}, d.worlds[w]? = some u → ∀ (prop : Text) (x : TwistElement),
    m.value? w prop = some x ↔ ∃ t f, u.valuation[prop]? = some (t, f) ∧ ts.element? t f = .ok x
  successors : ∀ w action, List.Forall₂ (Becomes ts d.ids)
    (d.relations.filter (leaves d.ids w action)) (m.successors w action)
  mem_actions : ∀ action,
    action ∈ m.actions ↔ (∃ r ∈ d.relations, r.action = action) ∨ action ∈ d.actions
  relationCount : m.relationCount = d.relations.length

lemma valueFault?_eq_none_iff {u : WorldDescription} :
    valueFault? ts u = none ↔ ∀ (prop t f : Text), u.valuation[prop]? = some (t, f) →
      t ∈ ts.base.lattice.names ∧ f ∈ ts.base.lattice.names := by
  simp only [valueFault?, List.findSome?_eq_none_iff, Prod.forall,
    Std.TreeMap.mem_toList_iff_getElem?_eq_some, TwistStructure.namesFault?_eq_none_iff]

lemma valuesNamed_iff : d.ValuesNamed ts ↔ d.worlds.findSome? (valueFault? ts) = none := by
  simp only [ValuesNamed, List.findSome?_eq_none_iff, valueFault?_eq_none_iff]

lemma relationsFit_iff :
    d.RelationsFit ts ↔ d.relations.findSome? (fault? ts d.ids) = none := by
  simp only [RelationsFit, List.findSome?_eq_none_iff, fault?, ite_some_eq_none_iff, not_not,
    Option.map_eq_none_iff, TwistStructure.namesFault?_eq_none_iff]

/-- The first value with a strange name is the reason why worlds are not resolved. -/
lemma error?_resolveWorlds (ts : TwistStructure) (worlds : List WorldDescription) :
    error? (worlds.mapM (resolveWorld ts)) =
      (worlds.findSome? (valueFault? ts)).map .mismatch := by
  have hworld : ∀ u, error? (resolveWorld ts u) = (valueFault? ts u).map .mismatch := by
    intro u
    have hentry : ∀ e : Text × Text × Text,
        error? (do return (e.1, ← ts.element? e.2.1 e.2.2)) = ts.namesFault? e.2.1 e.2.2 :=
      fun e => (error?_bind_pure _ _).trans (ts.error?_element? e.2.1 e.2.2)
    rw [resolveWorld, error?_bind_pure, error?_mapError, Model.resolve, error?_bind_pure,
      error?_mapM_eq_findSome?, valueFault?]
    exact congrArg (Option.map ModelError.mismatch)
      (congrArg (fun f => u.valuation.toList.findSome? f) (funext hentry))
  rw [error?_mapM_eq_findSome?, List.map_findSome?]
  exact congrArg (fun f => worlds.findSome? f) (funext hworld)

/-- A resolved world has the described name, and the values that the names stand for. -/
structure Resolves (ts : TwistStructure) (u : WorldDescription) (spec : WorldSpec) : Prop where
  id : spec.id = u.id
  value_iff : ∀ (prop : Text) (x : TwistElement), spec.valuation[prop]? = some x ↔
    ∃ t f, u.valuation[prop]? = some (t, f) ∧ ts.element? t f = .ok x

lemma resolves_of_resolveWorld {u : WorldDescription} {spec : WorldSpec}
    (h : resolveWorld ts u = .ok spec) : Resolves ts u spec := by
  obtain ⟨v, hv, hspec⟩ := bind_eq_ok_iff.mp h
  obtain rfl := pure_eq_ok_iff.mp hspec
  exact ⟨rfl, Model.getElem?_of_resolve_eq_ok (mapError_eq_ok_iff.mp hv)⟩

section Specs

variable {specs : List WorldSpec}

lemma resolves_of_mapM (h : d.worlds.mapM (resolveWorld ts) = .ok specs) :
    List.Forall₂ (Resolves ts) d.worlds specs :=
  (mapM_eq_ok_iff.mp h).imp fun _ _ => resolves_of_resolveWorld

lemma map_id_of_resolves (h : List.Forall₂ (Resolves ts) d.worlds specs) :
    specs.map (·.id) = d.ids :=
  map_eq_map_of_forall₂ (fun _ _ hu => hu.id) h

lemma contains_of_mapM (h : d.worlds.mapM (resolveWorld ts) = .ok specs) :
    ∀ spec ∈ specs, ∀ (prop : Text) (x : TwistElement), spec.valuation[prop]? = some x →
      ts.contains x = true := by
  intro spec hspec prop x hx
  obtain ⟨u, -, hu⟩ := exists_of_mem_of_mapM_eq_ok h hspec
  obtain ⟨t, f, -, hx⟩ := ((resolves_of_resolveWorld hu).value_iff prop x).mp hx
  exact TwistStructure.contains_of_element?_eq_ok hx

/-- The worlds of a description, to which its relations and actions are added, make the model that
it describes. -/
lemma realisedBy_of_extendedBy {revision revision' : Nat} {m : Model} {actions : Std.TreeSet Text}
    (hspecs : List.Forall₂ (Resolves ts) d.worlds specs)
    (hrelations : (Model.ofSpecs ts specs revision).ExtendedBy d.relations m)
    (hactions : ∀ action, action ∈ actions ↔ action ∈ m.actions ∨ action ∈ d.actions) :
    d.RealisedBy ts { m with actions, revision := revision' } := by
  have hids : (Model.ofSpecs ts specs revision).ids = d.ids :=
    (Model.ids_ofSpecs ts specs revision).trans (map_id_of_resolves hspecs)
  constructor
  case twist => exact hrelations.twist
  case ids => exact hrelations.ids.trans hids
  case value?_iff =>
    intro w u hu prop x
    obtain ⟨hw, rfl⟩ := List.getElem?_eq_some_iff.mp hu
    have hw' : w < specs.length := hspecs.length_eq ▸ hw
    have hvalue : m.value? w prop = (specs[w]).valuation[prop]? := by
      rw [hrelations.value?_eq, Model.value?_ofSpecs, List.getElem?_eq_getElem hw']
      rfl
    exact (Eq.congr_left hvalue).trans ((hspecs.get hw hw').value_iff prop x)
  case successors =>
    intro w action
    obtain ⟨added, hadded, hsucc⟩ := hrelations.successors w action
    rw [Model.successors_ofSpecs, List.nil_append] at hsucc
    rw [hids] at hadded
    exact hsucc ▸ hadded
  case mem_actions =>
    intro action
    rw [hactions, hrelations.mem_actions]
    simp [Model.ofSpecs]
  case relationCount =>
    have hcount := hrelations.relationCount
    rwa [Model.relationCount_ofSpecs, Nat.zero_add] at hcount

end Specs

/-- A strange name in a value is reported, whatever else is wrong. -/
lemma build_of_not_valuesNamed (h : ¬d.ValuesNamed ts) :
    ∃ e, d.worlds.findSome? (valueFault? ts) = some e ∧
      d.build (some ts) = .error (.mismatch e) := by
  rw [valuesNamed_iff, ← Ne, Option.ne_none_iff_exists'] at h
  obtain ⟨e, he⟩ := h
  have herror := error?_resolveWorlds ts d.worlds
  rw [he, Option.map_some, error?_eq_some_iff] at herror
  refine ⟨e, he, ?_⟩
  change d.worlds.mapM (resolveWorld ts) >>= _ = _
  rw [herror]
  rfl

lemma exists_mapM_of_valuesNamed (h : d.ValuesNamed ts) :
    ∃ specs, d.worlds.mapM (resolveWorld ts) = .ok specs := by
  rw [← error?_eq_none_iff, error?_resolveWorlds, valuesNamed_iff.mp h]
  rfl

/-- If all values are proper, the first name that was given before is reported. -/
lemma build_of_not_nodup (hvalues : d.ValuesNamed ts) (h : ¬d.ids.Nodup) :
    ∃ before u after, d.worlds = before ++ u :: after ∧ (before.map (·.id)).Nodup ∧
      u.id ∈ before.map (·.id) ∧ d.build (some ts) = .error (.duplicateWorld u.id) := by
  obtain ⟨specs, hspecs⟩ := exists_mapM_of_valuesNamed hvalues
  have hids := map_id_of_resolves (resolves_of_mapM hspecs)
  obtain ⟨names, name, names', hsplit, hbefore, hname⟩ := exists_first_repeat h
  obtain ⟨before, rest, hworlds, rfl, hrest⟩ := List.map_eq_append_iff.mp hsplit
  obtain ⟨u, after, rfl, rfl, rfl⟩ := List.map_eq_cons_iff.mp hrest
  obtain ⟨specs₁, rest, rfl, hspecs₁, hrest⟩ := List.map_eq_append_iff.mp (hids.trans hsplit)
  obtain ⟨spec, specs₂, rfl, hspec, -⟩ := List.map_eq_cons_iff.mp hrest
  have hfold := Model.foldlM_place_of_repeat (contains_of_mapM hspecs) rfl
    (hspecs₁ ▸ hbefore) (hspecs₁ ▸ hspec ▸ hname)
  refine ⟨before, u, after, hworlds, hbefore, hname, ?_⟩
  change d.worlds.mapM (resolveWorld ts) >>= _ = _
  rw [hspecs]
  change (Model.empty ts).addWorlds _ >>= _ = _
  rw [Model.addWorlds, hfold, hspec]
  rfl

/-- If all values are proper and all names are distinct, the first bad relation is reported, and if
there is none, the model is as it is described. -/
lemma build_of_nodup (hvalues : d.ValuesNamed ts) (hnodup : d.ids.Nodup) :
    error? (d.build (some ts)) = d.relations.findSome? (fault? ts d.ids) ∧
      ∀ m, d.build (some ts) = .ok m → d.RealisedBy ts m := by
  obtain ⟨specs, hspecs⟩ := exists_mapM_of_valuesNamed hvalues
  have hresolves := resolves_of_mapM hspecs
  have hids := map_id_of_resolves hresolves
  obtain ⟨revision, hworlds⟩ : ∃ revision,
      (Model.empty ts).addWorlds specs = .ok (.ofSpecs ts specs revision) := by
    refine ⟨if specs.isEmpty then 0 else 1,
      Model.addWorlds_eq_ok_iff.mpr ⟨.ofSpecs ts specs 0, ?_, rfl⟩⟩
    exact Model.foldlM_place_of_nodup (contains_of_mapM hspecs) (hids.symm ▸ hnodup)
  have hbuild : d.build (some ts) = (do
      let m ← d.relations.foldlM addRelation (.ofSpecs ts specs revision)
      return d.actions.foldl Model.declareAction m) := by
    change (d.worlds.mapM (resolveWorld ts) >>= fun specs =>
      (Model.empty ts).addWorlds specs >>= _) = _
    rw [hspecs]
    change (Model.empty ts).addWorlds specs >>= _ = _
    rw [hworlds]
    rfl
  have hids' := (Model.ids_ofSpecs ts specs revision).trans hids
  have hnodup' := hids'.symm ▸ hnodup
  rw [hbuild]
  constructor
  · rw [error?_bind_pure, Model.error?_foldlM_addRelation hnodup', hids']
    rfl
  · intro m hm
    obtain ⟨m₁, hrelations, hactions⟩ := bind_eq_ok_iff.mp hm
    obtain rfl := pure_eq_ok_iff.mp hactions
    obtain ⟨actions, revision', heq, hmem⟩ := m₁.foldl_declareAction d.actions
    rw [heq]
    exact realisedBy_of_extendedBy hresolves (Model.extendedBy_of_foldlM hnodup' hrelations) hmem

/-- A description is built exactly if its values and weights are given by names of base elements,
the names of its worlds are distinct and its relations run between these worlds.  What is built is
the described model.  Otherwise the first strange name in a value is reported; if there is none, the
first name that was given to an earlier world; and if there is none either, what is wrong with the
first bad relation. -/
theorem build_realises (d : ModelDescription) (ts : TwistStructure) :
    let outcome := d.build (some ts)
    ((∃ m, outcome = .ok m) ↔ d.ValuesNamed ts ∧ d.ids.Nodup ∧ d.RelationsFit ts) ∧
    (∀ m, outcome = .ok m → d.RealisedBy ts m) ∧
    (¬d.ValuesNamed ts →
      ∃ e, d.worlds.findSome? (valueFault? ts) = some e ∧ outcome = .error (.mismatch e)) ∧
    (d.ValuesNamed ts → ¬d.ids.Nodup →
      ∃ before u after, d.worlds = before ++ u :: after ∧ (before.map (·.id)).Nodup ∧
        u.id ∈ before.map (·.id) ∧ outcome = .error (.duplicateWorld u.id)) ∧
    (d.ValuesNamed ts → d.ids.Nodup →
      error? outcome = d.relations.findSome? (fault? ts d.ids)) := by
  intro outcome
  by_cases hvalues : d.ValuesNamed ts
  case neg =>
    obtain ⟨e, he, hbuild⟩ := build_of_not_valuesNamed hvalues
    have hno : ∀ m, outcome ≠ .ok m := fun m hm => nomatch hbuild.symm.trans hm
    exact ⟨⟨fun ⟨m, hm⟩ => absurd hm (hno m), fun h => absurd h.1 hvalues⟩,
      fun m hm => absurd hm (hno m), fun _ => ⟨e, he, hbuild⟩, fun h => absurd h hvalues,
      fun h => absurd h hvalues⟩
  by_cases hnodup : d.ids.Nodup
  case neg =>
    obtain ⟨before, u, after, hsplit, hbefore, hu, hbuild⟩ := build_of_not_nodup hvalues hnodup
    have hno : ∀ m, outcome ≠ .ok m := fun m hm => nomatch hbuild.symm.trans hm
    exact ⟨⟨fun ⟨m, hm⟩ => absurd hm (hno m), fun h => absurd h.2.1 hnodup⟩,
      fun m hm => absurd hm (hno m), fun h => absurd hvalues h,
      fun _ _ => ⟨before, u, after, hsplit, hbefore, hu, hbuild⟩, fun _ h => absurd h hnodup⟩
  obtain ⟨herror, hrealised⟩ := build_of_nodup hvalues hnodup
  refine ⟨?_, hrealised, fun h => absurd hvalues h, fun _ h => absurd hnodup h, fun _ _ => herror⟩
  rw [← error?_eq_none_iff, herror, ← relationsFit_iff]
  exact ⟨fun h => ⟨hvalues, hnodup, h⟩, fun h => h.2.2⟩

/-- The name of the first world is given to the second one as well, and the relation leads nowhere;
but the second world has a value with a strange name. -/
example :
    let d : ModelDescription := {
      twist := ascii "T"
      worlds := [⟨ascii "u", ∅⟩, ⟨ascii "u", .ofList [(ascii "p", ascii "1", ascii "?")]⟩]
      relations := [⟨ascii "u", ascii "v", ascii "a", ascii "1", ascii "0"⟩]
      actions := [] }
    error? (d.build (some .fourValued)) =
      some (.mismatch (.twistNames (ascii "1") (ascii "?") (ascii "?"))) := by
  decide +kernel

end ModelDescription

end TwistLogic
