import Mathlib.Data.List.Nodup
import TwistLogic.Proofs.Model.Storage

/-!
# What calls keep intact

The containers of a storage belong together: the index finds exactly the names that the worlds have,
all values and weights are elements of the twist structure, and transitions run between worlds under
known actions (`Storage.Valid`).  These are properties of the model that is kept
(`Model.Reachable.named`, `Model.Reachable.wellFormed`), and every call leads from a storage that
keeps a reachable model to another one (`Storage.Keeps.call`).  So they hold after any calls from
the empty storage on, whether these succeed or fail.

`Storage.call_spec` says this together with what a single call does at such a moment: a refused call
changes nothing, a successful one has its documented effect, and the revision rises unless nothing
has changed.
-/

namespace TwistLogic

/-! ## Names and actions of a model -/

namespace Model

variable {m m' : Model}

/-- No two worlds have the same name, and every action with a transition is known. -/
structure Named (m : Model) : Prop where
  names_nodup : (m.worlds.map (·.id)).toList.Nodup
  action_known : ∀ w action, m.successors w action ≠ [] → action ∈ m.actions

lemma named_empty (ts : TwistStructure) : (empty ts).Named where
  names_nodup := by simp [empty]
  action_known := by simp [empty, successors]

lemma Named.ids_nodup (h : m.Named) : m.ids.Nodup := by
  rw [ids, ← Array.toList_map]
  exact h.names_nodup

/-- A world is found exactly under its name. -/
lemma Named.findWorld?_eq_some_iff (h : m.Named) {id : Text} {w : WorldIndex} :
    m.findWorld? id = some w ↔ ∃ u, m.worlds[w]? = some u ∧ u.id = id := by
  rw [Model.findWorld?_eq_some_iff h.ids_nodup, ids, List.getElem?_map, Array.getElem?_toList,
    Option.map_eq_some_iff]

lemma Named.withRevision (h : m.Named) (r : Nat) : Named { m with revision := r } :=
  ⟨h.names_nodup, h.action_known⟩

lemma Named.place (h : m.Named) {spec : WorldSpec} (hm : m.place spec = .ok m') : m'.Named := by
  obtain ⟨hfree, -, rfl⟩ := place_eq_ok_iff.mp hm
  constructor
  · rw [Array.map_push, Array.toList_push, ← List.concat_eq_append]
    refine List.Nodup.concat ?_ h.names_nodup
    rw [Array.toList_map]
    exact findWorld?_eq_none_iff.mp hfree
  · intro w action hw
    rw [successors_push m rfl] at hw
    exact h.action_known w action hw

/-- A change of one world that keeps its name keeps all names apart. -/
lemma Named.nodup_modify (h : m.Named) {f : World → World} (hf : ∀ u, (f u).id = u.id)
    (w : WorldIndex) : ((m.worlds.modify w f).map (·.id)).toList.Nodup := by
  rw [map_modify_eq hf]
  exact h.names_nodup

lemma Named.assign (h : m.Named) {world prop : Text} {x : TwistElement}
    (hm : m.assign world prop x = .ok m') : m'.Named := by
  obtain ⟨i, -, -, rfl⟩ := assign_eq_ok_iff.mp hm
  have hname : ∀ u : World, { u with valuation := u.valuation.insert prop x }.id = u.id :=
    fun _ => rfl
  refine ⟨h.nodup_modify hname i, fun w action hw => ?_⟩
  exact h.action_known w action (successors_assign m i prop x w action ▸ hw)

lemma Named.addRelation (h : m.Named) {source target action : Text} {weight : TwistElement}
    (hm : m.addRelation source target action weight = .ok m') : m'.Named := by
  obtain ⟨src, dst, hsrc, -, -, rfl⟩ := addRelation_eq_ok_iff.mp hm
  have hname : ∀ u : World, (u.addEdge action { target := dst, weight }).id = u.id := fun _ => rfl
  refine ⟨h.nodup_modify hname src, fun w a hw => ?_⟩
  rw [Std.TreeSet.mem_insert, Std.LawfulEqCmp.compare_eq_iff_eq]
  have hsucc := m.successors_addEdge (lt_size_of_findWorld? hsrc) action
    { target := dst, weight } w a
  by_cases ha : action = a
  · exact .inl ha
  · rw [if_neg fun hwa => ha hwa.2.symm] at hsucc
    exact .inr (h.action_known w a (hsucc ▸ hw))

lemma Named.declareAction (h : m.Named) (action : Text) : (m.declareAction action).Named := by
  unfold Model.declareAction
  split
  · exact h
  · refine ⟨h.names_nodup, fun w a hw => ?_⟩
    rw [Std.TreeSet.mem_insert]
    exact .inr (h.action_known w a hw)

/-- Every edit keeps names apart and actions known. -/
lemma Named.edit (h : m.Named) {e : Edit} (he : e.apply m = .ok m') : m'.Named := by
  rcases e.apply_eq_ok he with ⟨id, v, he⟩ | ⟨specs, he⟩ | ⟨world, prop, x, he⟩ |
    ⟨source, target, action, weight, he⟩ | ⟨action, he⟩
  · obtain ⟨m₁, hplace, -, rfl⟩ := addWorld_eq_ok_iff.mp he
    exact (h.place hplace).withRevision _
  · obtain ⟨m₁, hfold, rfl⟩ := addWorlds_eq_ok_iff.mp he
    exact (foldlM_eq_ok_induction Named (fun _ _ _ h₁ => h₁.place) h hfold).withRevision _
  · exact h.assign he
  · exact h.addRelation he
  · exact he ▸ h.declareAction action

theorem Reachable.named {ts : TwistStructure} (h : Reachable ts m) : m.Named := by
  induction h with
  | empty => exact named_empty ts
  | edit e _ happly ih => exact ih.edit happly

end Model

/-! ## Containers that belong together -/

namespace Storage

variable {st : Storage} {m m' : Model} {ts : TwistStructure}

/-- The containers of a storage fit each other and its twist structure. -/
structure Valid (st : Storage) : Prop where
  names_nodup : (st.worlds.map (·.id)).toList.Nodup
  /-- The index finds a world exactly under its name. -/
  index_iff : ∀ id w, st.index[id]? = some w ↔ st.HasName w id
  value_mem : ∀ w prop x, st.value? w prop = some x → st.twist.contains x = true
  weight_mem : ∀ w action, ∀ tr ∈ st.successors w action, st.twist.contains tr.weight = true
  source_lt : ∀ w action, st.successors w action ≠ [] → w < st.worlds.size
  target_lt : ∀ w action, ∀ tr ∈ st.successors w action, tr.target < st.worlds.size
  action_known : ∀ w action, st.successors w action ≠ [] → action ∈ st.actions

namespace Keeps

lemma getElem?_worlds (h : st.Keeps m) (w : WorldIndex) :
    st.worlds[w]? = m.worlds[w]?.map World.spec := by
  rw [h.worlds, Array.getElem?_map]

lemma value?_eq (h : st.Keeps m) (w : WorldIndex) (prop : Text) :
    st.value? w prop = m.value? w prop := by
  rw [Storage.value?, h.getElem?_worlds, Model.value?]
  cases m.worlds[w]? <;> rfl

lemma hasName_iff (h : st.Keeps m) {w : WorldIndex} {id : Text} :
    st.HasName w id ↔ ∃ u, m.worlds[w]? = some u ∧ u.id = id := by
  simp only [HasName, h.getElem?_worlds, Option.map_eq_some_iff, exists_exists_and_eq_and]
  rfl

/-- What a storage keeps for a reachable model fits together. -/
theorem valid (h : st.Keeps m) (hm : Model.Reachable ts m) : st.Valid := by
  have hnamed := hm.named
  obtain ⟨-, hwf⟩ := hm.wellFormed
  constructor
  case names_nodup =>
    rw [h.worlds, Array.map_map]
    exact hnamed.names_nodup
  case index_iff =>
    intro id w
    rw [h.index, hnamed.findWorld?_eq_some_iff, h.hasName_iff]
  case value_mem =>
    intro w prop x hx
    rw [h.value?_eq] at hx
    exact h.twist ▸ hwf.value_mem w prop x hx
  case weight_mem =>
    intro w action tr htr
    rw [h.relations] at htr
    exact h.twist ▸ hwf.weight_mem w action tr htr
  case source_lt =>
    intro w action hw
    rw [h.relations] at hw
    rw [h.size_worlds]
    by_contra hge
    exact hw (by simp [Model.successors, Array.getElem?_eq_none (Nat.not_lt.mp hge)])
  case target_lt =>
    intro w action tr htr
    rw [h.relations] at htr
    exact h.size_worlds ▸ hwf.target_lt w action tr htr
  case action_known =>
    intro w action hw
    rw [h.relations] at hw
    exact h.actions ▸ hnamed.action_known w action hw

/-! ## Runs -/

/-- What a call performs is an edit of the model. -/
lemma reachable_apply (h : st.Keeps m) (hm : Model.Reachable ts m) {c : Call}
    (hc : c.apply m = .ok m') : Model.Reachable ts m' := by
  cases c with
  | edit e => exact hm.edit e hc
  | batch made =>
    have hperforms := h.performs (.batch made)
    rw [hc] at hperforms
    obtain ⟨_, _, _, _, _, specs, rfl, -⟩ := hperforms
    exact hm.edit (.addWorlds specs) ((apply_batch_map_ok specs).symm.trans hc)

/-- After a call, the storage keeps the model that the call leaves. -/
lemma call (h : st.Keeps m) (hm : Model.Reachable ts m) (c : Call) :
    (st.exec c.update).2.Keeps ((c.apply m).toOption.getD m) ∧
      Model.Reachable ts ((c.apply m).toOption.getD m) := by
  have hperforms := h.performs c
  cases hc : c.apply m with
  | error e =>
    rw [hc] at hperforms
    exact ⟨congrArg Prod.snd hperforms ▸ h, hm⟩
  | ok m' =>
    rw [hc] at hperforms
    obtain ⟨_, st', hexec, hkeeps, -, -⟩ := hperforms
    exact ⟨hexec ▸ hkeeps, h.reachable_apply hm hc⟩

/-- After any calls, the storage keeps the model that the calls leave. -/
lemma after (h : st.Keeps m) (hm : Model.Reachable ts m) (cs : List Call) :
    (st.after cs).Keeps (m.after cs) ∧ Model.Reachable ts (m.after cs) := by
  induction cs generalizing st m with
  | nil => exact ⟨h, hm⟩
  | cons c cs ih =>
    obtain ⟨h', hm'⟩ := h.call hm c
    exact ih h' hm'

end Keeps

/-- After any calls on the empty storage, the containers fit together and keep the model that the
same calls make out of the empty model.  The next call is refused by both or by neither.  If it is
refused, nothing has changed; if it succeeds, it has its documented effect, and the revision has
risen unless nothing has changed. -/
theorem call_spec (ts : TwistStructure) (cs : List Call) (c : Call) :
    let st := (empty ts).after cs
    let m := (Model.empty ts).after cs
    st.twist = ts ∧ st.Valid ∧ st.Keeps m ∧
    (∀ e, (st.exec c.update).1 = .error e ↔ c.apply m = .error e) ∧
    (∀ e, (st.exec c.update).1 = .error e → (st.exec c.update).2 = st) ∧
    ∀ number, (st.exec c.update).1 = .ok number →
      st.Effect (st.exec c.update).2 number c ∧
      ((st.exec c.update).2 = st ∨ st.revision < (st.exec c.update).2.revision) := by
  intro st m
  obtain ⟨h, hm⟩ := (keeps_empty ts).after .empty cs
  refine ⟨h.twist.trans hm.wellFormed.1, h.valid hm, h, ?_⟩
  have hperforms := h.performs c
  cases hc : c.apply m with
  | error e =>
    rw [hc] at hperforms
    rw [show st.exec c.update = (.error e, st) from hperforms]
    exact ⟨fun _ => by rw [Except.error.injEq, Except.error.injEq], fun _ _ => rfl, nofun⟩
  | ok m' =>
    rw [hc] at hperforms
    obtain ⟨number, st', hexec, -, hrev, heffect⟩ := hperforms
    rw [hexec]
    refine ⟨fun _ => iff_of_false nofun nofun, nofun, ?_⟩
    rintro _ ⟨⟩
    exact ⟨heffect, hrev⟩

end Storage

end TwistLogic
