import TwistLogic.Model.Description
import TwistLogic.Proofs.Model.Integrity
import TwistLogic.Proofs.Model.Verdict

/-!
# Describing a model step by step

A described model can be made in containers: `Update.describe` adds the worlds as one batch, then
the relations one by one and then the actions.  Unlike a single call it may fail after it has
changed something, so a failure leaves containers with a part of the model, and whoever runs it has
to throw them away.  If it succeeds, the containers keep the model that `ModelDescription.build`
makes, and otherwise it fails for the same reason (`Storage.follows_describe`).

`Storage.model` is the way back: the model that is read off the containers.  It holds the same as
every model that they keep (`Storage.Keeps.sameContent`), so it has the same answers.
-/

namespace TwistLogic

/-! ## Models in their containers -/

/-- The model that is read off the containers. -/
def Storage.model (st : Storage) : Model where
  twist := st.twist
  worlds := st.worlds.mapIdx fun w spec => {
    id := spec.id
    valuation := spec.valuation
    edges := .ofList <| st.relations.toList.filterMap fun (key, trs) =>
      if key.source = w then some (key.action, trs) else none }
  actions := st.actions
  revision := st.revision

namespace Storage

variable {st : Storage} {m : Model}

lemma value?_model (st : Storage) (w : WorldIndex) (prop : Text) :
    st.model.value? w prop = st.value? w prop := by
  rw [Model.value?, model, Array.getElem?_mapIdx, Storage.value?]
  cases st.worlds[w]? <;> rfl

/-- The entries of one source by action. -/
lemma getElem?_ofList_source (t : Std.TreeMap EdgeKey (List Transition)) (w : WorldIndex)
    (action : Text) :
    (Std.TreeMap.ofList (t.toList.filterMap fun (key, trs) =>
        if key.source = w then some (key.action, trs) else none) compare)[action]? =
      t[EdgeKey.mk w action]? := by
  generalize hentries : (t.toList.filterMap fun (key, trs) =>
    if key.source = w then some (key.action, trs) else none) = entries
  have hmem : ∀ a trs, (a, trs) ∈ entries ↔ t[EdgeKey.mk w a]? = some trs := by
    intro a trs
    simp only [← hentries, List.mem_filterMap, Prod.exists, Option.ite_none_right_eq_some,
      Option.some.injEq, Prod.mk.injEq, Std.TreeMap.mem_toList_iff_getElem?_eq_some]
    constructor
    · rintro ⟨⟨_, _⟩, _, hentry, rfl, rfl, rfl⟩
      exact hentry
    · exact fun hentry => ⟨⟨w, a⟩, trs, hentry, rfl, rfl, rfl⟩
  -- entries of one source differ in their actions, because their keys differ
  have hnodup : (entries.map Prod.fst).Nodup := by
    rw [← hentries, List.Nodup, List.pairwise_map, List.pairwise_filterMap]
    refine Std.TreeMap.distinct_keys_toList.imp fun {x y} hkeys e he e' he' hactions => hkeys ?_
    simp only [Option.ite_none_right_eq_some, Option.some.injEq] at he he'
    obtain ⟨hx, rfl⟩ := he
    obtain ⟨hy, rfl⟩ := he'
    rw [Std.LawfulEqCmp.compare_eq_iff_eq, EdgeKey.mk.injEq]
    exact ⟨hx.trans hy.symm, hactions⟩
  exact Option.ext fun trs => (getElem?_ofList_iff hnodup).trans (hmem action trs)

/-- The transitions of a world are those whose keys have it as their source. -/
lemma successors_model {w : WorldIndex} (hw : w < st.worlds.size) (action : Text) :
    st.model.successors w action = st.successors w action := by
  simp only [Model.successors, model, Array.getElem?_mapIdx, Array.getElem?_eq_getElem hw,
    Option.map_some, Option.bind_some, Storage.successors, getElem?_ofList_source]

/-- The model that is read off the containers holds the same as the model that they keep. -/
theorem Keeps.sameContent (h : st.Keeps m) : st.model.SameContent m where
  twist := h.twist
  ids := by
    refine Array.ext_getElem? fun w => ?_
    rw [Array.getElem?_map, Array.getElem?_map, model, Array.getElem?_mapIdx, h.getElem?_worlds]
    cases m.worlds[w]? <;> rfl
  value?_eq w prop := (st.value?_model w prop).trans (h.value?_eq w prop)
  successors_eq w action := by
    by_cases hw : w < st.worlds.size
    · rw [successors_model hw, h.relations]
    · have hout : st.worlds.size ≤ w ∧ m.worlds.size ≤ w := by
        rw [← h.size_worlds]
        exact ⟨Nat.not_lt.mp hw, Nat.not_lt.mp hw⟩
      simp [Model.successors, model, hout]
  hasAction_eq action := congrArg (·.contains action) h.actions

end Storage

/-! ## Descriptions -/

/-- Resolves the values of all worlds of a description. -/
def Update.resolveWorlds (worlds : List WorldDescription) : Update (List WorldSpec) := do
  let ts := (← get).twist
  ExceptT.mk (pure (worlds.mapM (ModelDescription.resolveWorld ts)))

/-- Makes a described model out of empty containers. -/
def Update.describe (d : ModelDescription) : Update Unit := do
  let specs ← resolveWorlds d.worlds
  addBatch (specs.map .ok)
  d.relations.forM fun r => addRelationNamed r.source r.target r.action r.t r.f
  d.actions.forM declareAction

namespace Storage

section Follows

variable {α β : Type} {st : Storage} {m : Model} {r : Except ModelError Model}

/-- An update fails as the model does, or it leaves a storage that keeps the changed model. -/
def Follows (st : Storage) (c : Update α) (r : Except ModelError Model) : Prop :=
  match r with
  | .error e => (st.exec c).1 = .error e
  | .ok m => ∃ a st', st.exec c = (.ok a, st') ∧ st'.Keeps m

lemma Follows.exec_eq {c : Update α} {e : ModelError} (h : st.Follows c (.error e)) :
    ∃ st', st.exec c = (.error e, st') :=
  ⟨_, Prod.ext h rfl⟩

/-- What is refused or performed follows the model. -/
lemma Performs.follows {c : Update α} {D : α → Storage → Prop} (h : st.Performs c r D) :
    st.Follows c r := by
  cases r with
  | error e => exact congrArg Prod.fst h
  | ok m =>
    obtain ⟨a, st', hexec, hkeeps, -⟩ := h
    exact ⟨a, st', hexec, hkeeps⟩

/-- What changes nothing may fail. -/
lemma Follows.bind_check {c : Update β} {r : Except ModelError β} (hc : st.exec c = (r, st))
    {f : β → Update α} {g : β → Except ModelError Model} (hf : ∀ b, st.Follows (f b) (g b)) :
    st.Follows (c >>= f) (r >>= g) := by
  have hexec := st.exec_bind c f
  rw [hc] at hexec
  cases r with
  | error e => exact congrArg Prod.fst hexec
  | ok b =>
    have hb := hf b
    change st.Follows (c >>= f) (g b)
    unfold Follows at hb ⊢
    rwa [hexec]

/-- An update goes on from the storage that its first part leaves. -/
lemma Follows.bind {c : Update β} (h : st.Follows c r) {f : β → Update α}
    {g : Model → Except ModelError Model}
    (hf : ∀ (b : β) (st' : Storage) (m' : Model), st'.Keeps m' → st'.Follows (f b) (g m')) :
    st.Follows (c >>= f) (r >>= g) := by
  have hexec := st.exec_bind c f
  cases r with
  | error e =>
    obtain ⟨st', hc⟩ := h.exec_eq
    rw [hc] at hexec
    exact congrArg Prod.fst hexec
  | ok m =>
    obtain ⟨b, st', hc, hkeeps⟩ := h
    rw [hc] at hexec
    have hrest := hf b st' m hkeeps
    change st.Follows (c >>= f) (g m)
    unfold Follows at hrest ⊢
    rwa [hexec]

/-- A loop follows the model if each of its turns does. -/
lemma Keeps.follows_forM {ι : Type} {f : ι → Update Unit} {g : Model → ι → Except ModelError Model}
    (hstep : ∀ (i : ι) (st : Storage) (m : Model), st.Keeps m → st.Follows (f i) (g m i))
    (h : st.Keeps m) (is : List ι) :
    st.Follows (is.forM f) (is.foldlM g m) := by
  induction is generalizing st m with
  | nil => exact ⟨(), st, rfl, h⟩
  | cons i is ih =>
    rw [List.foldlM_cons]
    exact (hstep i st m h).bind fun _ _ _ h' => ih h'

/-- A description is made in containers as it is built. -/
theorem follows_describe (ts : TwistStructure) (d : ModelDescription) :
    (empty ts).Follows (Update.describe d) (d.build (some ts)) := by
  have hbuild : d.build (some ts) =
      d.worlds.mapM (ModelDescription.resolveWorld ts) >>= fun specs =>
        (Model.empty ts).addWorlds specs >>= fun m =>
          d.relations.foldlM ModelDescription.addRelation m >>= fun m =>
            d.actions.foldlM (fun m action => pure (m.declareAction action)) m := by
    simp only [List.foldlM_pure]
    rfl
  rw [hbuild]
  refine Follows.bind_check (r := d.worlds.mapM (ModelDescription.resolveWorld ts)) rfl
    fun specs => ?_
  have hworlds : (empty ts).Follows (Update.addBatch (specs.map .ok))
      ((Model.empty ts).addWorlds specs) := by
    have hbatch := ((keeps_empty ts).performs_addBatch (specs.map .ok)).follows
    rwa [Keeps.apply_batch_map_ok] at hbatch
  refine hworlds.bind fun _ st m h => ?_
  have hrelations := h.follows_forM
    (fun r st m h => (h.performs_addRelationNamed r.source r.target r.action r.t r.f).follows)
    d.relations
  refine hrelations.bind fun _ st m h => ?_
  exact h.follows_forM (fun action st m h => (h.performs_declareAction action).follows) d.actions

end Follows

end Storage

end TwistLogic
