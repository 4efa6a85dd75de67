import TwistLogic.Proofs.Algebra.Twist
import TwistLogic.Proofs.Model.Integrity

/-!
# Adding worlds at once and one by one

A batch checks all its worlds against the index as it was and the names that it has seen, and
inserts them in a second pass that counts one change.  Adding the same worlds one by one checks each
against the index as it is by then, and counts each.  Both refuse for the first world that cannot be
placed behind those before it (`Storage.Keeps.exec_addBatch`, `Storage.Admits.exec_addEach_of_ok`
and `Storage.Admits.exec_addEach_of_error`), so they have the same outcome and leave the same
containers; they differ in the revision, and in what a refusal leaves behind
(`Storage.batch_eq_each`).
-/

namespace TwistLogic

/-! ## Models -/

namespace Model

/-- Adds several worlds, each as a change of its own. -/
def addEach (m : Model) (specs : List WorldSpec) : Except ModelError Model :=
  specs.foldlM (fun m spec => Edit.apply m (.addWorld spec.id spec.valuation)) m

/-- Placing a world has nothing to do with the revision. -/
lemma place_withRevision (m : Model) (r : Nat) (spec : WorldSpec) :
    place { m with revision := r } spec =
      (m.place spec).map fun m' => { m' with revision := r } := by
  unfold place findWorld?
  split
  · rfl
  · cases checkValuation m.twist spec.id spec.valuation <;> rfl

/-- Worlds are added one by one exactly if they can be placed one after the other. -/
lemma addEach_eq_map (m : Model) (specs : List WorldSpec) :
    m.addEach specs = (specs.foldlM place m).map fun m' =>
      { m' with revision := m.revision + specs.length } := by
  have hall : ∀ (specs : List WorldSpec) (m : Model) (r : Nat),
      addEach { m with revision := r } specs = (specs.foldlM place m).map fun m' =>
        { m' with revision := r + specs.length } := by
    intro specs
    induction specs with
    | nil => exact fun _ _ => rfl
    | cons spec specs ih =>
      intro m r
      have happly : Edit.apply { m with revision := r } (.addWorld spec.id spec.valuation) =
          (m.place spec).map fun m' => { m' with revision := r + 1 } := by
        simp only [Edit.apply, addWorld, place_withRevision]
        cases m.place spec <;> rfl
      rw [addEach, List.foldlM_cons, List.foldlM_cons, happly, List.length_cons]
      cases m.place spec with
      | error e => rfl
      | ok m₁ =>
        rw [Nat.add_comm specs.length, ← Nat.add_assoc]
        exact ih m₁ (r + 1)
  exact hall specs m m.revision

end Model

/-! ## Containers -/

/-- Adds several worlds, each as a change of its own. -/
def Update.addEach (specs : List WorldSpec) : Update Unit :=
  specs.forM fun spec => do
    let _ ← addWorld spec.id spec.valuation

namespace Storage

variable {st : Storage} {m : Model} {specs : List WorldSpec}

/-- The containers hold the names of the worlds of a model and have its twist structure.  Nothing
else decides whether a world can be added. -/
structure Admits (st : Storage) (m : Model) : Prop where
  twist : m.twist = st.twist
  names : ∀ id, (m.findWorld? id).isSome = st.index.contains id

lemma Keeps.admits (h : st.Keeps m) : st.Admits m where
  twist := h.twist.symm
  names id := (h.contains_index id).symm

/-- The names after a world was inserted are those of the model after it was placed. -/
lemma Admits.insertWorld (h : st.Admits m) {spec : WorldSpec} {m' : Model}
    (hplace : m.place spec = .ok m') : (st.insertWorld spec).bump.Admits m' := by
  obtain ⟨-, -, rfl⟩ := Model.place_eq_ok_iff.mp hplace
  refine ⟨h.twist, fun id => ?_⟩
  change _ = (st.index.insertIfNew spec.id st.worlds.size).contains id
  rw [Model.findWorld?_push, Option.isSome_or, h.names, Std.TreeMap.contains_insertIfNew]
  by_cases hid : spec.id = id
  · simp [hid]
  · have hcompare : compare spec.id id ≠ .eq := fun heq => hid (Std.LawfulEqCmp.eq_of_compare heq)
    simp [hid, hcompare]

/-- A world is added exactly if it can be placed. -/
lemma Admits.exec_addWorld (h : st.Admits m) (spec : WorldSpec) :
    st.exec (Update.addWorld spec.id spec.valuation) =
      match m.place spec with
      | .error e => (.error e, st)
      | .ok _ => (.ok st.worlds.size, (st.insertWorld spec).bump) := by
  simp only [Update.addWorld, Update.refuseKnown, Model.place, exec_bind, exec_get, h.names,
    h.twist]
  cases st.index.contains spec.id with
  | true => rfl
  | false =>
    simp only [Bool.false_eq_true, if_false, exec_pure, exec_check]
    cases Model.checkValuation st.twist spec.id spec.valuation <;> rfl

/-- The first of some worlds is added if it can be placed, and then the others. -/
lemma Admits.exec_addEach_cons (h : st.Admits m) (spec : WorldSpec) (specs : List WorldSpec) :
    st.exec (Update.addEach (spec :: specs)) =
      match m.place spec with
      | .error e => (.error e, st)
      | .ok _ => (st.insertWorld spec).bump.exec (Update.addEach specs) := by
  have hstep : Update.addEach (spec :: specs) =
      (do let _ ← Update.addWorld spec.id spec.valuation) >>= fun _ => Update.addEach specs := rfl
  rw [hstep, exec_bind, exec_bind, h.exec_addWorld]
  cases m.place spec <;> rfl

/-- Inserting worlds has nothing to do with the revision. -/
lemma foldl_insertWorld_withRevision (st : Storage) (r : Nat) (specs : List WorldSpec) :
    specs.foldl Storage.insertWorld { st with revision := r } =
      { specs.foldl Storage.insertWorld st with revision := r } := by
  induction specs generalizing st with
  | nil => rfl
  | cons spec specs ih => exact ih (st.insertWorld spec)

/-- Several worlds are one change, and none are no change. -/
lemma insertWorlds_eq (st : Storage) (specs : List WorldSpec) :
    (if specs.isEmpty then st else (specs.foldl Storage.insertWorld st).bump) =
      { specs.foldl Storage.insertWorld st with
        revision := if specs.isEmpty then st.revision else st.revision + 1 } := by
  cases specs with
  | nil => rfl
  | cons spec specs =>
    have hrev : (specs.foldl Storage.insertWorld (st.insertWorld spec)).revision = st.revision :=
      ((st.insertWorld spec).addsWorlds_foldl_insertWorld specs).2
    simp [bump, hrev]

/-- Worlds that can be placed one after the other are added one by one. -/
lemma Admits.exec_addEach_of_ok (h : st.Admits m) {m' : Model}
    (hfold : specs.foldlM Model.place m = .ok m') :
    st.exec (Update.addEach specs) = (.ok (), { specs.foldl Storage.insertWorld st with
      revision := st.revision + specs.length }) := by
  induction specs generalizing st m with
  | nil => rfl
  | cons spec specs ih =>
    rw [List.foldlM_cons, bind_eq_ok_iff] at hfold
    obtain ⟨m₁, hplace, hrest⟩ := hfold
    rw [h.exec_addEach_cons, hplace]
    dsimp only
    rw [ih (h.insertWorld hplace) hrest, bump, foldl_insertWorld_withRevision, List.foldl_cons,
      List.length_cons]
    simp only [Storage.insertWorld, Nat.add_assoc, Nat.add_comm 1]

/-- Worlds are added one by one up to the first that cannot be placed behind those before it. -/
lemma Admits.exec_addEach_of_error (h : st.Admits m) {e : ModelError}
    (hfold : specs.foldlM Model.place m = .error e) :
    ∃ before spec after st', specs = before ++ spec :: after ∧
      st.exec (Update.addEach before) = (.ok (), st') ∧
      st'.exec (Update.addWorld spec.id spec.valuation) = (.error e, st') ∧
      st.exec (Update.addEach specs) = (.error e, st') := by
  induction specs generalizing st m with
  | nil => simp [pure, Except.pure] at hfold
  | cons spec specs ih =>
    rw [List.foldlM_cons] at hfold
    rw [h.exec_addEach_cons]
    cases hplace : m.place spec with
    | error f =>
      rw [hplace] at hfold
      obtain rfl : f = e := Except.error.inj hfold
      refine ⟨[], spec, specs, st, rfl, rfl, ?_, rfl⟩
      rw [h.exec_addWorld, hplace]
    | ok m₁ =>
      rw [hplace] at hfold
      obtain ⟨before, first, after, st', rfl, hbefore, hfirst, hall⟩ :=
        ih (h.insertWorld hplace) hfold
      refine ⟨spec :: before, first, after, st', rfl, ?_, hfirst, hall⟩
      rw [h.exec_addEach_cons, hplace]
      exact hbefore

/-! ## The main statement -/

/-- After any calls on the empty storage, a batch has the outcome of adding its worlds one by one.
If it is refused, that is the refusal of the first world that cannot be added behind those before
it, and nothing has changed, the revision included.  If not, both leave the same in all containers,
where the batch has counted at most one change and the other one for each world.  It is the same
with the model that is kept. -/
theorem batch_eq_each (ts : TwistStructure) (cs : List Call) (specs : List WorldSpec) :
    let st := (empty ts).after cs
    let m := (Model.empty ts).after cs
    let batch := st.exec (Update.addBatch (specs.map .ok))
    let each := st.exec (Update.addEach specs)
    batch.1 = each.1 ∧
    (∀ e, batch.1 = .error e → batch.2 = st ∧
      ∃ before spec after, specs = before ++ spec :: after ∧
        st.exec (Update.addEach before) = (.ok (), each.2) ∧
        each.2.exec (Update.addWorld spec.id spec.valuation) = (.error e, each.2)) ∧
    (batch.1 = .ok () →
      each.2.revision = st.revision + specs.length ∧
      batch.2 = { each.2 with
        revision := if specs.isEmpty then st.revision else st.revision + 1 }) ∧
    m.addWorlds specs = (m.addEach specs).map fun m' =>
      { m' with revision := if specs.isEmpty then m.revision else m.revision + 1 } := by
  intro st m batch each
  obtain ⟨h, -⟩ := (keeps_empty ts).after .empty cs
  have hmodel : m.addWorlds specs = (m.addEach specs).map fun m' =>
      { m' with revision := if specs.isEmpty then m.revision else m.revision + 1 } := by
    rw [Model.addWorlds, Model.addEach_eq_map]
    cases specs.foldlM Model.place m <;> rfl
  obtain ⟨herror, hok⟩ := h.exec_addBatch (specs.map .ok)
  rw [Keeps.foldlM_placeMade_map_ok] at herror hok
  cases hfold : specs.foldlM Model.place m with
  | error e =>
    have hbatch : batch = (.error e, st) := herror e hfold
    obtain ⟨before, spec, after, st', hsplit, hbefore, hfirst, hall⟩ :=
      h.admits.exec_addEach_of_error hfold
    have heach : each = (.error e, st') := hall
    rw [hbatch, heach]
    refine ⟨rfl, ?_, nofun, hmodel⟩
    rintro _ ⟨⟩
    exact ⟨rfl, before, spec, after, hsplit, hbefore, hfirst⟩
  | ok m' =>
    obtain ⟨specs', hspecs, hexec⟩ := hok m' hfold
    obtain rfl : specs = specs' := List.map_injective_iff.mpr (fun _ _ => Except.ok.inj) hspecs
    have hbatch : batch = _ := hexec
    have heach : each = _ := h.admits.exec_addEach_of_ok hfold
    rw [hbatch, heach, insertWorlds_eq]
    exact ⟨rfl, nofun, fun _ => ⟨rfl, rfl⟩, hmodel⟩

/-- A bad value stands before a name that is repeated and one that is known: a batch is refused for
the value, as the second world is if it is added on its own, and the first world is not kept. -/
example :
    let bad : Valuation := .ofList [(ascii "p", TwistElement.mk 2 0)]
    let specs : List WorldSpec :=
      [⟨ascii "v", ∅⟩, ⟨ascii "w", bad⟩, ⟨ascii "v", ∅⟩, ⟨ascii "u", ∅⟩]
    let st := (empty .fourValued).after [Call.edit (.addWorld (ascii "u") ∅)]
    let batch := st.exec (Update.addBatch (specs.map .ok))
    let each := st.exec (Update.addEach specs)
    batch.1 = .error (.mismatch (.twistElement (Model.valuePlace (ascii "w") (ascii "p")) 2 0)) ∧
      each.1 = batch.1 ∧ batch.2.worlds.size = 1 ∧ each.2.worlds.size = 2 := by
  decide +kernel

end Storage

end TwistLogic
