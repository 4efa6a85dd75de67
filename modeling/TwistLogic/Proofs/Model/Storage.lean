import TwistLogic.Proofs.Model.Edit

/-!
# Models in containers

A model can be kept in containers that belong together: the worlds, an index of their names, the
transitions by source and action, the known actions, and the revision.  A `Storage` is such a
record, and an `Update` is a program that reads it and changes it step by step.  An update that
fails leaves what it has changed so far, so a refused call changes nothing only because it makes all
its checks before its first change.

A storage `Keeps` a model if its containers hold what the model holds.  Every call that is refused
leaves the storage as it was, and every other call does to the storage what it does to the model
(`Storage.Keeps.performs`).
-/

namespace TwistLogic

/-! ## Containers -/

/-- Where transitions start, and the action that they belong to. -/
structure EdgeKey where
  source : WorldIndex
  action : Text
  deriving DecidableEq

namespace EdgeKey

/-- The contents of a key in one list. -/
def toList (k : EdgeKey) : List Nat := k.source :: k.action.map UInt8.toNat

/-- Keys with the same contents are the same. -/
theorem toList_injective {k l : EdgeKey} (h : k.toList = l.toList) : k = l := by
  obtain ⟨w, a⟩ := k
  obtain ⟨w', a'⟩ := l
  simp only [toList, List.cons.injEq] at h
  obtain ⟨rfl, ha⟩ := h
  rw [List.map_inj_right (fun _ _ e => UInt8.toNat_inj.mp e) |>.mp ha]

instance : Ord EdgeKey := ⟨compareOn toList⟩

instance : Std.TransOrd EdgeKey := inferInstanceAs (Std.TransCmp (compareOn toList))

instance : Std.LawfulEqOrd EdgeKey where
  eq_of_compare h := toList_injective (Std.LawfulEqOrd.eq_of_compare h)
  compare_self {k} := Std.ReflOrd.compare_self (a := k.toList)

end EdgeKey

/-- A model in its containers. -/
structure Storage where
  twist : TwistStructure
  worlds : Array WorldSpec
  /-- The number of the world with a name. -/
  index : Std.TreeMap Text WorldIndex
  relations : Std.TreeMap EdgeKey (List Transition)
  actions : Std.TreeSet Text
  revision : Nat

namespace Storage

/-- The containers of the model without worlds. -/
def empty (ts : TwistStructure) : Storage :=
  { twist := ts, worlds := #[], index := ∅, relations := ∅, actions := ∅, revision := 0 }

/-- The value of a proposition at a world, if it has one. -/
def value? (st : Storage) (w : WorldIndex) (prop : Text) : Option TwistElement :=
  (st.worlds[w]?).bind (·.valuation[prop]?)

/-- The transitions from a world under an action, in the order in which they were added. -/
def successors (st : Storage) (w : WorldIndex) (action : Text) : List Transition :=
  (st.relations[EdgeKey.mk w action]?).getD []

/-! ### Changes of the containers -/

/-- Places a world behind the others and enters its name into the index. -/
def insertWorld (st : Storage) (spec : WorldSpec) : Storage :=
  { st with
    worlds := st.worlds.push spec
    index := st.index.insertIfNew spec.id st.worlds.size }

/-- Gives a proposition a value at a world. -/
def setValue (st : Storage) (w : WorldIndex) (prop : Text) (x : TwistElement) : Storage :=
  { st with
    worlds := st.worlds.modify w fun u => { u with valuation := u.valuation.insert prop x } }

/-- Places a transition behind those with the same source and action. -/
def addEdge (st : Storage) (w : WorldIndex) (action : Text) (tr : Transition) : Storage :=
  { st with
    relations := st.relations.insert ⟨w, action⟩ (st.successors w action ++ [tr]) }

/-- Makes an action known. -/
def learn (st : Storage) (action : Text) : Storage :=
  { st with actions := st.actions.insert action }

/-- Counts a change. -/
def bump (st : Storage) : Storage := { st with revision := st.revision + 1 }

end Storage

/-! ## Updates -/

/-- A program that reads and changes a storage and may fail; what it has changed so far stays. -/
abbrev Update := ExceptT ModelError (StateM Storage)

/-- Runs an update and returns its outcome with the storage that it leaves. -/
def Storage.exec {α : Type} (st : Storage) (c : Update α) : Except ModelError α × Storage :=
  c.run.run st

namespace Update

/-- The number of the world with a name. -/
def worldIndex (id : Text) : Update WorldIndex := do
  match (← get).index[id]? with
  | some w => return w
  | none => throw (.unknownWorld id)

/-- Makes a check against the twist structure. -/
def check {α : Type} (c : TwistStructure → Except Mismatch α) : Update α := do
  match c (← get).twist with
  | .ok a => return a
  | .error e => throw (.mismatch e)

/-- Refuses a name that a world has already. -/
def refuseKnown (id : Text) : Update Unit := do
  if (← get).index.contains id then throw (.duplicateWorld id)

def addWorld (id : Text) (v : Valuation) : Update WorldIndex := do
  refuseKnown id
  check fun ts => Model.checkValuation ts id v
  let w := (← get).worlds.size
  modify (·.insertWorld ⟨id, v⟩)
  modify Storage.bump
  return w

def addWorldNamed (id : Text) (v : NamedValuation) : Update WorldIndex := do
  refuseKnown id
  addWorld id (← check fun ts => Model.resolve ts v)

/-- Refuses a world that cannot be added behind worlds with the names in `seen`. -/
def vet (spec : WorldSpec) (seen : Std.TreeSet Text) : Update Unit := do
  refuseKnown spec.id
  if seen.contains spec.id then throw (.duplicateWorld spec.id)
  check fun ts => Model.checkValuation ts spec.id spec.valuation

/-- The worlds that a maker makes, if all of them can be added. -/
def collect : List (Except ModelError WorldSpec) → Std.TreeSet Text → Update (List WorldSpec)
  | [], _ => return []
  | made :: rest, seen => do
    let spec ← (ExceptT.mk (pure made) : Update WorldSpec)
    vet spec seen
    let specs ← collect rest (seen.insert spec.id)
    return spec :: specs

def addBatch (made : List (Except ModelError WorldSpec)) : Update Unit := do
  let specs ← collect made ∅
  specs.forM fun spec => modify (·.insertWorld spec)
  if !specs.isEmpty then modify Storage.bump

def assign (world prop : Text) (x : TwistElement) : Update Unit := do
  let w ← worldIndex world
  check fun ts => ts.require x (Model.valuePlace world prop)
  modify (·.setValue w prop x)
  modify Storage.bump

def addRelation (source target action : Text) (weight : TwistElement) : Update Unit := do
  let src ← worldIndex source
  let dst ← worldIndex target
  check fun ts => ts.require weight
    (ascii "weight of " ++ source ++ ascii " -" ++ action ++ ascii "-> " ++ target)
  modify (·.addEdge src action { target := dst, weight })
  modify (·.learn action)
  modify Storage.bump

def addRelationNamed (source target action t f : Text) : Update Unit := do
  let _ ← worldIndex source
  let _ ← worldIndex target
  addRelation source target action (← check fun ts => ts.element? t f)

def declareAction (action : Text) : Update Unit := do
  if !(← get).actions.contains action then
    modify (·.learn action)
    modify Storage.bump

end Update

/-- One call of an operation that changes a storage.  The worlds of a batch are made by a maker,
which may fail but does not touch the storage. -/
inductive Call where
  | edit (e : Edit)
  | batch (made : List (Except ModelError WorldSpec))

/-- The update that a call runs.  Only a call that adds one world returns a number. -/
def Call.update : Call → Update (Option WorldIndex)
  | .edit (.addWorld id v) => do return some (← Update.addWorld id v)
  | .edit (.addWorldNamed id v) => do return some (← Update.addWorldNamed id v)
  | .edit (.addWorlds specs) => do Update.addBatch (specs.map .ok); return none
  | .edit (.assign world prop x) => do Update.assign world prop x; return none
  | .edit (.addRelation source target action weight) => do
    Update.addRelation source target action weight
    return none
  | .edit (.addRelationNamed source target action t f) => do
    Update.addRelationNamed source target action t f
    return none
  | .edit (.declareAction action) => do Update.declareAction action; return none
  | .batch made => do Update.addBatch made; return none

/-- Places the world that a maker has made. -/
def Model.placeMade (m : Model) (made : Except ModelError WorldSpec) : Except ModelError Model := do
  m.place (← made)

/-- The outcome of a call for a model. -/
def Call.apply (m : Model) : Call → Except ModelError Model
  | .edit e => e.apply m
  | .batch made => do
    let m' ← made.foldlM Model.placeMade m
    return { m' with revision := if made.isEmpty then m.revision else m.revision + 1 }

/-- The model after some calls; those that are refused leave it as it is. -/
def Model.after (m : Model) (cs : List Call) : Model :=
  cs.foldl (fun m c => (c.apply m).toOption.getD m) m

namespace Storage

/-- The storage after some calls, whether they succeed or fail. -/
def after (st : Storage) (cs : List Call) : Storage :=
  cs.foldl (fun st c => (st.exec c.update).2) st

/-! ## What calls are documented to do -/

/-- A world has a name. -/
def HasName (st : Storage) (w : WorldIndex) (id : Text) : Prop :=
  ∃ u, st.worlds[w]? = some u ∧ u.id = id

/-- Worlds without transitions are placed behind the others. -/
structure AddsWorlds (st st' : Storage) (specs : List WorldSpec) : Prop where
  worlds : st'.worlds = st.worlds ++ specs.toArray
  relations : st'.relations = st.relations
  actions : st'.actions = st.actions

/-- One proposition of one world has a new value. -/
structure Assigns (st st' : Storage) (world prop : Text) (x : TwistElement) : Prop where
  values : ∃ w, st.HasName w world ∧
    ∀ u p, st'.value? u p = if u = w ∧ p = prop then some x else st.value? u p
  names : st'.worlds.map (·.id) = st.worlds.map (·.id)
  index : st'.index = st.index
  relations : st'.relations = st.relations
  actions : st'.actions = st.actions

/-- One transition is placed behind those with the same source and action, whether it is there
already or not. -/
structure AddsEdge (st st' : Storage) (source target action : Text) (weight : TwistElement) :
    Prop where
  successors : ∃ src dst, st.HasName src source ∧ st.HasName dst target ∧
    ∀ w a, st'.successors w a =
      if w = src ∧ a = action then st.successors w a ++ [{ target := dst, weight }]
      else st.successors w a
  actions : ∀ a, a ∈ st'.actions ↔ a = action ∨ a ∈ st.actions
  worlds : st'.worlds = st.worlds
  index : st'.index = st.index

/-- One action is known. -/
structure Declares (st st' : Storage) (action : Text) : Prop where
  actions : ∀ a, a ∈ st'.actions ↔ a = action ∨ a ∈ st.actions
  worlds : st'.worlds = st.worlds
  index : st'.index = st.index
  relations : st'.relations = st.relations

/-- What a successful call changes. -/
def Effect (st st' : Storage) (number : Option WorldIndex) : Call → Prop
  | .edit (.addWorld id v) => number = some st.worlds.size ∧ st.AddsWorlds st' [⟨id, v⟩]
  | .edit (.addWorldNamed id v) => number = some st.worlds.size ∧
    ∃ v', Model.resolve st.twist v = .ok v' ∧ st.AddsWorlds st' [⟨id, v'⟩]
  | .edit (.addWorlds specs) => st.AddsWorlds st' specs
  | .edit (.assign world prop x) => st.Assigns st' world prop x
  | .edit (.addRelation source target action weight) =>
    st.AddsEdge st' source target action weight
  | .edit (.addRelationNamed source target action t f) =>
    ∃ weight, st.twist.element? t f = .ok weight ∧ st.AddsEdge st' source target action weight
  | .edit (.declareAction action) => st.Declares st' action
  | .batch made => ∃ specs, made = specs.map .ok ∧ st.AddsWorlds st' specs

/-! ## Running updates -/

section Exec

variable {α β : Type} (st : Storage)

@[simp] lemma exec_pure (a : α) : st.exec (pure a) = (.ok a, st) := rfl

@[simp] lemma exec_get : st.exec get = (.ok st, st) := rfl

/-- An update goes on where its first part has ended, unless that part has failed. -/
lemma exec_bind (c : Update α) (f : α → Update β) :
    st.exec (c >>= f) =
      match st.exec c with
      | (.ok a, st') => st'.exec (f a)
      | (.error e, st') => (.error e, st') := by
  simp only [exec, ExceptT.run_bind, StateT.run_bind]
  rcases StateT.run (ExceptT.run c) st with ⟨_ | _, _⟩ <;> rfl

/-- A check changes nothing. -/
lemma exec_check (c : TwistStructure → Except Mismatch α) :
    st.exec (Update.check c) = ((c st.twist).mapError .mismatch, st) := by
  simp only [Update.check, exec_bind, exec_get]
  cases c st.twist <;> rfl

end Exec

end Storage

/-! ## Changes of the containers -/

/-- The members of a set after an insertion. -/
lemma contains_insert_eq_or (t : Std.TreeSet Text) (a b : Text) :
    (t.insert a).contains b = (decide (a = b) || t.contains b) := by
  rw [Std.TreeSet.contains_insert, Bool.eq_iff_iff]
  simp only [Bool.or_eq_true, beq_iff_eq, decide_eq_true_eq, Std.LawfulEqCmp.compare_eq_iff_eq]

namespace Storage

/-- The values after one was set. -/
lemma value?_setValue (st : Storage) {w : WorldIndex} (hw : w < st.worlds.size) (prop : Text)
    (x : TwistElement) (u : WorldIndex) (p : Text) :
    (st.setValue w prop x).value? u p = if u = w ∧ p = prop then some x else st.value? u p := by
  simp only [value?, setValue, Array.getElem?_modify]
  by_cases hu : w = u
  · subst hu
    simp only [if_true, Array.getElem?_eq_getElem hw, Option.map_some, Option.bind_some,
      getElem?_insert_eq_ite, true_and, eq_comm (a := p)]
  · simp [hu, Ne.symm hu]

/-- The transitions after one was added. -/
lemma successors_addEdge (st : Storage) (w : WorldIndex) (action : Text) (tr : Transition)
    (u : WorldIndex) (a : Text) :
    (st.addEdge w action tr).successors u a =
      if u = w ∧ a = action then st.successors u a ++ [tr] else st.successors u a := by
  simp only [successors, addEdge, getElem?_insert_eq_ite, EdgeKey.mk.injEq, eq_comm (a := u),
    eq_comm (a := a)]
  by_cases h : w = u ∧ action = a
  · obtain ⟨rfl, rfl⟩ := h
    simp
  · simp [h]

/-- The actions after one became known. -/
lemma mem_actions_learn (st : Storage) (action a : Text) :
    a ∈ (st.learn action).actions ↔ a = action ∨ a ∈ st.actions := by
  rw [learn, Std.TreeSet.mem_iff_contains, contains_insert_eq_or, Bool.or_eq_true,
    decide_eq_true_eq, eq_comm, Std.TreeSet.mem_iff_contains]

end Storage

/-- Inserting worlds one after the other adds them and counts nothing. -/
lemma Storage.addsWorlds_foldl_insertWorld (st : Storage) (specs : List WorldSpec) :
    st.AddsWorlds (specs.foldl insertWorld st) specs ∧
      (specs.foldl insertWorld st).revision = st.revision := by
  induction specs generalizing st with
  | nil => exact ⟨⟨by simp, rfl, rfl⟩, rfl⟩
  | cons spec specs ih =>
    obtain ⟨hadds, hrev⟩ := ih (st.insertWorld spec)
    refine ⟨⟨hadds.worlds.trans ?_, hadds.relations, hadds.actions⟩, hrev⟩
    simp [insertWorld]

/-! ## Models that are kept -/

/-- A world without its transitions. -/
def World.spec (u : World) : WorldSpec := { id := u.id, valuation := u.valuation }

/-- Names are found as before after one world has changed that keeps its name. -/
lemma Model.findWorld?_modify {m : Model} {w : WorldIndex} {f : World → World} {id : Text}
    (h : ∀ u, (f u).id = u.id) :
    findWorld? { m with worlds := m.worlds.modify w f } id = m.findWorld? id := by
  rw [findWorld?_eq_idxOf?, findWorld?_eq_idxOf?, ids, ids, ← Array.toList_map, ← Array.toList_map,
    map_modify_eq h]

/-- A world that is placed behind the others is found last. -/
lemma Model.findWorld?_push (m : Model) (spec : WorldSpec) (id : Text) :
    findWorld? { m with worlds := m.worlds.push spec.world } id =
      (m.findWorld? id).or (if spec.id = id then some m.worlds.size else none) := by
  simp only [findWorld?, Array.findIdx?_push, WorldSpec.world, beq_iff_eq]

namespace Storage

/-- A storage holds in its containers what a model holds. -/
structure Keeps (st : Storage) (m : Model) : Prop where
  twist : st.twist = m.twist
  worlds : st.worlds = m.worlds.map World.spec
  index : ∀ id, st.index[id]? = m.findWorld? id
  relations : ∀ w action, st.successors w action = m.successors w action
  actions : st.actions = m.actions
  revision : st.revision = m.revision

lemma keeps_empty (ts : TwistStructure) : (empty ts).Keeps (.empty ts) where
  twist := rfl
  worlds := by simp [empty, Model.empty]
  index id := by simp [empty, Model.empty, Model.findWorld?]
  relations w action := by simp [empty, Model.empty, successors, Model.successors]
  actions := rfl
  revision := rfl

namespace Keeps

variable {st : Storage} {m : Model}

lemma contains_index (h : st.Keeps m) (id : Text) :
    st.index.contains id = (m.findWorld? id).isSome := by
  rw [Std.TreeMap.contains_eq_isSome_getElem?, h.index]

lemma size_worlds (h : st.Keeps m) : st.worlds.size = m.worlds.size := by
  rw [h.worlds, Array.size_map]

/-- A world that is found has the name that was looked for. -/
lemma hasName_of_findWorld? (h : st.Keeps m) {id : Text} {w : WorldIndex}
    (hw : m.findWorld? id = some w) : st.HasName w id := by
  obtain ⟨hlt, hid, -⟩ := Array.findIdx?_eq_some_iff_getElem.mp hw
  refine ⟨World.spec (m.worlds[w]), ?_, beq_iff_eq.mp hid⟩
  rw [h.worlds, Array.getElem?_map, Array.getElem?_eq_getElem hlt, Option.map_some]

/-! ### Changes -/

lemma insertWorld (h : st.Keeps m) {spec : WorldSpec} (hfree : m.findWorld? spec.id = none) :
    (st.insertWorld spec).Keeps { m with worlds := m.worlds.push spec.world } where
  twist := h.twist
  worlds := by
    rw [Storage.insertWorld, h.worlds, Array.map_push]
    rfl
  index id := by
    have hnew : ¬spec.id ∈ st.index := by
      rw [Std.TreeMap.mem_iff_contains, h.contains_index, hfree]
      simp
    rw [Storage.insertWorld, Std.TreeMap.getElem?_insertIfNew, h.index, h.size_worlds,
      Model.findWorld?_push]
    simp only [Std.LawfulEqCmp.compare_eq_iff_eq, hnew, not_false_eq_true, and_true]
    by_cases hid : spec.id = id
    · subst hid
      rw [if_pos rfl, hfree, if_pos rfl, Option.none_or]
    · rw [if_neg hid, if_neg hid, Option.or_none]
  relations w action := (h.relations w action).trans (m.successors_push rfl w action).symm
  actions := h.actions
  revision := h.revision

lemma setValue (h : st.Keeps m) (w : WorldIndex) (prop : Text) (x : TwistElement) :
    (st.setValue w prop x).Keeps { m with
      worlds := m.worlds.modify w fun u => { u with valuation := u.valuation.insert prop x } } where
  twist := h.twist
  worlds := by
    refine Array.ext_getElem? fun i => ?_
    simp only [Storage.setValue, h.worlds, Array.getElem?_map, Array.getElem?_modify]
    split
    · rw [Option.map_map, Option.map_map]
      rfl
    · rfl
  index id := by
    refine Eq.trans (h.index id) (Eq.symm ?_)
    exact Model.findWorld?_modify fun _ => rfl
  relations u action := (h.relations u action).trans (m.successors_assign w prop x u action).symm
  actions := h.actions
  revision := h.revision

lemma addEdge (h : st.Keeps m) {w : WorldIndex} (hw : w < m.worlds.size) (action : Text)
    (tr : Transition) :
    (st.addEdge w action tr).Keeps { m with
      worlds := m.worlds.modify w (World.addEdge · action tr) } where
  twist := h.twist
  worlds := by
    have hspec : ∀ u : World, (u.addEdge action tr).spec = u.spec := fun _ => rfl
    exact h.worlds.trans (map_modify_eq hspec).symm
  index id := by
    refine Eq.trans (h.index id) (Eq.symm ?_)
    exact Model.findWorld?_modify fun _ => rfl
  relations u a := by
    refine Eq.trans ?_ (m.successors_addEdge hw action tr u a).symm
    rw [← h.relations]
    exact st.successors_addEdge w action tr u a
  actions := h.actions
  revision := h.revision

lemma learn (h : st.Keeps m) (action : Text) :
    (st.learn action).Keeps { m with actions := m.actions.insert action } where
  twist := h.twist
  worlds := h.worlds
  index := h.index
  relations := h.relations
  actions := congrArg (·.insert action) h.actions
  revision := h.revision

lemma bump (h : st.Keeps m) : st.bump.Keeps { m with revision := m.revision + 1 } where
  twist := h.twist
  worlds := h.worlds
  index := h.index
  relations := h.relations
  actions := h.actions
  revision := congrArg (· + 1) h.revision

end Keeps

/-! ## Refused and performed calls -/

section Performs

variable {α β : Type} {st : Storage} {m : Model}

/-- If the model refuses, the update is refused with the same error and leaves the storage as it
was.  If not, the storage keeps the changed model afterwards, nothing has changed or the revision
has risen, and the result and the storage are as described. -/
def Performs (st : Storage) (c : Update α) (r : Except ModelError Model)
    (Described : α → Storage → Prop) : Prop :=
  match r with
  | .error e => st.exec c = (.error e, st)
  | .ok m => ∃ a st', st.exec c = (.ok a, st') ∧ st'.Keeps m ∧
    (st' = st ∨ st.revision < st'.revision) ∧ Described a st'

/-- What is checked before the first change may refuse. -/
lemma Performs.bind {c : Update β} {r : Except ModelError β} (hc : st.exec c = (r, st))
    {f : β → Update α} {g : β → Except ModelError Model} {D : α → Storage → Prop}
    (hf : ∀ b, r = .ok b → st.Performs (f b) (g b) D) : st.Performs (c >>= f) (r >>= g) D := by
  have hexec := st.exec_bind c f
  rw [hc] at hexec
  cases r with
  | error e => exact hexec
  | ok b =>
    have hb := hf b rfl
    unfold Performs at hb ⊢
    change match g b with | _ => _
    rw [hexec]
    exact hb

lemma Performs.mono {c : Update α} {r : Except ModelError Model} {D D' : α → Storage → Prop}
    (h : st.Performs c r D) (hD : ∀ a st', D a st' → D' a st') : st.Performs c r D' := by
  cases r with
  | error e => exact h
  | ok m =>
    obtain ⟨a, st', hexec, hkeeps, hrev, hd⟩ := h
    exact ⟨a, st', hexec, hkeeps, hrev, hD a st' hd⟩

/-- The result of an update may be passed on in another form. -/
lemma Performs.returning {c : Update α} {r : Except ModelError Model} {D : α → Storage → Prop}
    (h : st.Performs c r D) {g : α → β} {D' : β → Storage → Prop}
    (hD : ∀ a st', D a st' → D' (g a) st') :
    st.Performs (do let a ← c; return g a) r D' := by
  have hexec := st.exec_bind c fun a => pure (g a)
  cases r with
  | error e =>
    rw [show st.exec c = _ from h] at hexec
    exact hexec
  | ok m =>
    obtain ⟨a, st', hc, hkeeps, hrev, hd⟩ := h
    rw [hc] at hexec
    exact ⟨g a, st', hexec, hkeeps, hrev, hD a st' hd⟩

namespace Keeps

/-- A name is resolved as in the model. -/
lemma exec_worldIndex (h : st.Keeps m) (id : Text) :
    st.exec (Update.worldIndex id) = (m.worldIndex id, st) := by
  simp only [Update.worldIndex, Model.worldIndex, exec_bind, exec_get, h.index]
  cases m.findWorld? id <;> rfl

/-- A name is refused if the model has a world of this name. -/
lemma exec_refuseKnown (h : st.Keeps m) (id : Text) :
    st.exec (Update.refuseKnown id) =
      (if (m.findWorld? id).isSome then .error (.duplicateWorld id) else .ok (), st) := by
  simp only [Update.refuseKnown, exec_bind, exec_get, h.contains_index]
  split <;> rfl

lemma performs_addWorld (h : st.Keeps m) (id : Text) (v : Valuation) :
    st.Performs (Update.addWorld id v) (Edit.apply m (.addWorld id v))
      fun w st' => w = st.worlds.size ∧ st.AddsWorlds st' [⟨id, v⟩] := by
  have happly : Edit.apply m (.addWorld id v) =
      (if (m.findWorld? id).isSome then .error (.duplicateWorld id) else .ok ()) >>= fun _ =>
        (Model.checkValuation m.twist id v).mapError .mismatch >>= fun _ =>
          .ok { m with
            worlds := m.worlds.push (WorldSpec.world ⟨id, v⟩)
            revision := m.revision + 1 } := by
    simp only [Edit.apply, Model.addWorld, Model.place]
    split
    · rfl
    · cases Model.checkValuation m.twist id v <;> rfl
  rw [happly]
  refine Performs.bind (h.exec_refuseKnown id) fun _ hfree => ?_
  refine Performs.bind
    (h.twist ▸ st.exec_check fun ts => Model.checkValuation ts id v) fun _ _ => ?_
  have hnone : m.findWorld? id = none := by
    by_contra hsome
    simp [Option.isSome_iff_ne_none.mpr hsome] at hfree
  refine ⟨_, _, rfl, (h.insertWorld hnone).bump, .inr (Nat.lt_succ_self _), rfl, ?_⟩
  exact ⟨by simp [Storage.insertWorld, Storage.bump], rfl, rfl⟩

lemma performs_addWorldNamed (h : st.Keeps m) (id : Text) (v : NamedValuation) :
    st.Performs (Update.addWorldNamed id v) (Edit.apply m (.addWorldNamed id v))
      fun w st' => w = st.worlds.size ∧
        ∃ v', Model.resolve st.twist v = .ok v' ∧ st.AddsWorlds st' [⟨id, v'⟩] := by
  have happly : Edit.apply m (.addWorldNamed id v) =
      (if (m.findWorld? id).isSome then .error (.duplicateWorld id) else .ok ()) >>= fun _ =>
        (Model.resolve m.twist v).mapError .mismatch >>= fun v' =>
          Edit.apply m (.addWorld id v') := by
    simp only [Edit.apply, Model.addWorldNamed]
    split
    · rfl
    · cases Model.resolve m.twist v <;> rfl
  rw [happly]
  refine Performs.bind (h.exec_refuseKnown id) fun _ _ => ?_
  refine Performs.bind (h.twist ▸ st.exec_check fun ts => Model.resolve ts v) fun v' hv => ?_
  refine (h.performs_addWorld id v').mono fun w st' hd => ⟨hd.1, v', ?_, hd.2⟩
  rw [h.twist]
  exact mapError_eq_ok_iff.mp hv

lemma performs_assign (h : st.Keeps m) (world prop : Text) (x : TwistElement) :
    st.Performs (Update.assign world prop x) (Edit.apply m (.assign world prop x))
      fun _ st' => st.Assigns st' world prop x := by
  refine Performs.bind (h.exec_worldIndex world) fun w hw => ?_
  have hfind := Model.worldIndex_eq_ok_iff.mp hw
  have hlt := Model.lt_size_of_findWorld? hfind
  refine Performs.bind
    (h.twist ▸ st.exec_check fun ts => ts.require x (Model.valuePlace world prop)) fun _ _ => ?_
  refine ⟨_, _, rfl, (h.setValue w prop x).bump, .inr (Nat.lt_succ_self _), ?_⟩
  have hname : ∀ u : WorldSpec, { u with valuation := u.valuation.insert prop x }.id = u.id :=
    fun _ => rfl
  exact ⟨⟨w, h.hasName_of_findWorld? hfind, st.value?_setValue (h.size_worlds ▸ hlt) prop x⟩,
    map_modify_eq hname, rfl, rfl, rfl⟩

lemma performs_addRelation (h : st.Keeps m) (source target action : Text)
    (weight : TwistElement) :
    st.Performs (Update.addRelation source target action weight)
      (Edit.apply m (.addRelation source target action weight))
      fun _ st' => st.AddsEdge st' source target action weight := by
  refine Performs.bind (h.exec_worldIndex source) fun src hsrc => ?_
  refine Performs.bind (h.exec_worldIndex target) fun dst hdst => ?_
  refine Performs.bind (h.twist ▸ st.exec_check fun ts => ts.require weight _) fun _ _ => ?_
  have hsrc' := Model.worldIndex_eq_ok_iff.mp hsrc
  have hdst' := Model.worldIndex_eq_ok_iff.mp hdst
  have hkeeps := h.addEdge (Model.lt_size_of_findWorld? hsrc') action { target := dst, weight }
  refine ⟨_, _, rfl, (hkeeps.learn action).bump, .inr (Nat.lt_succ_self _), ?_⟩
  have hsource := h.hasName_of_findWorld? hsrc'
  have htarget := h.hasName_of_findWorld? hdst'
  refine ⟨⟨src, dst, hsource, htarget, ?_⟩, ?_, rfl, rfl⟩
  · exact st.successors_addEdge src action _
  · exact (st.addEdge src action _).mem_actions_learn action

lemma performs_addRelationNamed (h : st.Keeps m) (source target action t f : Text) :
    st.Performs (Update.addRelationNamed source target action t f)
      (Edit.apply m (.addRelationNamed source target action t f))
      fun _ st' => ∃ weight, st.twist.element? t f = .ok weight ∧
        st.AddsEdge st' source target action weight := by
  refine Performs.bind (h.exec_worldIndex source) fun src hsrc => ?_
  refine Performs.bind (h.exec_worldIndex target) fun dst hdst => ?_
  refine Performs.bind (h.twist ▸ st.exec_check fun ts => ts.element? t f) fun weight hw => ?_
  refine (h.performs_addRelation source target action weight).mono fun _ st' hd => ⟨weight, ?_, hd⟩
  rw [h.twist]
  exact mapError_eq_ok_iff.mp hw

lemma performs_declareAction (h : st.Keeps m) (action : Text) :
    st.Performs (Update.declareAction action) (Edit.apply m (.declareAction action))
      fun _ st' => st.Declares st' action := by
  have hexec : st.exec (Update.declareAction action) =
      (.ok ⟨⟩, if st.actions.contains action then st else (st.learn action).bump) := by
    simp only [Update.declareAction, exec_bind, exec_get]
    cases st.actions.contains action <;> rfl
  have happly : Edit.apply m (.declareAction action) = .ok (if st.actions.contains action then m
      else { m with actions := m.actions.insert action, revision := m.revision + 1 }) := by
    rw [h.actions]
    rfl
  rw [happly]
  by_cases hknown : st.actions.contains action = true
  · rw [if_pos hknown] at hexec ⊢
    refine ⟨_, _, hexec, h, .inl rfl, ⟨fun a => ?_, rfl, rfl, rfl⟩⟩
    rw [or_iff_right_of_imp]
    rintro rfl
    exact Std.TreeSet.mem_iff_contains.mpr hknown
  · rw [if_neg hknown] at hexec ⊢
    exact ⟨_, _, hexec, (h.learn action).bump, .inr (Nat.lt_succ_self _),
      ⟨st.mem_actions_learn action, rfl, rfl, rfl⟩⟩

/-! ### Batches -/

/-- A world passes exactly if it can be placed behind the worlds that have been seen. -/
lemma exec_vet {spec : WorldSpec} {seen : Std.TreeSet Text} (htwist : m.twist = st.twist)
    (hfind : (m.findWorld? spec.id).isSome = (st.index.contains spec.id || seen.contains spec.id)) :
    st.exec (Update.vet spec seen) = ((m.place spec).map fun _ => (), st) := by
  simp only [Update.vet, Update.refuseKnown, Model.place, exec_bind, exec_get, hfind, htwist]
  cases st.index.contains spec.id with
  | true => rfl
  | false =>
    cases seen.contains spec.id with
    | true => rfl
    | false =>
      simp only [Bool.or_false, Bool.false_eq_true, if_false, exec_pure, exec_check]
      cases Model.checkValuation st.twist spec.id spec.valuation <;> rfl

/-- Worlds are collected exactly if they can be placed one after the other, and nothing has changed
by then. -/
lemma exec_collect (made : List (Except ModelError WorldSpec)) (seen : Std.TreeSet Text)
    (htwist : m.twist = st.twist)
    (hfind : ∀ id, (m.findWorld? id).isSome = (st.index.contains id || seen.contains id)) :
    (∀ e, made.foldlM Model.placeMade m = .error e →
      st.exec (Update.collect made seen) = (.error e, st)) ∧
    ∀ m', made.foldlM Model.placeMade m = .ok m' →
      ∃ specs, made = specs.map .ok ∧ st.exec (Update.collect made seen) = (.ok specs, st) := by
  induction made generalizing m seen with
  | nil => exact ⟨nofun, fun _ _ => ⟨[], rfl, rfl⟩⟩
  | cons r made ih =>
    cases r with
    | error e =>
      constructor
      · rintro _ ⟨⟩
        rfl
      · rintro _ ⟨⟩
    | ok spec =>
      have hfold : (.ok spec :: made).foldlM Model.placeMade m =
          m.place spec >>= fun m₁ => made.foldlM Model.placeMade m₁ := rfl
      have hexec : st.exec (Update.collect (.ok spec :: made) seen) =
          match m.place spec with
          | .error e => (.error e, st)
          | .ok _ => st.exec (do return spec :: (← Update.collect made (seen.insert spec.id))) := by
        rw [Update.collect, exec_bind]
        change st.exec (Update.vet spec seen >>= _) = _
        rw [exec_bind, exec_vet htwist (hfind spec.id)]
        cases m.place spec <;> rfl
      rw [hfold, hexec]
      cases hplace : m.place spec with
      | error e =>
        constructor
        · rintro _ ⟨⟩
          rfl
        · rintro _ ⟨⟩
      | ok m₁ =>
        obtain ⟨-, -, rfl⟩ := Model.place_eq_ok_iff.mp hplace
        obtain ⟨herror, hok⟩ := @ih { m with worlds := m.worlds.push spec.world }
          (seen.insert spec.id) htwist fun id => by
            rw [Model.findWorld?_push, Option.isSome_or, hfind, contains_insert_eq_or]
            by_cases hid : spec.id = id <;> simp [hid]
        constructor
        · intro e he
          simp only [exec_bind, herror e he]
        · intro m' hm'
          obtain ⟨specs, rfl, hspecs⟩ := hok m' hm'
          refine ⟨spec :: specs, rfl, ?_⟩
          simp only [exec_bind, hspecs, exec_pure]

/-- Worlds that can be placed one after the other are inserted one after the other. -/
lemma foldl_insertWorld (h : st.Keeps m) {specs : List WorldSpec} {m' : Model}
    (hm : specs.foldlM Model.place m = .ok m') : (specs.foldl Storage.insertWorld st).Keeps m' := by
  induction specs generalizing st m with
  | nil =>
    obtain rfl : m = m' := by simpa using hm
    exact h
  | cons spec specs ih =>
    rw [List.foldlM_cons, bind_eq_ok_iff] at hm
    obtain ⟨m₁, hplace, hrest⟩ := hm
    obtain ⟨hfree, -, rfl⟩ := Model.place_eq_ok_iff.mp hplace
    exact ih (h.insertWorld hfree) hrest

/-- A batch is refused for the first world that cannot be placed, and nothing has changed by then;
otherwise its worlds are inserted, and that counts as one change. -/
lemma exec_addBatch (h : st.Keeps m) (made : List (Except ModelError WorldSpec)) :
    (∀ e, made.foldlM Model.placeMade m = .error e →
      st.exec (Update.addBatch made) = (.error e, st)) ∧
    ∀ m', made.foldlM Model.placeMade m = .ok m' → ∃ specs : List WorldSpec,
      made = specs.map .ok ∧ st.exec (Update.addBatch made) =
        (.ok ⟨⟩, if specs.isEmpty then st else (specs.foldl Storage.insertWorld st).bump) := by
  obtain ⟨herror, hok⟩ := exec_collect made ∅ h.twist.symm
    fun id => by simp [h.contains_index]
  have hinsert : ∀ (specs : List WorldSpec) (st : Storage),
      st.exec (specs.forM fun spec => modify (·.insertWorld spec)) =
        (.ok ⟨⟩, specs.foldl Storage.insertWorld st) := by
    intro specs
    induction specs with
    | nil => exact fun _ => rfl
    | cons spec specs ih => exact fun st => ih (st.insertWorld spec)
  constructor
  · intro e hfold
    have hexec := st.exec_bind (Update.collect made ∅) fun specs => do
      specs.forM fun spec => modify (·.insertWorld spec)
      if !specs.isEmpty then modify Storage.bump
    rw [herror e hfold] at hexec
    exact hexec
  · intro m' hfold
    obtain ⟨specs, rfl, hspecs⟩ := hok m' hfold
    refine ⟨specs, rfl, ?_⟩
    simp only [Update.addBatch, exec_bind, hspecs, hinsert]
    cases specs <;> rfl

lemma performs_addBatch (h : st.Keeps m) (made : List (Except ModelError WorldSpec)) :
    st.Performs (Update.addBatch made) (Call.apply m (.batch made))
      fun _ st' => ∃ specs, made = specs.map .ok ∧ st.AddsWorlds st' specs := by
  obtain ⟨herror, hok⟩ := h.exec_addBatch made
  rw [Call.apply]
  cases hfold : made.foldlM Model.placeMade m with
  | error e => exact herror e hfold
  | ok m' =>
    obtain ⟨specs, rfl, hexec⟩ := hok m' hfold
    rw [List.foldlM_map] at hfold
    have hkeeps : (specs.foldl Storage.insertWorld st).Keeps m' := h.foldl_insertWorld hfold
    obtain ⟨hadds, hrev⟩ := st.addsWorlds_foldl_insertWorld specs
    cases specs with
    | nil =>
      obtain rfl : m = m' := by simpa using hfold
      exact ⟨_, _, hexec, h, .inl rfl, [], rfl, hadds⟩
    | cons spec specs =>
      have hm' : m'.revision = m.revision := hkeeps.revision.symm.trans (hrev.trans h.revision)
      refine ⟨_, _, hexec, ?_, .inr (hrev ▸ Nat.lt_succ_self _), _, rfl, ?_⟩
      · exact hm' ▸ hkeeps.bump
      · exact ⟨hadds.worlds, hadds.relations, hadds.actions⟩

/-- A maker that does not fail makes worlds that are placed as they are. -/
lemma foldlM_placeMade_map_ok (m : Model) (specs : List WorldSpec) :
    (specs.map .ok).foldlM Model.placeMade m = specs.foldlM Model.place m := by
  rw [List.foldlM_map]
  rfl

/-- A batch whose maker does not fail adds several worlds. -/
lemma apply_batch_map_ok (specs : List WorldSpec) :
    Call.apply m (.batch (specs.map .ok)) = m.addWorlds specs := by
  rw [Call.apply, foldlM_placeMade_map_ok, List.isEmpty_map]
  rfl

/-- Every call is refused or performed as for the model. -/
theorem performs (h : st.Keeps m) (c : Call) :
    st.Performs c.update (c.apply m) fun number st' => st.Effect st' number c := by
  rcases c with e | made
  · cases e with
    | addWorld id v =>
      exact (h.performs_addWorld id v).returning fun _ _ hd => ⟨congrArg some hd.1, hd.2⟩
    | addWorldNamed id v =>
      exact (h.performs_addWorldNamed id v).returning fun _ _ hd => ⟨congrArg some hd.1, hd.2⟩
    | addWorlds specs =>
      have hbatch := h.performs_addBatch (specs.map .ok)
      rw [apply_batch_map_ok] at hbatch
      refine hbatch.returning fun _ st' hd => ?_
      obtain ⟨specs', heq, hadds⟩ := hd
      rwa [List.map_injective_iff.mpr (fun _ _ => Except.ok.inj) heq]
    | assign world prop x =>
      exact (h.performs_assign world prop x).returning fun _ _ hd => hd
    | addRelation source target action weight =>
      exact (h.performs_addRelation source target action weight).returning fun _ _ hd => hd
    | addRelationNamed source target action t f =>
      exact (h.performs_addRelationNamed source target action t f).returning fun _ _ hd => hd
    | declareAction action =>
      exact (h.performs_declareAction action).returning fun _ _ hd => hd
  · exact (h.performs_addBatch made).returning fun _ _ hd => hd

end Keeps

end Performs

end Storage

end TwistLogic
