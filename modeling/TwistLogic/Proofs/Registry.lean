import TwistLogic.Proofs.Interchange
import TwistLogic.Proofs.Model.Description

/-!
# Workspaces in place

A workspace can be kept in place: a `Registry` has every model in its containers, and a `Task` is a
program that uses the registry step by step.  A task that fails leaves what it has changed so far. A
definition makes its model in containers of its own and enters them at its end; a change of a model
works on the containers that are entered; a question reads its source into the store before it knows
whether there is an answer.

A registry keeps a workspace if it has under every name containers that keep the model of the
workspace.  It is called as the workspace is (`Registry.Keeps.performs`), and so it keeps, after any
calls, the workspace that the same calls make (`Registry.keeps_after`).
-/

namespace TwistLogic

/-! ## Calls -/

namespace Workspace

/-- What a workspace can be called for. -/
inductive Call where
  | addTwist (name : Text) (ts : Option TwistStructure)
  /-- A model is changed in its place. -/
  | change (name : Text) (c : TwistLogic.Call)
  | request (r : Request)

namespace Call

/-- The name of the twist structure that a call enters. -/
def twistName? : Call → Option Text
  | addTwist name _ | request (.defineTwist name _) => some name
  | _ => none

/-- The name of the model that a call enters or changes. -/
def modelName? : Call → Option Text
  | change name _ | request (.defineModel name _) => some name
  | _ => none

end Call

/-- The workspace after a change of one of its models. -/
def change (ws : Workspace) (name : Text) (c : TwistLogic.Call) :
    Except Error (Unit × Workspace) := do
  let m ← ws.model name
  let m' ← (c.apply m).mapError .model
  return ((), ws.putModel name m')

/-- The reply to a call and the workspace after it. -/
def perform (ws : Workspace) : Call → Except Error (Option EvaluationResponse) × Workspace
  | .addTwist name ts => ws.settle do return ((), ← ws.addTwist name ts)
  | .change name c => ws.settle (ws.change name c)
  | .request r => ws.reply r

/-- The workspace after some calls. -/
def after (ws : Workspace) (cs : List Call) : Workspace :=
  cs.foldl (fun ws c => (ws.perform c).2) ws

end Workspace

/-- Named twist structures, the containers of named models, and the formulas. -/
structure Registry where
  twists : Std.TreeMap Text TwistStructure
  models : Std.TreeMap Text Storage
  store : FormulaStore

/-- A program that uses a registry and may fail; what it has changed so far stays. -/
abbrev Task := ExceptT Error (StateM Registry)

namespace Task

/-- Goes on with a result, or fails. -/
def ofOutcome {α : Type} (r : Except Error α) : Task α := ExceptT.mk (pure r)

def addTwist (name : Text) : Option TwistStructure → Task Unit
  | none => throw (.nullTwist name)
  | some ts => modify fun reg => { reg with twists := reg.twists.insert name ts }

def defineTwist (name : Text) (p : Presentation) : Task Unit := do
  let base ← ofOutcome (p.build.mapError .algebra)
  let ts ← ofOutcome ((TwistStructure.generate (some base)).mapError .algebra)
  addTwist name (some ts)

/-- The twist structure with a name. -/
def twist (name : Text) : Task TwistStructure := do
  match (← get).twists[name]? with
  | some ts => return ts
  | none => throw (.unknownTwist name)

/-- The containers of the model with a name. -/
def model (name : Text) : Task Storage := do
  match (← get).models[name]? with
  | some st => return st
  | none => throw (.unknownModel name)

/-- Enters containers under a name. -/
def putModel (name : Text) (st : Storage) : Task Unit :=
  modify fun reg => { reg with models := reg.models.insert name st }

/-- Makes a described model in containers of its own and enters them at the end. -/
def defineModel (name : Text) (d : ModelDescription) : Task Unit := do
  let ts ← twist d.twist
  let (outcome, st) := (Storage.empty ts).exec (Update.describe d)
  ofOutcome (outcome.mapError .model)
  putModel name st

/-- Changes the containers of a model in their place, as far as the change gets. -/
def change (name : Text) (c : Call) : Task Unit := do
  let st ← model name
  let (outcome, st') := st.exec c.update
  putModel name st'
  discard <| ofOutcome (outcome.mapError .model)

/-- Reads a source into the store and checks it in the model that the containers hold. -/
def evaluate {threads : Nat} (schedules : (n : Nat) → Schedule threads n) (source name : Text)
    (memoize : Bool) : Task EvaluationResponse := do
  let m := (← model name).model
  let (outcome, s) := (← get).store.parse source 1
  modify fun reg => { reg with store := s }
  ofOutcome do
    let id ← outcome.mapError .parse
    Workspace.respondOn m (schedules m.worlds.size) s id memoize

end Task

/-- The task of a call. -/
def Workspace.Call.task : Workspace.Call → Task (Option EvaluationResponse)
  | addTwist name ts => do Task.addTwist name ts; return none
  | change name c => do Task.change name c; return none
  | request (.defineTwist name p) => do Task.defineTwist name p; return none
  | request (.defineModel name d) => do Task.defineModel name d; return none
  | request (.evaluate schedules source name memoize) =>
    return some (← Task.evaluate schedules source name memoize)

namespace Registry

/-- The registry without entries. -/
def empty : Registry := { twists := ∅, models := ∅, store := .initial }

/-- Runs a task and returns its outcome with the registry that it leaves. -/
def exec {α : Type} (reg : Registry) (c : Task α) : Except Error α × Registry := c.run.run reg

/-- The reply to a call and the registry after it. -/
def perform (reg : Registry) (c : Workspace.Call) :
    Except Error (Option EvaluationResponse) × Registry :=
  reg.exec c.task

/-- The registry after some calls, whether they succeed or fail. -/
def after (reg : Registry) (cs : List Workspace.Call) : Registry :=
  cs.foldl (fun reg c => (reg.perform c).2) reg

/-! ## Running tasks -/

section Exec

variable {α β : Type} (reg : Registry)

@[simp] lemma exec_pure (a : α) : reg.exec (pure a) = (.ok a, reg) := rfl

@[simp] lemma exec_get : reg.exec get = (.ok reg, reg) := rfl

@[simp] lemma exec_modify (f : Registry → Registry) : reg.exec (modify f) = (.ok ⟨⟩, f reg) := rfl

@[simp] lemma exec_throw (e : Error) : reg.exec (throw e : Task α) = (.error e, reg) := rfl

@[simp] lemma exec_ofOutcome (r : Except Error α) : reg.exec (Task.ofOutcome r) = (r, reg) := rfl

/-- A task goes on where its first part has ended, unless that part has failed. -/
lemma exec_bind (c : Task α) (f : α → Task β) :
    reg.exec (c >>= f) =
      match reg.exec c with
      | (.ok a, reg') => reg'.exec (f a)
      | (.error e, reg') => (.error e, reg') := by
  simp only [exec, ExceptT.run_bind, StateT.run_bind]
  rcases StateT.run (ExceptT.run c) reg with ⟨_ | _, _⟩ <;> rfl

lemma exec_model (name : Text) : reg.exec (Task.model name) =
    match reg.models[name]? with
    | some st => (.ok st, reg)
    | none => (.error (.unknownModel name), reg) := by
  simp only [Task.model, exec_bind, exec_get]
  cases reg.models[name]? <;> rfl

lemma exec_twist (name : Text) : reg.exec (Task.twist name) =
    match reg.twists[name]? with
    | some ts => (.ok ts, reg)
    | none => (.error (.unknownTwist name), reg) := by
  simp only [Task.twist, exec_bind, exec_get]
  cases reg.twists[name]? <;> rfl

/-! ### What calls do -/

lemma perform_defineTwist (name : Text) (p : Presentation) :
    reg.perform (.request (.defineTwist name p)) =
      match (do
        let base ← p.build.mapError Error.algebra
        (TwistStructure.generate (some base)).mapError Error.algebra) with
      | .error e => (.error e, reg)
      | .ok ts => (.ok none, { reg with twists := reg.twists.insert name ts }) := by
  simp only [perform, Workspace.Call.task, Task.defineTwist, exec_bind, exec_ofOutcome]
  cases p.build.mapError Error.algebra with
  | error e => rfl
  | ok base =>
    rcases hts : (TwistStructure.generate (some base)).mapError Error.algebra with e | ts
    · simp only [hts, bind, Except.bind]
    · simp only [hts, bind, Except.bind]
      rfl

/-- A model that is defined is entered only when it is complete. -/
lemma perform_defineModel (name : Text) (d : ModelDescription) :
    reg.perform (.request (.defineModel name d)) =
      match reg.twists[d.twist]? with
      | none => (.error (.unknownTwist d.twist), reg)
      | some ts =>
        match (Storage.empty ts).exec (Update.describe d) with
        | (.error e, _) => (.error (.model e), reg)
        | (.ok _, st) => (.ok none, { reg with models := reg.models.insert name st }) := by
  simp only [perform, Workspace.Call.task, Task.defineModel, exec_bind, exec_twist]
  cases reg.twists[d.twist]? with
  | none => rfl
  | some ts =>
    dsimp only
    rcases (Storage.empty ts).exec (Update.describe d) with ⟨_ | _, st⟩ <;> rfl

/-- A change of a model is entered as far as it got. -/
lemma perform_change (name : Text) (c : Call) :
    reg.perform (.change name c) =
      match reg.models[name]? with
      | none => (.error (.unknownModel name), reg)
      | some st => (((st.exec c.update).1.mapError Error.model).map fun _ => none,
        { reg with models := reg.models.insert name (st.exec c.update).2 }) := by
  simp only [perform, Workspace.Call.task, Task.change, exec_bind, exec_model]
  cases reg.models[name]? with
  | none => rfl
  | some st =>
    dsimp only
    rcases st.exec c.update with ⟨_ | _, st'⟩ <;> rfl

/-- A question is read into the store before it is answered. -/
lemma perform_evaluate {threads : Nat} (schedules : (n : Nat) → Schedule threads n)
    (source name : Text) (memoize : Bool) :
    reg.perform (.request (.evaluate schedules source name memoize)) =
      match reg.models[name]? with
      | none => (.error (.unknownModel name), reg)
      | some st =>
        let parsed := reg.store.parse source 1
        let schedule := schedules st.model.worlds.size
        ((do
          let id ← parsed.1.mapError Error.parse
          Workspace.respondOn st.model schedule parsed.2 id memoize).map some,
          { reg with store := parsed.2 }) := by
  simp only [perform, Workspace.Call.task, Task.evaluate, exec_bind, exec_model, exec_get]
  cases reg.models[name]? with
  | none => rfl
  | some st =>
    simp only [exec_modify, exec_ofOutcome]
    generalize (do
      let id ← (reg.store.parse source 1).1.mapError Error.parse
      Workspace.respondOn st.model (schedules st.model.worlds.size) (reg.store.parse source 1).2 id
        memoize) = outcome
    cases outcome <;> rfl

/-- What a question about a model is answered. -/
def answer (source name : Text) : Except Error (Option EvaluationResponse) :=
  match reg.models[name]? with
  | none => .error (.unknownModel name)
  | some st => (st.model.answer source).map some

/-- The answer to a question is that of the model that is entered, whatever the store holds. -/
lemma perform_evaluate_of_called (hs : reg.store.Called) {threads : Nat}
    (schedules : (n : Nat) → Schedule threads n) (source name : Text) (memoize : Bool) :
    reg.perform (.request (.evaluate schedules source name memoize)) =
      (reg.answer source name, { reg with
        store := if (reg.models[name]?).isSome then (reg.store.parse source 1).2
          else reg.store }) := by
  rw [perform_evaluate, answer]
  cases reg.models[name]? with
  | none => rfl
  | some st =>
    simp only [Workspace.parse_respondOn_eq hs, Option.isSome_some, if_true]

end Exec

/-! ## Registries and workspaces -/

/-- An entry that is entered again under its name changes no look-up. -/
lemma getElem?_insert_of_getElem? {α : Type} {t : Std.TreeMap Text α} {name : Text} {x : α}
    (hx : t[name]? = some x) (other : Text) : (t.insert name x)[other]? = t[other]? := by
  rw [getElem?_insert_eq_ite]
  split
  next heq => rw [← heq, hx]
  next => rfl

/-- A registry holds in its entries what a workspace holds under the same names. -/
structure Keeps (reg : Registry) (ws : Workspace) : Prop where
  twists : reg.twists = ws.twists
  models : ∀ name : Text, Option.Rel Storage.Keeps reg.models[name]? ws.models[name]?
  store : reg.store = ws.store

/-- A call is replied to as the workspace replies, and leaves a registry that keeps the workspace
afterwards. -/
def Performs (reg : Registry) (ws : Workspace) (c : Workspace.Call) : Prop :=
  (reg.perform c).1 = (ws.perform c).1 ∧ (reg.perform c).2.Keeps (ws.perform c).2

namespace Keeps

variable {reg : Registry} {ws : Workspace}

lemma empty : Registry.empty.Keeps .empty where
  twists := rfl
  models name := by
    simp only [Registry.empty, Workspace.empty, Std.TreeMap.getElem?_emptyc]
    exact .none
  store := rfl

/-- A name stands for no model on both sides, or for a model and the containers that keep it. -/
lemma entry (h : reg.Keeps ws) (name : Text) :
    reg.models[name]? = none ∧ ws.models[name]? = none ∨
      ∃ st m, reg.models[name]? = some st ∧ ws.models[name]? = some m ∧ st.Keeps m := by
  have hentry := h.models name
  generalize reg.models[name]? = st?, ws.models[name]? = m? at hentry
  cases hentry with
  | none => exact .inl ⟨rfl, rfl⟩
  | some hm => exact .inr ⟨_, _, rfl, rfl, hm⟩

lemma putModel (h : reg.Keeps ws) (name : Text) {st : Storage} {m : Model} (hm : st.Keeps m) :
    Keeps { reg with models := reg.models.insert name st } (ws.putModel name m) where
  twists := h.twists
  models other := by
    simp only [Workspace.putModel, getElem?_insert_eq_ite]
    split
    · exact .some hm
    · exact h.models other
  store := h.store

/-- Containers that are entered again under their name change nothing. -/
lemma putBack (h : reg.Keeps ws) {name : Text} {st : Storage}
    (hst : reg.models[name]? = some st) :
    Keeps { reg with models := reg.models.insert name st } ws where
  twists := h.twists
  models other := by
    rw [getElem?_insert_of_getElem? hst]
    exact h.models other
  store := h.store

lemma performs_addTwist (h : reg.Keeps ws) (name : Text) (ts : Option TwistStructure) :
    reg.Performs ws (.addTwist name ts) := by
  cases ts with
  | none => exact ⟨rfl, h⟩
  | some ts => exact ⟨rfl, congrArg (·.insert name ts) h.twists, h.models, h.store⟩

lemma performs_defineTwist (h : reg.Keeps ws) (name : Text) (p : Presentation) :
    reg.Performs ws (.request (.defineTwist name p)) := by
  rw [Performs, perform_defineTwist, Workspace.perform, Workspace.reply, Workspace.defineTwist]
  cases p.build.mapError Error.algebra with
  | error e => exact ⟨rfl, h⟩
  | ok base =>
    rcases hts : (TwistStructure.generate (some base)).mapError Error.algebra with e | ts
    · simp only [hts, bind, Except.bind]
      exact ⟨rfl, h⟩
    · simp only [hts, bind, Except.bind]
      exact ⟨rfl, congrArg (·.insert name ts) h.twists, h.models, h.store⟩

lemma performs_defineModel (h : reg.Keeps ws) (name : Text) (d : ModelDescription) :
    reg.Performs ws (.request (.defineModel name d)) := by
  have htwist : reg.twists[d.twist]? = ws.twists[d.twist]? := by rw [h.twists]
  rw [Performs, perform_defineModel, htwist, Workspace.perform, Workspace.reply,
    Workspace.defineModel, Workspace.twist]
  cases ws.twists[d.twist]? with
  | none => exact ⟨rfl, h⟩
  | some ts =>
    have hfollows := Storage.follows_describe ts d
    cases hbuild : d.build (some ts) with
    | error e =>
      rw [hbuild] at hfollows
      obtain ⟨st, hexec⟩ := hfollows.exec_eq
      simp only [hexec, hbuild, bind, Except.bind, Except.mapError]
      exact ⟨rfl, h⟩
    | ok m =>
      rw [hbuild] at hfollows
      obtain ⟨_, st, hexec, hkeeps⟩ := hfollows
      simp only [hexec, hbuild, bind, Except.bind, Except.mapError]
      exact ⟨rfl, h.putModel name hkeeps⟩

lemma performs_change (h : reg.Keeps ws) (name : Text) (c : Call) :
    reg.Performs ws (.change name c) := by
  rw [Performs, perform_change, Workspace.perform, Workspace.change, Workspace.model]
  obtain ⟨hst, hm⟩ | ⟨st, m, hst, hm, hkeeps⟩ := h.entry name
  · rw [hst, hm]
    exact ⟨rfl, h⟩
  rw [hst, hm]
  have hperforms := hkeeps.performs c
  cases hc : c.apply m with
  | error e =>
    rw [hc] at hperforms
    have hexec : st.exec c.update = (.error e, st) := hperforms
    simp only [hexec, hc, bind, Except.bind, Except.mapError]
    exact ⟨rfl, h.putBack hst⟩
  | ok m' =>
    rw [hc] at hperforms
    obtain ⟨_, st', hexec, hkeeps', -, -⟩ := hperforms
    simp only [hexec, hc, bind, Except.bind, Except.mapError]
    exact ⟨rfl, h.putModel name hkeeps'⟩

lemma performs_evaluate (h : reg.Keeps ws) (hws : ws.Reached) {threads : Nat}
    (schedules : (n : Nat) → Schedule threads n) (source name : Text) (memoize : Bool) :
    reg.Performs ws (.request (.evaluate schedules source name memoize)) := by
  have hcalled : reg.store.Called := h.store ▸ hws.called
  have hreply : ws.perform (.request (.evaluate schedules source name memoize)) =
      ((do let m ← ws.model name; m.answer source).map some,
        (ws.evaluateOn schedules source name memoize).2) := by
    rw [← Workspace.evaluateOn_fst hws]
    rfl
  rw [Performs, reg.perform_evaluate_of_called hcalled, hreply, answer]
  obtain ⟨hst, hm⟩ | ⟨st, m, hst, hm, hkeeps⟩ := h.entry name
  · have hmodel : ws.model name = .error (.unknownModel name) := by rw [Workspace.model, hm]
    rw [hst, Workspace.evaluateOn_snd_of_error hmodel, hmodel]
    exact ⟨rfl, h⟩
  · have hmodel : ws.model name = .ok m := by rw [Workspace.model, hm]
    rw [hst, Workspace.evaluateOn_snd hmodel, hmodel]
    refine ⟨?_, h.twists, h.models, congrArg (fun s => (s.parse source 1).2) h.store⟩
    exact congrArg (Except.map some) (hkeeps.sameContent.answer_eq source)

/-- Calls are replied to by the registry and the workspace alike. -/
theorem performs (h : reg.Keeps ws) (hws : ws.Reached) (c : Workspace.Call) :
    reg.Performs ws c := by
  rcases c with ⟨name, ts⟩ | ⟨name, c⟩ |
    ⟨⟨name, p⟩ | ⟨name, d⟩ | ⟨schedules, source, name, memoize⟩⟩
  · exact h.performs_addTwist name ts
  · exact h.performs_change name c
  · exact h.performs_defineTwist name p
  · exact h.performs_defineModel name d
  · exact h.performs_evaluate hws schedules source name memoize

end Keeps

end Registry

/-- A call leads to a workspace that is made by use. -/
lemma Workspace.Reached.perform {ws : Workspace} (h : ws.Reached) (c : Call) :
    (ws.perform c).2.Reached := by
  cases c with
  | addTwist name ts =>
    refine h.settle fun _ ws' hcall => ?_
    obtain ⟨ws₁, hadd, heq⟩ := bind_eq_ok_iff.mp hcall
    obtain rfl : ws₁ = ws' := (Prod.mk.inj (pure_eq_ok_iff.mp heq)).2
    exact .addTwist h hadd
  | change name c =>
    refine h.settle fun _ ws' hchange => ?_
    simp only [change, bind_eq_ok_iff, pure_eq_ok_iff, Prod.mk.injEq, true_and] at hchange
    obtain ⟨_, -, m', -, rfl⟩ := hchange
    exact .putModel name m' h
  | request r => exact h.reply r

namespace Registry

/-- After any calls, the registry keeps the workspace that the same calls make. -/
lemma keeps_after (cs : List Workspace.Call) :
    (empty.after cs).Keeps (Workspace.empty.after cs) ∧ (Workspace.empty.after cs).Reached := by
  -- the induction needs the statement for any registry that keeps a workspace
  suffices hrun : ∀ (reg : Registry) (ws : Workspace), reg.Keeps ws → ws.Reached →
      (reg.after cs).Keeps (ws.after cs) ∧ (ws.after cs).Reached from hrun _ _ .empty .refl
  induction cs with
  | nil => exact fun _ _ h hws => ⟨h, hws⟩
  | cons c cs ih => exact fun _ _ h hws => ih _ _ (h.performs hws c).2 (hws.perform c)

end Registry

end TwistLogic
