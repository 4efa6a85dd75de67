import TwistLogic.Proofs.Formula.HashConsing
import TwistLogic.Proofs.Model.Material
import TwistLogic.Proofs.Model.Verdict
import TwistLogic.Workspace

/-!
# Answers do not depend on history

The same source is read in the same way into any two stores, but the formula may get different
numbers, because different formulas may be there already.  Whatever is computed of the two numbers
depends on the formula that they stand for (`FormulaStore.Alike`), so nothing can tell the two
stores apart by it.

A workspace has one store for all its models.  `Workspace.Becomes` relates it to those that come
after it, with whatever has been read, evaluated, defined or changed on the way.  Its answers are
those of `Model.answer`, which knows no store and no evaluator, and a request that is made again
finds everything that it read the first time (`Workspace.answers_independent_of_history`).
-/

namespace TwistLogic

namespace FormulaStore

/-! ## Formulas in different stores -/

/-- Two numbers stand for the same formula, each in its own store, and nothing that is computed of
them differs. -/
structure Alike (s : FormulaStore) (id : FormulaId) (s' : FormulaStore) (id' : FormulaId) :
    Prop where
  tree : ∃ φ, s.tree? id = some φ ∧ s'.tree? id' = some φ
  text : ∃ t, s.text? id = some t ∧ s'.text? id' = some t
  atoms : ∃ names, s.atoms? id = some names ∧ s'.atoms? id' = some names
  actions : ∃ names, s.actions? id = some names ∧ s'.actions? id' = some names
  depth : ∃ n, s.depth? id = some n ∧ s'.depth? id' = some n
  size : ∃ n, s.treeSize? id = some n ∧ s'.treeSize? id' = some n
  /-- All evaluators give the same answers about every world of every model. -/
  answers : Evaluator.SameAnswers s id s' id'
  /-- All checks find the same in every model. -/
  findings : ∀ (m : Model) {threads threads' : Nat} (schedule : Schedule threads m.worlds.size)
    (schedule' : Schedule threads' m.worlds.size) (memoize memoize' : Bool),
    (m.checkValidityOn schedule s id memoize).map ValidityReport.findings =
      (m.checkValidityOn schedule' s' id' memoize').map ValidityReport.findings

variable {s s' : FormulaStore} {id id' : FormulaId} {φ : Formula}

/-- Numbers of the same formula are alike. -/
theorem Denotes.alike (hs : s.Built) (hs' : s'.Built) (hφ : s.Denotes id φ)
    (hφ' : s'.Denotes id' φ) : Alike s id s' id' := by
  have htree : s.tree? id = some φ := tree?_eq_some_iff.mpr hφ
  have htree' : s'.tree? id' = some φ := tree?_eq_some_iff.mpr hφ'
  constructor
  case tree => exact ⟨φ, htree, htree'⟩
  case text => exact ⟨φ.text, hφ.text?_eq, hφ'.text?_eq⟩
  case atoms => exact ⟨_, hs.atoms?_eq hφ, hs'.atoms?_eq hφ'⟩
  case actions => exact ⟨_, hs.actions?_eq hφ, hs'.actions?_eq hφ'⟩
  case depth => exact ⟨φ.depth, hφ.depth?_eq, hφ'.depth?_eq⟩
  case size => exact ⟨φ.size, by rw [treeSize?, htree]; rfl, by rw [treeSize?, htree']; rfl⟩
  case answers => exact Evaluator.sameAnswers_of_value_eq hs hs' hφ hφ' fun _ _ => rfl
  case findings =>
    intro m threads threads' schedule schedule' memoize memoize'
    rw [hφ.findings_checkValidityOn hs, hφ'.findings_checkValidityOn hs']

/-- Reading a formula succeeds in every store, and the number that it gets stands for it. -/
lemma Called.parse_of_read_eq_ok (hs : s.Called) {source : Text} {line : UInt32}
    (hread : Formula.read source line = .ok φ) :
    ∃ id, (s.parse source line).1 = .ok id ∧ (s.parse source line).2.Denotes id φ ∧
      (s.parse source line).2.Built := by
  rw [parse, hread]
  exact ⟨_, rfl, (hs.made.exact.add_spec φ).2.2, hs.made.built.add φ⟩

/-- A source is refused by all stores for the same reason, or its formula gets numbers that are
alike. -/
theorem Called.parse_alike (hs : s.Called) (hs' : s'.Called) (source : Text) (line : UInt32) :
    (∃ e, (s.parse source line).1 = .error e ∧ (s'.parse source line).1 = .error e) ∨
    ∃ id id', (s.parse source line).1 = .ok id ∧ (s'.parse source line).1 = .ok id' ∧
      Alike (s.parse source line).2 id (s'.parse source line).2 id' := by
  cases hread : Formula.read source line with
  | error f =>
    refine .inl ⟨f.error, ?_, ?_⟩
    · rw [parse, hread]
      rfl
    · rw [parse, hread]
      rfl
  | ok φ =>
    obtain ⟨id, hid, hφ, hbuilt⟩ := hs.parse_of_read_eq_ok hread
    obtain ⟨id', hid', hφ', hbuilt'⟩ := hs'.parse_of_read_eq_ok hread
    exact .inr ⟨id, id', hid, hid', hφ.alike hbuilt hbuilt' hφ'⟩

end FormulaStore

/-! ## Answers without a store -/

/-- The answer to the question whether the formula of a source is valid in a model. -/
def Model.answer (m : Model) (source : Text) : Except Error EvaluationResponse :=
  match Formula.read source 1 with
  | .error f => .error (.parse f.error)
  | .ok φ => do
    let found ← (m.verdict (φ.value m)).mapError .evaluation
    let named ← (found.counterExamples.mapM (Workspace.nameCounterExample m.twist)).mapError
      .mismatch
    return { valid := found.counterExamples.isEmpty, counterExamples := named }

/-- Models with the same content have the same answers. -/
lemma Model.SameContent.answer_eq {m m' : Model} (h : m.SameContent m') (source : Text) :
    m.answer source = m'.answer source := by
  unfold Model.answer
  cases Formula.read source 1 with
  | error f => rfl
  | ok φ =>
    have hverdict : m.verdict (φ.value m) = m'.verdict (φ.value m') :=
      h.verdict_eq fun w _ => h.value_eq φ w
    simp only [hverdict, h.twist]

namespace Workspace

/-! ## Histories -/

/-- The workspaces that a workspace becomes when it is used. -/
inductive Becomes (ws : Workspace) : Workspace → Prop
  | refl : Becomes ws ws
  | addTwist {ws₁ ws₂ : Workspace} {name : Text} {ts : Option TwistStructure} :
    Becomes ws ws₁ → ws₁.addTwist name ts = .ok ws₂ → Becomes ws ws₂
  | defineTwist {ws₁ ws₂ : Workspace} {name : Text} {p : Presentation} {ts : TwistStructure} :
    Becomes ws ws₁ → ws₁.defineTwist name p = .ok (ts, ws₂) → Becomes ws ws₂
  | defineModel {ws₁ ws₂ : Workspace} {name : Text} {d : ModelDescription} {m : Model} :
    Becomes ws ws₁ → ws₁.defineModel name d = .ok (m, ws₂) → Becomes ws ws₂
  /-- A model is replaced, or it is changed in its place. -/
  | putModel {ws₁ : Workspace} (name : Text) (m : Model) :
    Becomes ws ws₁ → Becomes ws (ws₁.putModel name m)
  /-- The store is used by itself. -/
  | store {ws₁ : Workspace} (o : FormulaStore.Operation) :
    Becomes ws ws₁ → o.Admitted ws₁.store →
    Becomes ws { ws₁ with store := (o.run ws₁.store).2 }
  | evaluateOn {ws₁ : Workspace} {threads : Nat} (schedules : (n : Nat) → Schedule threads n)
    (source name : Text) (memoize : Bool) :
    Becomes ws ws₁ → Becomes ws (ws₁.evaluateOn schedules source name memoize).2

/-- The workspaces that are made by using them. -/
def Reached (ws : Workspace) : Prop := Becomes .empty ws

variable {ws ws' : Workspace} {threads : Nat} {schedules : (n : Nat) → Schedule threads n}
  {source name : Text} {memoize : Bool}

lemma store_addTwist {ts : Option TwistStructure} (h : ws.addTwist name ts = .ok ws') :
    ws'.store = ws.store := by
  cases ts with
  | none => cases h
  | some ts =>
    cases h
    rfl

lemma store_defineTwist {p : Presentation} {ts : TwistStructure}
    (h : ws.defineTwist name p = .ok (ts, ws')) : ws'.store = ws.store := by
  simp only [defineTwist, bind_eq_ok_iff, pure_eq_ok_iff, Prod.mk.injEq] at h
  obtain ⟨base, -, _, -, _, hadd, rfl, rfl⟩ := h
  exact store_addTwist hadd

lemma store_defineModel {d : ModelDescription} {m : Model}
    (h : ws.defineModel name d = .ok (m, ws')) : ws'.store = ws.store := by
  simp only [defineModel, bind_eq_ok_iff, pure_eq_ok_iff, Prod.mk.injEq] at h
  obtain ⟨_, -, _, -, rfl, rfl⟩ := h
  rfl

/-- A request about a model reads its source into the store, and nothing else changes. -/
lemma evaluateOn_snd {m : Model} (hm : ws.model name = .ok m) :
    (ws.evaluateOn schedules source name memoize).2 =
      { ws with store := (ws.store.parse source 1).2 } := by
  unfold evaluateOn
  rw [hm]
  dsimp only
  split
  next h => rw [h]
  next h => rw [h]

/-- A request about no model changes nothing. -/
lemma evaluateOn_snd_of_error {e : Error} (hm : ws.model name = .error e) :
    (ws.evaluateOn schedules source name memoize).2 = ws := by
  unfold evaluateOn
  rw [hm]

/-- Whatever a workspace is used for, its store is called as a store is. -/
lemma Becomes.store_becomes (h : ws.Becomes ws') : ws.store.Becomes ws'.store := by
  induction h with
  | refl => exact .refl
  | addTwist _ h ih => exact store_addTwist h ▸ ih
  | defineTwist _ h ih => exact store_defineTwist h ▸ ih
  | defineModel _ h ih => exact store_defineModel h ▸ ih
  | putModel name m _ ih => exact ih
  | store o _ ho ih => exact .call o ih ho
  | @evaluateOn ws₁ _ schedules source name memoize _ ih =>
    cases hm : ws₁.model name with
    | error e => exact (evaluateOn_snd_of_error hm).symm ▸ ih
    | ok m =>
      rw [evaluateOn_snd hm]
      exact .call (.parse source 1) ih trivial

lemma Reached.called (h : ws.Reached) : ws.store.Called := Becomes.store_becomes h

/-! ## Requests -/

/-- The response about a stored formula is the one that its values give. -/
lemma respondOn_eq {s : FormulaStore} (hs : s.Built) {id : FormulaId} {φ : Formula}
    (hφ : s.Denotes id φ) (m : Model) (schedule : Schedule threads m.worlds.size) :
    respondOn m schedule s id memoize = do
      let found ← (m.verdict (φ.value m)).mapError .evaluation
      let named ← (found.counterExamples.mapM (nameCounterExample m.twist)).mapError .mismatch
      return { valid := found.counterExamples.isEmpty, counterExamples := named } := by
  rw [← hφ.findings_checkValidityOn hs schedule memoize, respondOn]
  cases m.checkValidityOn schedule s id memoize <;> rfl

/-- The response about the formula of a source, read into any store, is the answer of the model. -/
theorem parse_respondOn_eq {s : FormulaStore} (hs : s.Called) (source : Text) (m : Model)
    (schedule : Schedule threads m.worlds.size) (memoize : Bool) :
    (do
      let id ← (s.parse source 1).1.mapError Error.parse
      respondOn m schedule (s.parse source 1).2 id memoize) = m.answer source := by
  unfold Model.answer
  cases hread : Formula.read source 1 with
  | error f =>
    rw [FormulaStore.parse, hread]
    rfl
  | ok φ =>
    obtain ⟨id, hid, hφ, hbuilt⟩ := hs.parse_of_read_eq_ok hread
    rw [hid]
    exact respondOn_eq hbuilt hφ m schedule

/-- The answer of a workspace is that of the model with the given name. -/
theorem evaluateOn_fst (hws : ws.Reached) :
    (ws.evaluateOn schedules source name memoize).1 =
      (do let m ← ws.model name; m.answer source) := by
  unfold evaluateOn
  cases ws.model name with
  | error e => rfl
  | ok m =>
    change _ = m.answer source
    rw [← parse_respondOn_eq hws.called source m (schedules m.worlds.size) memoize]
    rcases ws.store.parse source 1 with ⟨_ | id, s⟩ <;> rfl

/-- A request that is made again, after whatever has happened since, changes nothing. -/
theorem evaluateOn_again (hws : ws.Reached) {m : Model} (hm : ws.model name = .ok m)
    (hws' : (ws.evaluateOn schedules source name memoize).2.Becomes ws') {threads' : Nat}
    (schedules' : (n : Nat) → Schedule threads' n) (name' : Text) (memoize' : Bool) :
    (ws'.evaluateOn schedules' source name' memoize').2 = ws' := by
  have hstore := hws'.store_becomes
  rw [evaluateOn_snd hm] at hstore
  have hadmitted : (FormulaStore.Operation.parse source 1).Admitted ws.store := trivial
  have hparse : (ws'.store.parse source 1).2 = ws'.store :=
    congrArg Prod.snd (hadmitted.run_again hws.called hstore)
  cases hm' : ws'.model name' with
  | error e => exact evaluateOn_snd_of_error hm'
  | ok m' => rw [evaluateOn_snd hm', hparse]

/-- A source is read alike into all stores, whatever they were called for.  The answer of a
workspace depends on the source and the content of the named model, whatever the workspace was used
for.  A request that is made again interns nothing. -/
theorem answers_independent_of_history :
    (∀ s s' : FormulaStore, s.Called → s'.Called → ∀ source line,
      (∃ e, (s.parse source line).1 = .error e ∧ (s'.parse source line).1 = .error e) ∨
      ∃ id id', (s.parse source line).1 = .ok id ∧ (s'.parse source line).1 = .ok id' ∧
        FormulaStore.Alike (s.parse source line).2 id (s'.parse source line).2 id') ∧
    ∀ ws ws' : Workspace, ws.Reached → ws'.Reached →
      ∀ (threads threads' : Nat) (schedules : (n : Nat) → Schedule threads n)
        (schedules' : (n : Nat) → Schedule threads' n) (source name name' : Text)
        (memoize memoize' : Bool),
        (ws.evaluateOn schedules source name memoize).1 =
            (do let m ← ws.model name; m.answer source) ∧
        ∀ m, ws.model name = .ok m →
          (∀ m', ws'.model name' = .ok m' → m.SameContent m' →
            (ws.evaluateOn schedules source name memoize).1 =
              (ws'.evaluateOn schedules' source name' memoize').1) ∧
          ((ws.evaluateOn schedules source name memoize).2.Becomes ws' →
            (ws'.evaluateOn schedules' source name' memoize').2 = ws') := by
  refine ⟨fun s s' hs hs' source line => hs.parse_alike hs' source line, ?_⟩
  intro ws ws' hws hws' threads threads' schedules schedules' source name name' memoize memoize'
  refine ⟨evaluateOn_fst hws, fun m hm => ⟨fun m' hm' hsame => ?_, fun hbecomes => ?_⟩⟩
  · rw [evaluateOn_fst hws, evaluateOn_fst hws', hm, hm']
    exact hsame.answer_eq source
  · exact evaluateOn_again hws hm hbecomes schedules' name' memoize'

/-- A reading that fails behind `q & (p` leaves `q` the number that `p` has in a new store, so `p =>
p` gets another number.  It holds at one of the two worlds of the circular model, before and after.
-/
theorem answers_independent_of_history_seesaw :
    let source := ascii "p => p"
    let name := ascii "M"
    let ws := empty.putModel name .seesaw
    let ws' := (ws.evaluate (ascii "q & (p") name true).2
    let again := (ws'.evaluate source name true).2
    (ws.store.parse source 1).1 = .ok 3 ∧ (ws'.store.parse source 1).1 = .ok 4 ∧
    FormulaStore.Alike (ws.store.parse source 1).2 3 (ws'.store.parse source 1).2 4 ∧
    (ws.evaluate source name true).1 =
      .ok ⟨false, [⟨ascii "v", ascii "1", ascii "1"⟩]⟩ ∧
    (ws.evaluate source name true).1 = (ws'.evaluate source name false).1 ∧
    (again.evaluate source name false).2 = again := by
  intro source name ws ws' again
  obtain ⟨hparse, hrequest⟩ := answers_independent_of_history
  have hws : ws.Reached := .putModel name .seesaw .refl
  have hws' : ws'.Reached := .evaluateOn _ _ name true hws
  have hagain : again.Reached := .evaluateOn _ source name true hws'
  have hm : ws.model name = .ok .seesaw := by
    simp [ws, Workspace.model, Workspace.putModel]
  have hm' : ws'.model name = .ok .seesaw := by
    have hstore : ws' = { ws with store := (ws.store.parse (ascii "q & (p") 1).2 } :=
      evaluateOn_snd hm
    rw [hstore]
    exact hm
  have hthree : (ws.store.parse source 1).1 = .ok 3 := by decide +kernel
  have hfour : (ws'.store.parse source 1).1 = .ok 4 := by decide +kernel
  refine ⟨hthree, hfour, ?_, by decide +kernel, ?_, ?_⟩
  · rcases hparse ws.store ws'.store hws.called hws'.called source 1 with ⟨e, he, -⟩ | ⟨id, id', h⟩
    · exact absurd (hthree.symm.trans he) nofun
    · obtain ⟨hid, hid', halike⟩ := h
      obtain rfl : 3 = id := Except.ok.inj (hthree.symm.trans hid)
      obtain rfl : 4 = id' := Except.ok.inj (hfour.symm.trans hid')
      exact halike
  · have hsame := Model.SameContent.refl .seesaw
    exact ((hrequest ws ws' hws hws' 1 1 _ _ source name name true false).2 _ hm).1 _ hm' hsame
  · exact ((hrequest ws' again hws' hagain 1 1 _ _ source name name true false).2 _ hm').2 .refl

end Workspace

end TwistLogic
