import TwistLogic.Proofs.Registry

/-!
# Calls that do not interfere

A call works on a registry in place and may fail halfway.  Nevertheless a refused call leaves all
entries as they were, and another call changes only the entry that it names
(`Registry.Keeps.settles`).  What a question about a model is answered depends on the entry of the
model and on nothing else (`Registry.Reached.perform_evaluate_fst`), so calls interfere with later
answers only through that entry (`Registry.calls_isolated`).
-/

namespace TwistLogic

namespace Registry

/-! ## What calls leave alone -/

/-- Two registries differ at most in the named entries and in what the store holds behind its
nodes. -/
structure Changes (reg reg' : Registry) (twist? model? : Option Text) : Prop where
  twists : ∀ name : Text, twist? ≠ some name → reg'.twists[name]? = reg.twists[name]?
  models : ∀ name : Text, model? ≠ some name → reg'.models[name]? = reg.models[name]?
  store : reg.store.nodes.toList <+: reg'.store.nodes.toList

section Changes

variable {reg reg' : Registry} {ws : Workspace}

lemma Changes.refl (reg : Registry) (twist? model? : Option Text) :
    reg.Changes reg twist? model? :=
  ⟨fun _ _ => rfl, fun _ _ => rfl, List.prefix_refl _⟩

lemma changes_insertTwist (reg : Registry) (name : Text) (ts : TwistStructure) :
    reg.Changes { reg with twists := reg.twists.insert name ts } (some name) none where
  twists other hother := by
    rw [getElem?_insert_eq_ite, if_neg fun heq => hother (congrArg some heq)]
  models _ _ := rfl
  store := List.prefix_refl _

lemma changes_putModel (reg : Registry) (name : Text) (st : Storage) :
    reg.Changes { reg with models := reg.models.insert name st } none (some name) where
  twists _ _ := rfl
  models other hother := by
    rw [getElem?_insert_eq_ite, if_neg fun heq => hother (congrArg some heq)]
  store := List.prefix_refl _

/-- The outcome of a call: refused without a changed entry, or successful with the named entries
changed at most. -/
def Settles (reg : Registry) (c : Workspace.Call) : Prop :=
  (∃ e, (reg.perform c).1 = .error e) ∧ reg.Changes (reg.perform c).2 none none ∨
    (∃ r, (reg.perform c).1 = .ok r) ∧
      reg.Changes (reg.perform c).2 c.twistName? c.modelName?

/-- A refused change of a model enters the containers as they were. -/
lemma Keeps.settles_change (h : reg.Keeps ws) (name : Text) (c : Call) :
    reg.Settles (.change name c) := by
  rw [Settles, perform_change]
  obtain ⟨hst, -⟩ | ⟨st, m, hst, -, hkeeps⟩ := h.entry name
  · rw [hst]
    exact .inl ⟨⟨_, rfl⟩, .refl reg none none⟩
  rw [hst]
  have hperforms := hkeeps.performs c
  cases hc : c.apply m with
  | error e =>
    rw [hc] at hperforms
    have hexec : st.exec c.update = (.error e, st) := hperforms
    simp only [hexec]
    -- the entry is written again, but with what it was
    refine .inl ⟨⟨_, rfl⟩, fun _ _ => rfl, fun other _ => ?_, List.prefix_refl _⟩
    exact getElem?_insert_of_getElem? hst other
  | ok m' =>
    rw [hc] at hperforms
    obtain ⟨a, st', hexec, -⟩ := hperforms
    simp only [hexec]
    exact .inr ⟨⟨_, rfl⟩, reg.changes_putModel name st'⟩

/-- A question only adds nodes behind those of the store. -/
lemma settles_evaluate (hs : reg.store.Called) {threads : Nat}
    (schedules : (n : Nat) → Schedule threads n) (source name : Text) (memoize : Bool) :
    reg.Settles (.request (.evaluate schedules source name memoize)) := by
  rw [Settles, reg.perform_evaluate_of_called hs]
  have hadmitted : (FormulaStore.Operation.parse source 1).Admitted reg.store := trivial
  have hextends : reg.store.Extends (reg.store.parse source 1).2 :=
    (hadmitted.settles hs.made).grows.extends
  have hchanges : reg.Changes { reg with
      store := if (reg.models[name]?).isSome then (reg.store.parse source 1).2
        else reg.store } none none := by
    refine ⟨fun _ _ => rfl, fun _ _ => rfl, ?_⟩
    dsimp only
    split
    · exact hextends.isPrefix
    · exact List.prefix_refl _
  cases reg.answer source name with
  | error e => exact .inl ⟨⟨e, rfl⟩, hchanges⟩
  | ok r => exact .inr ⟨⟨r, rfl⟩, hchanges⟩

/-- A refused call changes no entry, and a successful one at most the entry that it names. -/
theorem Keeps.settles (h : reg.Keeps ws) (hws : ws.Reached) (c : Workspace.Call) :
    reg.Settles c := by
  rcases c with ⟨name, ts⟩ | ⟨name, c⟩ |
    ⟨⟨name, p⟩ | ⟨name, d⟩ | ⟨schedules, source, name, memoize⟩⟩
  case addTwist =>
    cases ts with
    | none => exact .inl ⟨⟨_, rfl⟩, .refl reg none none⟩
    | some ts => exact .inr ⟨⟨_, rfl⟩, reg.changes_insertTwist name ts⟩
  case change => exact h.settles_change name c
  case request.defineTwist =>
    rw [Settles, perform_defineTwist]
    split
    · exact .inl ⟨⟨_, rfl⟩, .refl reg none none⟩
    · exact .inr ⟨⟨_, rfl⟩, reg.changes_insertTwist name _⟩
  case request.defineModel =>
    rw [Settles, perform_defineModel]
    split
    · exact .inl ⟨⟨_, rfl⟩, .refl reg none none⟩
    · split
      · exact .inl ⟨⟨_, rfl⟩, .refl reg none none⟩
      · exact .inr ⟨⟨_, rfl⟩, reg.changes_putModel name _⟩
  case request.evaluate =>
    exact settles_evaluate (h.store ▸ hws.called) schedules source name memoize

end Changes

/-! ## Runs that spare a model -/

/-- A registry that calls have made. -/
def Reached (reg : Registry) : Prop := ∃ ws : Workspace, reg.Keeps ws ∧ ws.Reached

/-- Among the calls that enter or change the model with a name, none succeeds. -/
def Spares (reg : Registry) (name : Text) : List Workspace.Call → Prop
  | [] => True
  | c :: cs =>
    (c.modelName? = some name → ∃ e, (reg.perform c).1 = .error e) ∧
      (reg.perform c).2.Spares name cs

section Spares

variable {reg reg' : Registry} {name : Text}

lemma reached_after (cs : List Workspace.Call) : (empty.after cs).Reached :=
  ⟨_, keeps_after cs⟩

lemma Reached.perform (h : reg.Reached) (c : Workspace.Call) : (reg.perform c).2.Reached := by
  obtain ⟨ws, hkeeps, hws⟩ := h
  exact ⟨_, (hkeeps.performs hws c).2, hws.perform c⟩

lemma Reached.after (h : reg.Reached) (cs : List Workspace.Call) : (reg.after cs).Reached := by
  induction cs generalizing reg with
  | nil => exact h
  | cons c cs ih => exact ih (h.perform c)

lemma Reached.settles (h : reg.Reached) (c : Workspace.Call) : reg.Settles c := by
  obtain ⟨_, hkeeps, hws⟩ := h
  exact hkeeps.settles hws c

/-- A question is answered by the entry of its model alone. -/
lemma Reached.perform_evaluate_fst (h : reg.Reached) {threads : Nat}
    (schedules : (n : Nat) → Schedule threads n) (source name : Text) (memoize : Bool) :
    (reg.perform (.request (.evaluate schedules source name memoize))).1 =
      reg.answer source name := by
  obtain ⟨ws, hkeeps, hws⟩ := h
  have hcalled : reg.store.Called := hkeeps.store ▸ hws.called
  rw [reg.perform_evaluate_of_called hcalled]

/-- A call that does not name a model, or fails, leaves its entry as it was. -/
lemma Settles.getElem?_models {c : Workspace.Call} (h : reg.Settles c)
    (hc : c.modelName? = some name → ∃ e, (reg.perform c).1 = .error e) :
    (reg.perform c).2.models[name]? = reg.models[name]? := by
  rcases h with ⟨-, hchanges⟩ | ⟨⟨r, hr⟩, hchanges⟩
  · exact hchanges.models name nofun
  · refine hchanges.models name fun hname => ?_
    obtain ⟨e, he⟩ := hc hname
    exact absurd (hr.symm.trans he) nofun

/-- A run that spares a model leaves its entry as it was. -/
theorem Spares.getElem?_models {cs : List Workspace.Call} (h : reg.Reached)
    (hcs : reg.Spares name cs) : (reg.after cs).models[name]? = reg.models[name]? := by
  induction cs generalizing reg with
  | nil => rfl
  | cons c cs ih =>
    obtain ⟨hc, hrest⟩ := hcs
    exact (ih (h.perform c) hrest).trans ((h.settles c).getElem?_models hc)

/-- A call that does not define a model makes its entry out of the entry that there was. -/
lemma getElem?_models_perform (h : reg.Reached) (h' : reg'.Reached)
    (hentry : reg.models[name]? = reg'.models[name]?) {c : Workspace.Call}
    (hc : ∀ d, c ≠ .request (.defineModel name d)) :
    (reg.perform c).2.models[name]? = (reg'.perform c).2.models[name]? := by
  by_cases hname : c.modelName? = some name
  case neg =>
    rw [(h.settles c).getElem?_models (absurd · hname), hentry,
      (h'.settles c).getElem?_models (absurd · hname)]
  case pos =>
    -- of the calls that name the model, only a change is left, and it reads nothing but the entry
    rcases c with _ | ⟨name', c⟩ | ⟨_ | ⟨name', d⟩ | _⟩ <;> cases hname
    case change =>
      rw [perform_change, perform_change, ← hentry]
      cases hold : reg.models[name]? with
      | none => exact hentry
      | some st => simp only [Std.TreeMap.getElem?_insert_self]
    case request.defineModel => exact absurd rfl (hc d)

/-- Runs that do not define a model make equal entries out of equal entries. -/
lemma getElem?_models_after {cs : List Workspace.Call} (h : reg.Reached) (h' : reg'.Reached)
    (hentry : reg.models[name]? = reg'.models[name]?)
    (hcs : ∀ d, .request (.defineModel name d) ∉ cs) :
    (reg.after cs).models[name]? = (reg'.after cs).models[name]? := by
  induction cs generalizing reg reg' with
  | nil => exact hentry
  | cons c cs ih =>
    have hc : ∀ d, c ≠ .request (.defineModel name d) := by
      rintro d rfl
      exact hcs d List.mem_cons_self
    exact ih (h.perform c) (h'.perform c) (getElem?_models_perform h h' hentry hc)
      fun d hd => hcs d (List.mem_cons_of_mem c hd)

/-- Equal entries give equal answers. -/
lemma answer_congr (hentry : reg.models[name]? = reg'.models[name]?) (source : Text) :
    reg.answer source name = reg'.answer source name := by
  rw [answer, answer, hentry]

end Spares

/-! ## Isolation -/

/-- After any calls, the registry replies as the workspace does that the same calls make.  A call
that fails changes no entry, and one that succeeds at most the entry that it names; either way the
store keeps its nodes and gets new ones behind them.

If calls spare a model, a question about it gets the same answer before and after them.  They do not
change the answers after later calls either, as long as these do not define the model anew. -/
theorem calls_isolated (cs : List Workspace.Call) :
    let reg := empty.after cs
    let ws := Workspace.empty.after cs
    reg.Keeps ws ∧
    (∀ c, (reg.perform c).1 = (ws.perform c).1 ∧ reg.Settles c) ∧
    ∀ (threads threads' : Nat) (schedules : (n : Nat) → Schedule threads n)
      (schedules' : (n : Nat) → Schedule threads' n) (source name : Text) (memoize memoize' : Bool)
      (between : List Workspace.Call),
      let question := Workspace.Call.request (.evaluate schedules source name memoize)
      let again := Workspace.Call.request (.evaluate schedules' source name memoize')
      ((reg.perform question).2.Spares name between →
        (((reg.perform question).2.after between).perform again).1 = (reg.perform question).1) ∧
      (reg.Spares name between → ∀ later, (∀ d, .request (.defineModel name d) ∉ later) →
        ((reg.after between).after later).models[name]? = (reg.after later).models[name]? ∧
        (((reg.after between).after later).perform question).1 =
          ((reg.after later).perform question).1) := by
  intro reg ws
  obtain ⟨hkeeps, hws⟩ := keeps_after cs
  have hreg : reg.Reached := reached_after cs
  refine ⟨hkeeps, fun c => ⟨(hkeeps.performs hws c).1, hreg.settles c⟩, ?_⟩
  intro threads threads' schedules schedules' source name memoize memoize' between question again
  refine ⟨fun hspares => ?_, fun hspares later hlater => ?_⟩
  · have hquestion : (reg.perform question).2.Reached := hreg.perform question
    have hentry : ((reg.perform question).2.after between).models[name]? = reg.models[name]? :=
      (hspares.getElem?_models hquestion).trans ((hreg.settles question).getElem?_models nofun)
    rw [(hquestion.after between).perform_evaluate_fst, hreg.perform_evaluate_fst]
    exact answer_congr hentry source
  · have hentry := getElem?_models_after (hreg.after between) hreg (hspares.getElem?_models hreg)
      hlater
    refine ⟨hentry, ?_⟩
    rw [((hreg.after between).after later).perform_evaluate_fst,
      (hreg.after later).perform_evaluate_fst]
    exact answer_congr hentry source

/-- An assignment to an unknown world, a definition over an unknown structure and a new structure
under the old name leave the answer about a model as it was.  An assignment that follows brings the
answer that it brings without them. -/
theorem calls_isolated_halfway :
    let name := ascii "M"
    let made : List Workspace.Call := [.request (.defineTwist (ascii "T") Workspace.threeChain),
      .request (.defineModel name Workspace.halfway)]
    let between : List Workspace.Call := [
      .change name (.edit (.assign (ascii "w") (ascii "p") ⟨2, 0⟩)),
      .request (.defineModel name { Workspace.halfway with twist := ascii "X" }),
      .addTwist (ascii "T") (some .fourValued)]
    let later : List Workspace.Call := [
      .change name (.edit (.assign (ascii "u") (ascii "p") ⟨2, 0⟩))]
    let question := Workspace.Call.request
      (.evaluate Schedule.sequential (ascii "<a> p -> p") name true)
    let reg := empty.after made
    (reg.perform question).1 = .ok (some ⟨false, [⟨ascii "u", ascii "h", ascii "0"⟩]⟩) ∧
    (((reg.perform question).2.after between).perform question).1 = (reg.perform question).1 ∧
    ((reg.after later).perform question).1 = .ok (some ⟨true, []⟩) ∧
    (((reg.after between).after later).perform question).1 =
      ((reg.after later).perform question).1 := by
  intro name made between later question reg
  obtain ⟨-, -, hisolated⟩ := calls_isolated made
  obtain ⟨hrepeated, hlater⟩ := hisolated 1 1 Schedule.sequential Schedule.sequential
    (ascii "<a> p -> p") name true true between
  have hspares : reg.Spares name between :=
    ⟨fun _ => ⟨.model (.unknownWorld (ascii "w")), by decide +kernel⟩,
      fun _ => ⟨.unknownTwist (ascii "X"), by decide +kernel⟩, nofun, trivial⟩
  have hsparesAfter : (reg.perform question).2.Spares name between :=
    ⟨fun _ => ⟨.model (.unknownWorld (ascii "w")), by decide +kernel⟩,
      fun _ => ⟨.unknownTwist (ascii "X"), by decide +kernel⟩, nofun, trivial⟩
  have hdefines : ∀ d, .request (.defineModel name d) ∉ later := fun d => by simp [later]
  exact ⟨by decide +kernel, hrepeated hsparesAfter, by decide +kernel,
    (hlater hspares later hdefines).2⟩

end Registry

end TwistLogic
