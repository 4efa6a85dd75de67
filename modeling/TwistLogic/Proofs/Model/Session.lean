import Mathlib.Tactic.Common
import TwistLogic.Proofs.Algebra.Twist
import TwistLogic.Proofs.Model.Edit
import TwistLogic.Proofs.Model.Recall

/-!
# Evaluators across changes

A `Session` is a model that is edited, a store that grows and any number of evaluators over both.
Requests of all kinds may follow each other in any order: edits that succeed or are refused, nodes
over existing formulas, new evaluators, cleared memories, and queries.

`Session.Coherent` is the invariant that ties the memories to the model and the store: the store is
built, and every evaluator is coherent.  An edit that changes the model raises its revision, so an
evaluator that was coherent before has nothing to answer for until it synchronises.  Hence every
answer of every session is the one that a new evaluator without memory would give at that moment
(`answers_eq_freshAnswers`).
-/

namespace TwistLogic

/-- An edit leaves coherent evaluators coherent: it changes nothing or raises the revision. -/
lemma Evaluator.Coherent.edit {s : FormulaStore} {m m' : Model} {ev : Evaluator}
    (h : ev.Coherent s m) {e : Edit} (he : e.apply m = .ok m') : ev.Coherent s m' := by
  rcases e.eq_or_revision_lt he with rfl | hlt
  · exact h
  · have hle := h.revision_le
    exact ⟨by omega, fun heq => by omega⟩

/-! ## Sessions -/

/-- A model, a store and the evaluators that read them. -/
structure Session where
  model : Model
  store : FormulaStore
  evaluators : Array Evaluator

/-- What can be asked of a session. -/
inductive Request where
  | edit (e : Edit)
  | intern (n : Node)
  | newEvaluator (memoize : Bool)
  | clearCache (evaluator : Nat)
  | evaluateAt (evaluator : Nat) (id : FormulaId) (w : WorldIndex)
  | evaluate (evaluator : Nat) (id : FormulaId) (world : Text)

namespace Session

/-- The session without worlds, formulas and evaluators. -/
def start (ts : TwistStructure) : Session :=
  { model := .empty ts, store := .initial, evaluators := #[] }

/-- The query that a request makes, with the number of the evaluator that it is made to. -/
def query? (st : Session) : Request → Option (Nat × Evaluation TwistElement)
  | .evaluateAt i id w => some (i, Evaluator.evaluateAt st.store st.model id w)
  | .evaluate i id world => some (i, Evaluator.evaluate st.store st.model id world)
  | _ => none

/-- The session after a request.  A refused edit changes nothing, and neither does a request to an
evaluator that does not exist. -/
def after (st : Session) (r : Request) : Session :=
  match r with
  | .edit e =>
    match e.apply st.model with
    | .ok m => { st with model := m }
    | .error _ => st
  | .intern n => { st with store := (st.store.intern n).2 }
  | .newEvaluator memoize =>
    { st with evaluators := st.evaluators.push (.start st.model memoize) }
  | .clearCache i => { st with evaluators := st.evaluators.modify i Evaluator.clearCache }
  | .evaluateAt i _ _ | .evaluate i _ _ =>
    match st.query? r with
    | some (_, c) => { st with evaluators := st.evaluators.modify i fun ev => (ev.ask c).2 }
    | none => st

/-- The answer to a query, given by the evaluator that it is made to. -/
def answer? (st : Session) (r : Request) : Option (Except EvalError TwistElement) := do
  let (i, c) ← st.query? r
  let ev ← st.evaluators[i]?
  return (ev.ask c).1

/-- The answer to a query, given by a new evaluator without memory. -/
def freshAnswer? (st : Session) (r : Request) : Option (Except EvalError TwistElement) := do
  let (i, c) ← st.query? r
  let _ ← st.evaluators[i]?
  return ((Evaluator.start st.model false).ask c).1

/-- The answers to requests that are made one after the other. -/
def answers (st : Session) : List Request → List (Option (Except EvalError TwistElement))
  | [] => []
  | r :: rs => st.answer? r :: (st.after r).answers rs

/-- The answers that new evaluators without memory would give, each at its moment. -/
def freshAnswers (st : Session) : List Request → List (Option (Except EvalError TwistElement))
  | [] => []
  | r :: rs => st.freshAnswer? r :: (st.after r).freshAnswers rs

/-- Formulas are only made over formulas that exist at that moment. -/
def Admits (st : Session) : List Request → Prop
  | [] => True
  | r :: rs => (∀ n, r = .intern n → n.Over st.store.size) ∧ (st.after r).Admits rs

/-! ## The invariant -/

/-- The store is built over existing formulas, and no evaluator remembers a wrong value of the
model as it is. -/
structure Coherent (st : Session) : Prop where
  built : st.store.Built
  evaluators : ∀ ev ∈ st.evaluators, ev.Coherent st.store st.model

lemma coherent_start (ts : TwistStructure) : (start ts).Coherent where
  built := .initial
  evaluators := by simp [start]

/-- A change of one evaluator that keeps it coherent keeps the session coherent. -/
lemma Coherent.modify {st : Session} (h : st.Coherent) (i : Nat) {f : Evaluator → Evaluator}
    (hf : ∀ ev : Evaluator, ev.Coherent st.store st.model → (f ev).Coherent st.store st.model) :
    Coherent { st with evaluators := st.evaluators.modify i f } where
  built := h.built
  evaluators := by
    intro ev hev
    obtain ⟨j, hj, rfl⟩ := Array.mem_iff_getElem.mp hev
    rw [Array.getElem_modify]
    split
    · exact hf _ (h.evaluators _ (Array.getElem_mem _))
    · exact h.evaluators _ (Array.getElem_mem _)

/-- Every request keeps a session coherent. -/
theorem Coherent.after {st : Session} (h : st.Coherent) {r : Request}
    (hr : ∀ n, r = .intern n → n.Over st.store.size) : (st.after r).Coherent := by
  cases r with
  | edit e =>
    simp only [Session.after]
    split
    next m hm => exact ⟨h.built, fun ev hev => (h.evaluators ev hev).edit hm⟩
    next => exact h
  | intern n =>
    exact ⟨h.built.intern (hr n rfl), fun ev hev =>
      (h.evaluators ev hev).mono (FormulaStore.extends_intern _ _)⟩
  | newEvaluator memoize =>
    refine ⟨h.built, fun ev hev => ?_⟩
    rcases Array.mem_push.mp hev with hev | rfl
    · exact h.evaluators ev hev
    · exact Evaluator.coherent_start _ _ _
  | clearCache i => exact h.modify i fun ev hev => hev.clearCache
  | evaluateAt i id w => exact h.modify i fun ev hev => (hev.ask_evaluateAt h.built id w).2
  | evaluate i id world => exact h.modify i fun ev hev => (hev.ask_evaluate h.built id world).2

/-- The model of a session changes by edits only. -/
lemma reachable_after {ts : TwistStructure} {st : Session} (h : Model.Reachable ts st.model)
    (r : Request) : Model.Reachable ts (st.after r).model := by
  cases r with
  | edit e =>
    simp only [Session.after]
    split
    next m hm => exact h.edit e hm
    next => exact h
  | intern n => exact h
  | newEvaluator memoize => exact h
  | clearCache i => exact h
  | evaluateAt i id w => exact h
  | evaluate i id world => exact h

/-- After any admitted requests, a session is coherent and its model reachable. -/
theorem Coherent.foldl_after {ts : TwistStructure} {st : Session} (h : st.Coherent)
    (hm : Model.Reachable ts st.model) {rs : List Request} (hrs : st.Admits rs) :
    (rs.foldl Session.after st).Coherent ∧
      Model.Reachable ts (rs.foldl Session.after st).model := by
  induction rs generalizing st with
  | nil => exact ⟨h, hm⟩
  | cons r rs ih => exact ih (h.after hrs.1) (reachable_after hm r) hrs.2

/-- A coherent session answers every query as a new evaluator without memory does. -/
theorem Coherent.answer?_eq {st : Session} (h : st.Coherent) (r : Request) :
    st.answer? r = st.freshAnswer? r := by
  have hfresh := Evaluator.coherent_start st.store st.model false
  -- all coherent evaluators give the same answer, the new one among them
  have hsame : ∀ {i : Nat} {c : Evaluation TwistElement} {x : Except EvalError TwistElement},
      (∀ ev : Evaluator, ev.Coherent st.store st.model → (ev.ask c).1 = x) →
      ((st.evaluators[i]?).bind fun ev => some (ev.ask c).1) =
        (st.evaluators[i]?).bind fun _ => some ((Evaluator.start st.model false).ask c).1 := by
    intro i c x hc
    cases hi : st.evaluators[i]? with
    | none => rfl
    | some ev =>
      have hev := h.evaluators ev (Array.mem_of_getElem? hi)
      simp only [Option.bind_some, hc ev hev, hc _ hfresh]
  unfold answer? freshAnswer?
  cases r with
  | edit e => rfl
  | intern n => rfl
  | newEvaluator memoize => rfl
  | clearCache i => rfl
  | evaluateAt i id w =>
    exact hsame fun ev hev => (hev.ask_evaluateAt h.built id w).1
  | evaluate i id world =>
    exact hsame fun ev hev => (hev.ask_evaluate h.built id world).1

/-! ## All runs -/

/-- The answers of a coherent session are those of new evaluators without memory. -/
lemma Coherent.answers_eq {st : Session} (h : st.Coherent) {rs : List Request}
    (hrs : st.Admits rs) : st.answers rs = st.freshAnswers rs := by
  induction rs generalizing st with
  | nil => rfl
  | cons r rs ih =>
    obtain ⟨hr, hrest⟩ := hrs
    rw [answers, freshAnswers, h.answer?_eq r, ih (h.after hr) hrest]

/-- However edits, new formulas, new evaluators, cleared memories and queries are interleaved, each
query is answered as a new evaluator without memory would answer it at that moment. -/
theorem answers_eq_freshAnswers (ts : TwistStructure) {rs : List Request}
    (hrs : (start ts).Admits rs) : (start ts).answers rs = (start ts).freshAnswers rs :=
  (coherent_start ts).answers_eq hrs

/-- A memory that is used, kept over a refused edit, and dropped after an edit that changes a
value. -/
def rereading : List Request :=
  [.edit (.addWorld (ascii "w") ∅), .intern (.leaf (.atom (ascii "p"))), .intern (.unary .neg 2),
    .newEvaluator true, .evaluateAt 0 3 0, .edit (.assign (ascii "w") (ascii "p") ⟨1, 0⟩),
    .evaluate 0 3 (ascii "w"), .evaluateAt 0 3 0, .edit (.assign (ascii "w") (ascii "p") ⟨2, 0⟩),
    .evaluateAt 0 3 0, .edit (.assign (ascii "w") (ascii "p") ⟨1, 1⟩), .evaluateAt 0 3 0,
    .evaluateAt 0 4 0, .evaluateAt 0 3 1, .evaluate 0 3 (ascii "u")]

/-- The answers over the structure of four values are those of evaluators without memory, and they
change where the model has changed. -/
theorem rereading_answers :
    (start .fourValued).Admits rereading ∧
      (start .fourValued).answers rereading = (start .fourValued).freshAnswers rereading ∧
      ((start .fourValued).answers rereading).reduceOption =
        [.error (.undefinedAtom (ascii "p") (ascii "w")), .ok ⟨0, 1⟩, .ok ⟨0, 1⟩, .ok ⟨0, 1⟩,
          .ok ⟨1, 1⟩, .error .danglingFormula, .error (.unknownWorld (ascii "#1")),
          .error (.unknownWorld (ascii "u"))] := by
  have hadmits : (start .fourValued).Admits rereading := by
    refine ⟨nofun, ?_, ?_, nofun, nofun, nofun, nofun, nofun, nofun, nofun, nofun, nofun, nofun,
      nofun, nofun, trivial⟩
    · rintro n ⟨⟩
      unfold Node.Over
      decide
    · rintro n ⟨⟩
      unfold Node.Over
      decide +kernel
  refine ⟨hadmits, answers_eq_freshAnswers _ hadmits, ?_⟩
  decide +kernel

end Session

end TwistLogic
