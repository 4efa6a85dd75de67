import Mathlib.Algebra.BigOperators.Group.Finset.Basic
import TwistLogic.Proofs.Model.Meaning

/-!
# Which queries an evaluator computes

The computation of a query asks for the children of its formula: a connective at the same world, a
modality at the target of every transition, once for each.  `Query.asks` lists these queries without
running anything, so the queries and what they ask for form a graph.

An evaluator with memory computes every query that is reached in this graph once and remembers
exactly these; one without memory computes every node of the unfolded graph
(`Evaluator.evaluations_of_queries`).  Both are accounts of the same walk.  `Follows` says what an
account has to obey, and `Follows.runs_valueWithin` that it then holds of a whole evaluation; what
is left for an account is the step of one query.  With memory (`Serves`) this step relies on what is
remembered already: the unfolding of such a query ends, so a query that asks for such queries only
does not lead back to itself, and is not yet remembered when its own computation ends.
-/

namespace TwistLogic

/-! ## The graph of queries -/

/-- The worlds at which a node asks for its children. -/
def Node.destinations (m : Model) (n : Node) (w : WorldIndex) : List WorldIndex :=
  match n.kind with
  | .modal _ action => (m.successors w action).map (·.target)
  | _ => [w]

namespace Query

/-- The query for the formula in a slot, if there is one. -/
def ofSlot (c : Option FormulaId) (w : WorldIndex) : List Query :=
  c.toList.map fun id => { formula := id, world := w }

/-- The queries that the computation of a query asks for, with repetition. -/
def asks (s : FormulaStore) (m : Model) (q : Query) : List Query :=
  match s.node? q.formula with
  | some n => (n.destinations m q.world).flatMap fun v => n.children.flatMap fun c => ofSlot c v
  | none => []

/-- The second query is asked for by the first one, directly or not, or it is the first one. -/
def Reaches (s : FormulaStore) (m : Model) : Query → Query → Prop :=
  Relation.ReflTransGen fun p q => q ∈ p.asks s m

/-- The call trees of some queries, unfolded without sharing, have so many nodes together. -/
inductive Unfolds (s : FormulaStore) (m : Model) : List Query → Nat → Prop
  | nil : Unfolds s m [] 0
  | cons {q : Query} {qs : List Query} {k l : Nat} :
    Unfolds s m (q.asks s m) k → Unfolds s m qs l → Unfolds s m (q :: qs) (k + 1 + l)

variable {s : FormulaStore} {m : Model} {p q : Query} {ps qs : List Query} {k l : Nat}

lemma asks_eq {n : Node} (hn : s.node? q.formula = some n) :
    q.asks s m =
      (n.destinations m q.world).flatMap fun v => n.children.flatMap fun c => ofSlot c v := by
  rw [asks, hn]

/-- A query whose unfolding ends does not lead back to itself. -/
lemma not_reaches_of_acc (hq : Acc (fun p q => p ∈ q.asks s m) q) (h : p ∈ q.asks s m) :
    ¬p.Reaches s m q := by
  induction hq generalizing p with
  | intro q _ ih =>
    intro hreaches
    -- the circle through `q` is one through `p` as well
    rcases Relation.ReflTransGen.cases_head hreaches with rfl | ⟨r, hr, hrq⟩
    · exact ih p h h .refl
    · exact ih p h hr (hrq.tail h)

lemma Unfolds.append (h : Unfolds s m ps k) (h' : Unfolds s m qs l) :
    Unfolds s m (ps ++ qs) (k + l) := by
  induction h with
  | nil => simpa using h'
  | @cons p ps i j hp _ _ ih =>
    have hcons := Unfolds.cons hp ih
    rwa [← Nat.add_assoc] at hcons

/-- Queries have only one unfolding. -/
lemma Unfolds.unique (h : Unfolds s m qs k) (h' : Unfolds s m qs l) : k = l := by
  induction h generalizing l with
  | nil =>
    cases h'
    rfl
  | cons _ _ ihq ihqs =>
    cases h' with
    | cons hq hqs => rw [ihq hq, ihqs hqs]

end Query

namespace Evaluator

/-! ## Accounts of a walk -/

section Follows

variable {α β ι : Type} {s : FormulaStore} {m : Model}
  {T : List Query → Evaluator → Evaluator → Prop} {ps qs : List Query}

/-- Whenever the computation succeeds, the account says that it has asked for the queries. -/
def Runs (T : List Query → Evaluator → Evaluator → Prop) (c : Evaluation α) (qs : List Query) :
    Prop :=
  ∀ ev a ev', ev.ask c = (.ok a, ev') → T qs ev ev'

/-- An account relates the queries that were asked for to what an evaluator was before and is
afterwards.  It can be read off one query after the other, and the account of a single query
follows from that of the queries that this one asks for. -/
structure Follows (s : FormulaStore) (m : Model)
    (T : List Query → Evaluator → Evaluator → Prop) : Prop where
  nil : ∀ ev, T [] ev ev
  append : ∀ {ps qs ev ev' ev''}, T ps ev ev' → T qs ev' ev'' → T (ps ++ qs) ev ev''
  answer : ∀ {q c}, Runs T c (q.asks s m) → Runs T (answer q c) [q]

lemma ask_bind_eq_ok_iff {ev ev' : Evaluator} {c : Evaluation α} {f : α → Evaluation β} {b : β} :
    ev.ask (c >>= f) = (.ok b, ev') ↔
      ∃ a ev₁, ev.ask c = (.ok a, ev₁) ∧ ev₁.ask (f a) = (.ok b, ev') := by
  rw [ask_bind]
  rcases ev.ask c with ⟨_ | a, ev₁⟩ <;> simp

/-- A computation that fails has no account to give. -/
lemma runs_throw (e : EvalError) : Runs T (throw e : Evaluation α) qs := by
  rintro ev a ev' ⟨⟩

namespace Follows

lemma runs_pure (hT : Follows s m T) (a : α) : Runs T (pure a) [] := by
  rintro ev _ _ ⟨⟩
  exact hT.nil ev

/-- Queries are asked for in the order of the computations. -/
lemma runs_bind (hT : Follows s m T) {c : Evaluation α} {f : α → Evaluation β} (hc : Runs T c ps)
    (hf : ∀ a, Runs T (f a) qs) : Runs T (c >>= f) (ps ++ qs) := by
  intro ev b ev' h
  obtain ⟨a, ev₁, ha, hb⟩ := ask_bind_eq_ok_iff.mp h
  exact hT.append (hc ev a ev₁ ha) (hf a ev₁ b ev' hb)

/-- Applying an operation to a value asks for nothing. -/
lemma runs_map (hT : Follows s m T) {c : Evaluation α} (hc : Runs T c qs) (op : α → β) :
    Runs T (do return op (← c)) qs := by
  have hbind := hT.runs_bind hc fun a => hT.runs_pure (op a)
  rwa [List.append_nil] at hbind

lemma runs_mapM (hT : Follows s m T) {f : ι → Evaluation α} {g : ι → List Query}
    (hf : ∀ i, Runs T (f i) (g i)) (is : List ι) : Runs T (is.mapM f) (is.flatMap g) := by
  induction is with
  | nil => exact hT.runs_pure []
  | cons i is ih =>
    rw [List.mapM_cons, List.flatMap_cons]
    exact hT.runs_bind (hf i) fun a => hT.runs_map ih (a :: ·)

/-- The value of a node asks for its children. -/
lemma runs_nodeValue (hT : Follows s m T)
    {below : Option FormulaId → WorldIndex → Evaluation TwistElement}
    (hbelow : ∀ c w, Runs T (below c w) (Query.ofSlot c w)) (n : Node) (w : WorldIndex) :
    Runs T (nodeValue m below n w)
      ((n.destinations m w).flatMap fun v => n.children.flatMap fun c => Query.ofSlot c v) := by
  unfold nodeValue Node.destinations Node.children
  cases n.kind with
  | top => simpa [NodeKind.arity] using hT.runs_pure _
  | bot => simpa [NodeKind.arity] using hT.runs_pure _
  | atom name =>
    cases hvalue : m.value? w name with
    | none =>
      simp only [hvalue]
      exact runs_throw _
    | some x => simpa [NodeKind.arity, hvalue] using hT.runs_pure x
  | neg => simpa [NodeKind.arity] using hT.runs_map (hbelow n.left w) m.twist.negation
  | binary c =>
    have hright := fun x => hT.runs_map (hbelow n.right w) (c.value m.twist x)
    simpa [NodeKind.arity] using hT.runs_bind (hbelow n.left w) hright
  | modal mod action =>
    by_cases haction : m.hasAction action
    · have hterm : ∀ tr : Transition, Runs T
          (do let x ← below n.left tr.target; return mod.term m.twist tr.weight x)
          (Query.ofSlot n.left tr.target) :=
        fun tr => hT.runs_map (hbelow n.left tr.target) (mod.term m.twist tr.weight)
      have hterms := hT.runs_map (hT.runs_mapM hterm (m.successors w action)) (mod.gather m.twist)
      simpa [NodeKind.arity, haction, List.flatMap_map] using hterms
    · simpa [haction] using runs_throw _

/-- What holds of every step holds of a whole evaluation.  The store may have grown since. -/
theorem runs_valueWithin (hT : Follows s m T) {s' : FormulaStore} (hs : s'.Extends s) (fuel : Nat)
    (c : Option FormulaId) (w : WorldIndex) :
    Runs T (valueWithin s' m fuel c w) (Query.ofSlot c w) := by
  induction fuel generalizing c w with
  | zero => exact runs_throw _
  | succ fuel ih =>
    cases c with
    | none => exact runs_throw _
    | some id =>
      refine hT.answer (q := ⟨id, w⟩) ?_
      cases hn : s'.node? id with
      | none => exact runs_throw _
      | some n =>
        rw [Query.asks_eq (hs id n hn)]
        exact hT.runs_nodeValue ih n w

end Follows

/-- A query that is answered is remembered, or it is computed and then remembered, or it is
computed by an evaluator without memory. -/
lemma answer_cases {ev ev' : Evaluator} {q : Query} {c : Evaluation TwistElement}
    {x : TwistElement} (h : ev.ask (answer q c) = (.ok x, ev')) :
    (ev.memoize = true ∧ ev.memo[q]? = some x ∧ ev' = ev.countHit) ∨
    (ev.memoize = true ∧ ev.memo[q]? = none ∧
      ∃ ev₁, ev.countEvaluation.ask c = (.ok x, ev₁) ∧ ev' = ev₁.remember q x) ∨
    (ev.memoize = false ∧ ev.countEvaluation.ask c = (.ok x, ev')) := by
  rw [answer, ask_bind, ask_get] at h
  by_cases hmemoize : ev.memoize = true
  · simp only [hmemoize, if_true] at h
    cases hq : ev.memo[q]? with
    | some y =>
      simp only [hq] at h
      cases h
      exact .inl ⟨hmemoize, rfl, rfl⟩
    | none =>
      simp only [hq] at h
      obtain ⟨-, _, ⟨⟩, h⟩ := ask_bind_eq_ok_iff.mp h
      obtain ⟨y, ev₁, hc, h⟩ := ask_bind_eq_ok_iff.mp h
      cases h
      exact .inr (.inl ⟨hmemoize, rfl, ev₁, hc, rfl⟩)
  · simp only [hmemoize, if_false, Bool.false_eq_true] at h
    obtain ⟨-, _, ⟨⟩, h⟩ := ask_bind_eq_ok_iff.mp h
    exact .inr (.inr ⟨Bool.eq_false_of_not_eq_true hmemoize, h⟩)

end Follows

/-! ## With memory -/

section Serves

variable {s : FormulaStore} {m : Model} {ev ev' ev'' : Evaluator} {p q : Query}
  {ps qs : List Query}

/-- The queries whose values are remembered. -/
def known (ev : Evaluator) : Finset Query := ev.memo.keys.toFinset

lemma mem_known : q ∈ ev.known ↔ q ∈ ev.memo := by
  rw [known, List.mem_toFinset, Std.TreeMap.mem_keys]

lemma known_remember (x : TwistElement) : (ev.remember q x).known = insert q ev.known := by
  ext p
  rw [mem_known, remember, Std.TreeMap.mem_insert, Std.LawfulEqCmp.compare_eq_iff_eq,
    Finset.mem_insert, mem_known, eq_comm]

@[simp] lemma known_countHit : ev.countHit.known = ev.known := rfl

@[simp] lemma known_countEvaluation : ev.countEvaluation.known = ev.known := rfl

@[simp] lemma known_start (memoize : Bool) : (start m memoize).known = ∅ := rfl

/-- Whatever a remembered query asks for is remembered too, and its unfolding ends. -/
def Closed (s : FormulaStore) (m : Model) (ev : Evaluator) : Prop :=
  ∀ q ∈ ev.known, Acc (fun p q => p ∈ q.asks s m) q ∧ ∀ p ∈ q.asks s m, p ∈ ev.known

/-- An evaluator with memory has answered some queries: it remembers them and, besides what it
remembered before, only what they reach.  It has computed every query that is new, and there were as
many calls as these queries and the new ones have asked for. -/
structure Serves (s : FormulaStore) (m : Model) (qs : List Query) (ev ev' : Evaluator) : Prop where
  memoize : ev'.memoize = true
  closed : ev'.Closed s m
  revision : ev'.revision = ev.revision
  keeps : ev.known ⊆ ev'.known
  answered : ∀ q ∈ qs, q ∈ ev'.known
  reached : ∀ p ∈ ev'.known, p ∈ ev.known ∨ ∃ q ∈ qs, q.Reaches s m p
  evaluations : ev'.stats.evaluations + ev.known.card = ev.stats.evaluations + ev'.known.card
  calls : ev'.stats.evaluations + ev'.stats.cacheHits + ∑ q ∈ ev.known, (q.asks s m).length =
    ev.stats.evaluations + ev.stats.cacheHits + qs.length +
      ∑ q ∈ ev'.known, (q.asks s m).length

namespace Serves

lemma refl (h : ev.memoize = true) (hclosed : ev.Closed s m) : Serves s m [] ev ev where
  memoize := h
  closed := hclosed
  revision := rfl
  keeps := subset_rfl
  answered := by simp
  reached _ hp := .inl hp
  evaluations := rfl
  calls := rfl

lemma append (h : Serves s m ps ev ev') (h' : Serves s m qs ev' ev'') :
    Serves s m (ps ++ qs) ev ev'' where
  memoize := h'.memoize
  closed := h'.closed
  revision := h'.revision.trans h.revision
  keeps := h.keeps.trans h'.keeps
  answered q hq := by
    rcases List.mem_append.mp hq with hq | hq
    · exact h'.keeps (h.answered q hq)
    · exact h'.answered q hq
  reached p hp := by
    rcases h'.reached p hp with hp | ⟨q, hq, hqp⟩
    · rcases h.reached p hp with hp | ⟨q, hq, hqp⟩
      · exact .inl hp
      · exact .inr ⟨q, List.mem_append_left qs hq, hqp⟩
    · exact .inr ⟨q, List.mem_append_right ps hq, hqp⟩
  evaluations := by
    have h₁ := h.evaluations
    have h₂ := h'.evaluations
    omega
  calls := by
    have h₁ := h.calls
    have h₂ := h'.calls
    rw [List.length_append]
    omega

/-- A query that is remembered costs a hit. -/
lemma hit (h : ev.memoize = true) (hclosed : ev.Closed s m) (hq : q ∈ ev.known) :
    Serves s m [q] ev ev.countHit where
  memoize := h
  closed := hclosed
  revision := rfl
  keeps := subset_rfl
  answered := by simpa using hq
  reached _ hp := .inl hp
  evaluations := rfl
  calls := by
    rw [known_countHit, List.length_singleton]
    simp only [countHit]
    omega

/-- A query is computed by asking for others, and then it is remembered for the first time. -/
lemma computed (hq : q ∉ ev.known) (h : Serves s m (q.asks s m) ev.countEvaluation ev')
    (x : TwistElement) : Serves s m [q] ev (ev'.remember q x) := by
  have hacc : Acc (fun p q => p ∈ q.asks s m) q :=
    .intro q fun p hp => (h.closed p (h.answered p hp)).1
  have hnew : q ∉ ev'.known := by
    intro hmem
    rcases h.reached q hmem with hold | ⟨p, hp, hpq⟩
    · exact hq hold
    · exact Query.not_reaches_of_acc hacc hp hpq
  constructor
  case memoize => exact h.memoize
  case closed =>
    intro r hr
    simp only [known_remember, Finset.mem_insert] at hr ⊢
    rcases hr with rfl | hr
    · exact ⟨hacc, fun p hp => .inr (h.answered p hp)⟩
    · obtain ⟨hr, hasks⟩ := h.closed r hr
      exact ⟨hr, fun p hp => .inr (hasks p hp)⟩
  case revision => exact h.revision
  case keeps =>
    rw [known_remember]
    exact h.keeps.trans (Finset.subset_insert q ev'.known)
  case answered => simp [known_remember]
  case reached =>
    intro p hp
    rw [known_remember, Finset.mem_insert] at hp
    rcases hp with rfl | hp
    · exact .inr ⟨p, List.mem_singleton_self p, .refl⟩
    · rcases h.reached p hp with hp | ⟨r, hr, hrp⟩
      · exact .inl hp
      · exact .inr ⟨q, List.mem_singleton_self q, hrp.head hr⟩
  case evaluations =>
    have hcard := h.evaluations
    rw [known_countEvaluation] at hcard
    rw [known_remember, Finset.card_insert_of_notMem hnew]
    simp only [countEvaluation, remember] at hcard ⊢
    omega
  case calls =>
    have hcalls := h.calls
    rw [known_countEvaluation] at hcalls
    rw [known_remember, Finset.sum_insert hnew, List.length_singleton]
    simp only [countEvaluation, remember] at hcalls ⊢
    omega

end Serves

/-- Serving queries is an account of the walk. -/
lemma follows_serves :
    Follows s m fun qs ev ev' =>
      ev.revision = m.revision → ev.memoize = true ∧ ev.Closed s m → Serves s m qs ev ev' where
  nil ev _ h := .refl h.1 h.2
  append h h' hrev hstart :=
    have hfirst := h hrev hstart
    hfirst.append (h' (hfirst.revision.trans hrev) ⟨hfirst.memoize, hfirst.closed⟩)
  answer := by
    rintro q c hc ev x ev' hanswer hrev ⟨hmemoize, hclosed⟩
    rcases answer_cases hanswer with ⟨-, hmemo, rfl⟩ | ⟨-, hmemo, ev₁, hask, rfl⟩ | ⟨hno, -⟩
    · refine .hit hmemoize hclosed (mem_known.mpr ?_)
      rw [Std.TreeMap.mem_iff_isSome_getElem?, hmemo]
      rfl
    · refine Serves.computed ?_ (hc _ x ev₁ hask hrev ⟨hmemoize, hclosed⟩) x
      rw [mem_known, Std.TreeMap.mem_iff_isSome_getElem?, hmemo]
      simp
    · simp [hmemoize] at hno

end Serves

/-! ## Without memory -/

section Computes

variable {s : FormulaStore} {m : Model} {ev ev' ev'' : Evaluator} {ps qs : List Query}

/-- An evaluator without memory has computed every node of the unfolded call trees of some
queries. -/
structure Computes (s : FormulaStore) (m : Model) (qs : List Query) (ev ev' : Evaluator) :
    Prop where
  memoize : ev'.memoize = false
  revision : ev'.revision = ev.revision
  hits : ev'.stats.cacheHits = ev.stats.cacheHits
  evaluations : ∃ k, Query.Unfolds s m qs k ∧ ev'.stats.evaluations = ev.stats.evaluations + k

lemma Computes.append (h : Computes s m ps ev ev') (h' : Computes s m qs ev' ev'') :
    Computes s m (ps ++ qs) ev ev'' where
  memoize := h'.memoize
  revision := h'.revision.trans h.revision
  hits := h'.hits.trans h.hits
  evaluations := by
    obtain ⟨k, hk, heq⟩ := h.evaluations
    obtain ⟨l, hl, heq'⟩ := h'.evaluations
    exact ⟨k + l, hk.append hl, by omega⟩

/-- Computing is an account of the walk. -/
lemma follows_computes :
    Follows s m fun qs ev ev' =>
      ev.revision = m.revision → ev.memoize = false → Computes s m qs ev ev' where
  nil ev _ h := ⟨h, rfl, rfl, 0, .nil, rfl⟩
  append h h' hrev hmemoize :=
    have hfirst := h hrev hmemoize
    hfirst.append (h' (hfirst.revision.trans hrev) hfirst.memoize)
  answer := by
    intro q c hc ev x ev' hanswer hrev hmemoize
    rcases answer_cases hanswer with ⟨hyes, -⟩ | ⟨hyes, -⟩ | ⟨-, hask⟩
    · simp [hmemoize] at hyes
    · simp [hmemoize] at hyes
    · obtain ⟨hmemoize', hrev', hhits, k, hk, heq⟩ := hc _ x ev' hask hrev hmemoize
      refine ⟨hmemoize', hrev', hhits, k + 1 + 0, .cons hk .nil, ?_⟩
      simp only [countEvaluation] at heq
      omega

end Computes

/-! ## The main statement -/

section Queries

variable {s : FormulaStore} {m : Model} {T : List Query → Evaluator → Evaluator → Prop}

/-- An evaluator that has the model's revision forgets nothing and asks for what it is asked. -/
lemma runs_evaluateAt (hT : Follows s m fun qs ev ev' => ev.revision = m.revision → T qs ev ev')
    {s' : FormulaStore} (hs : s'.Extends s) (q : Query) :
    Runs (fun qs ev ev' => ev.revision = m.revision → T qs ev ev')
      (evaluateAt s' m q.formula q.world) [q] := by
  intro ev x ev' h hrev
  unfold evaluateAt at h
  by_cases hw : m.worlds.size ≤ q.world
  · simp only [hw, if_true] at h
    obtain ⟨_, _, ⟨⟩, -⟩ := ask_bind_eq_ok_iff.mp h
  · simp only [hw, if_false] at h
    obtain ⟨_, ev₁, hsync, h⟩ := ask_bind_eq_ok_iff.mp h
    obtain rfl : ev.sync m.revision = ev₁ := congrArg Prod.snd hsync
    rw [sync, if_pos hrev.symm] at h
    exact hT.runs_valueWithin hs s'.size (some q.formula) q.world ev x ev' h hrev

/-- Puts queries to an evaluator one after the other, each about the store as it is then. -/
def queryAll (m : Model) (calls : List (FormulaStore × Query)) : Evaluation (List TwistElement) :=
  calls.mapM fun (s, q) => evaluateAt s m q.formula q.world

lemma runs_queryAll (hT : Follows s m fun qs ev ev' => ev.revision = m.revision → T qs ev ev')
    {calls : List (FormulaStore × Query)} (hcalls : ∀ call ∈ calls, call.1.Extends s) :
    Runs (fun qs ev ev' => ev.revision = m.revision → T qs ev ev') (queryAll m calls)
      (calls.map Prod.snd) := by
  induction calls with
  | nil => exact hT.runs_pure []
  | cons call calls ih =>
    obtain ⟨hcall, hrest⟩ := List.forall_mem_cons.mp hcalls
    have hall := hT.runs_bind (runs_evaluateAt hT hcall call.2) fun x =>
      hT.runs_map (ih hrest) (x :: ·)
    unfold queryAll
    rw [List.mapM_cons]
    exact hall

/-- While the model stays as it is and the store may grow, queries are put to a new evaluator, and
all of them succeed.  With memory, it has computed every query that is reached from them once, it
remembers exactly these, and its counts together are the queries that were put and those that the
reached ones ask for.  Without memory, it has computed every node of the unfolded call trees and has
had no hit. -/
theorem evaluations_of_queries {calls : List (FormulaStore × Query)}
    (hcalls : ∀ call ∈ calls, call.1.Extends s) :
    (∀ xs ev, (start m true).ask (queryAll m calls) = (.ok xs, ev) →
      ∃ R : Finset Query, (∀ p, p ∈ R ↔ ∃ call ∈ calls, call.2.Reaches s m p) ∧
        (∀ p, p ∈ ev.memo ↔ p ∈ R) ∧ ev.stats.evaluations = R.card ∧
        ev.stats.evaluations + ev.stats.cacheHits =
          calls.length + ∑ p ∈ R, (p.asks s m).length) ∧
    ∀ xs ev, (start m false).ask (queryAll m calls) = (.ok xs, ev) →
      (∀ k, Query.Unfolds s m (calls.map Prod.snd) k ↔ k = ev.stats.evaluations) ∧
        ev.stats.cacheHits = 0 := by
  constructor
  · intro xs ev h
    have hserves := runs_queryAll follows_serves hcalls _ xs ev h rfl ⟨rfl, by simp [Closed]⟩
    have hcard := hserves.evaluations
    have hcalled := hserves.calls
    rw [known_start] at hcard hcalled
    refine ⟨ev.known, fun p => ⟨fun hp => ?_, ?_⟩, fun p => mem_known.symm, ?_, ?_⟩
    · rcases hserves.reached p hp with hp | ⟨q, hq, hqp⟩
      · simp at hp
      · obtain ⟨call, hcall, rfl⟩ := List.mem_map.mp hq
        exact ⟨call, hcall, hqp⟩
    · rintro ⟨call, hcall, hreaches⟩
      induction hreaches with
      | refl => exact hserves.answered _ (List.mem_map_of_mem hcall)
      | tail _ hasks ih => exact (hserves.closed _ ih).2 _ hasks
    · simpa [start] using hcard
    · simpa [start] using hcalled
  · intro xs ev h
    obtain ⟨-, -, hhits, k, hk, heq⟩ := runs_queryAll follows_computes hcalls _ xs ev h rfl rfl
    obtain rfl : k = ev.stats.evaluations := by simpa [start] using heq.symm
    exact ⟨fun l => ⟨fun hl => hl.unique hk, fun hl => hl ▸ hk⟩, hhits⟩

/-- A diamond at the first world of the circle, then twice a box over it, which is added in between.
Five queries are reached, and at the end of 15 calls without memory 8 are left with it. -/
theorem evaluations_of_queries_seesaw :
    let diamond : Formula := .modal .diamond (ascii "a") (.atom (ascii "p"))
    let before := FormulaStore.initial.add diamond
    let after := before.2.add (.modal .box (ascii "a") diamond)
    let calls : List (FormulaStore × Query) :=
      [(before.2, ⟨before.1, 0⟩), (after.2, ⟨after.1, 0⟩), (after.2, ⟨after.1, 0⟩)]
    (∃ R : Finset Query,
      (∀ p, p ∈ R ↔ ∃ call ∈ calls, call.2.Reaches after.2 .seesaw p) ∧ R.card = 5 ∧
        ∑ p ∈ R, (p.asks after.2 .seesaw).length = 5) ∧
      Query.Unfolds after.2 .seesaw (calls.map Prod.snd) 15 := by
  intro diamond before after calls
  have hbefore : before.2.Built := FormulaStore.Built.initial.add diamond
  have hgrows : before.2.Extends after.2 :=
    (hbefore.reachable.exact.grows_add (K := fun _ => True) fun _ _ => trivial).extends
  have hcalls : ∀ call ∈ calls, call.1.Extends after.2 := by
    simpa [calls] using ⟨hgrows, fun _ _ hn => hn⟩
  obtain ⟨hmemo, hplain⟩ := evaluations_of_queries (m := .seesaw) hcalls
  constructor
  · have hstats : ((start .seesaw true).ask (queryAll .seesaw calls)).1.isOk = true ∧
        ((start .seesaw true).ask (queryAll .seesaw calls)).2.stats = ⟨5, 3, 0⟩ := by
      decide +kernel
    rcases hask : (start .seesaw true).ask (queryAll .seesaw calls) with ⟨_ | xs, ev⟩
    · simp [hask, Except.isOk, Except.toBool] at hstats
    · obtain ⟨R, hR, -, hcard, hsum⟩ := hmemo xs ev hask
      simp only [hask] at hstats
      rw [hstats.2] at hcard hsum
      change 5 + 3 = 3 + ∑ p ∈ R, (p.asks after.2 .seesaw).length at hsum
      exact ⟨R, hR, hcard.symm, by omega⟩
  · have hstats : ((start .seesaw false).ask (queryAll .seesaw calls)).1.isOk = true ∧
        ((start .seesaw false).ask (queryAll .seesaw calls)).2.stats = ⟨15, 0, 0⟩ := by
      decide +kernel
    rcases hask : (start .seesaw false).ask (queryAll .seesaw calls) with ⟨_ | xs, ev⟩
    · simp [hask, Except.isOk, Except.toBool] at hstats
    · simp only [hask] at hstats
      refine ((hplain xs ev hask).1 15).mpr ?_
      rw [hstats.2]

end Queries

end Evaluator

end TwistLogic
