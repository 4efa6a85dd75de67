import TwistLogic.Proofs.Algebra.Lattice
import TwistLogic.Proofs.Formula.Reach
import TwistLogic.Proofs.Model.Edit
import TwistLogic.Proofs.Model.Recall

/-!
# Numbers of 32 bits and packed memories

Nodes, worlds and elements are numbered as they are added, and every number is kept in 32 bits.  So
it is the number that was given as long as there are no more than 2^32 of them: all numbers that a
store, a model or a lattice of such a size mentions are `Narrow`.

A memory of values need not have queries for its keys.  A `PackedEvaluator` keeps every value under
one 64-bit word, which holds the formula in its upper half and the world in the lower one
(`Query.packed`).  Queries of 32-bit numbers have different words (`Query.packed_inj`), so such an
evaluator remembers the same as one whose keys are queries, as far as these can be asked (`Packs`).
This is kept by every step of an evaluation (`Tracks`), by a whole evaluation
(`PackedEvaluator.tracks_valueWithin`), and by any number of them, while the store and the model may
change in between: both give the same answers and count the same (`PackedEvaluator.answers_eq`).
-/

namespace TwistLogic

/-! ## Numbers of 32 bits -/

/-- A number that 32 bits hold. -/
def Narrow (k : Nat) : Prop := k < UInt32.size

/-- A narrow number is what 32 bits hold of it. -/
lemma narrow_iff {k : Nat} : Narrow k ↔ (UInt32.ofNat k).toNat = k := by
  rw [UInt32.toNat_ofNat']
  exact ⟨Nat.mod_eq_of_lt, fun h => h ▸ Nat.mod_lt _ (by decide)⟩

/-- A new node has a narrow number if there is room for it. -/
theorem FormulaStore.Exact.narrow_intern {s : FormulaStore} (hs : s.Exact)
    (hsize : s.size < UInt32.size) (n : Node) : Narrow (s.intern n).1 := by
  cases h : s.index[n]? with
  | some id =>
    rw [intern_of_some h]
    exact Nat.lt_trans (lt_size_of_node? ((hs n id).mp h)) hsize
  | none =>
    rw [intern_of_none h]
    exact hsize

/-- A new world has a narrow number if there is room for it. -/
theorem Model.narrow_addWorld {m m' : Model} {id : Text} {v : Valuation} {w : WorldIndex}
    (hsize : m.worlds.size < UInt32.size) (h : m.addWorld id v = .ok (w, m')) : Narrow w := by
  obtain ⟨-, -, rfl, -⟩ := addWorld_eq_ok_iff.mp h
  exact hsize

/-- An element has a narrow number if there are not too many. -/
theorem FiniteLattice.narrow_find? {l : FiniteLattice} (hsize : l.size ≤ UInt32.size) {name : Text}
    {a : ElementId} (h : l.find? name = some a) : Narrow a :=
  Nat.lt_of_lt_of_le (lt_size_of_idxOf? h) hsize

/-- A store and a model whose numbers are narrow, as both are made by their operations and neither
is too large. -/
structure Numbered (s : FormulaStore) (m : Model) : Prop where
  built : s.Built
  wellFormed : m.WellFormed
  nodes_le : s.size ≤ UInt32.size
  worlds_le : m.worlds.size ≤ UInt32.size

namespace Numbered

variable {s : FormulaStore} {m : Model}

lemma narrow_child (h : Numbered s m) {id a : FormulaId} {n : Node} (hn : s.node? id = some n)
    (ha : some a ∈ n.children) : Narrow a := by
  obtain ⟨b, hb, hab⟩ := h.built.over hn _ ha
  obtain rfl := Option.some.inj hab
  exact Nat.lt_of_lt_of_le hb h.nodes_le

lemma narrow_world (h : Numbered s m) {w : WorldIndex} (hw : w < m.worlds.size) : Narrow w :=
  Nat.lt_of_lt_of_le hw h.worlds_le

lemma narrow_target (h : Numbered s m) {w : WorldIndex} {action : Text} {tr : Transition}
    (htr : tr ∈ m.successors w action) : Narrow tr.target :=
  h.narrow_world (h.wellFormed.target_lt w action tr htr)

end Numbered

/-! ## Packed keys -/

/-- Two 32-bit numbers in one word, the first in the upper half. -/
def packWord (a b : UInt32) : UInt64 := a.toUInt64 <<< 32 ||| b.toUInt64

lemma toNat_packWord (a b : UInt32) : (packWord a b).toNat = a.toNat * UInt32.size + b.toNat := by
  have ha : a.toNat < 4294967296 := a.toNat_lt_size
  have hshift : a.toNat <<< 32 = a.toNat * UInt32.size := Nat.shiftLeft_eq ..
  have hword : a.toNat * UInt32.size % UInt64.size = a.toNat * UInt32.size := by
    refine Nat.mod_eq_of_lt ?_
    simp only [UInt32.size, UInt64.size]
    omega
  calc (packWord a b).toNat
    _ = a.toNat <<< 32 % UInt64.size ||| b.toNat := by
      rw [packWord, UInt64.toNat_or, UInt64.toNat_shiftLeft, UInt32.toNat_toUInt64,
        UInt32.toNat_toUInt64]
      rfl
    _ = a.toNat <<< 32 ||| b.toNat := by rw [hshift, hword]
    _ = a.toNat <<< 32 + b.toNat := (Nat.shiftLeft_add_eq_or_of_lt b.toNat_lt _).symm
    _ = a.toNat * UInt32.size + b.toNat := by rw [hshift]

/-- Different pairs of 32-bit numbers are different words. -/
theorem packWord_inj {a b c d : UInt32} : packWord a b = packWord c d ↔ a = c ∧ b = d := by
  refine ⟨fun h => ?_, fun ⟨hac, hbd⟩ => hac ▸ hbd ▸ rfl⟩
  have hb : b.toNat < 4294967296 := b.toNat_lt_size
  have hd : d.toNat < 4294967296 := d.toNat_lt_size
  rw [← UInt64.toNat_inj, toNat_packWord, toNat_packWord] at h
  simp only [UInt32.size] at h
  rw [← UInt32.toNat_inj, ← UInt32.toNat_inj]
  omega

namespace Query

/-- The key of a query: what 32 bits hold of its two numbers, in one word. -/
def packed (q : Query) : UInt64 := packWord (.ofNat q.formula) (.ofNat q.world)

/-- Both numbers are 32-bit numbers. -/
def IsNarrow (q : Query) : Prop := Narrow q.formula ∧ Narrow q.world

variable {p q : Query}

/-- Queries of 32-bit numbers have different keys. -/
theorem packed_inj (hp : p.IsNarrow) (hq : q.IsNarrow) : p.packed = q.packed ↔ p = q := by
  refine ⟨fun h => ?_, congrArg packed⟩
  obtain ⟨hformula, hworld⟩ := packWord_inj.mp h
  have hformula := congrArg UInt32.toNat hformula
  have hworld := congrArg UInt32.toNat hworld
  rw [narrow_iff.mp hp.1, narrow_iff.mp hq.1] at hformula
  rw [narrow_iff.mp hp.2, narrow_iff.mp hq.2] at hworld
  cases p
  cases q
  exact Query.mk.injEq .. ▸ ⟨hformula, hworld⟩

/-- The first number that 32 bits do not hold has the word of zero. -/
example : packed ⟨UInt32.size, 0⟩ = packed ⟨0, 0⟩ := by decide

end Query

/-! ## An evaluator with packed keys -/

/-- A reader of a model that may remember values, under one word each. -/
structure PackedEvaluator where
  memoize : Bool
  stats : EvalStats
  memo : Std.TreeMap UInt64 TwistElement
  revision : Nat

/-- A computation that an evaluator with packed keys runs and counts. -/
abbrev PackedEvaluation := ExceptT EvalError (StateM PackedEvaluator)

namespace PackedEvaluator

/-- An evaluator that has done nothing yet. -/
def start (m : Model) (memoize : Bool) : PackedEvaluator :=
  { memoize, stats := ⟨0, 0, 0⟩, memo := ∅, revision := m.revision }

/-- Forgets all values. -/
def clearCache (ev : PackedEvaluator) : PackedEvaluator := { ev with memo := ∅ }

/-- Forgets all values if they belong to another revision. -/
def sync (ev : PackedEvaluator) (revision : Nat) : PackedEvaluator :=
  if revision = ev.revision then ev
  else if ev.memo.isEmpty then { ev with revision }
  else
    { ev with
      revision, memo := ∅, stats := { ev.stats with cacheResets := ev.stats.cacheResets + 1 } }

/-- Counts a computed query. -/
def countEvaluation (ev : PackedEvaluator) : PackedEvaluator :=
  { ev with stats := { ev.stats with evaluations := ev.stats.evaluations + 1 } }

/-- Counts a remembered query. -/
def countHit (ev : PackedEvaluator) : PackedEvaluator :=
  { ev with stats := { ev.stats with cacheHits := ev.stats.cacheHits + 1 } }

/-- Remembers the value of a query. -/
def remember (ev : PackedEvaluator) (q : Query) (x : TwistElement) : PackedEvaluator :=
  { ev with memo := ev.memo.insert q.packed x }

/-- Answers a query from memory, or else by a computation. -/
def answer (q : Query) (compute : PackedEvaluation TwistElement) :
    PackedEvaluation TwistElement := do
  let ev ← get
  if ev.memoize then
    match ev.memo[q.packed]? with
    | some x =>
      modify countHit
      return x
    | none =>
      modify countEvaluation
      let x ← compute
      modify (remember · q x)
      return x
  else
    modify countEvaluation
    compute

/-- The value of the formula in a slot at a world. -/
def valueWithin (s : FormulaStore) (m : Model) :
    Nat → Option FormulaId → WorldIndex → PackedEvaluation TwistElement
  | 0, _, _ => throw .danglingFormula
  | _, none, _ => throw .danglingFormula
  | fuel + 1, some id, w =>
    answer { formula := id, world := w } <|
      match s.node? id with
      | none => throw .danglingFormula
      | some n => Evaluator.nodeValue m (valueWithin s m fuel) n w

/-- The value of a formula at the world with a number. -/
def evaluateAt (s : FormulaStore) (m : Model) (id : FormulaId) (w : WorldIndex) :
    PackedEvaluation TwistElement := do
  if m.worlds.size ≤ w then throw (.unknownWorld (ascii "#" ++ Text.decimal w))
  modify (sync · m.revision)
  valueWithin s m s.size (some id) w

/-- The value of a formula at the world with a name. -/
def evaluate (s : FormulaStore) (m : Model) (id : FormulaId) (world : Text) :
    PackedEvaluation TwistElement :=
  match m.findWorld? world with
  | none => throw (.unknownWorld world)
  | some w => evaluateAt s m id w

/-- Runs a computation and returns its outcome with the evaluator that it leaves. -/
def ask {α : Type} (ev : PackedEvaluator) (c : PackedEvaluation α) :
    Except EvalError α × PackedEvaluator :=
  c.run.run ev

/-- The same settings and counts, and the same values for all queries of 32-bit numbers. -/
structure Packs (pev : PackedEvaluator) (ev : Evaluator) : Prop where
  memoize_eq : pev.memoize = ev.memoize
  stats_eq : pev.stats = ev.stats
  revision_eq : pev.revision = ev.revision
  isEmpty_eq : pev.memo.isEmpty = ev.memo.isEmpty
  memo_eq : ∀ q : Query, q.IsNarrow → pev.memo[q.packed]? = ev.memo[q]?

/-- Run by evaluators that remember the same, two computations have the same outcome and leave
evaluators that remember the same. -/
def Tracks {α : Type} (c : PackedEvaluation α) (d : Evaluation α) : Prop :=
  ∀ pev ev, Packs pev ev → (pev.ask c).1 = (ev.ask d).1 ∧ Packs (pev.ask c).2 (ev.ask d).2

variable {pev : PackedEvaluator} {ev : Evaluator} {α β ι : Type}

lemma packs_start (m : Model) (memoize : Bool) : Packs (start m memoize) (.start m memoize) where
  memoize_eq := rfl
  stats_eq := rfl
  revision_eq := rfl
  isEmpty_eq := rfl
  memo_eq q _ := by simp [start, Evaluator.start]

/-- What is remembered of a query of 32-bit numbers is remembered of no other. -/
lemma Packs.remember (h : Packs pev ev) {q : Query} (hq : q.IsNarrow) (x : TwistElement) :
    Packs (pev.remember q x) (ev.remember q x) where
  memoize_eq := h.memoize_eq
  stats_eq := h.stats_eq
  revision_eq := h.revision_eq
  isEmpty_eq := by simp [PackedEvaluator.remember, Evaluator.remember]
  memo_eq p hp := by
    simp only [PackedEvaluator.remember, Evaluator.remember, getElem?_insert_eq_ite]
    rw [h.memo_eq p hp]
    simp only [Query.packed_inj hq hp]

lemma Packs.countHit (h : Packs pev ev) : Packs pev.countHit ev.countHit :=
  { h with stats_eq := by simp only [PackedEvaluator.countHit, Evaluator.countHit, h.stats_eq] }

lemma Packs.countEvaluation (h : Packs pev ev) : Packs pev.countEvaluation ev.countEvaluation :=
  { h with
    stats_eq := by
      simp only [PackedEvaluator.countEvaluation, Evaluator.countEvaluation, h.stats_eq] }

lemma Packs.clearCache (h : Packs pev ev) : Packs pev.clearCache ev.clearCache :=
  { h with
    isEmpty_eq := rfl
    memo_eq := fun q _ => by simp [PackedEvaluator.clearCache, Evaluator.clearCache] }

lemma Packs.sync (h : Packs pev ev) (revision : Nat) :
    Packs (pev.sync revision) (ev.sync revision) := by
  unfold PackedEvaluator.sync Evaluator.sync
  rw [h.revision_eq, h.isEmpty_eq]
  split
  · exact h
  · split
    · exact { h with revision_eq := rfl }
    · exact { h.clearCache with revision_eq := rfl, stats_eq := by simp only [h.stats_eq] }

/-! ## Computations of both evaluators -/

/-- A computation goes on where its first part has ended, unless that part has failed. -/
lemma ask_bind (pev : PackedEvaluator) (c : PackedEvaluation α) (f : α → PackedEvaluation β) :
    pev.ask (c >>= f) =
      match pev.ask c with
      | (.ok a, pev') => pev'.ask (f a)
      | (.error e, pev') => (.error e, pev') := by
  simp only [ask, ExceptT.run_bind, StateT.run_bind]
  rcases StateT.run (ExceptT.run c) pev with ⟨_ | _, _⟩ <;> rfl

lemma tracks_pure (a : α) : Tracks (pure a) (pure a) := fun _ _ h => ⟨rfl, h⟩

lemma tracks_throw (e : EvalError) : Tracks (throw e : PackedEvaluation α) (throw e) :=
  fun _ _ h => ⟨rfl, h⟩

lemma tracks_modify {f : PackedEvaluator → PackedEvaluator} {g : Evaluator → Evaluator}
    (h : ∀ pev ev, Packs pev ev → Packs (f pev) (g ev)) : Tracks (modify f) (modify g) :=
  fun pev ev hev => ⟨rfl, h pev ev hev⟩

lemma Tracks.bind {c : PackedEvaluation α} {d : Evaluation α} {f : α → PackedEvaluation β}
    {g : α → Evaluation β} (h : Tracks c d) (hf : ∀ a, Tracks (f a) (g a)) :
    Tracks (c >>= f) (d >>= g) := by
  intro pev ev hev
  obtain ⟨hresult, hpacks⟩ := h pev ev hev
  rw [ask_bind, Evaluator.ask_bind]
  rcases hc : pev.ask c with ⟨r, pev'⟩
  rcases hd : ev.ask d with ⟨r', ev'⟩
  rw [hc, hd] at hresult hpacks
  obtain rfl : r = r' := hresult
  cases r with
  | error e => exact ⟨rfl, hpacks⟩
  | ok a => exact hf a pev' ev' hpacks

lemma tracks_mapM {f : ι → PackedEvaluation α} {g : ι → Evaluation α} {is : List ι}
    (h : ∀ i ∈ is, Tracks (f i) (g i)) : Tracks (is.mapM f) (is.mapM g) := by
  induction is with
  | nil => exact tracks_pure []
  | cons i is ih =>
    obtain ⟨hi, his⟩ := List.forall_mem_cons.mp h
    rw [List.mapM_cons, List.mapM_cons]
    exact hi.bind fun a => (ih his).bind fun as => tracks_pure (a :: as)

/-- A query of 32-bit numbers is answered alike, from memory or not. -/
lemma tracks_answer {q : Query} (hq : q.IsNarrow) {c : PackedEvaluation TwistElement}
    {d : Evaluation TwistElement} (h : Tracks c d) :
    Tracks (answer q c) (Evaluator.answer q d) := by
  have hcount := tracks_modify fun _ _ => Packs.countEvaluation
  intro pev ev hev
  have hget : pev.ask get = (.ok pev, pev) := rfl
  rw [answer, Evaluator.answer, ask_bind, Evaluator.ask_bind, hget, Evaluator.ask_get]
  simp only [hev.memoize_eq, hev.memo_eq q hq]
  cases ev.memoize with
  | false => exact hcount.bind (fun _ => h) pev ev hev
  | true =>
    simp only [if_true]
    cases ev.memo[q]? with
    | some x =>
      have hhit := tracks_modify fun _ _ => Packs.countHit
      exact hhit.bind (fun _ => tracks_pure x) pev ev hev
    | none =>
      have hremember : ∀ x, Tracks (do modify (PackedEvaluator.remember · q x); return x)
          (do modify (Evaluator.remember · q x); return x) := fun x =>
        (tracks_modify fun _ _ h => h.remember hq x).bind fun _ => tracks_pure x
      exact hcount.bind (fun _ => h.bind hremember) pev ev hev

variable {s : FormulaStore} {m : Model}

/-- The value of a node at a world is computed alike if the values below it are. -/
lemma tracks_nodeValue {n : Node} {w : WorldIndex}
    {below : Option FormulaId → WorldIndex → PackedEvaluation TwistElement}
    {below' : Option FormulaId → WorldIndex → Evaluation TwistElement}
    (hbelow : ∀ c ∈ n.children, ∀ v,
      v = w ∨ (∃ action, ∃ tr ∈ m.successors w action, tr.target = v) →
        Tracks (below c v) (below' c v)) :
    Tracks (Evaluator.nodeValue m below n w) (Evaluator.nodeValue m below' n w) := by
  unfold Evaluator.nodeValue
  unfold Node.children at hbelow
  cases hk : n.kind with
  | top => exact tracks_pure _
  | bot => exact tracks_pure _
  | atom name =>
    simp only
    cases m.value? w name with
    | none => exact tracks_throw _
    | some x => exact tracks_pure x
  | neg =>
    exact (hbelow n.left (by simp [hk, NodeKind.arity]) w (.inl rfl)).bind fun x => tracks_pure _
  | binary c =>
    exact (hbelow n.left (by simp [hk, NodeKind.arity]) w (.inl rfl)).bind fun x =>
      (hbelow n.right (by simp [hk, NodeKind.arity]) w (.inl rfl)).bind fun y => tracks_pure _
  | modal mod action =>
    simp only
    by_cases haction : m.hasAction action
    · simp only [haction, Bool.not_true, Bool.false_eq_true, if_false]
      refine (tracks_mapM fun tr htr => ?_).bind fun terms => tracks_pure _
      have hleft := hbelow n.left (by simp [hk, NodeKind.arity]) tr.target
      exact (hleft (.inr ⟨action, tr, htr, rfl⟩)).bind fun x => tracks_pure _
    · simp only [haction, Bool.not_false, if_true]
      exact fun _ _ h => ⟨rfl, h⟩

/-- The values of a store and a model with narrow numbers are computed alike. -/
theorem tracks_valueWithin (h : Numbered s m) (fuel : Nat) {c : Option FormulaId} {w : WorldIndex}
    (hc : ∀ id, c = some id → Narrow id) (hw : Narrow w) :
    Tracks (valueWithin s m fuel c w) (Evaluator.valueWithin s m fuel c w) := by
  induction fuel generalizing c w with
  | zero => exact tracks_throw _
  | succ fuel ih =>
    cases c with
    | none => exact tracks_throw _
    | some id =>
      refine tracks_answer ⟨hc id rfl, hw⟩ ?_
      cases hn : s.node? id with
      | none => exact tracks_throw _
      | some n =>
        refine tracks_nodeValue fun c hchild v hv => ih ?_ ?_
        · rintro a rfl
          exact h.narrow_child hn hchild
        · rcases hv with rfl | ⟨action, tr, htr, rfl⟩
          · exact hw
          · exact h.narrow_target htr

/-- An evaluation of a formula with a narrow number, which need not be that of a node. -/
theorem tracks_evaluateAt (h : Numbered s m) {id : FormulaId} (hid : Narrow id) (w : WorldIndex) :
    Tracks (evaluateAt s m id w) (Evaluator.evaluateAt s m id w) := by
  unfold evaluateAt Evaluator.evaluateAt
  by_cases hw : m.worlds.size ≤ w
  · simp only [hw, if_true]
    exact fun _ _ hev => ⟨rfl, hev⟩
  · simp only [hw, if_false]
    refine (tracks_modify fun _ _ hev => hev.sync m.revision).bind fun _ => ?_
    exact tracks_valueWithin h s.size (fun _ heq => Option.some.inj heq ▸ hid)
      (h.narrow_world (Nat.lt_of_not_le hw))

theorem tracks_evaluate (h : Numbered s m) {id : FormulaId} (hid : Narrow id) (world : Text) :
    Tracks (evaluate s m id world) (Evaluator.evaluate s m id world) := by
  unfold evaluate Evaluator.evaluate
  cases m.findWorld? world with
  | none => exact tracks_throw _
  | some w => exact tracks_evaluateAt h hid w

end PackedEvaluator

/-! ## Any number of evaluations -/

/-- What an evaluator is used for: a question about the store and the model as they are, or to
forget all values. -/
inductive Turn where
  | evaluateAt (s : FormulaStore) (m : Model) (id : FormulaId) (w : WorldIndex)
  | evaluate (s : FormulaStore) (m : Model) (id : FormulaId) (world : Text)
  | clearCache

/-- A question about a store, a model and a formula with narrow numbers. -/
def Turn.IsNarrow : Turn → Prop
  | evaluateAt s m id _ | evaluate s m id _ => Numbered s m ∧ Narrow id
  | clearCache => True

/-- The answer, if there was a question, and the evaluator afterwards. -/
def Evaluator.take (ev : Evaluator) :
    Turn → Option (Except EvalError TwistElement) × Evaluator
  | .evaluateAt s m id w =>
    let (r, ev) := ev.ask (evaluateAt s m id w)
    (some r, ev)
  | .evaluate s m id world =>
    let (r, ev) := ev.ask (evaluate s m id world)
    (some r, ev)
  | .clearCache => (none, ev.clearCache)

/-- The answers of an evaluator, and the evaluator afterwards. -/
def Evaluator.answers (ev : Evaluator) :
    List Turn → List (Option (Except EvalError TwistElement)) × Evaluator
  | [] => ([], ev)
  | t :: ts =>
    let (r, ev) := ev.take t
    let (rs, ev) := ev.answers ts
    (r :: rs, ev)

namespace PackedEvaluator

/-- The answer, if there was a question, and the evaluator afterwards. -/
def take (ev : PackedEvaluator) :
    Turn → Option (Except EvalError TwistElement) × PackedEvaluator
  | .evaluateAt s m id w =>
    let (r, ev) := ev.ask (evaluateAt s m id w)
    (some r, ev)
  | .evaluate s m id world =>
    let (r, ev) := ev.ask (evaluate s m id world)
    (some r, ev)
  | .clearCache => (none, ev.clearCache)

/-- The answers of an evaluator, and the evaluator afterwards. -/
def answers (ev : PackedEvaluator) :
    List Turn → List (Option (Except EvalError TwistElement)) × PackedEvaluator
  | [] => ([], ev)
  | t :: ts =>
    let (r, ev) := ev.take t
    let (rs, ev) := ev.answers ts
    (r :: rs, ev)

variable {pev : PackedEvaluator} {ev : Evaluator}

lemma Packs.take (h : Packs pev ev) {t : Turn} (ht : t.IsNarrow) :
    (pev.take t).1 = (ev.take t).1 ∧ Packs (pev.take t).2 (ev.take t).2 := by
  cases t with
  | evaluateAt s m id w =>
    obtain ⟨hresult, hpacks⟩ := tracks_evaluateAt ht.1 ht.2 w pev ev h
    exact ⟨congrArg some hresult, hpacks⟩
  | evaluate s m id world =>
    obtain ⟨hresult, hpacks⟩ := tracks_evaluate ht.1 ht.2 world pev ev h
    exact ⟨congrArg some hresult, hpacks⟩
  | clearCache => exact ⟨rfl, h.clearCache⟩

lemma Packs.answers (h : Packs pev ev) {ts : List Turn} (hts : ∀ t ∈ ts, t.IsNarrow) :
    (pev.answers ts).1 = (ev.answers ts).1 ∧ Packs (pev.answers ts).2 (ev.answers ts).2 := by
  induction ts generalizing pev ev with
  | nil => exact ⟨rfl, h⟩
  | cons t ts ih =>
    obtain ⟨ht, hts⟩ := List.forall_mem_cons.mp hts
    obtain ⟨hanswer, hnext⟩ := h.take ht
    obtain ⟨hanswers, hlast⟩ := ih hnext hts
    exact ⟨congrArg₂ List.cons hanswer hanswers, hlast⟩

/-- However it is used for questions with narrow numbers, an evaluator with packed keys gives the
answers and has the counts of one whose keys are queries. -/
theorem answers_eq (m : Model) (memoize : Bool) {ts : List Turn} (hts : ∀ t ∈ ts, t.IsNarrow) :
    let (rs, ev) := (Evaluator.start m memoize).answers ts
    ((start m memoize).answers ts).1 = rs ∧ ((start m memoize).answers ts).2.stats = ev.stats := by
  obtain ⟨hanswers, hpacks⟩ := (packs_start m memoize).answers hts
  exact ⟨hanswers, hpacks.stats_eq⟩

end PackedEvaluator

end TwistLogic
