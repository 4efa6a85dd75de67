import Mathlib.Tactic.Common
import TwistLogic.Proofs.Formula.Sharing
import TwistLogic.Proofs.Model.Recall

/-!
# What an evaluator counts

An evaluator with memory computes every formula once and remembers it from then on.  A `Tally` keeps
the two counts together with the formulas that were met, and `Formula.tally` goes through a formula
without modalities as an evaluation does, but without numbers, nodes or values.

In a store that holds every formula under one number the evaluator counts exactly this
(`Evaluator.counts_valueWithin`).  So its counts depend on the formula and not on the store.
-/

namespace TwistLogic

/-- The formulas that an evaluation at one world has met, and what it has counted. -/
structure Tally where
  /-- Queries that were computed. -/
  evaluations : Nat
  /-- Queries that were remembered. -/
  hits : Nat
  met : List Formula

namespace Tally

/-- Nothing has been met. -/
def start : Tally := { evaluations := 0, hits := 0, met := [] }

/-- Meets a formula: either again, or for the first time and then also what is below it. -/
def meet (t : Tally) (φ : Formula) (below : Tally → Tally) : Tally :=
  if φ ∈ t.met then { t with hits := t.hits + 1 }
  else
    let t' := below { t with evaluations := t.evaluations + 1 }
    { t' with met := φ :: t'.met }

end Tally

/-- Goes through a formula at one world.  A modality leads to other worlds and is not followed. -/
def Formula.tally : Formula → Tally → Tally
  | .top, t => t.meet .top fun t => t
  | .bot, t => t.meet .bot fun t => t
  | .atom p, t => t.meet (.atom p) fun t => t
  | .neg φ, t => t.meet (.neg φ) φ.tally
  | .binary c φ ψ, t => t.meet (.binary c φ ψ) fun t => ψ.tally (φ.tally t)
  | .modal m action φ, t => t.meet (.modal m action φ) fun t => t

namespace Evaluator

variable {K : NodeKind → Prop} {s : FormulaStore} {m : Model} {w : WorldIndex} {φ : Formula}
  {id : FormulaId} {x y : TwistElement}

/-- An evaluator with memory has counted what a tally says, and remembers at a world the values of
the formulas that the tally has met. -/
structure Tallies (s : FormulaStore) (m : Model) (w : WorldIndex) (ev : Evaluator) (t : Tally) :
    Prop where
  memoize : ev.memoize = true
  evaluations : ev.stats.evaluations = t.evaluations
  hits : ev.stats.cacheHits = t.hits
  met : ∀ id φ, s.Denotes id φ →
    ev.memo[({ formula := id, world := w } : Query)]? =
      if φ ∈ t.met then (φ.value m w).toOption else none

/-- A computation has a value and counts what a function of tallies says. -/
def Counts (s : FormulaStore) (m : Model) (w : WorldIndex) (c : Evaluation TwistElement)
    (x : TwistElement) (f : Tally → Tally) : Prop :=
  ∀ ev t, Tallies s m w ev t → (ev.ask c).1 = .ok x ∧ (ev.ask c).2.Tallies s m w (f t)

lemma tallies_start (s : FormulaStore) (m : Model) (w : WorldIndex) :
    (start m true).Tallies s m w .start where
  memoize := rfl
  evaluations := rfl
  hits := rfl
  met id φ _ := by simp [start, Tally.start]

lemma counts_pure (x : TwistElement) : Counts s m w (pure x) x fun t => t :=
  fun _ _ h => ⟨rfl, h⟩

lemma Counts.bind {c : Evaluation TwistElement} {k : TwistElement → Evaluation TwistElement}
    {f g : Tally → Tally} (hc : Counts s m w c x f) (hk : Counts s m w (k x) y g) :
    Counts s m w (c >>= k) y fun t => g (f t) := by
  intro ev t ht
  obtain ⟨hx, ht'⟩ := hc ev t ht
  rw [ask_bind]
  rcases hask : ev.ask c with ⟨r, ev'⟩
  rw [hask] at hx ht'
  subst hx
  exact hk ev' (f t) ht'

/-- Applying an operation to a value counts nothing. -/
lemma Counts.map {c : Evaluation TwistElement} {f : Tally → Tally} (hc : Counts s m w c x f)
    (op : TwistElement → TwistElement) : Counts s m w (do return op (← c)) (op x) f :=
  Counts.bind (g := fun t => t) hc (counts_pure (op x))

/-- A formula whose value is remembered has been met.  It has only one number, so nothing else is
remembered with it. -/
lemma Tallies.remember {ev : Evaluator} {t : Tally} (h : ev.Tallies s m w t) (hs : s.Made K)
    (hφ : s.Denotes id φ) (hx : φ.value m w = .ok x) :
    (ev.remember { formula := id, world := w } x).Tallies s m w { t with met := φ :: t.met } where
  memoize := h.memoize
  evaluations := h.evaluations
  hits := h.hits
  met id' ψ hψ := by
    simp only [Evaluator.remember, getElem?_insert_eq_ite, h.met id' ψ hψ]
    by_cases hψφ : ψ = φ
    · subst hψφ
      rw [if_pos (by rw [hs.denotes_inj hφ hψ]), if_pos List.mem_cons_self, hx]
      rfl
    · have hne : ({ formula := id, world := w } : Query) ≠ { formula := id', world := w } := by
        rintro ⟨⟩
        exact hψφ (hψ.unique hφ)
      rw [if_neg hne]
      simp [hψφ]

/-- A query is counted as computed the first time and as remembered from then on. -/
lemma counts_answer (hs : s.Made K) (hφ : s.Denotes id φ) (hx : φ.value m w = .ok x)
    {c : Evaluation TwistElement} {below : Tally → Tally} (hc : Counts s m w c x below) :
    Counts s m w (answer { formula := id, world := w } c) x fun t => t.meet φ below := by
  intro ev t ht
  have hmemo := ht.met id φ hφ
  rw [answer, ask_bind, ask_get]
  simp only [ht.memoize, if_true, Tally.meet]
  by_cases hmet : φ ∈ t.met
  · rw [if_pos hmet, hx] at hmemo
    simp only [hmemo, if_pos hmet, Except.toOption]
    exact ⟨rfl, ht.memoize, ht.evaluations, congrArg (· + 1) ht.hits, ht.met⟩
  · rw [if_neg hmet] at hmemo
    simp only [hmemo, if_neg hmet]
    have hcount : ev.countEvaluation.Tallies s m w { t with evaluations := t.evaluations + 1 } :=
      ⟨ht.memoize, congrArg (· + 1) ht.evaluations, ht.hits, ht.met⟩
    obtain ⟨hvalue, ht'⟩ := hc _ _ hcount
    rw [ask_bind, ask_modify]
    dsimp only
    rw [ask_bind]
    rcases hask : ev.countEvaluation.ask c with ⟨r, ev'⟩
    rw [hask] at hvalue ht'
    subst hvalue
    exact ⟨rfl, ht'.remember hs hφ hx⟩

/-- A formula without modalities that has a value is counted by its tally. -/
theorem counts_valueWithin (hs : s.Made K) (hφ : s.Denotes id φ) (hactions : φ.actions = [])
    (hx : φ.value m w = .ok x) {fuel : Nat} (hf : φ.height ≤ fuel) :
    Counts s m w (valueWithin s m fuel (some id) w) x φ.tally := by
  induction hφ generalizing fuel x with
  | top hn hk | bot hn hk =>
    obtain ⟨k, rfl⟩ := Formula.exists_fuel_eq_succ hf
    refine counts_answer hs (by constructor <;> assumption) hx ?_
    cases hx
    simp only [hn, nodeValue, hk]
    exact counts_pure _
  | @atom id n name hn hk =>
    obtain ⟨k, rfl⟩ := Formula.exists_fuel_eq_succ hf
    refine counts_answer hs (.atom hn hk) hx ?_
    simp only [Formula.value] at hx
    simp only [hn, nodeValue, hk]
    cases hvalue : m.value? w name with
    | none =>
      rw [hvalue] at hx
      cases hx
    | some y =>
      rw [hvalue] at hx
      cases hx
      exact counts_pure _
  | neg hn hk hl hd ih =>
    obtain ⟨k, rfl⟩ := Formula.exists_fuel_eq_succ hf
    simp only [Formula.height, Nat.add_le_add_iff_right] at hf
    refine counts_answer hs (.neg hn hk hl hd) hx ?_
    simp only [Formula.value, bind_eq_ok_iff, pure_eq_ok_iff] at hx
    obtain ⟨y, hy, rfl⟩ := hx
    simp only [hn, nodeValue, hk, hl]
    exact (ih hactions hy hf).map m.twist.negation
  | binary hn hk hl hr hd hd' ihl ihr =>
    obtain ⟨k, rfl⟩ := Formula.exists_fuel_eq_succ hf
    simp only [Formula.height, Nat.add_le_add_iff_right, Nat.max_le] at hf
    simp only [Formula.actions, List.append_eq_nil_iff] at hactions
    refine counts_answer hs (.binary hn hk hl hr hd hd') hx ?_
    simp only [Formula.value, bind_eq_ok_iff, pure_eq_ok_iff] at hx
    obtain ⟨y, hy, z, hz, rfl⟩ := hx
    simp only [hn, nodeValue, hk, hl, hr]
    exact (ihl hactions.1 hy hf.1).bind ((ihr hactions.2 hz hf.2).map _)
  | modal => simp [Formula.actions] at hactions

end Evaluator

end TwistLogic
