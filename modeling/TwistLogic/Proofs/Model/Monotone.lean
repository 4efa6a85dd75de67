import TwistLogic.Proofs.Algebra.Positions
import TwistLogic.Proofs.Model.Meaning
import TwistLogic.Proofs.Model.Parallel

/-!
# Better informed models

Two models on the same frame whose values are comparable.  If the values of one are below those of
the other in the knowledge order, so are the values of all formulas without residuated implication
(`Evaluator.knowledge_monotone`).

In the truth order it matters where a proposition occurs.  `Formula.signs` lists the signs of its
occurrences: they are turned round under a negation and on the left of an implication, and an
occurrence under an equivalence has both signs.  If one proposition gets truer values, a formula in
which it occurs only positively becomes truer and one in which it occurs only negatively becomes
less true (`Evaluator.truth_monotone`).  The two statements need each other under a negation, so
they are one statement about a sign (`Formula.related_of_signs`).

Evaluations in such models fail alike over every structure.  That their values are comparable needs
that negation exchanges the sides of all pairs, so the number of pairs is bounded by the positions
in the table of negation; examples of larger structures follow the two theorems.
-/

namespace TwistLogic

/-! ## Models on the same frame -/

/-- The same worlds, known actions and transitions.  Only the values may differ. -/
structure Model.SameFrame (m m' : Model) : Prop where
  size_eq : m.worlds.size = m'.worlds.size
  worldId_eq : ∀ w, m.worldId w = m'.worldId w
  hasAction_eq : ∀ action, m.hasAction action = m'.hasAction action
  successors_eq : ∀ w action, m.successors w action = m'.successors w action

/-- Models on the same frame are parallel, and the common weights are elements. -/
lemma Model.SameFrame.parallel {m m' : Model} (h : m.SameFrame m') (hm : m.WellFormed) :
    m.Parallel (fun a b => a = b ∧ m.twist.contains a = true) m' where
  size_eq := h.size_eq
  worldId_eq := h.worldId_eq
  hasAction_eq := h.hasAction_eq
  successors w action := by
    rw [← h.successors_eq w action, List.forall₂_same]
    exact fun tr htr => ⟨rfl, rfl, hm.weight_mem w action tr htr⟩

/-- Values in a relation are elements in that relation. -/
lemma Model.rel_value?_and {m m' : Model} {R S : TwistElement → TwistElement → Prop} {p : Text}
    {w : WorldIndex} (hm : m.WellFormed) (hm' : m'.WellFormed)
    (h : Option.Rel R (m.value? w p) (m'.value? w p))
    (hS : ∀ x y, m.twist.contains x = true → m'.twist.contains y = true → R x y → S x y) :
    Option.Rel S (m.value? w p) (m'.value? w p) := by
  have hmem := hm.value_mem w p
  have hmem' := hm'.value_mem w p
  generalize m.value? w p = x at h hmem
  generalize m'.value? w p = y at h hmem'
  cases h with
  | some hxy => exact .some (hS _ _ (hmem _ rfl) (hmem' _ rfl) hxy)
  | none => exact .none

variable {ts : TwistStructure} {m m' : Model} {φ : Formula} {p : Text}
  {x x' y y' : TwistElement}

/-! ## More knowledge -/

namespace TwistStructure.KnowledgeBelow

lemma material (h : ts.Exact) (hx : ts.KnowledgeBelow x x') (hy : ts.KnowledgeBelow y y') :
    ts.KnowledgeBelow (ts.material x y) (ts.material x' y') :=
  (hx.negation h).join h.toLawful hy

/-- Every connective but the residuated implication is monotone in both operands. -/
lemma connective (h : ts.Exact) {c : Connective} (hc : c ≠ .resImplies)
    (hx : ts.KnowledgeBelow x x') (hy : ts.KnowledgeBelow y y') :
    ts.KnowledgeBelow (c.value ts x y) (c.value ts x' y') := by
  cases c with
  | and => exact hx.meet h.toLawful hy
  | or => exact hx.join h.toLawful hy
  | resImplies => exact absurd rfl hc
  | implies => exact hx.material h hy
  | iff => exact (hx.material h hy).meet h.toLawful (hy.material h hx)

/-- With the same weights, the modalities keep the knowledge order. -/
lemma keeps (h : ts.Lawful) :
    ts.Keeps ts (fun a b => a = b ∧ ts.contains a = true) ts.KnowledgeBelow where
  absoluteTrue := refl h h.contains_absoluteTrue
  absoluteFalse := refl h h.contains_absoluteFalse
  meet hx hy := hx.meet h hy
  join hx hy := hx.join h hy
  weight := by
    rintro a _ ⟨rfl, ha⟩
    exact refl h ha
  implication := by
    rintro a _ x x' ⟨rfl, ha⟩ hx
    exact hx.implication h ha

end TwistStructure.KnowledgeBelow

/-- If the values of a model know less than those of another on the same frame, so do those of the
formulas without residuated implication. -/
theorem Formula.related_knowledge (hts : ts.Exact) (htwist : m.twist = ts) (htwist' : m'.twist = ts)
    (hframe : m.Parallel (fun a b => a = b ∧ ts.contains a = true) m')
    (hvalues : ∀ w p, Option.Rel ts.KnowledgeBelow (m.value? w p) (m'.value? w p))
    (hφ : φ.Uses fun k => k ≠ .binary .resImplies) (w : WorldIndex) :
    Related ts.KnowledgeBelow (φ.value m w) (φ.value m' w) := by
  subst htwist
  have hkeeps : m.twist.Keeps m'.twist (fun a b => a = b ∧ m.twist.contains a = true)
      m.twist.KnowledgeBelow := by
    rw [htwist']
    exact TwistStructure.KnowledgeBelow.keeps hts.toLawful
  induction φ generalizing w with
  | top => exact related_top hkeeps
  | bot => exact related_bot hkeeps
  | atom p => exact related_atom (hframe.worldId_eq w) (hvalues w p)
  | neg φ ih =>
    rw [uses_neg] at hφ
    refine related_neg (ih hφ.2 w) fun x x' hx => ?_
    rw [htwist']
    exact hx.negation hts
  | binary c φ ψ ihφ ihψ =>
    rw [uses_binary] at hφ
    have hc : c ≠ .resImplies := fun heq => hφ.1 (congrArg NodeKind.binary heq)
    refine related_binary (ihφ hφ.2.1 w) (ihψ hφ.2.2 w) fun x x' y y' hx hy => ?_
    rw [htwist']
    exact hx.connective hts hc hy
  | modal mod action φ ih =>
    rw [uses_modal] at hφ
    exact related_modal hframe hkeeps (ih hφ.2)

/-! ## More truth -/

/-- Whether more truth of a part makes the whole truer or less true. -/
inductive Sign where
  | positive
  | negative
  deriving DecidableEq

namespace Sign

/-- The other sign. -/
def flip : Sign → Sign
  | positive => negative
  | negative => positive

/-- The truth order, turned round for the negative sign. -/
def Below (ts : TwistStructure) : Sign → TwistElement → TwistElement → Prop
  | positive, x, y => ts.TruthBelow x y
  | negative, x, y => ts.TruthBelow y x

namespace Below

variable {σ : Sign}

lemma refl (h : ts.Lawful) (σ : Sign) (hx : ts.contains x = true) : σ.Below ts x x := by
  cases σ <;> exact TwistStructure.TruthBelow.refl h hx

lemma meet (h : ts.Lawful) (hx : σ.Below ts x x') (hy : σ.Below ts y y') :
    σ.Below ts (ts.meet x y) (ts.meet x' y') := by
  cases σ <;> exact TwistStructure.TruthBelow.meet h hx hy

lemma join (h : ts.Lawful) (hx : σ.Below ts x x') (hy : σ.Below ts y y') :
    σ.Below ts (ts.join x y) (ts.join x' y') := by
  cases σ <;> exact TwistStructure.TruthBelow.join h hx hy

lemma negation (h : ts.Exact) (hx : σ.flip.Below ts x x') :
    σ.Below ts (ts.negation x) (ts.negation x') := by
  cases σ <;> exact TwistStructure.TruthBelow.negation h hx

lemma implication (h : ts.Lawful) (hx : σ.flip.Below ts x x') (hy : σ.Below ts y y') :
    σ.Below ts (ts.implication x y) (ts.implication x' y') := by
  cases σ <;> exact TwistStructure.TruthBelow.implication h hx hy

lemma material (h : ts.Exact) (hx : σ.flip.Below ts x x') (hy : σ.Below ts y y') :
    σ.Below ts (ts.material x y) (ts.material x' y') :=
  (negation h hx).join h.toLawful hy

/-- With the same weights, the modalities keep the truth order in both directions. -/
lemma keeps (h : ts.Lawful) (σ : Sign) :
    ts.Keeps ts (fun a b => a = b ∧ ts.contains a = true) (σ.Below ts) where
  absoluteTrue := refl h σ h.contains_absoluteTrue
  absoluteFalse := refl h σ h.contains_absoluteFalse
  meet hx hy := hx.meet h hy
  join hx hy := hx.join h hy
  weight := by
    rintro a _ ⟨rfl, ha⟩
    exact refl h σ ha
  implication := by
    rintro a _ x x' ⟨rfl, ha⟩ hx
    exact implication h (refl h _ ha) hx

end Below

end Sign

/-- The signs of the occurrences in a compound of two formulas, from those in its operands. -/
def Connective.signs : Connective → List Sign → List Sign → List Sign
  | .and, left, right => left ++ right
  | .or, left, right => left ++ right
  | .resImplies, left, right => left.map Sign.flip ++ right
  | .implies, left, right => left.map Sign.flip ++ right
  | .iff, left, right => (left ++ right).flatMap fun _ => [.positive, .negative]

/-- The sign that a sign of the whole asks of the left operand: implications turn it round. -/
def Connective.leftSign : Connective → Sign → Sign
  | .resImplies, σ => σ.flip
  | .implies, σ => σ.flip
  | _, σ => σ

/-- The signs of the occurrences of a proposition, from left to right. -/
def Formula.signs (p : Text) : Formula → List Sign
  | .top => []
  | .bot => []
  | .atom q => if q = p then [.positive] else []
  | .neg φ => (φ.signs p).map Sign.flip
  | .binary c φ ψ => c.signs (φ.signs p) (ψ.signs p)
  | .modal _ _ φ => φ.signs p

namespace Sign

variable {σ : Sign} {left right : List Sign}

/-- Turned round, all signs of a list are a given one exactly if they were the other. -/
lemma forall_mem_map_flip : (∀ τ ∈ left.map flip, τ = σ) ↔ ∀ τ ∈ left, τ = σ.flip := by
  rw [List.forall_mem_map]
  refine forall₂_congr fun τ _ => ?_
  cases σ <;> cases τ <;> simp [flip]

/-- All signs in a compound are a given one exactly if those in its operands are the ones that this
asks of them. -/
lemma forall_mem_signs_iff {c : Connective} (hc : c ≠ .iff) :
    (∀ τ ∈ c.signs left right, τ = σ) ↔
      (∀ τ ∈ left, τ = c.leftSign σ) ∧ ∀ τ ∈ right, τ = σ := by
  cases c with
  | and => exact List.forall_mem_append
  | or => exact List.forall_mem_append
  | resImplies => exact List.forall_mem_append.trans (and_congr_left' forall_mem_map_flip)
  | implies => exact List.forall_mem_append.trans (and_congr_left' forall_mem_map_flip)
  | iff => exact absurd rfl hc

/-- All signs in an equivalence are a given one only if there are none. -/
lemma forall_mem_signs_equivalence_iff :
    (∀ τ ∈ Connective.signs .iff left right, τ = σ) ↔ left = [] ∧ right = [] := by
  rw [← List.append_eq_nil_iff]
  constructor
  · intro h
    by_contra hne
    obtain ⟨τ, hτ⟩ := List.exists_mem_of_ne_nil _ hne
    have hpositive := h .positive (List.mem_flatMap.mpr ⟨τ, hτ, by simp⟩)
    have hnegative := h .negative (List.mem_flatMap.mpr ⟨τ, hτ, by simp⟩)
    exact absurd (hpositive.trans hnegative.symm) (by decide)
  · intro h
    simp [Connective.signs, h]

end Sign

/-- Every connective but the equivalence passes on a sign of its operands. -/
lemma Sign.Below.connective (h : ts.Exact) {c : Connective} (hc : c ≠ .iff) {σ : Sign}
    (hx : (c.leftSign σ).Below ts x x') (hy : σ.Below ts y y') :
    σ.Below ts (c.value ts x y) (c.value ts x' y') := by
  cases c with
  | and => exact hx.meet h.toLawful hy
  | or => exact hx.join h.toLawful hy
  | resImplies => exact .implication h.toLawful hx hy
  | implies => exact .material h hx hy
  | iff => exact absurd rfl hc

/-- If one proposition gets truer values and all its occurrences in a formula have one sign, the
value of the formula changes in the direction of this sign. -/
theorem Formula.related_of_signs (hts : ts.Exact) (htwist : m.twist = ts) (htwist' : m'.twist = ts)
    (hm : m.WellFormed) (hframe : m.Parallel (fun a b => a = b ∧ ts.contains a = true) m')
    (hother : ∀ w q, q ≠ p → m.value? w q = m'.value? w q)
    (hp : ∀ w, Option.Rel ts.TruthBelow (m.value? w p) (m'.value? w p)) {σ : Sign}
    (hφ : ∀ τ ∈ φ.signs p, τ = σ) (w : WorldIndex) :
    Related (σ.Below ts) (φ.value m w) (φ.value m' w) := by
  have hlawful := hts.toLawful
  subst htwist
  have hkeeps : ∀ σ : Sign, m.twist.Keeps m'.twist
      (fun a b => a = b ∧ m.twist.contains a = true) (σ.Below m.twist) := by
    rw [htwist']
    exact Sign.Below.keeps hlawful
  induction φ generalizing σ w with
  | top => exact related_top (hkeeps σ)
  | bot => exact related_bot (hkeeps σ)
  | atom q =>
    refine related_atom (hframe.worldId_eq w) ?_
    by_cases hq : q = p
    · subst hq
      obtain rfl : Sign.positive = σ := hφ .positive (by simp [signs])
      exact hp w
    · rw [← hother w q hq]
      have hmem := hm.value_mem w q
      cases hx : m.value? w q with
      | none => exact .none
      | some x => exact .some (.refl hlawful σ (hmem x hx))
  | neg φ ih =>
    refine related_neg (ih (Sign.forall_mem_map_flip.mp hφ) w) fun x x' hx => ?_
    rw [htwist']
    exact hx.negation hts
  | binary c φ ψ ihφ ihψ =>
    by_cases hc : c = .iff
    · subst hc
      -- without occurrences the operands are comparable with both signs
      obtain ⟨hleft, hright⟩ := Sign.forall_mem_signs_equivalence_iff.mp hφ
      have hboth : ∀ σ : Sign, Related (σ.Below m.twist) (φ.value m w) (φ.value m' w) ∧
          Related (σ.Below m.twist) (ψ.value m w) (ψ.value m' w) :=
        fun σ => ⟨ihφ (by simp [hleft]) w, ihψ (by simp [hright]) w⟩
      refine related_binary ((hboth σ).1.and (hboth σ.flip).1) ((hboth σ).2.and (hboth σ.flip).2)
        fun x x' y y' hx hy => ?_
      rw [htwist']
      exact (Sign.Below.material hts hx.2 hy.1).meet hlawful (.material hts hy.2 hx.1)
    · obtain ⟨hleft, hright⟩ := (Sign.forall_mem_signs_iff hc).mp hφ
      refine related_binary (ihφ hleft w) (ihψ hright w) fun x x' y y' hx hy => ?_
      rw [htwist']
      exact .connective hts hc hx hy
  | modal mod action φ ih =>
    exact related_modal hframe (hkeeps σ) (ih hφ)

/-! ## Changing one value -/

/-- Giving a proposition a value changes no frame. -/
lemma Model.sameFrame_assign {world q : Text} (h : m.assign world q x = .ok m') :
    m.SameFrame m' := by
  obtain ⟨i, hi, -, rfl⟩ := assign_eq_ok_iff.mp h
  constructor
  case size_eq => simp
  case worldId_eq =>
    intro w
    simp only [worldId, Array.getElem?_modify]
    split
    · cases m.worlds[w]? <;> rfl
    · rfl
  case hasAction_eq => exact fun _ => rfl
  case successors_eq => exact fun w action => (successors_assign m i q x w action).symm

/-- Giving a proposition a value changes only this value. -/
lemma Model.exists_value?_of_assign {world q : Text} (h : m.assign world q x = .ok m') :
    ∃ i, m.findWorld? world = some i ∧
      ∀ w r, m'.value? w r = if w = i ∧ r = q then some x else m.value? w r := by
  obtain ⟨i, hi, -, rfl⟩ := assign_eq_ok_iff.mp h
  exact ⟨i, hi, value?_assign m (lt_size_of_findWorld? hi) q x⟩

/-- If a value is replaced by a greater one, no value becomes less. -/
lemma Model.rel_value?_of_assign {R : TwistElement → TwistElement → Prop} {world q : Text}
    (hrefl : ∀ w r y, m.value? w r = some y → R y y) (h : m.assign world q x = .ok m')
    (hold : ((m.findWorld? world).bind fun i => m.value? i q) = some y) (hyx : R y x)
    (w : WorldIndex) (r : Text) : Option.Rel R (m.value? w r) (m'.value? w r) := by
  obtain ⟨i, hi, hvalue⟩ := exists_value?_of_assign h
  rw [hi, Option.bind_some] at hold
  rw [hvalue]
  split
  next hat =>
    obtain ⟨rfl, rfl⟩ := hat
    rw [hold]
    exact .some hyx
  next =>
    cases hw : m.value? w r with
    | none => exact .none
    | some z => exact .some (hrefl w r z hw)

/-! ## A single value -/

/-- The model with one world, at which `p` has a value. -/
def Model.sole (ts : TwistStructure) (x : TwistElement) : Model :=
  { Model.empty ts with
    worlds := #[{ id := ascii "w", valuation := (∅ : Valuation).insert (ascii "p") x, edges := ∅ }]
    revision := 1 }

namespace Model

lemma value?_sole (w : WorldIndex) (q : Text) :
    (sole ts x).value? w q = if w = 0 ∧ ascii "p" = q then some x else none := by
  cases w with
  | zero =>
    have hvalue : (sole ts x).value? 0 q = ((∅ : Valuation).insert (ascii "p") x)[q]? := rfl
    simp [hvalue, getElem?_insert_eq_ite]
  | succ w => simp [sole, value?]

lemma reachable_sole (hx : ts.contains x = true) : Reachable ts (sole ts x) := by
  refine Reachable.empty.edit (.addWorld (ascii "w") ((∅ : Valuation).insert (ascii "p") x)) ?_
  have hplace : (Model.empty ts).place
      { id := ascii "w", valuation := (∅ : Valuation).insert (ascii "p") x } =
      .ok { sole ts x with revision := 0 } := by
    refine place_eq_ok_iff.mpr ⟨by simp [findWorld?, empty], fun q y hy => ?_, rfl⟩
    simp only [getElem?_insert_eq_ite] at hy
    split at hy
    · exact Option.some.inj hy ▸ hx
    · simp at hy
  exact bind_eq_ok_iff.mpr ⟨_, addWorld_eq_ok_iff.mpr ⟨_, hplace, rfl, rfl⟩, rfl⟩

/-- Only the value of `p` differs. -/
lemma sameFrame_sole (x y : TwistElement) : (sole ts x).SameFrame (sole ts y) where
  size_eq := rfl
  worldId_eq w := by cases w <;> rfl
  hasAction_eq _ := rfl
  successors_eq w _ := by cases w <;> rfl

/-- Two values of `p` are related, and there are no others. -/
lemma rel_value?_sole {R : TwistElement → TwistElement → Prop} (hxy : R x y) (w : WorldIndex)
    (q : Text) : Option.Rel R ((sole ts x).value? w q) ((sole ts y).value? w q) := by
  rw [value?_sole, value?_sole]
  split
  · exact .some hxy
  · exact .none

/-- The answer about the negation of `p` is the negation of its value. -/
lemma ask_negation_sole :
    let s := FormulaStore.initial.add (.neg (.atom (ascii "p")))
    ((Evaluator.start (sole ts x) true).ask (Evaluator.evaluateAt s.2 (sole ts x) s.1 0)).1 =
      .ok (ts.negation x) := by
  intro s
  have hs : s.2.Denotes s.1 (.neg (.atom (ascii "p"))) :=
    (FormulaStore.Built.initial.reachable.exact.add_spec _).2.2
  have hcoherent := Evaluator.coherent_start s.2 (sole ts x) true
  have hvalue : (sole ts x).value? 0 (ascii "p") = some x := by simp [value?_sole]
  rw [(hcoherent.ask_evaluateAt (FormulaStore.Built.initial.add _) s.1 0).1,
    hs.valueAt_eq Nat.zero_lt_one]
  simp only [Formula.value, hvalue]
  rfl

end Model

/-! ## Evaluation -/

namespace Evaluator

/-- If the values of a model are below those of another on the same frame in the knowledge order,
evaluations of a formula without residuated implication succeed in both, or fail with the same error
in both, at every world.  The answers are below each other too, if the structure has no more
elements than its table of negation has positions. -/
theorem knowledge_monotone (hts : ts.Generated) (hm : Model.Reachable ts m)
    (hm' : Model.Reachable ts m') (hframe : m.SameFrame m')
    (hvalues : ∀ w p,
      Option.Rel (fun x y => ts.knowledgeLeq x y = true) (m.value? w p) (m'.value? w p))
    {s : FormulaStore} (hs : s.Built) {id : FormulaId} (hφ : s.Denotes id φ)
    (hfree : φ.Uses fun k => k ≠ .binary .resImplies) {ev ev' : Evaluator}
    (hev : ev.Coherent s m) (hev' : ev'.Coherent s m') :
    RelatedAnswers (fun x y => ts.size ≤ UInt32.size → ts.knowledgeLeq x y = true)
      s id m ev m' ev' := by
  obtain ⟨rfl, hwf⟩ := hm.wellFormed
  obtain ⟨htwist', hwf'⟩ := hm'.wellFormed
  have hparallel := hframe.parallel hwf
  refine hparallel.related_answers hs (fun ψ hψ w => ?_) hev hev'
  obtain rfl := hψ.unique hφ
  have halike : Related (fun _ _ => True) (ψ.value m w) (ψ.value m' w) :=
    ψ.fails_alike hparallel (fun w p => Model.rel_value?_and hwf hwf' (hvalues w p)
      fun _ _ _ _ _ => trivial) w
  refine halike.under fun hsize => ?_
  have hbelow : ∀ w p, Option.Rel m.twist.KnowledgeBelow (m.value? w p) (m'.value? w p) := by
    refine fun w p => Model.rel_value?_and hwf hwf' (hvalues w p) fun x y hx hy hxy => ?_
    exact TwistStructure.knowledgeBelow_iff.mpr ⟨hx, htwist' ▸ hy, hxy⟩
  exact (Formula.related_knowledge (hts.exact hsize) rfl htwist' hparallel hbelow hfree w).mono
    fun x y hxy => (TwistStructure.knowledgeBelow_iff.mp hxy).2.2

/-- In the seesaw, more evidence against `p` at `u` becomes more evidence for a box over its
negation at `v`. -/
theorem knowledge_monotone_seesaw :
    let φ : Formula := .modal .box (ascii "a") (.neg (.atom (ascii "p")))
    let s := FormulaStore.initial.add φ
    let m := (Model.seesaw.assign (ascii "u") (ascii "p") ⟨1, 1⟩).toOption.getD .seesaw
    RelatedAnswers (fun x y => TwistStructure.fourValued.knowledgeLeq x y = true) s.2 s.1
      .seesaw (start .seesaw true) m (start m false) ∧
    ((start .seesaw true).ask (evaluate s.2 .seesaw s.1 (ascii "v"))).1 = .ok ⟨0, 1⟩ ∧
    ((start m false).ask (evaluate s.2 m s.1 (ascii "v"))).1 = .ok ⟨1, 1⟩ := by
  intro φ s m
  have hts := TwistStructure.generated_fourValued
  have hseesaw := Model.reachable_seesaw
  obtain ⟨htwist, hwf⟩ := hseesaw.wellFormed
  have hassign : Model.seesaw.assign (ascii "u") (ascii "p") ⟨1, 1⟩ = .ok m :=
    eq_ok_getD_of_isSome (by decide +kernel)
  have hvalues : ∀ w p, Option.Rel (fun x y => TwistStructure.fourValued.knowledgeLeq x y = true)
      (Model.seesaw.value? w p) (m.value? w p) := by
    refine Model.rel_value?_of_assign (fun w r y hy => ?_) hassign
      (show _ = some ⟨1, 0⟩ by decide +kernel) (by decide +kernel)
    have hbelow : TwistStructure.fourValued.KnowledgeBelow y y :=
      .refl hts.lawful (htwist ▸ hwf.value_mem w r y hy)
    exact (TwistStructure.knowledgeBelow_iff.mp hbelow).2.2
  have hanswers := knowledge_monotone hts hseesaw (hseesaw.edit (.assign _ _ _) hassign)
    (Model.sameFrame_assign hassign) hvalues (FormulaStore.Built.initial.add φ)
    (FormulaStore.Built.initial.reachable.exact.add_spec φ).2.2 (by simp [φ])
    (coherent_start _ _ true) (coherent_start _ _ false)
  refine ⟨hanswers.mono fun _ _ hxy => hxy (by decide), ?_, ?_⟩
  · decide +kernel
  · decide +kernel

/-- Where the table of negation wraps, more evidence for `p` may become less evidence against its
negation. -/
theorem knowledge_lost_by_negation :
    let φ : Formula := .neg (.atom (ascii "p"))
    let s := FormulaStore.initial.add φ
    ∃ ts, CommandLine.twistOf (65537 * 65537) (ascii "goedel:65537") = .ok ts ∧ ts.Generated ∧
      let m := Model.sole ts ⟨0, 65535⟩
      let m' := Model.sole ts ⟨1, 65535⟩
      Model.Reachable ts m ∧ Model.Reachable ts m' ∧ m.SameFrame m' ∧
      (∀ w p, Option.Rel (fun x y => ts.knowledgeLeq x y = true) (m.value? w p) (m'.value? w p)) ∧
      (φ.Uses fun k => k ≠ .binary .resImplies) ∧
      ((start m true).ask (evaluateAt s.2 m s.1 0)).1 = .ok ⟨65535, 0⟩ ∧
      ((start m' true).ask (evaluateAt s.2 m' s.1 0)).1 = .ok ⟨0, 0⟩ ∧
      ts.knowledgeLeq ⟨65535, 0⟩ ⟨0, 0⟩ = false := by
  intro φ s
  obtain ⟨ts, h⟩ := TwistStructure.exists_isWide
  have hx : ts.contains ⟨0, 65535⟩ = true := h.contains_iff.mpr (by decide)
  have hy : ts.contains ⟨1, 65535⟩ = true := h.contains_iff.mpr (by decide)
  have hbelow : ts.knowledgeLeq ⟨0, 65535⟩ ⟨1, 65535⟩ = true :=
    (h.knowledgeLeq_iff hx hy).mpr (by decide)
  have hnegation : ts.negation ⟨0, 65535⟩ = ⟨65535, 0⟩ :=
    h.negation_eq (by decide) (by decide) (by decide)
  -- exchanged, the second value has the first number that 32 bits cannot hold
  have hwrapped : ts.negation ⟨1, 65535⟩ = ⟨0, 0⟩ :=
    h.negation_eq (by decide) (by decide) (by decide)
  refine ⟨ts, h.selected, h.generated, Model.reachable_sole hx, Model.reachable_sole hy,
    Model.sameFrame_sole _ _, Model.rel_value?_sole hbelow, by simp [φ], ?_, ?_, ?_⟩
  · rw [← hnegation]
    exact Model.ask_negation_sole
  · rw [← hwrapped]
    exact Model.ask_negation_sole
  · rw [Bool.eq_false_iff, ne_eq, h.knowledgeLeq_iff (h.contains_iff.mpr (by decide))
      (h.contains_iff.mpr (by decide))]
    decide

/-- If one proposition has truer values in a model than in another on the same frame, and all other
values are the same, evaluations of a formula in which it occurs with one sign only succeed in both,
or fail with the same error in both.  If it occurs only positively, the answers are truer, and if it
occurs only negatively, they are less true, where the structure has no more elements than its table
of negation has positions. -/
theorem truth_monotone (hts : ts.Generated) (hm : Model.Reachable ts m)
    (hm' : Model.Reachable ts m') (hframe : m.SameFrame m')
    (hother : ∀ w q, q ≠ p → m.value? w q = m'.value? w q)
    (hp : ∀ w, Option.Rel (fun x y => ts.leq x y = true) (m.value? w p) (m'.value? w p))
    {s : FormulaStore} (hs : s.Built) {id : FormulaId} (hφ : s.Denotes id φ) {ev ev' : Evaluator}
    (hev : ev.Coherent s m) (hev' : ev'.Coherent s m') :
    ((∀ σ ∈ φ.signs p, σ = .positive) →
      RelatedAnswers (fun x y => ts.size ≤ UInt32.size → ts.leq x y = true) s id m ev m' ev') ∧
    ((∀ σ ∈ φ.signs p, σ = .negative) →
      RelatedAnswers (fun x y => ts.size ≤ UInt32.size → ts.leq y x = true) s id m ev m' ev') := by
  obtain ⟨rfl, hwf⟩ := hm.wellFormed
  obtain ⟨htwist', hwf'⟩ := hm'.wellFormed
  have hparallel := hframe.parallel hwf
  have hbelow : ∀ w, Option.Rel m.twist.TruthBelow (m.value? w p) (m'.value? w p) := by
    refine fun w => Model.rel_value?_and hwf hwf' (hp w) fun x y hx hy hxy => ?_
    exact TwistStructure.truthBelow_iff.mpr ⟨hx, htwist' ▸ hy, hxy⟩
  have hgiven : ∀ w q, Option.Rel (fun _ _ => True) (m.value? w q) (m'.value? w q) := by
    intro w q
    by_cases hq : q = p
    · subst hq
      exact Model.rel_value?_and hwf hwf' (hp w) fun _ _ _ _ _ => trivial
    · rw [← hother w q hq]
      cases m.value? w q with
      | none => exact .none
      | some x => exact .some trivial
  have hsign : ∀ σ : Sign, (∀ τ ∈ φ.signs p, τ = σ) →
      RelatedAnswers (fun x y => m.twist.size ≤ UInt32.size → σ.Below m.twist x y)
        s id m ev m' ev' := by
    intro σ hσ
    refine hparallel.related_answers hs (fun ψ hψ w => ?_) hev hev'
    obtain rfl := hψ.unique hφ
    exact (ψ.fails_alike hparallel hgiven w).under fun hsize =>
      Formula.related_of_signs (hts.exact hsize) rfl htwist' hwf hparallel hother hbelow hσ w
  constructor
  · exact fun hσ => (hsign .positive hσ).mono fun x y hxy hsize =>
      (TwistStructure.truthBelow_iff.mp (hxy hsize)).2.2
  · exact fun hσ => (hsign .negative hσ).mono fun x y hxy hsize =>
      (TwistStructure.truthBelow_iff.mp (hxy hsize)).2.2

/-- In the seesaw, a truer `p` at `v` makes a box over it truer at `u` and its negation less
true. -/
theorem truth_monotone_seesaw :
    let φ : Formula := .modal .box (ascii "a") (.atom (ascii "p"))
    let s := FormulaStore.initial.add φ
    let s' := s.2.add (.neg φ)
    let m := (Model.seesaw.assign (ascii "v") (ascii "p") ⟨1, 0⟩).toOption.getD .seesaw
    RelatedAnswers (fun x y => TwistStructure.fourValued.leq x y = true) s.2 s.1
      .seesaw (start .seesaw true) m (start m false) ∧
    RelatedAnswers (fun x y => TwistStructure.fourValued.leq y x = true) s'.2 s'.1
      .seesaw (start .seesaw true) m (start m false) ∧
    ((start .seesaw true).ask (evaluate s.2 .seesaw s.1 (ascii "u"))).1 = .ok ⟨1, 1⟩ ∧
    ((start m false).ask (evaluate s.2 m s.1 (ascii "u"))).1 = .ok ⟨1, 0⟩ := by
  intro φ s s' m
  have hts := TwistStructure.generated_fourValued
  have hseesaw := Model.reachable_seesaw
  obtain ⟨htwist, hwf⟩ := hseesaw.wellFormed
  have hassign : Model.seesaw.assign (ascii "v") (ascii "p") ⟨1, 0⟩ = .ok m :=
    eq_ok_getD_of_isSome (by decide +kernel)
  have hvalues : ∀ w p, Option.Rel (fun x y => TwistStructure.fourValued.leq x y = true)
      (Model.seesaw.value? w p) (m.value? w p) := by
    refine Model.rel_value?_of_assign (fun w r y hy => ?_) hassign
      (show _ = some ⟨1, 1⟩ by decide +kernel) (by decide +kernel)
    exact hts.lawful.leq_refl (htwist ▸ hwf.value_mem w r y hy)
  have hother : ∀ w q, q ≠ ascii "p" → Model.seesaw.value? w q = m.value? w q := by
    intro w q hq
    obtain ⟨i, -, hvalue⟩ := Model.exists_value?_of_assign hassign
    rw [hvalue, if_neg fun hat => hq hat.2]
  have hs := FormulaStore.Built.initial.add φ
  have hmonotone := fun {s ψ id} (hs : FormulaStore.Built s) (hψ : s.Denotes id ψ) =>
    truth_monotone hts hseesaw (hseesaw.edit (.assign _ _ _) hassign)
      (Model.sameFrame_assign hassign) hother (fun w => hvalues w _) hs hψ
      (coherent_start s _ true) (coherent_start s _ false)
  have hboxed := (hmonotone hs (FormulaStore.Built.initial.reachable.exact.add_spec φ).2.2).1
    (by decide)
  have hnegated := (hmonotone (hs.add (.neg φ)) (hs.reachable.exact.add_spec (.neg φ)).2.2).2
    (by decide)
  refine ⟨hboxed.mono fun _ _ hxy => hxy (by decide), hnegated.mono fun _ _ hxy => hxy (by decide),
    ?_, ?_⟩
  · decide +kernel
  · decide +kernel

/-- Where the table of negation wraps, less evidence against `p` may make its negation truer. -/
theorem truth_gained_by_negation :
    let p := ascii "p"
    let φ : Formula := .neg (.atom p)
    let s := FormulaStore.initial.add φ
    ∃ ts, CommandLine.twistOf (65537 * 65537) (ascii "goedel:65537") = .ok ts ∧ ts.Generated ∧
      let m := Model.sole ts ⟨1, 65535⟩
      let m' := Model.sole ts ⟨1, 65534⟩
      Model.Reachable ts m ∧ Model.Reachable ts m' ∧ m.SameFrame m' ∧
      (∀ w q, q ≠ p → m.value? w q = m'.value? w q) ∧
      (∀ w, Option.Rel (fun x y => ts.leq x y = true) (m.value? w p) (m'.value? w p)) ∧
      (∀ σ ∈ φ.signs p, σ = .negative) ∧
      ((start m true).ask (evaluateAt s.2 m s.1 0)).1 = .ok ⟨0, 0⟩ ∧
      ((start m' true).ask (evaluateAt s.2 m' s.1 0)).1 = .ok ⟨65534, 1⟩ ∧
      ts.leq ⟨65534, 1⟩ ⟨0, 0⟩ = false := by
  intro p φ s
  obtain ⟨ts, h⟩ := TwistStructure.exists_isWide
  have hx : ts.contains ⟨1, 65535⟩ = true := h.contains_iff.mpr (by decide)
  have hy : ts.contains ⟨1, 65534⟩ = true := h.contains_iff.mpr (by decide)
  have hbelow : ts.leq ⟨1, 65535⟩ ⟨1, 65534⟩ = true := (h.leq_iff hx hy).mpr (by decide)
  -- exchanged, the first value has the first number that 32 bits cannot hold
  have hwrapped : ts.negation ⟨1, 65535⟩ = ⟨0, 0⟩ :=
    h.negation_eq (by decide) (by decide) (by decide)
  have hnegation : ts.negation ⟨1, 65534⟩ = ⟨65534, 1⟩ :=
    h.negation_eq (by decide) (by decide) (by decide)
  refine ⟨ts, h.selected, h.generated, Model.reachable_sole hx, Model.reachable_sole hy,
    Model.sameFrame_sole _ _, fun w q hq => ?_, fun w => Model.rel_value?_sole hbelow w p,
    by decide, ?_, ?_, ?_⟩
  · rw [Model.value?_sole, Model.value?_sole, if_neg fun hat => hq hat.2.symm,
      if_neg fun hat => hq hat.2.symm]
  · rw [← hwrapped]
    exact Model.ask_negation_sole
  · rw [← hnegation]
    exact Model.ask_negation_sole
  · rw [Bool.eq_false_iff, ne_eq, h.leq_iff (h.contains_iff.mpr (by decide))
      (h.contains_iff.mpr (by decide))]
    decide

end Evaluator

end TwistLogic
