import TwistLogic.Proofs.Formula.Material
import TwistLogic.Proofs.Formula.Reach
import TwistLogic.Proofs.Model.Meaning

/-!
# What the material connectives mean

The material connectives are defined by negation, disjunction and conjunction, and their operands
are evaluated once and from left to right.  Spelled out, they repeat operands, but a repeated
operand fails only if it has failed before.  So a formula and its expansion have the same value, or
fail with the same error, at every world of every model (`Formula.value_expand`).

Evaluators therefore give the same answers for a stored formula before and after
`FormulaStore.eliminateMaterial` has rewritten it (`FormulaStore.eliminateMaterial_spec`).
-/

namespace TwistLogic

/-! ## Values of expanded formulas -/

namespace Formula

variable {m : Model} {w : WorldIndex}

/-- A connective that is spelled out has the value of the connective. -/
lemma value_joinPlain (c : Connective) (φ ψ : Formula) :
    (joinPlain c φ ψ).value m w = (binary c φ ψ).value m w := by
  cases c with
  | and | or | resImplies => rfl
  | implies | iff =>
    simp only [joinPlain, orNot, value, Connective.value, TwistStructure.material]
    rcases φ.value m w with e | x
    · rfl
    · rcases ψ.value m w with e | y <;> rfl

/-- A formula and its expansion have the same value or the same first failure. -/
theorem value_expand (φ : Formula) : φ.expand.value m w = φ.value m w := by
  induction φ generalizing w with
  | top | bot | atom => rfl
  | neg φ ih => simp only [expand, value, ih]
  | modal mod action φ ih => simp only [expand, value, ih]
  | binary c φ ψ ihl ihr =>
    rw [expand, value_joinPlain]
    simp only [value, ihl, ihr]

end Formula

/-! ## Answers -/

/-- For two stored formulas, all evaluators that are coherent give the same answers about every
world of every model. -/
def Evaluator.SameAnswers (s : FormulaStore) (id : FormulaId) (s' : FormulaStore)
    (id' : FormulaId) : Prop :=
  ∀ (m : Model) (ev ev' : Evaluator), ev.Coherent s m → ev'.Coherent s' m →
    (∀ w, (ev.ask (evaluateAt s m id w)).1 = (ev'.ask (evaluateAt s' m id' w)).1) ∧
    ∀ world, (ev.ask (evaluate s m id world)).1 = (ev'.ask (evaluate s' m id' world)).1

/-- Formulas that have the same values everywhere have the same answers. -/
theorem Evaluator.sameAnswers_of_value_eq {s s' : FormulaStore} (hs : s.Built) (hs' : s'.Built)
    {id id' : FormulaId} {φ ψ : Formula} (hφ : s.Denotes id φ) (hψ : s'.Denotes id' ψ)
    (hvalue : ∀ m w, φ.value m w = ψ.value m w) : SameAnswers s id s' id' := by
  intro m ev ev' hev hev'
  exact hev.answers_of_values hs hs' hev' hφ hψ (P := Eq) (fun _ => rfl) fun w _ => hvalue m w

/-! ## The main statement -/

namespace FormulaStore

/-- The number `e` in the store `s'` stands for `id` of the store `s` without its material
connectives. -/
structure SpellsOut (s : FormulaStore) (id : FormulaId) (s' : FormulaStore) (e : FormulaId) :
    Prop where
  /-- Nothing material is left. -/
  plain : ∃ ψ, s'.tree? e = some ψ ∧ ψ.Uses NodeKind.Plain
  /-- The answers are those about the formula before it was rewritten. -/
  sameAnswers_before : Evaluator.SameAnswers s id s' e
  sameAnswers : Evaluator.SameAnswers s' id s' e
  sameAtoms : ∃ names, s.atoms? id = some names ∧ s'.atoms? id = some names ∧
    s'.atoms? e = some names
  sameActions : ∃ names, s.actions? id = some names ∧ s'.actions? id = some names ∧
    s'.actions? e = some names
  sameDepth : ∃ n, s.depth? id = some n ∧ s'.depth? id = some n ∧ s'.depth? e = some n
  /-- All nodes keep their numbers. -/
  keeps : ∀ a n, s.node? a = some n → s'.node? a = some n
  /-- Rewriting the result finds it again and changes nothing. -/
  final : s'.eliminateMaterial e = (some e, s')

/-- A formula and its expansion, made in a store that has grown. -/
lemma Made.spellsOut {K : NodeKind → Prop} {s s' : FormulaStore} (hs : s.Made K)
    (hgrows : s.Grows K s') {id e : FormulaId} {φ : Formula} (hφ : s.Denotes id φ)
    (he : s'.Denotes e φ.expand) : SpellsOut s id s' e := by
  have hs' : s'.Made K := hs.grows hgrows
  have hφ' : s'.Denotes id φ := hφ.mono hgrows.extends
  have hvalue : ∀ m w, φ.value m w = φ.expand.value m w := fun m w => φ.value_expand.symm
  constructor
  case plain => exact ⟨φ.expand, tree?_eq_some_iff.mpr he, φ.plain_expand⟩
  case sameAnswers_before => exact Evaluator.sameAnswers_of_value_eq hs.built hs'.built hφ he hvalue
  case sameAnswers => exact Evaluator.sameAnswers_of_value_eq hs'.built hs'.built hφ' he hvalue
  case sameAtoms =>
    refine ⟨_, hs.built.atoms?_eq hφ, hs'.built.atoms?_eq hφ', ?_⟩
    rw [hs'.built.atoms?_eq he, Text.sortedSet_congr fun name => Formula.mem_atoms_expand]
  case sameActions =>
    refine ⟨_, hs.built.actions?_eq hφ, hs'.built.actions?_eq hφ', ?_⟩
    rw [hs'.built.actions?_eq he, Text.sortedSet_congr fun name => Formula.mem_actions_expand]
  case sameDepth =>
    refine ⟨_, hφ.depth?_eq, hφ'.depth?_eq, ?_⟩
    rw [he.depth?_eq, φ.depth_expand]
  case keeps => exact hgrows.extends
  case final => exact hs'.eliminateMaterial_of_plain he φ.plain_expand

/-- In a store whose nodes hold their children and nothing else, every formula can be rewritten
without its material connectives, and a formula that has none is its own result. -/
theorem eliminateMaterial_spec {s : FormulaStore} (hs : s.Made fun _ => True) {id : FormulaId}
    (hid : id < s.size) :
    ∃ e s', s.eliminateMaterial id = (some e, s') ∧ SpellsOut s id s' e ∧
      ∀ φ, s.tree? id = some φ → φ.Uses NodeKind.Plain → e = id ∧ s' = s := by
  obtain ⟨φ, hφ⟩ := hs.built.exists_denotes id hid
  obtain ⟨e, s', hrun, hgrows, he⟩ :=
    hs.exact.makes_eliminateMaterial (K := fun _ => True) trivial trivial trivial hφ
      fun _ _ => trivial
  refine ⟨e, s', hrun, hs.spellsOut hgrows hφ he, fun ψ hψ hplain => ?_⟩
  have heq : (some e, s') = (some id, s) :=
    hrun.symm.trans (hs.eliminateMaterial_of_plain (tree?_eq_some_iff.mp hψ) hplain)
  exact ⟨Option.some.inj (congrArg Prod.fst heq), congrArg Prod.snd heq⟩

/-- A biconditional with an implication in it, under a box.  Spelled out, it repeats the
implication, and at the first world of the circular model it fails at `q` as before. -/
theorem eliminateMaterial_of_iff :
    let φ : Formula := .modal .box (ascii "a") (.binary .iff (.atom (ascii "p"))
      (.binary .implies (.atom (ascii "q")) .bot))
    let s := (FormulaStore.initial.add φ).2
    let id := (FormulaStore.initial.add φ).1
    (∃ e s', s.eliminateMaterial id = (some e, s') ∧ SpellsOut s id s' e ∧
      ∀ φ, s.tree? id = some φ → φ.Uses NodeKind.Plain → e = id ∧ s' = s) ∧
    let made := s.eliminateMaterial id
    made.1.bind made.2.text? =
      some (ascii "([]_a (((~p) | ((~q) | 0)) & ((~((~q) | 0)) | p)))") ∧
    made.1.map (fun e =>
      ((Evaluator.start .seesaw true).ask (Evaluator.evaluateAt made.2 .seesaw e 0)).1) =
        some (.error (.undefinedAtom (ascii "q") (ascii "u"))) ∧
    ((Evaluator.start .seesaw true).ask (Evaluator.evaluateAt s .seesaw id 0)).1 =
      .error (.undefinedAtom (ascii "q") (ascii "u")) := by
  intro φ s id
  have hs : s.Made fun _ => True :=
    FormulaStore.Built.initial.reachable.exact.grows_add fun _ _ => trivial
  have hid : id < s.size := by decide +kernel
  refine ⟨eliminateMaterial_spec hs hid, ?_, ?_, ?_⟩
  · decide +kernel
  · decide +kernel
  · decide +kernel

end FormulaStore

end TwistLogic
