import TwistLogic.Formula.Material
import TwistLogic.Proofs.Formula.Sharing

/-!
# Formulas without material connectives

`Formula.expand` spells `->` and `<->` out in a formula.  `FormulaStore.eliminateMaterial` does the
same to a stored formula: the number that it returns stands for the expansion of what the given
number stands for, and the store grows by interning nodes (`Exact.makes_eliminateMaterial`).

In a store that holds every formula once, an expansion that is there already is found, and nothing
is interned (`Made.eliminateMaterial_of_expand`).  So a formula without material connectives keeps
its number (`Made.eliminateMaterial_of_plain`).
-/

namespace TwistLogic

/-! ## Expanded formulas -/

/-- A root that is not a material connective. -/
def NodeKind.Plain (k : NodeKind) : Prop := k ≠ .binary .implies ∧ k ≠ .binary .iff

namespace Formula

/-- The disjunction that a material implication stands for. -/
def orNot (φ ψ : Formula) : Formula := .binary .or (.neg φ) ψ

/-- Two formulas under a connective, which is spelled out if it is material. -/
def joinPlain : Connective → Formula → Formula → Formula
  | .implies, φ, ψ => orNot φ ψ
  | .iff, φ, ψ => .binary .and (orNot φ ψ) (orNot ψ φ)
  | c, φ, ψ => .binary c φ ψ

/-- The formula with all material connectives spelled out. -/
def expand : Formula → Formula
  | top => top
  | bot => bot
  | atom name => atom name
  | neg φ => neg φ.expand
  | binary c φ ψ => joinPlain c φ.expand ψ.expand
  | modal m action φ => modal m action φ.expand

variable {φ : Formula}

/-- Nothing material is left. -/
theorem plain_expand (φ : Formula) : φ.expand.Uses NodeKind.Plain := by
  induction φ with
  | top | bot | atom => simp [expand, NodeKind.Plain]
  | neg φ ih | modal m action φ ih => simpa [expand, NodeKind.Plain] using ih
  | binary c φ ψ ihl ihr =>
    cases c <;> simp [expand, joinPlain, orNot, NodeKind.Plain, ihl, ihr]

/-- A formula in which nothing is material stays as it is. -/
lemma expand_of_plain (h : φ.Uses NodeKind.Plain) : φ.expand = φ := by
  induction φ with
  | top | bot | atom => rfl
  | neg φ ih => rw [expand, ih (uses_neg.mp h).2]
  | modal m action φ ih => rw [expand, ih (uses_modal.mp h).2]
  | binary c φ ψ ihl ihr =>
    obtain ⟨hc, hφ, hψ⟩ := uses_binary.mp h
    rw [expand, ihl hφ, ihr hψ]
    cases c with
    | and | or | resImplies => rfl
    | implies => exact absurd rfl hc.1
    | iff => exact absurd rfl hc.2

/-- Spelling out repeats atoms but brings none in. -/
lemma mem_atoms_expand {name : Text} : name ∈ φ.expand.atoms ↔ name ∈ φ.atoms := by
  induction φ with
  | top | bot | atom => rfl
  | neg φ ih | modal m action φ ih => simpa only [expand, atoms] using ih
  | binary c φ ψ ihl ihr =>
    cases c <;> simp only [expand, joinPlain, orNot, atoms, List.mem_append, ihl, ihr]
    tauto

/-- Spelling out repeats actions but brings none in. -/
lemma mem_actions_expand {action : Text} : action ∈ φ.expand.actions ↔ action ∈ φ.actions := by
  induction φ with
  | top | bot | atom => rfl
  | neg φ ih => simpa only [expand, actions] using ih
  | modal m a φ ih => simp only [expand, actions, List.mem_cons, ih]
  | binary c φ ψ ihl ihr =>
    cases c <;> simp only [expand, joinPlain, orNot, actions, List.mem_append, ihl, ihr]
    tauto

/-- Spelling out nests no modalities. -/
lemma depth_expand (φ : Formula) : φ.expand.depth = φ.depth := by
  induction φ with
  | top | bot | atom => rfl
  | neg φ ih | modal m action φ ih => simp only [expand, depth, ih]
  | binary c φ ψ ihl ihr =>
    cases c <;> simp only [expand, joinPlain, orNot, depth, ihl, ihr]
    omega

end Formula

namespace FormulaStore

/-! ## Running an interning computation -/

section Run

variable {α β : Type} {s : FormulaStore}

/-- A computation goes on in the store that its first part leaves. -/
lemma run_bind_of_run_eq {c : Interning α} {f : α → Interning β} {a : α} {s' : FormulaStore}
    (h : c.run s = (some a, s')) : (c >>= f).run s = (f a).run s' := by
  rw [OptionT.run_bind]
  simp only [Option.elimM, bind, StateT.bind, h]
  rfl

lemma run_interned (n : Node) : (interned n).run s = (some (s.intern n).1, (s.intern n).2) := rfl

lemma run_nodeIn {id : FormulaId} {n : Node} (hn : s.node? id = some n) :
    (nodeIn (some id)).run s = (some (id, n), s) := by
  unfold nodeIn
  have hget : (get : Interning FormulaStore).run s = (some s, s) := rfl
  rw [run_bind_of_run_eq hget, hn]
  rfl

/-- Two numbers under a connective, which is spelled out if it is material. -/
def internPlain (c : Connective) (a b : FormulaId) : Interning FormulaId :=
  match c with
  | .implies => materialImplication a b
  | .iff => do
    let forth ← materialImplication a b
    let back ← materialImplication b a
    interned (.binary .and forth back)
  | c => interned (.binary c a b)

variable {id : FormulaId} {n : Node} {fuel : Nat}

/-- A constant or an atom is left as it is. -/
lemma run_eliminateWithin_leaf (hn : s.node? id = some n) (hk : n.kind.arity = 0) :
    (eliminateWithin (fuel + 1) (some id)).run s = (some id, s) := by
  rw [eliminateWithin, run_bind_of_run_eq (run_nodeIn hn)]
  obtain ⟨k, l, r⟩ := n
  cases k <;> first | rfl | cases hk

/-- Under a negation or a modality, the operand is expanded. -/
lemma run_eliminateWithin_unary (hn : s.node? id = some n) (hk : n.kind.arity = 1) :
    (eliminateWithin (fuel + 1) (some id)).run s =
      (eliminateWithin fuel n.left >>= fun a => interned (.unary n.kind a)).run s := by
  rw [eliminateWithin, run_bind_of_run_eq (run_nodeIn hn)]
  obtain ⟨k, l, r⟩ := n
  cases k <;> first | rfl | cases hk

/-- Under a connective, both operands are expanded before they are joined. -/
lemma run_eliminateWithin_binary (hn : s.node? id = some n) {c : Connective}
    (hk : n.kind = .binary c) :
    (eliminateWithin (fuel + 1) (some id)).run s =
      (eliminateWithin fuel n.left >>= fun a => eliminateWithin fuel n.right >>= fun b =>
        internPlain c a b).run s := by
  rw [eliminateWithin, run_bind_of_run_eq (run_nodeIn hn)]
  obtain ⟨k, l, r⟩ := n
  cases hk
  rfl

end Run

/-! ## The expansion of a stored formula -/

/-- Run on a store, a computation makes a number that stands for a formula.  It only interns nodes
with roots that are allowed. -/
def Makes (K : NodeKind → Prop) (c : Interning FormulaId) (s : FormulaStore) (φ : Formula) : Prop :=
  ∃ e s', c.run s = (some e, s') ∧ s.Grows K s' ∧ s'.Denotes e φ

section Makes

variable {K : NodeKind → Prop} {s s' : FormulaStore} {c : Interning FormulaId}
  {f : FormulaId → Interning FormulaId} {φ ψ : Formula} {a b id : FormulaId}

/-- A computation that goes on with a formula may rely on the store that holds it. -/
lemma Makes.bind (h : Makes K c s φ) (hs : s.Exact)
    (hf : ∀ {a s'}, s.Grows K s' → s'.Exact → s'.Denotes a φ → Makes K (f a) s' ψ) :
    Makes K (c >>= f) s ψ := by
  obtain ⟨a, s', hrun, hgrows, ha⟩ := h
  obtain ⟨e, s'', hrun', hgrows', he⟩ := hf hgrows (hgrows.exact hs) ha
  exact ⟨e, s'', (run_bind_of_run_eq hrun).trans hrun', hgrows.trans hgrows', he⟩

lemma makes_neg (hs : s.Exact) (hK : K .neg) (ha : s.Denotes a φ) :
    Makes K (interned (.unary .neg a)) s (.neg φ) :=
  ⟨_, _, run_interned _, Grows.refl.intern (.unary rfl ha.lt_size) hK,
    .neg (hs.node?_intern _) rfl rfl (ha.mono (extends_intern _ _))⟩

lemma makes_modal (hs : s.Exact) {m : Modality} {action : Text} (hK : K (.modal m action))
    (ha : s.Denotes a φ) :
    Makes K (interned (.unary (.modal m action) a)) s (.modal m action φ) :=
  ⟨_, _, run_interned _, Grows.refl.intern (.unary rfl ha.lt_size) hK,
    .modal (hs.node?_intern _) rfl rfl (ha.mono (extends_intern _ _))⟩

lemma makes_binary (hs : s.Exact) {c : Connective} (hK : K (.binary c)) (ha : s.Denotes a φ)
    (hb : s.Denotes b ψ) : Makes K (interned (.binary c a b)) s (.binary c φ ψ) :=
  ⟨_, _, run_interned _, Grows.refl.intern (.binary ha.lt_size hb.lt_size) hK,
    .binary (hs.node?_intern _) rfl rfl rfl (ha.mono (extends_intern _ _))
      (hb.mono (extends_intern _ _))⟩

/-- Of two numbers, the disjunction that their material implication stands for is made. -/
lemma makes_materialImplication (hs : s.Exact) (hneg : K .neg) (hor : K (.binary .or))
    (ha : s.Denotes a φ) (hb : s.Denotes b ψ) :
    Makes K (materialImplication a b) s (Formula.orNot φ ψ) :=
  (makes_neg hs hneg ha).bind hs fun hgrows hs' hna =>
    makes_binary hs' hor hna (hb.mono hgrows.extends)

lemma makes_internPlain (hs : s.Exact) (hneg : K .neg) (hor : K (.binary .or))
    (hand : K (.binary .and)) {c : Connective} (hc : K (.binary c)) (ha : s.Denotes a φ)
    (hb : s.Denotes b ψ) : Makes K (internPlain c a b) s (Formula.joinPlain c φ ψ) := by
  cases c with
  | implies => exact makes_materialImplication hs hneg hor ha hb
  | iff =>
    refine (makes_materialImplication hs hneg hor ha hb).bind hs fun hgrows hs' hforth => ?_
    have ha' := ha.mono hgrows.extends
    have hb' := hb.mono hgrows.extends
    refine (makes_materialImplication hs' hneg hor hb' ha').bind hs' fun hgrows' hs'' hback => ?_
    exact makes_binary hs'' hand (hforth.mono hgrows'.extends) hback
  | and | or | resImplies => exact makes_binary hs hc ha hb

/-- Expanding a stored formula makes its expansion, within any bound that covers the formula. -/
theorem makes_eliminateWithin (hneg : K .neg) (hor : K (.binary .or)) (hand : K (.binary .and))
    (hs : s.Exact) (hφ : s.Denotes id φ) (hK : φ.Uses K) {fuel : Nat} (hf : φ.height ≤ fuel) :
    Makes K (eliminateWithin fuel (some id)) s φ.expand := by
  induction φ generalizing s id fuel with
  | top | bot | atom =>
    obtain ⟨k, rfl⟩ := Formula.exists_fuel_eq_succ hf
    refine ⟨id, s, ?_, .refl, hφ⟩
    cases hφ with
    | _ hn hk => exact run_eliminateWithin_leaf hn (by rw [hk]; rfl)
  | neg φ ih =>
    obtain ⟨k, rfl⟩ := Formula.exists_fuel_eq_succ hf
    simp only [Formula.height, Nat.add_le_add_iff_right] at hf
    cases hφ with
    | neg hn hk hl ha =>
      rw [Makes, run_eliminateWithin_unary hn (by rw [hk]; rfl), hl, hk]
      exact (ih hs ha (Formula.uses_neg.mp hK).2 hf).bind hs fun _ hs' ha' => makes_neg hs' hneg ha'
  | modal m action φ ih =>
    obtain ⟨k, rfl⟩ := Formula.exists_fuel_eq_succ hf
    simp only [Formula.height, Nat.add_le_add_iff_right] at hf
    obtain ⟨hm, hφK⟩ := Formula.uses_modal.mp hK
    cases hφ with
    | modal hn hk hl ha =>
      rw [Makes, run_eliminateWithin_unary hn (by rw [hk]; rfl), hl, hk]
      exact (ih hs ha hφK hf).bind hs fun _ hs' ha' => makes_modal hs' hm ha'
  | binary c φ ψ ihl ihr =>
    obtain ⟨k, rfl⟩ := Formula.exists_fuel_eq_succ hf
    simp only [Formula.height, Nat.add_le_add_iff_right, Nat.max_le] at hf
    obtain ⟨hc, hφK, hψK⟩ := Formula.uses_binary.mp hK
    cases hφ with
    | binary hn hk hl hr ha hb =>
      rw [Makes, run_eliminateWithin_binary hn hk, hl, hr]
      refine (ihl hs ha hφK hf.1).bind hs fun hgrows hs' ha' => ?_
      -- the right operand is looked up in the store that the left one has left
      refine (ihr hs' (hb.mono hgrows.extends) hψK hf.2).bind hs' fun hgrows' hs'' hb' => ?_
      exact makes_internPlain hs'' hneg hor hand hc (ha'.mono hgrows'.extends) hb'

/-- The bound of an expansion covers every formula of the store. -/
lemma Denotes.height_le_expansionBound (hφ : s.Denotes id φ) : φ.height ≤ s.expansionBound := by
  have hle : φ.height ≤ s.size := hφ.height_le_size
  unfold expansionBound
  omega

/-- Eliminating the material connectives makes the expansion of a stored formula. -/
theorem Exact.makes_eliminateMaterial (hneg : K .neg) (hor : K (.binary .or))
    (hand : K (.binary .and)) (hs : s.Exact) (hφ : s.Denotes id φ) (hK : φ.Uses K) :
    ∃ e s', s.eliminateMaterial id = (some e, s') ∧ s.Grows K s' ∧ s'.Denotes e φ.expand :=
  makes_eliminateWithin hneg hor hand hs hφ hK hφ.height_le_expansionBound

end Makes

/-! ## Expansions that are there already -/

/-- The operands of a spelled out connective are formulas of the store. -/
lemma Denotes.exists_operands {s : FormulaStore} {c : Connective} {φ ψ : Formula} {e : FormulaId}
    (h : s.Denotes e (Formula.joinPlain c φ ψ)) : ∃ a b, s.Denotes a φ ∧ s.Denotes b ψ := by
  have hor : ∀ {e : FormulaId}, s.Denotes e (Formula.orNot φ ψ) →
      ∃ a b, s.Denotes a φ ∧ s.Denotes b ψ := by
    intro e h
    cases h with
    | binary _ _ _ _ hn hb =>
      cases hn with
      | neg _ _ _ ha => exact ⟨_, _, ha, hb⟩
  cases c with
  | implies => exact hor h
  | iff =>
    cases h with
    | binary _ _ _ _ hforth _ => exact hor hforth
  | and | or | resImplies =>
    cases h with
    | binary _ _ _ _ ha hb => exact ⟨_, _, ha, hb⟩

namespace Made

variable {K : NodeKind → Prop} {s : FormulaStore} {φ ψ : Formula} {a b e id : FormulaId}

lemma run_interned_neg (hs : s.Made K) (ha : s.Denotes a φ) (he : s.Denotes e (.neg φ)) :
    (interned (.unary .neg a)).run s = (some e, s) := by
  have hadd := hs.add_eq_of_denotes he
  rw [add, hs.add_eq_of_denotes ha] at hadd
  dsimp only at hadd
  rw [run_interned, hadd]

lemma run_interned_modal (hs : s.Made K) {m : Modality} {action : Text} (ha : s.Denotes a φ)
    (he : s.Denotes e (.modal m action φ)) :
    (interned (.unary (.modal m action) a)).run s = (some e, s) := by
  have hadd := hs.add_eq_of_denotes he
  rw [add, hs.add_eq_of_denotes ha] at hadd
  dsimp only at hadd
  rw [run_interned, hadd]

lemma run_interned_binary (hs : s.Made K) {c : Connective} (ha : s.Denotes a φ)
    (hb : s.Denotes b ψ) (he : s.Denotes e (.binary c φ ψ)) :
    (interned (.binary c a b)).run s = (some e, s) := by
  have hadd := hs.add_eq_of_denotes he
  rw [add, hs.add_eq_of_denotes ha] at hadd
  dsimp only at hadd
  rw [hs.add_eq_of_denotes hb] at hadd
  rw [run_interned, hadd]

lemma run_materialImplication (hs : s.Made K) (ha : s.Denotes a φ) (hb : s.Denotes b ψ)
    (he : s.Denotes e (Formula.orNot φ ψ)) : (materialImplication a b).run s = (some e, s) := by
  cases he with
  | binary hn hk hl hr hna hb' =>
    rw [materialImplication, run_bind_of_run_eq (hs.run_interned_neg ha hna)]
    exact hs.run_interned_binary hna hb (.binary hn hk hl hr hna hb')

/-- A spelled out connective that the store holds is found. -/
lemma run_internPlain (hs : s.Made K) {c : Connective} (ha : s.Denotes a φ) (hb : s.Denotes b ψ)
    (he : s.Denotes e (Formula.joinPlain c φ ψ)) : (internPlain c a b).run s = (some e, s) := by
  cases c with
  | implies => exact hs.run_materialImplication ha hb he
  | iff =>
    cases he with
    | binary hn hk hl hr hforth hback =>
      rw [internPlain, run_bind_of_run_eq (hs.run_materialImplication ha hb hforth),
        run_bind_of_run_eq (hs.run_materialImplication hb ha hback)]
      exact hs.run_interned_binary hforth hback (.binary hn hk hl hr hforth hback)
  | and | or | resImplies => exact hs.run_interned_binary ha hb he

/-- If the expansion of a formula is there, expanding the formula finds it and interns nothing. -/
theorem eliminateWithin_of_expand (hs : s.Made K) (hφ : s.Denotes id φ)
    (he : s.Denotes e φ.expand) {fuel : Nat} (hf : φ.height ≤ fuel) :
    (eliminateWithin fuel (some id)).run s = (some e, s) := by
  induction φ generalizing id e fuel with
  | top | bot | atom =>
    obtain ⟨k, rfl⟩ := Formula.exists_fuel_eq_succ hf
    obtain rfl : id = e := hs.denotes_inj hφ he
    cases hφ with
    | _ hn hk => exact run_eliminateWithin_leaf hn (by rw [hk]; rfl)
  | neg φ ih =>
    obtain ⟨k, rfl⟩ := Formula.exists_fuel_eq_succ hf
    simp only [Formula.height, Nat.add_le_add_iff_right] at hf
    cases hφ with
    | neg hn hk hl ha =>
      cases he with
      | neg hn' hk' hl' ha' =>
        rw [run_eliminateWithin_unary hn (by rw [hk]; rfl), hl, hk,
          run_bind_of_run_eq (ih ha ha' hf)]
        exact hs.run_interned_neg ha' (.neg hn' hk' hl' ha')
  | modal m action φ ih =>
    obtain ⟨k, rfl⟩ := Formula.exists_fuel_eq_succ hf
    simp only [Formula.height, Nat.add_le_add_iff_right] at hf
    cases hφ with
    | modal hn hk hl ha =>
      cases he with
      | modal hn' hk' hl' ha' =>
        rw [run_eliminateWithin_unary hn (by rw [hk]; rfl), hl, hk,
          run_bind_of_run_eq (ih ha ha' hf)]
        exact hs.run_interned_modal ha' (.modal hn' hk' hl' ha')
  | binary c φ ψ ihl ihr =>
    obtain ⟨k, rfl⟩ := Formula.exists_fuel_eq_succ hf
    simp only [Formula.height, Nat.add_le_add_iff_right, Nat.max_le] at hf
    cases hφ with
    | binary hn hk hl hr ha hb =>
      -- the expanded operands are below the expansion, whatever connective joins them there
      obtain ⟨a', b', ha', hb'⟩ := Denotes.exists_operands he
      rw [run_eliminateWithin_binary hn hk, hl, hr, run_bind_of_run_eq (ihl ha ha' hf.1),
        run_bind_of_run_eq (ihr hb hb' hf.2)]
      exact hs.run_internPlain ha' hb' he

/-- Eliminating again what was eliminated finds the same number and interns nothing. -/
theorem eliminateMaterial_of_expand (hs : s.Made K) (hφ : s.Denotes id φ)
    (he : s.Denotes e φ.expand) : s.eliminateMaterial id = (some e, s) :=
  hs.eliminateWithin_of_expand hφ he hφ.height_le_expansionBound

/-- A formula without material connectives keeps its number, and nothing is interned. -/
theorem eliminateMaterial_of_plain (hs : s.Made K) (hφ : s.Denotes id φ)
    (hplain : φ.Uses NodeKind.Plain) : s.eliminateMaterial id = (some id, s) :=
  hs.eliminateMaterial_of_expand hφ ((Formula.expand_of_plain hplain).symm ▸ hφ)

end Made

end FormulaStore

end TwistLogic
