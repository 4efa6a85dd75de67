import TwistLogic.Proofs.Formula.Interning

/-!
# Equal formulas have equal numbers

Interning tells nodes apart by all their slots, also by those that the root does not use, so a built
store may hold one formula under several numbers.  `FormulaStore.Made` leaves such stores out: its
stores are filled with nodes whose slots hold their children and nothing else.  In them every number
stands for one formula and every formula has at most one number (`Made.denotes_inj`), and adding a
formula that is there already finds its number and changes nothing (`Made.add_eq_of_denotes`).

The roots of the nodes may be restricted to those with a property `K`, which then holds of every
root in every formula of the store (`Made.uses`).
-/

namespace TwistLogic

/-! ## Nodes that fit -/

namespace Node.Fits

variable {n : Node} {bound : Nat}

lemma eq_leaf (h : n.Fits bound) (hk : n.kind.arity = 0) : n = .leaf n.kind := by
  cases h with
  | leaf => rfl
  | unary hk' => exact absurd (hk.symm.trans hk') (by decide)
  | binary => cases hk

lemma eq_unary (h : n.Fits bound) (hk : n.kind.arity = 1) {a : FormulaId} (ha : n.left = some a) :
    n = .unary n.kind a := by
  cases h with
  | leaf hk' => exact absurd (hk.symm.trans hk') (by decide)
  | unary =>
    cases ha
    rfl
  | binary => cases hk

end Node.Fits

lemma Node.eq_binary {n : Node} {c : Connective} {a b : FormulaId} (hk : n.kind = .binary c)
    (ha : n.left = some a) (hb : n.right = some b) : n = .binary c a b := by
  cases n
  cases hk
  cases ha
  cases hb
  rfl

namespace FormulaStore

/-! ## Stores that hold only certain formulas -/

/-- The stores that hold the two constants and formulas whose roots have a property. -/
def Made (K : NodeKind → Prop) (s : FormulaStore) : Prop := Grows K .initial s

/-- A stored node is found again. -/
lemma Exact.intern_eq_of_node? {s : FormulaStore} (hs : s.Exact) {n : Node} {id : FormulaId}
    (hn : s.node? id = some n) : s.intern n = (id, s) :=
  intern_of_some ((hs n id).mpr hn)

namespace Made

variable {K : NodeKind → Prop} {s : FormulaStore} {n : Node} {id id' : FormulaId} {φ : Formula}

lemma built (h : s.Made K) : s.Built := Grows.built h .initial

lemma exact (h : s.Made K) : s.Exact := h.built.reachable.exact

lemma grows {s' : FormulaStore} (h : s.Made K) (hs : s.Grows K s') : s'.Made K :=
  Grows.trans h hs

/-- Every node fits below its own number and has a root that is allowed. -/
lemma fits_and_allowed (htop : K .top) (hbot : K .bot) (h : s.Made K) (hn : s.node? id = some n) :
    n.Fits id ∧ K n.kind := by
  have hstep : ∀ {s : FormulaStore} {n' : Node}, n'.Fits s.size → K n'.kind →
      (∀ {id n}, s.node? id = some n → n.Fits id ∧ K n.kind) →
      ∀ {id n}, (s.intern n').2.node? id = some n → n.Fits id ∧ K n.kind := by
    intro s n' hfits hk hs id n hn
    rcases node?_intern hn with hn | ⟨rfl, rfl⟩
    · exact hs hn
    · exact ⟨hfits, hk⟩
  induction h generalizing id n with
  | refl =>
    refine hstep (.leaf rfl) hbot (hstep (.leaf rfl) htop ?_) hn
    intro id n hn
    simp [node?] at hn
  | intern _ hfits hk ih => exact hstep hfits hk ih hn

/-- The formulas of the store have no other roots than those allowed. -/
theorem uses (htop : K .top) (hbot : K .bot) (h : s.Made K) (hφ : s.Denotes id φ) : φ.Uses K := by
  have hroot : ∀ {id : FormulaId} {n : Node} {k : NodeKind}, s.node? id = some n → n.kind = k →
      K k := fun hn hk => hk ▸ (h.fits_and_allowed htop hbot hn).2
  induction hφ with
  | top hn hk => exact Formula.uses_top.mpr (hroot hn hk)
  | bot hn hk => exact Formula.uses_bot.mpr (hroot hn hk)
  | atom hn hk => exact Formula.uses_atom.mpr (hroot hn hk)
  | neg hn hk _ _ ih => exact Formula.uses_neg.mpr ⟨hroot hn hk, ih⟩
  | modal hn hk _ _ ih => exact Formula.uses_modal.mpr ⟨hroot hn hk, ih⟩
  | binary hn hk _ _ _ _ ihl ihr => exact Formula.uses_binary.mpr ⟨hroot hn hk, ihl, ihr⟩

/-! ### Interning what is there -/

lemma fits (h : s.Made K) (hn : s.node? id = some n) : n.Fits id :=
  (fits_and_allowed (K := fun _ => True) trivial trivial (h.mono fun _ _ => trivial) hn).1

/-- A leaf that is interned again is found. -/
lemma intern_leaf (h : s.Made K) (hn : s.node? id = some n) (hk : n.kind.arity = 0) :
    s.intern (.leaf n.kind) = (id, s) := by
  rw [← (h.fits hn).eq_leaf hk]
  exact h.exact.intern_eq_of_node? hn

/-- A root that is interned again over the same operand is found. -/
lemma intern_unary (h : s.Made K) (hn : s.node? id = some n) (hk : n.kind.arity = 1)
    {a : FormulaId} (hl : n.left = some a) : s.intern (.unary n.kind a) = (id, s) := by
  rw [← (h.fits hn).eq_unary hk hl]
  exact h.exact.intern_eq_of_node? hn

/-- A connective that is interned again over the same operands is found. -/
lemma intern_binary (h : s.Made K) (hn : s.node? id = some n) {c : Connective}
    (hk : n.kind = .binary c) {a b : FormulaId} (hl : n.left = some a) (hr : n.right = some b) :
    s.intern (.binary c a b) = (id, s) := by
  rw [← Node.eq_binary hk hl hr]
  exact h.exact.intern_eq_of_node? hn

/-- Adding a formula that the store holds finds its number and changes nothing. -/
theorem add_eq_of_denotes (h : s.Made K) (hφ : s.Denotes id φ) : s.add φ = (id, s) := by
  induction hφ with
  | top hn hk | bot hn hk | atom hn hk =>
    rw [add, ← hk]
    exact h.intern_leaf hn (by rw [hk]; rfl)
  | neg hn hk hl _ ih | modal hn hk hl _ ih =>
    rw [add, ih]
    dsimp only
    rw [← hk]
    exact h.intern_unary hn (by rw [hk]; rfl) hl
  | binary hn hk hl hr _ _ ihl ihr =>
    rw [add, ihl]
    dsimp only
    rw [ihr]
    exact h.intern_binary hn hk hl hr

/-- Every formula has at most one number. -/
theorem denotes_inj (h : s.Made K) (hφ : s.Denotes id φ) (hφ' : s.Denotes id' φ) : id = id' := by
  have heq : (id, s) = (id', s) := (h.add_eq_of_denotes hφ).symm.trans (h.add_eq_of_denotes hφ')
  exact congrArg Prod.fst heq

end Made

end FormulaStore

end TwistLogic
