/-!
# Square tables

A `Table` holds one value for every pair of element numbers.  `Table.ofFn` tabulates a function and
`Table.get` reads a cell; inside the table the two are inverse (`Table.get_ofFn`), and
`Table.set` changes the one cell that it names (`Table.get?_set`, `Table.set_ofFn`).
-/

namespace TwistLogic

/-- The number of an element of a finite algebra.  It has 32 bits if there are at most 2^32
elements. -/
abbrev ElementId := Nat

/-- The values of a function of two element numbers, row by row. -/
structure Table (α : Type) where
  rows : Array (Array α)
  deriving DecidableEq

namespace Table

variable {α : Type}

/-- The table of a function on the numbers below `n`. -/
def ofFn (n : Nat) (f : ElementId → ElementId → α) : Table α :=
  { rows := Array.ofFn fun a : Fin n => Array.ofFn fun b : Fin n => f a b }

/-- The cell in row `a` and column `b`, if there is one. -/
def get? (t : Table α) (a b : ElementId) : Option α := t.rows[a]?.bind (·[b]?)

/-- The cell in row `a` and column `b`; outside the table, the default value. -/
def get [Inhabited α] (t : Table α) (a b : ElementId) : α := (t.rows.getD a #[]).getD b default

/-- The table with one cell changed; a cell outside the table changes nothing. -/
def set (t : Table α) (a b : ElementId) (v : α) : Table α :=
  { rows := t.rows.modify a (·.setIfInBounds b v) }

theorem get_eq [Inhabited α] (t : Table α) (a b : ElementId) :
    t.get a b = (t.get? a b).getD default := by
  unfold get get?
  cases h : t.rows[a]? <;> simp [Array.getD_eq_getD_getElem?, h]

theorem get?_ofFn (n : Nat) (f : ElementId → ElementId → α) (a b : ElementId) :
    (ofFn n f).get? a b = if a < n ∧ b < n then some (f a b) else none := by
  unfold ofFn get?
  by_cases ha : a < n <;> by_cases hb : b < n <;> simp [ha, hb]

@[simp] theorem get_ofFn [Inhabited α] {n : Nat} (f : ElementId → ElementId → α)
    {a b : ElementId} (ha : a < n) (hb : b < n) : (ofFn n f).get a b = f a b := by
  simp [get_eq, get?_ofFn, ha, hb]

theorem get?_set (t : Table α) (a b c d : ElementId) (v : α) :
    (t.set a b v).get? c d = if a = c ∧ b = d then (t.get? c d).map fun _ => v else t.get? c d := by
  unfold set get?
  by_cases ha : a = c
  · subst ha
    cases hr : t.rows[a]? with
    | none => simp [Array.getElem?_modify, hr]
    | some row =>
      by_cases hb : b = d
      · subst hb
        by_cases hlt : b < row.size <;> simp [Array.getElem?_modify, hr, hlt]
      · simp [Array.getElem?_modify, hr, hb]
  · simp [Array.getElem?_modify, ha]

theorem ofFn_congr {n : Nat} {f g : ElementId → ElementId → α}
    (h : ∀ a < n, ∀ b < n, f a b = g a b) : ofFn n f = ofFn n g := by
  have hrows : ∀ (a : Fin n) (b : Fin n), f a b = g a b := fun a b => h a a.isLt b b.isLt
  simp only [ofFn, hrows]

/-- Setting a cell changes the tabulated function in one place. -/
theorem set_ofFn {n : Nat} {f : ElementId → ElementId → α} (a b : ElementId) (v : α) :
    (ofFn n f).set a b v = ofFn n fun c d => if a = c ∧ b = d then v else f c d := by
  refine congrArg Table.mk (Array.ext (by simp [ofFn]) fun c hc hc' => ?_)
  simp only [ofFn, Array.getElem_modify, Array.getElem_ofFn]
  by_cases hac : a = c
  · refine Array.ext (by simp [hac]) fun d hd hd' => ?_
    simp only [hac, if_true, true_and]
    rw [Array.getElem_setIfInBounds (by simpa using hd'), Array.getElem_ofFn, Array.getElem_ofFn]
  · simp [hac]

end Table

end TwistLogic
