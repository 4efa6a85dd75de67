import TwistLogic.Proofs.Algebra.Lattice

/-!
# The loops that build a lattice

`FiniteLattice.build` tells which tables a lattice has, cell by cell.  In memory they are filled one
cell after the other (`FiniteLattice.buildByLoops`): names and pairs of the order are entered as
they are listed, the order is closed in place by three nested loops, and the loops over the bounds
run through an element and the elements from it on, so that every bound is written in two places.

A loop turns the table of a function into the table of another, and has one lemma that names this
function.  While the steps through a pivot are added, the row and the column of the pivot do not
change, so it makes no difference that cells are read after others were written
(`fillRows_eq_throughPivot`).  The bounds of two elements do not depend on their order, so half of
the tables tells the rest (`enterBounds_partialBounds`).  Hence the loops make what is told, and
they end with the fault that is told (`FiniteLattice.buildByLoops_eq_build`).
-/

namespace TwistLogic

variable {n k : Nat}

/-! ## Closing a relation in place -/

/-- A row takes over, cell by cell, what another row has. -/
def fillRow (n : Nat) (k i : ElementId) (r : Table Bool) : Table Bool :=
  (List.range n).foldl (fun r j => if r.get k j then r.set i j true else r) r

/-- Every row with the pivot in it takes over the row of the pivot. -/
def fillRows (n : Nat) (r : Table Bool) (k : ElementId) : Table Bool :=
  (List.range n).foldl (fun r i => if r.get i k then fillRow n k i r else r) r

/-- All numbers become pivots, one after the other. -/
def closeInPlace (n : Nat) (r : Table Bool) : Table Bool := (List.range n).foldl (fillRows n) r

/-- The table of an order before pairs are entered. -/
def diagonal (n : Nat) : Table Bool :=
  (List.range n).foldl (fun r i => r.set i i true) (.ofFn n fun _ _ => false)

variable {f : ElementId → ElementId → Bool}

/-- What is entered holds in addition to what held before. -/
lemma foldl_set_ofFn (pairs : List (ElementId × ElementId)) :
    pairs.foldl (fun r p => r.set p.1 p.2 true) (Table.ofFn n f) =
      .ofFn n fun a b => f a b || pairs.contains (a, b) := by
  induction pairs generalizing f with
  | nil => simp
  | cons p pairs ih =>
    rw [List.foldl_cons, Table.set_ofFn, ih]
    refine Table.ofFn_congr fun a _ b _ => ?_
    rw [List.contains_cons]
    by_cases h : p.1 = a ∧ p.2 = b
    · obtain ⟨rfl, rfl⟩ := h
      simp
    · have hne : ((a, b) == p) = false := by
        rw [beq_eq_false_iff_ne]
        rintro rfl
        exact h ⟨rfl, rfl⟩
      rw [if_neg h, hne, Bool.false_or]

/-- If the pivot is in a row, the loop over the columns adds the row of the pivot to it. -/
lemma foldl_columns (hk : k < n) {i : ElementId} {js : List ElementId} (hjs : ∀ j ∈ js, j < n) :
    js.foldl (fun r j => if r.get k j then r.set i j true else r) (Table.ofFn n f) =
      .ofFn n fun a b => f a b || (decide (a = i ∧ b ∈ js) && f k b) := by
  induction js generalizing f with
  | nil => simp
  | cons j js ih =>
    obtain ⟨hj, hjs⟩ := List.forall_mem_cons.mp hjs
    have hkj : (Table.ofFn n f).get k j = f k j := Table.get_ofFn f hk hj
    rw [List.foldl_cons, hkj]
    cases hcell : f k j with
    | true =>
      rw [if_pos rfl, Table.set_ofFn, ih hjs]
      refine Table.ofFn_congr fun a _ b _ => ?_
      by_cases hjb : j = b
      · subst hjb
        by_cases hia : i = a <;> simp [hia, hcell, eq_comm]
      · simp [hjb, Ne.symm hjb]
    | false =>
      rw [if_neg Bool.false_ne_true, ih hjs]
      refine Table.ofFn_congr fun a _ b _ => ?_
      by_cases hjb : b = j <;> simp [hjb, hcell]

/-- The loop over the rows adds the row of the pivot to every row that has the pivot.  The column
and the row of the pivot are read as they were before the loop. -/
lemma foldl_rows (hk : k < n) {is : List ElementId} (his : ∀ i ∈ is, i < n) :
    is.foldl (fun r i => if r.get i k then fillRow n k i r else r) (Table.ofFn n f) =
      .ofFn n fun a b => f a b || (decide (a ∈ is) && f a k && f k b) := by
  induction is generalizing f with
  | nil => simp
  | cons i is ih =>
    obtain ⟨hi, his⟩ := List.forall_mem_cons.mp his
    have hik : (Table.ofFn n f).get i k = f i k := Table.get_ofFn f hi hk
    rw [List.foldl_cons, hik]
    cases hcell : f i k with
    | true =>
      rw [if_pos rfl, fillRow, foldl_columns hk fun j hj => List.mem_range.mp hj, ih his]
      refine Table.ofFn_congr fun a _ b hb => ?_
      have hcolumn : (f a k || (decide (a = i) && f k k)) = f a k := by
        by_cases hia : a = i <;> simp [hia, hcell]
      have hrow : (f k b || (decide (k = i) && f k b)) = f k b := by cases f k b <;> simp
      simp only [List.mem_range, hb, hk, and_true, hcolumn, hrow, List.mem_cons]
      by_cases hia : a = i
      · cases f k b <;> simp [hia, hcell]
      · simp [hia]
    | false =>
      rw [if_neg Bool.false_ne_true, ih his]
      refine Table.ofFn_congr fun a _ b _ => ?_
      by_cases hia : a = i <;> simp [hia, hcell]

/-- In place, the loops add the steps through a pivot at once. -/
lemma fillRows_eq_throughPivot (hk : k < n) :
    fillRows n (Table.ofFn n f) k = throughPivot n (.ofFn n f) k := by
  rw [fillRows, foldl_rows hk fun i hi => List.mem_range.mp hi, throughPivot]
  refine Table.ofFn_congr fun a ha b hb => ?_
  simp only [List.mem_range, ha, decide_true, Bool.true_and, Table.get_ofFn, hb, hk]

lemma foldl_fillRows {ks : List ElementId} (hks : ∀ k ∈ ks, k < n) :
    ks.foldl (fillRows n) (Table.ofFn n f) = ks.foldl (throughPivot n) (.ofFn n f) := by
  induction ks generalizing f with
  | nil => rfl
  | cons k ks ih =>
    obtain ⟨hk, hks⟩ := List.forall_mem_cons.mp hks
    rw [List.foldl_cons, List.foldl_cons, fillRows_eq_throughPivot hk]
    exact ih hks

lemma diagonal_eq (n : Nat) : diagonal n = .ofFn n fun a b => a == b := by
  have hset := foldl_set_ofFn (n := n) (f := fun _ _ => false) ((List.range n).map fun i => (i, i))
  rw [List.foldl_map] at hset
  refine hset.trans (Table.ofFn_congr fun a ha b _ => ?_)
  rw [Bool.false_or, Bool.eq_iff_iff, List.contains_iff_mem, List.mem_map, beq_iff_eq]
  constructor
  · rintro ⟨i, -, hi⟩
    exact (Prod.mk.inj hi).1.symm.trans (Prod.mk.inj hi).2
  · rintro rfl
    exact ⟨a, List.mem_range.mpr ha, rfl⟩

/-- Pairs that were entered one by one are closed in place to what they generate. -/
theorem closeInPlace_eq_closure (n : Nat) (pairs : List (ElementId × ElementId)) :
    closeInPlace n (pairs.foldl (fun r p => r.set p.1 p.2 true) (diagonal n)) =
      closure n pairs := by
  rw [diagonal_eq, foldl_set_ofFn]
  exact foldl_fillRows fun k hk => List.mem_range.mp hk

namespace FiniteLattice

/-! ## Filling the tables of bounds -/

/-- Enters the bounds of two elements, in both orders. -/
def enterBounds (names : Array Text) (order : Table Bool)
    (tables : Table ElementId × Table ElementId) (a b : ElementId) :
    Except LatticeFault (Table ElementId × Table ElementId) := do
  let n := names.size
  let named (xs : List ElementId) : List Text := xs.map fun x => names.getD x []
  let lower := lowerBounds n order a b
  match greatest? order lower with
  | none => throw (.noMeet (names.getD a []) (names.getD b []) (named lower))
  | some x =>
    let upper := upperBounds n order a b
    match least? order upper with
    | none => throw (.noJoin (names.getD a []) (names.getD b []) (named upper))
    | some y => return ((tables.1.set a b x).set b a x, (tables.2.set a b y).set b a y)

/-- The tables of bounds, which are made of zeros and filled for one element and the elements from
it on. -/
def fillBounds (names : Array Text) (order : Table Bool) :
    Except LatticeFault (Table ElementId × Table ElementId) :=
  let n := names.size
  (List.range n).foldlM (fun tables a =>
    (List.range' a (n - a)).foldlM (fun tables b => enterBounds names order tables a b) tables)
    (.ofFn n fun _ _ => 0, .ofFn n fun _ _ => 0)

/-- Enters one more name. -/
def enterName (names : Array Text) (name : Text) : Except LatticeFault (Array Text) :=
  if names.contains name then .error (.duplicateElement name) else .ok (names.push name)

/-- Enters one more pair of the order. -/
def enterPair (names : Array Text) (order : Table Bool) (p : Text × Text) :
    Except LatticeFault (Table Bool) := do
  let (a, b) ← orderPair names p
  return order.set a b true

/-- The lattice with some elements, in the least order that holds of some pairs of them. -/
def buildByLoops (elements : List Text) (pairs : List (Text × Text)) :
    Except LatticeFault FiniteLattice := do
  if elements.isEmpty then throw .noElements
  let names ← elements.foldlM enterName #[]
  let n := names.size
  let order := closeInPlace n (← pairs.foldlM (enterPair names) (diagonal n))
  refuse (antisymmetryFault? names order)
  let (meets, joins) ← fillBounds names order
  let named (xs : List ElementId) : List Text := xs.map fun x => names.getD x []
  match only? (maximal n order), only? (minimal n order) with
  | none, _ => throw (.topNotUnique (named (maximal n order)))
  | some _, none => throw (.bottomNotUnique (named (minimal n order)))
  | some top, some bottom => return { names, order, top, bottom, meets, joins }

variable {names : Array Text} {order : Table Bool}

/-- The tables of bounds, filled for some pairs of elements, with zeros elsewhere. -/
def partialBounds (n : Nat) (order : Table Bool) (entered : ElementId → ElementId → Bool) :
    Table ElementId × Table ElementId :=
  (.ofFn n fun a b => if entered a b then (greatest? order (lowerBounds n order a b)).getD 0 else 0,
    .ofFn n fun a b => if entered a b then (least? order (upperBounds n order a b)).getD 0 else 0)

/-- The first bound that two elements lack. -/
def cellFault? (names : Array Text) (order : Table Bool) (a b : ElementId) : Option LatticeFault :=
  let n := names.size
  let named (xs : List ElementId) : List Text := xs.map fun x => names.getD x []
  if (greatest? order (lowerBounds n order a b)).isNone then
    some (.noMeet (names.getD a []) (names.getD b []) (named (lowerBounds n order a b)))
  else if (least? order (upperBounds n order a b)).isNone then
    some (.noJoin (names.getD a []) (names.getD b []) (named (upperBounds n order a b)))
  else none

lemma partialBounds_congr {S S' : ElementId → ElementId → Bool}
    (h : ∀ a < n, ∀ b < n, S a b = S' a b) :
    partialBounds n order S = partialBounds n order S' := by
  refine congrArg₂ Prod.mk (Table.ofFn_congr fun a ha b hb => ?_)
    (Table.ofFn_congr fun a ha b hb => ?_) <;> rw [h a ha b hb]

/-- With all pairs entered, the tables of bounds are full. -/
lemma partialBounds_true : partialBounds n order (fun _ _ => true) =
    (.ofFn n fun a b =>
        ((Table.ofFn n fun a b => greatest? order (lowerBounds n order a b)).get a b).getD 0,
      .ofFn n fun a b =>
        ((Table.ofFn n fun a b => least? order (upperBounds n order a b)).get a b).getD 0) := by
  refine congrArg₂ Prod.mk (Table.ofFn_congr fun a ha b hb => ?_)
    (Table.ofFn_congr fun a ha b hb => ?_) <;> rw [if_pos rfl, Table.get_ofFn _ ha hb]

/-- Setting a bound of two elements in both orders enters it, as it does not depend on the order. -/
lemma set_set_ofFn {m : ElementId → ElementId → ElementId} {S : ElementId → ElementId → Bool}
    {a b : ElementId} (hm : m b a = m a b) :
    ((Table.ofFn n fun c d => if S c d then m c d else 0).set a b (m a b)).set b a (m a b) =
      .ofFn n fun c d =>
        if S c d || decide (a = c ∧ b = d ∨ b = c ∧ a = d) then m c d else 0 := by
  rw [Table.set_ofFn, Table.set_ofFn]
  refine Table.ofFn_congr fun c _ d _ => ?_
  by_cases hback : b = c ∧ a = d
  · obtain ⟨rfl, rfl⟩ := hback
    simp [hm]
  · by_cases hforth : a = c ∧ b = d
    · obtain ⟨rfl, rfl⟩ := hforth
      simp
    · simp only [hback, hforth, if_false, or_self, decide_false, Bool.or_false]

/-- One step of the loops: a fault, or the bounds of two elements more. -/
lemma enterBounds_partialBounds {S : ElementId → ElementId → Bool} (a b : ElementId) :
    enterBounds names order (partialBounds names.size order S) a b = (do
      refuse (cellFault? names order a b)
      return partialBounds names.size order fun c d =>
        S c d || decide (a = c ∧ b = d ∨ b = c ∧ a = d)) := by
  have hmeet := set_set_ofFn (n := names.size) (S := S)
    (m := fun c d => (greatest? order (lowerBounds names.size order c d)).getD 0)
    (a := a) (b := b) (by simp only [BuiltFrom.lowerBounds_comm])
  have hjoin := set_set_ofFn (n := names.size) (S := S)
    (m := fun c d => (least? order (upperBounds names.size order c d)).getD 0)
    (a := a) (b := b) (by simp only [BuiltFrom.upperBounds_comm])
  unfold enterBounds cellFault?
  cases hx : greatest? order (lowerBounds names.size order a b) with
  | none => simp only [hx]; rfl
  | some x =>
    cases hy : least? order (upperBounds names.size order a b) with
    | none => simp only [hx, hy]; rfl
    | some y =>
      simp only [hx, hy, Option.getD_some] at hmeet hjoin ⊢
      simp only [partialBounds, hmeet, hjoin]
      rfl

/-- A loop whose steps look for a fault and enter bounds looks for the first fault and enters all
bounds. -/
lemma foldlM_partialBounds {β : Type} {fault : β → Option LatticeFault}
    {step : Table ElementId × Table ElementId → β →
      Except LatticeFault (Table ElementId × Table ElementId)}
    {entered : β → ElementId → ElementId → Bool} {xs : List β}
    (hstep : ∀ S, ∀ x ∈ xs, step (partialBounds n order S) x = (do
      refuse (fault x)
      return partialBounds n order fun c d => S c d || entered x c d))
    (S : ElementId → ElementId → Bool) :
    xs.foldlM step (partialBounds n order S) = (do
      refuse (xs.findSome? fault)
      return partialBounds n order fun c d => S c d || xs.any (entered · c d)) := by
  induction xs generalizing S with
  | nil =>
    simp only [List.any_nil, Bool.or_false]
    rfl
  | cons x xs ih =>
    obtain ⟨hx, hxs⟩ := List.forall_mem_cons.mp fun x hx S => hstep S x hx
    rw [List.foldlM_cons, hx, List.findSome?_cons]
    cases fault x with
    | some e => rfl
    | none =>
      simp only [List.any_cons, ← Bool.or_assoc]
      exact ih (fun S x hx => hxs x hx S) _

/-- The inner loop enters the bounds of one element with the elements from it on. -/
lemma foldlM_enterBounds (S : ElementId → ElementId → Bool) (a : ElementId) :
    (List.range' a (names.size - a)).foldlM (fun tables b => enterBounds names order tables a b)
        (partialBounds names.size order S) = (do
      refuse ((List.range' a (names.size - a)).findSome? (cellFault? names order a))
      return partialBounds names.size order fun c d =>
        S c d || (List.range' a (names.size - a)).any fun b =>
          decide (a = c ∧ b = d ∨ b = c ∧ a = d)) :=
  foldlM_partialBounds (fun _ b _ => enterBounds_partialBounds a b) S

/-- The loops end with the first fault, or all bounds are entered. -/
lemma fillBounds_eq : fillBounds names order = (do
    refuse ((List.range names.size).findSome? fun a =>
      (List.range' a (names.size - a)).findSome? (cellFault? names order a))
    return partialBounds names.size order fun _ _ => true) := by
  have hstart : (Table.ofFn names.size fun _ _ => 0, Table.ofFn names.size fun _ _ => 0) =
    partialBounds names.size order fun _ _ => false := rfl
  rw [fillBounds, hstart, foldlM_partialBounds fun S a _ => foldlM_enterBounds S a]
  refine bind_congr fun _ => congrArg pure (partialBounds_congr fun c hc d hd => ?_)
  simp only [Bool.false_or, List.any_eq_true, List.mem_range, List.mem_range'_1, decide_eq_true_iff]
  -- the smaller element leads
  rcases Nat.le_total c d with h | h
  · exact ⟨c, hc, d, ⟨h, by omega⟩, .inl ⟨rfl, rfl⟩⟩
  · exact ⟨d, hd, c, ⟨h, by omega⟩, .inr ⟨rfl, rfl⟩⟩

/-- The fault that the loops meet first. -/
lemma boundFault?_eq :
    boundFault? names order
        (.ofFn names.size fun a b => greatest? order (lowerBounds names.size order a b))
        (.ofFn names.size fun a b => least? order (upperBounds names.size order a b)) =
      (List.range names.size).findSome? fun a =>
        (List.range' a (names.size - a)).findSome? (cellFault? names order a) := by
  refine findSome?_congr fun a ha => findSome?_congr fun b hb => ?_
  rw [List.mem_range] at ha
  have hb : b < names.size := by
    rw [List.mem_range'_1, Nat.add_sub_cancel' (Nat.le_of_lt ha)] at hb
    exact hb.2
  simp only [Table.get_ofFn, ha, hb]
  rfl

/-! ## The whole build -/

/-- The names are entered as they are listed, up to the first that was entered before. -/
lemma foldlM_enterName {seen xs : List Text} (hseen : ∀ x, x ∈ names ↔ x ∈ seen) :
    xs.foldlM enterName names = (do
      refuse ((duplicate? seen xs).map .duplicateElement)
      return names ++ xs.toArray) := by
  induction xs generalizing names seen with
  | nil =>
    simp only [Array.append_empty]
    rfl
  | cons x xs ih =>
    rw [List.foldlM_cons, enterName, duplicate?]
    have hcontains : names.contains x = seen.contains x := by
      rw [Bool.eq_iff_iff, Array.contains_iff_mem, List.contains_iff_mem, hseen]
    rw [hcontains]
    split
    · rfl
    · have hnext : ∀ y, y ∈ names.push x ↔ y ∈ x :: seen := by
        intro y
        rw [Array.mem_push, List.mem_cons, hseen, or_comm]
      refine (ih hnext).trans (bind_congr fun _ => congrArg pure ?_)
      simp

lemma foldlM_enterPair (pairs : List (Text × Text)) :
    pairs.foldlM (enterPair names) order = (do
      let ids ← pairs.mapM (orderPair names)
      return ids.foldl (fun r p => r.set p.1 p.2 true) order) := by
  induction pairs generalizing order with
  | nil => rfl
  | cons p pairs ih =>
    rw [List.foldlM_cons, enterPair, List.mapM_cons]
    cases orderPair names p with
    | error e => rfl
    | ok q =>
      refine Eq.trans ih ?_
      cases pairs.mapM (orderPair names) <;> rfl

/-- A lattice is made by the loops as it is told, or the loops end with the fault that is told. -/
theorem buildByLoops_eq_build (elements : List Text) (pairs : List (Text × Text)) :
    buildByLoops elements pairs = build elements pairs := by
  have hnames : elements.foldlM enterName #[] = (do
      refuse ((duplicate? [] elements).map .duplicateElement)
      return #[] ++ elements.toArray) := foldlM_enterName (by simp)
  rw [Array.empty_append] at hnames
  unfold buildByLoops build
  split
  · rfl
  simp only [hnames, foldlM_enterPair, bind_assoc, pure_bind, closeInPlace_eq_closure,
    fillBounds_eq, boundFault?_eq]
  refine bind_congr fun _ => bind_congr fun ids => bind_congr fun _ => bind_congr fun _ => ?_
  exact partialBounds_true ▸ rfl

end FiniteLattice

end TwistLogic
