import TwistLogic.Proofs.Algebra.Fusion
import TwistLogic.Proofs.Algebra.Guarded

/-!
# Positions and tables of a twist structure

A structure that is `Indexed` finds its elements by their positions, one that is `NegationTabulated`
finds their negations through 32-bit positions, and the values of an operation stand in a list that
`Tabulates` it: the value at two elements is found in the row of the first and the column of the
second.

Lists, tables and negations are made by loops, which append one entry after the other (`appended`)
or write one position after the other (`writeNegation`).  A write outside the table would be a
`Breach`.  None happens, and while the loop goes on the table is `Filled` for the elements that it
has dealt with.

`tables_of_generate` puts this together for all generated structures with no more elements than
there are 32-bit numbers.
-/

namespace TwistLogic

namespace TwistStructure

variable {ts : TwistStructure} {x y : TwistElement} {n : Nat}

/-! ## Positions -/

/-- A structure finds its elements by their numbers, which count them without gaps and in
lexicographic order. -/
structure Indexed (ts : TwistStructure) : Prop where
  size_eq : ts.size = ts.base.size * ts.base.size
  mem_elements_iff : ∀ x, x ∈ ts.elements ↔ ts.contains x = true
  bijOn : Set.BijOn ts.index {x | ts.contains x = true} (Set.Iio ts.size)
  getElem?_index : ∀ x, ts.contains x = true → ts.elements[ts.index x]? = some x
  index_lt_iff : ∀ x y, ts.contains x = true → ts.contains y = true →
    (ts.index x < ts.index y ↔ x.t < y.t ∨ x.t = y.t ∧ x.f < y.f)

/-- Every generated structure is indexed, whatever its size. -/
theorem Generated.indexed (h : ts.Generated) : ts.Indexed := by
  have hlawful := h.lawful
  obtain ⟨-, -, -, -, r, -, -, hts⟩ := h
  obtain rfl := base_of_generate hts
  have hplace : ∀ x, ts.contains x = true → ts.elements[ts.index x]? = some x := by
    intro x hx
    obtain ⟨ht, hf⟩ := contains_iff.mp hx
    exact getElem?_elements hts ht hf
  constructor
  case size_eq => exact size_of_generate hts
  case mem_elements_iff =>
    exact fun x => ⟨hlawful.contains_of_mem x, fun hx => Array.mem_of_getElem? (hplace x hx)⟩
  case bijOn =>
    simp only [contains_iff, size_of_generate hts]
    exact bijOn_position ts.base.size
  case getElem?_index => exact hplace
  case index_lt_iff =>
    intro x y hx hy
    exact position_lt_position_iff (contains_iff.mp hx).2 (contains_iff.mp hy).2

/-! ## Negation -/

/-- The negation of every element is the element with its sides exchanged, and its number stands in
the table in the place of the element. -/
structure NegationTabulated (ts : TwistStructure) : Prop where
  size_negations : ts.negations.size = ts.size
  entry : ∀ x, ts.contains x = true →
    ∃ i : UInt32, ts.negations[ts.index x]? = some i ∧ i.toNat = ts.index ⟨x.f, x.t⟩
  negation_eq : ∀ x, ts.contains x = true → ts.negation x = ⟨x.f, x.t⟩

lemma size_negations {r : ResiduatedLattice} (h : generate (some r) = .ok ts) :
    ts.negations.size = r.size * r.size := by
  rw [eq_of_generate_eq_ok h, List.size_toArray, List.length_map, length_pairs]

/-- Where all positions are 32-bit numbers, the table of negation holds them unchanged. -/
theorem Generated.negationTabulated (h : ts.Generated) (hsize : ts.size ≤ UInt32.size) :
    ts.NegationTabulated := by
  have hexact := h.exact hsize
  obtain ⟨-, -, -, -, r, -, -, hts⟩ := h
  obtain rfl := base_of_generate hts
  rw [size_of_generate hts] at hsize
  constructor
  case size_negations => rw [size_negations hts, size_of_generate hts]
  case entry =>
    intro x hx
    obtain ⟨ht, hf⟩ := contains_iff.mp hx
    refine ⟨_, getElem?_negations hts ht hf, ?_⟩
    rw [UInt32.toNat_ofNat']
    exact Nat.mod_eq_of_lt (Nat.lt_of_lt_of_le (position_lt hf ht) hsize)
  case negation_eq => exact fun x hx => hexact.negation_eq hx

/-! ## Tables of operations -/

/-- Every operation leads from elements to elements. -/
lemma Lawful.contains_apply (h : ts.Lawful) (op : TwistOp) (hx : ts.contains x = true)
    (hy : ts.contains y = true) : ts.contains (ts.apply op x y) = true := by
  cases op with
  | meet => exact h.contains_meet hx hy
  | join => exact h.contains_join hx hy
  | implication => exact h.contains_implication hx hy
  | consensus => exact h.knowledgeOrder.inf_mem hx hy
  | acceptAll => exact h.knowledgeOrder.sup_mem hx hy
  | residueMeet => exact h.contains_residueMeet hx hy

/-- A list has an entry for every two elements: the value of an operation at them, in the row of the
first and the column of the second.  All entries are elements. -/
structure Tabulates (ts : TwistStructure) (op : TwistElement → TwistElement → TwistElement)
    (table : List TwistElement) : Prop where
  length_eq : table.length = ts.size * ts.size
  entry : ∀ x y, ts.contains x = true → ts.contains y = true →
    table[ts.index x * ts.size + ts.index y]? = some (op x y)
  contains : ∀ z ∈ table, ts.contains z = true

/-- The tabulated values of an operation are those that it has. -/
theorem Indexed.tabulates_materialise (h : ts.Indexed) (hlawful : ts.Lawful) (op : TwistOp) :
    ts.Tabulates (ts.apply op) (ts.materialise op) := by
  constructor
  case length_eq => simp [materialise, List.length_flatMap, size]
  case entry =>
    intro x y hx hy
    have hlist : ∀ x, ts.contains x = true → ts.elements.toList[ts.index x]? = some x :=
      fun x hx => (Array.getElem?_toList ..).trans (h.getElem?_index x hx)
    exact getElem?_flatMap_map (ts.apply op) (hlist x hx) (hlist y hy)
  case contains =>
    intro z hz
    simp only [materialise, List.mem_flatMap, List.mem_map, Array.mem_toList_iff] at hz
    obtain ⟨x, hx, y, hy, rfl⟩ := hz
    exact hlawful.contains_apply op (hlawful.contains_of_mem x hx) (hlawful.contains_of_mem y hy)

/-! ## Loops -/

/-- What two nested loops append for the members of two lists. -/
def appended {α β γ : Type} (g : α → β → γ) (xs : List α) (ys : List β) : Array γ :=
  xs.foldl (fun entries x => ys.foldl (fun entries y => entries.push (g x y)) entries) #[]

lemma appended_eq {α β γ : Type} (g : α → β → γ) (xs : List α) (ys : List β) :
    appended g xs ys = (xs.flatMap fun x => ys.map (g x)).toArray := by
  rw [appended, foldl_foldl_push, Array.empty_append]

/-- The entry that is written for a pair over `n` numbers: what 32 bits keep of the position of the
pair with its sides exchanged. -/
def swapped (n : Nat) (x : TwistElement) : UInt32 := UInt32.ofNat (position n ⟨x.f, x.t⟩)

/-- Writes the entry of a pair into the table of negation over `n` numbers, in the place that the
position of the pair names. -/
def writeNegation (n : Nat) (table : Array UInt32) (x : TwistElement) :
    Except Breach (Array UInt32) :=
  if h : position n x < table.size then .ok (table.set (position n x) (swapped n x))
  else .error (.position (position n x))

/-- The table of negation, which is made of zeros and written pair by pair. -/
def writtenNegations (n : Nat) (xs : List TwistElement) : Except Breach (Array UInt32) :=
  xs.foldlM (writeNegation n) (Array.replicate xs.length 0)

/-- The table has a place for every pair over `n` numbers, and the pairs in a list have been
written. -/
structure Filled (n : Nat) (table : Array UInt32) (xs : List TwistElement) : Prop where
  size_eq : table.size = n * n
  mem_pairs : ∀ x ∈ xs, x.t < n ∧ x.f < n
  entry : ∀ x ∈ xs, table[position n x]? = some (swapped n x)

/-- Writing one more pair leaves the entries of the others alone, as no two pairs share a place. -/
lemma Filled.write {table : Array UInt32} {xs : List TwistElement} (h : Filled n table xs)
    (hx : x.t < n ∧ x.f < n) :
    ∃ table', writeNegation n table x = .ok table' ∧ Filled n table' (x :: xs) := by
  have hlt : position n x < table.size := h.size_eq ▸ position_lt hx.1 hx.2
  have hmem : ∀ y ∈ x :: xs, y.t < n ∧ y.f < n := List.forall_mem_cons.mpr ⟨hx, h.mem_pairs⟩
  refine ⟨_, dif_pos hlt, ?_, hmem, ?_⟩
  · rw [Array.size_set, h.size_eq]
  · intro y hy
    rw [Array.getElem?_set]
    by_cases hxy : position n x = position n y
    · rw [if_pos hxy, position_injOn hx (hmem y hy) hxy]
    · rw [if_neg hxy]
      refine h.entry y ((List.mem_cons.mp hy).resolve_left ?_)
      rintro rfl
      exact hxy rfl

/-- The loop writes all pairs that it is given. -/
lemma Filled.run {table : Array UInt32} {xs ys : List TwistElement} (h : Filled n table ys)
    (hxs : ∀ x ∈ xs, x.t < n ∧ x.f < n) :
    ∃ table', xs.foldlM (writeNegation n) table = .ok table' ∧
      Filled n table' (xs.reverse ++ ys) := by
  induction xs generalizing table ys with
  | nil => exact ⟨table, rfl, h⟩
  | cons x xs ih =>
    obtain ⟨hx, hxs⟩ := List.forall_mem_cons.mp hxs
    obtain ⟨next, hwrite, hnext⟩ := h.write hx
    obtain ⟨table', hrun, hfilled⟩ := ih hnext hxs
    refine ⟨table', ?_, by simpa using hfilled⟩
    rw [List.foldlM_cons, bind_eq_ok_iff]
    exact ⟨next, hwrite, hrun⟩

/-- A table that is filled for all pairs holds nothing else. -/
lemma Filled.eq_negations {r : ResiduatedLattice} (hts : generate (some r) = .ok ts)
    {table : Array UInt32} {xs : List TwistElement} (h : Filled r.size table xs)
    (hxs : ∀ x : TwistElement, x.t < r.size ∧ x.f < r.size → x ∈ xs) : table = ts.negations := by
  refine Array.ext_getElem? fun k => ?_
  by_cases hk : k < r.size * r.size
  · obtain ⟨x, hx, rfl⟩ := exists_position_eq hk
    exact (h.entry x (hxs x hx)).trans (getElem?_negations hts hx.1 hx.2).symm
  · have hout := Nat.le_of_not_lt hk
    rw [Array.getElem?_eq_none (h.size_eq ▸ hout),
      Array.getElem?_eq_none (size_negations hts ▸ hout)]

/-- The list of elements, the table of negation and the tables of operations are what the loops
make. -/
structure MadeByLoops (ts : TwistStructure) : Prop where
  elements : appended TwistElement.mk (List.range ts.base.size) (List.range ts.base.size) =
    ts.elements
  negations : writtenNegations ts.base.size ts.elements.toList = .ok ts.negations
  materialise : ∀ op, appended (ts.apply op) ts.elements.toList ts.elements.toList =
    (ts.materialise op).toArray

/-- The loops of a generated structure end without a breach, and make what it holds. -/
theorem Generated.madeByLoops (h : ts.Generated) : ts.MadeByLoops := by
  have hmem := h.indexed.mem_elements_iff
  obtain ⟨-, -, -, -, r, -, -, hts⟩ := h
  obtain rfl := base_of_generate hts
  constructor
  case elements =>
    rw [appended_eq]
    exact (congrArg TwistStructure.elements (eq_of_generate_eq_ok hts)).symm
  case negations =>
    have hstart : Filled ts.base.size (Array.replicate ts.elements.toList.length 0) [] := by
      refine ⟨?_, nofun, nofun⟩
      rw [Array.size_replicate, Array.length_toList]
      exact size_of_generate hts
    have helements : ∀ x, x ∈ ts.elements.toList ↔ x.t < ts.base.size ∧ x.f < ts.base.size := by
      intro x
      rw [Array.mem_toList_iff, hmem, contains_iff]
    obtain ⟨table, hrun, hfilled⟩ := hstart.run fun x hx => (helements x).mp hx
    rw [writtenNegations, hrun, hfilled.eq_negations hts fun x hx => ?_]
    rw [List.append_nil, List.mem_reverse]
    exact (helements x).mpr hx
  case materialise => exact fun op => appended_eq _ _ _

/-! ## Generated structures -/

/-- Over every residuated lattice that was built and extended a twist structure is generated.  If
there are no more pairs of its elements than 32-bit numbers, then it finds its elements by their
numbers, it finds their negations in its table, the table of every operation holds the values of the
operation, and all these are what the loops make. -/
theorem tables_of_generate {elements : List Text} {pairs : List (Text × Text)}
    {l : FiniteLattice} {rows : List (List ElementId)} {r : ResiduatedLattice}
    (hl : FiniteLattice.build elements pairs = .ok l)
    (hr : ResiduatedLattice.extend l rows = .ok r) (hsize : r.size * r.size ≤ UInt32.size) :
    ∃ ts, generate (some r) = .ok ts ∧ ts.base = r ∧ ts.Indexed ∧ ts.NegationTabulated ∧
      (∀ op, ts.Tabulates (ts.apply op) (ts.materialise op)) ∧ ts.MadeByLoops := by
  obtain ⟨ts, hts⟩ := ResiduatedLattice.exists_generate_eq_ok hr
  have hgenerated : ts.Generated := ⟨elements, pairs, l, rows, r, hl, hr, hts⟩
  have hbound : ts.size ≤ UInt32.size := size_of_generate hts ▸ hsize
  exact ⟨ts, hts, base_of_generate hts, hgenerated.indexed, hgenerated.negationTabulated hbound,
    hgenerated.indexed.tabulates_materialise hgenerated.lawful, hgenerated.madeByLoops⟩

/-- Over the Łukasiewicz chain of three elements, whose middle times itself is the bottom, there are
nine twist elements.  The pair of the middle and the top has the number five, and in this place the
table has the number seven of its negation.  What the pair implies of the pair of the bottom and the
middle stands in row five and column one, and what it is implied by in row one and column five. -/
theorem tables_of_generate_threeChain :
    let names := [ascii "0", ascii "h", ascii "1"]
    let pairs := [(ascii "0", ascii "h"), (ascii "h", ascii "1")]
    let rows := [[0, 0, 0], [0, 0, 1], [0, 1, 2]]
    let l := (FiniteLattice.build names pairs).toOption.getD fourValued.base.lattice
    let r := (ResiduatedLattice.extend l rows).toOption.getD fourValued.base
    ∃ ts, generate (some r) = .ok ts ∧ ts.MadeByLoops ∧ ts.elements[5]? = some ⟨1, 2⟩ ∧
      ts.negations[5]? = some 7 ∧ ts.negation ⟨1, 2⟩ = ⟨2, 1⟩ ∧
      (ts.materialise .implication).length = 81 ∧
      (ts.materialise .implication)[5 * 9 + 1]? = some ⟨1, 0⟩ ∧
      (ts.materialise .implication)[1 * 9 + 5]? = some ⟨2, 0⟩ := by
  intro names pairs rows l r
  have hl : FiniteLattice.build names pairs = .ok l := eq_ok_getD_of_isSome (by decide +kernel)
  have hr : ResiduatedLattice.extend l rows = .ok r := eq_ok_getD_of_isSome (by decide +kernel)
  obtain ⟨ts, hts, hbase, hindexed, hnegation, htables, hloops⟩ :=
    tables_of_generate hl hr (by decide +kernel)
  obtain ⟨hthree, hforth, hback⟩ : r.size = 3 ∧
      (⟨r.residuum 1 0, r.tensor 1 1⟩ : TwistElement) = ⟨1, 0⟩ ∧
      (⟨r.residuum 0 1, r.tensor 0 2⟩ : TwistElement) = ⟨2, 0⟩ := by
    decide +kernel
  rw [← hbase] at hthree hforth hback
  have hsize : ts.size = 9 := hindexed.size_eq.trans (hthree ▸ rfl)
  have hmem : ∀ a b, a < 3 → b < 3 → ts.contains ⟨a, b⟩ = true := by
    intro a b ha hb
    rw [contains_iff, hthree]
    exact ⟨ha, hb⟩
  have hindex : ∀ a b, ts.index ⟨a, b⟩ = a * 3 + b := by
    intro a b
    rw [index, position, hthree]
  have hx := hmem 1 2 (by decide) (by decide)
  have hy := hmem 0 1 (by decide) (by decide)
  have hplace := hindexed.getElem?_index _ hx
  obtain ⟨i, hi, hswap⟩ := hnegation.entry _ hx
  have hrow := (htables .implication).entry _ _ hx hy
  have hcolumn := (htables .implication).entry _ _ hy hx
  rw [hindex] at hplace hi hswap
  rw [hindex, hindex, hsize] at hrow hcolumn
  obtain rfl : i = 7 := UInt32.toNat_inj.mp hswap
  refine ⟨ts, hts, hloops, hplace, hi, hnegation.negation_eq _ hx, ?_, ?_, ?_⟩
  · exact (htables .implication).length_eq.trans (hsize ▸ rfl)
  · exact hrow.trans (congrArg some hforth)
  · exact hcolumn.trans (congrArg some hback)

end TwistStructure

end TwistLogic
