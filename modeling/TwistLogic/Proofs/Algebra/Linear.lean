import TwistLogic.Proofs.Algebra.Chain
import TwistLogic.Proofs.Algebra.Construction
import TwistLogic.Proofs.Text.Integer

/-!
# Chains of every size

The names of the elements of a chain are distinct, since the number of an element can be read off
its name (`Chain.numerator_elementName`).  The steps from one name to the next generate the order of
the numbers (`Chain.generatedOrder_steps_iff`), which is a lattice with minimum and maximum for its
meets and joins, so the chain is built as it is meant (`Chain.IsChain`).

A product of the two families is below a bound exactly if its left factor is below a number that is
computed from the other two (`ChainFamily.product_le_iff`).  This number is the residuum, and it was
found by a search for the greatest such factor; so the product extends the chain, and the residuum
has a closed form (`Chain.build_closedForm`).
-/

namespace TwistLogic

/-! ## Products and residua -/

namespace ChainFamily

variable {n a b c : Nat}

/-- The residuum of two elements of a chain of `n` elements. -/
def residuum (n : Nat) : ChainFamily → ElementId → ElementId → ElementId
  | goedel, b, c => if b ≤ c then n - 1 else c
  | lukasiewicz, b, c => min (n - 1) (n - 1 - b + c)

lemma product_lt (family : ChainFamily) (ha : a < n) (hb : b < n) : family.product n a b < n := by
  cases family <;> simp only [product, ElementId] <;> omega

lemma residuum_lt (family : ChainFamily) (hc : c < n) : family.residuum n b c < n := by
  cases family <;> simp only [residuum, ElementId]
  · split <;> omega
  · omega

/-- The factors whose product with `b` is at most `c` are those up to the residuum. -/
lemma product_le_iff (family : ChainFamily) (ha : a < n) (hb : b < n) :
    family.product n a b ≤ c ↔ a ≤ family.residuum n b c := by
  cases family <;> simp only [product, residuum, ElementId]
  · split <;> omega
  · omega

lemma product_comm (family : ChainFamily) : family.product n a b = family.product n b a := by
  cases family <;> simp only [product, ElementId] <;> omega

lemma product_assoc (family : ChainFamily) (ha : a < n) (hc : c < n) :
    family.product n (family.product n a b) c = family.product n a (family.product n b c) := by
  cases family <;> simp only [product, ElementId] <;> omega

/-- The greatest number is the unit. -/
lemma product_top (family : ChainFamily) (ha : a < n) : family.product n a (n - 1) = a := by
  cases family <;> simp only [product, ElementId] <;> omega

/-- Products are monotone, so they keep the greater of two factors. -/
lemma max_product (family : ChainFamily) :
    family.product n (max a b) c = max (family.product n a c) (family.product n b c) := by
  cases family <;> simp only [product, ElementId] <;> omega

end ChainFamily

namespace Chain

variable {family : ChainFamily} {n cells i j k : Nat} {x y : Text} {l : FiniteLattice}
  {r : ResiduatedLattice}

/-! ## Names -/

/-- The number of an element, read off its name. -/
def numerator (n : Nat) (x : Text) : Nat :=
  if x = ascii "0" then 0
  else if x = ascii "1" then n - 1
  else Text.ofDigits (x.takeWhile Text.isDigit)

lemma numerator_elementName (n k : Nat) : numerator n (elementName n k) = k := by
  by_cases hzero : k = 0
  · simp [elementName, numerator, hzero]
  by_cases hone : k = n - 1
  · rw [elementName, if_neg hzero, if_pos hone, numerator, if_neg (by decide), if_pos rfl, hone]
  -- between the bounds, a name has a slash and begins with the digits of the number
  have hname : elementName n k = Text.decimal k ++ byte '/' :: Text.decimal (n - 1) := by
    rw [elementName, if_neg hzero, if_neg hone, List.append_assoc]
    rfl
  have hne : ∀ x : Text, byte '/' ∉ x → elementName n k ≠ x := fun x hx h =>
    hx (h ▸ by simp [hname])
  have htake : (elementName n k).takeWhile Text.isDigit = Text.decimal k := by
    rw [hname, List.takeWhile_append_of_pos fun c hc => Text.isDigit_of_mem_decimal hc,
      List.takeWhile_cons_of_neg (by decide), List.append_nil]
  rw [numerator, if_neg (hne _ (by decide)), if_neg (hne _ (by decide)), htake,
    Text.ofDigits_decimal]

/-- Different elements have different names. -/
lemma elementName_injective (n : Nat) : Function.Injective (elementName n) :=
  Function.LeftInverse.injective (numerator_elementName n)

lemma nodup_elementNames (n : Nat) : (elementNames n).Nodup :=
  List.nodup_range.map (elementName_injective n)

lemma mem_elementNames : x ∈ elementNames n ↔ ∃ k < n, elementName n k = x := by
  simp [elementNames]

lemma getElem?_elementNames : (elementNames n)[k]? = some x ↔ k < n ∧ elementName n k = x := by
  rw [elementNames, List.getElem?_map, Option.map_eq_some_iff]
  simp [List.getElem?_eq_some_iff]

/-! ## The order -/

/-- The pairs of neighbouring names. -/
def steps (n : Nat) : List (Text × Text) := (elementNames n).zip (elementNames n).tail

lemma mem_steps_iff :
    (x, y) ∈ steps n ↔ ∃ k, k + 1 < n ∧ elementName n k = x ∧ elementName n (k + 1) = y := by
  simp only [steps, List.mem_iff_getElem?, List.getElem?_zip_eq_some, List.getElem?_tail,
    getElem?_elementNames]
  refine exists_congr fun k => ⟨?_, ?_⟩
  · rintro ⟨⟨-, hx⟩, hlt, hy⟩
    exact ⟨hlt, hx, hy⟩
  · rintro ⟨hlt, hx, hy⟩
    exact ⟨⟨Nat.lt_of_succ_lt hlt, hx⟩, hlt, hy⟩

/-- The steps from name to name generate the order of the numbers. -/
theorem generatedOrder_steps_iff (hk : k < n) :
    GeneratedOrder (steps n) (elementName n j) (elementName n k) ↔ j ≤ k := by
  constructor
  · intro h
    obtain ⟨m, hle, hname⟩ : ∃ m, j ≤ m ∧ elementName n m = elementName n k := by
      generalize elementName n k = y at h
      induction h with
      | refl => exact ⟨j, Nat.le_refl j, rfl⟩
      | tail _ hstep ih =>
        obtain ⟨m, hle, rfl⟩ := ih
        obtain ⟨i, -, hname, rfl⟩ := mem_steps_iff.mp hstep
        obtain rfl := elementName_injective n hname
        exact ⟨i + 1, Nat.le_succ_of_le hle, rfl⟩
    rwa [elementName_injective n hname] at hle
  · intro hjk
    induction k, hjk using Nat.le_induction with
    | base => exact .refl
    | succ m hle ih => exact (ih (Nat.lt_of_succ_lt hk)).tail (mem_steps_iff.mpr ⟨m, hk, rfl, rfl⟩)

lemma isMeet_min (hj : j < n) (hk : k < n) :
    IsMeet (elementNames n) (GeneratedOrder (steps n)) (elementName n j) (elementName n k)
      (elementName n (min j k)) where
  mem := mem_elementNames.mpr ⟨_, Nat.lt_of_le_of_lt (Nat.min_le_left j k) hj, rfl⟩
  left := (generatedOrder_steps_iff hj).mpr (Nat.min_le_left j k)
  right := (generatedOrder_steps_iff hk).mpr (Nat.min_le_right j k)
  best := by
    intro z hz hzj hzk
    obtain ⟨i, -, rfl⟩ := mem_elementNames.mp hz
    rw [generatedOrder_steps_iff hj] at hzj
    rw [generatedOrder_steps_iff hk] at hzk
    exact (generatedOrder_steps_iff (by omega)).mpr (Nat.le_min.mpr ⟨hzj, hzk⟩)

lemma isJoin_max (hj : j < n) (hk : k < n) :
    IsJoin (elementNames n) (GeneratedOrder (steps n)) (elementName n j) (elementName n k)
      (elementName n (max j k)) where
  mem := mem_elementNames.mpr ⟨_, Nat.max_lt.mpr ⟨hj, hk⟩, rfl⟩
  left := (generatedOrder_steps_iff (Nat.max_lt.mpr ⟨hj, hk⟩)).mpr (Nat.le_max_left j k)
  right := (generatedOrder_steps_iff (Nat.max_lt.mpr ⟨hj, hk⟩)).mpr (Nat.le_max_right j k)
  best := by
    intro z hz hjz hkz
    obtain ⟨i, hi, rfl⟩ := mem_elementNames.mp hz
    rw [generatedOrder_steps_iff hi] at hjz hkz ⊢
    exact Nat.max_le.mpr ⟨hjz, hkz⟩

/-- The names of a chain and the steps between them describe a lattice. -/
theorem isLatticePresentation (hn : 0 < n) :
    IsLatticePresentation (elementNames n) (steps n) where
  nonempty := List.ne_nil_of_mem (mem_elementNames.mpr ⟨0, hn, rfl⟩)
  nodup := nodup_elementNames n
  listed := by
    rintro ⟨x, y⟩ h
    obtain ⟨k, hk, rfl, rfl⟩ := mem_steps_iff.mp h
    exact ⟨mem_elementNames.mpr ⟨k, Nat.lt_of_succ_lt hk, rfl⟩, mem_elementNames.mpr ⟨_, hk, rfl⟩⟩
  antisymm := by
    intro x hx y hy hxy hyx
    obtain ⟨j, hj, rfl⟩ := mem_elementNames.mp hx
    obtain ⟨k, hk, rfl⟩ := mem_elementNames.mp hy
    rw [generatedOrder_steps_iff hk] at hxy
    rw [generatedOrder_steps_iff hj] at hyx
    rw [Nat.le_antisymm hxy hyx]
  meets := by
    intro x hx y hy
    obtain ⟨j, hj, rfl⟩ := mem_elementNames.mp hx
    obtain ⟨k, hk, rfl⟩ := mem_elementNames.mp hy
    exact ⟨_, isMeet_min hj hk⟩
  joins := by
    intro x hx y hy
    obtain ⟨j, hj, rfl⟩ := mem_elementNames.mp hx
    obtain ⟨k, hk, rfl⟩ := mem_elementNames.mp hy
    exact ⟨_, isJoin_max hj hk⟩

/-! ## The lattice -/

/-- The elements of a lattice have the names of a chain, which are distinct, and are ordered by
their numbers. -/
structure IsChain (l : FiniteLattice) (n : Nat) : Prop where
  names_eq : l.names.toList = elementNames n
  nodup : l.names.toList.Nodup
  leq_iff : ∀ i < n, ∀ j < n, (l.leq i j = true ↔ i ≤ j)
  meet_eq : ∀ i < n, ∀ j < n, l.meet i j = min i j
  join_eq : ∀ i < n, ∀ j < n, l.join i j = max i j
  top_eq : l.top = n - 1
  bottom_eq : l.bottom = 0

lemma IsChain.size_eq (h : IsChain l n) : l.size = n := by
  rw [FiniteLattice.size, ← Array.length_toList, h.names_eq]
  simp [elementNames]

lemma IsChain.name?_eq (h : IsChain l n) (hk : k < n) : l.name? k = .ok (elementName n k) := by
  have hget : l.names[k]? = some (elementName n k) := by
    rw [← Array.getElem?_toList, h.names_eq]
    exact getElem?_elementNames.mpr ⟨hk, rfl⟩
  rw [FiniteLattice.name?, hget]

/-- The lattice of a chain is ordered by the numbers of its elements. -/
theorem isChain_of_lattice (h : lattice n = .ok l) : IsChain l n := by
  have hpresented := FiniteLattice.isLatticeOf_of_build_eq_ok h
  have hlaws := FiniteLattice.lawful_of_build_eq_ok h
  obtain rfl := size_of_lattice h
  have hname : ∀ k < l.size, l.name k = elementName l.size k := by
    intro k hk
    have hget : l.names.toList[k]? = some (elementName l.size k) := by
      rw [hpresented.names_eq]
      exact getElem?_elementNames.mpr ⟨hk, rfl⟩
    rw [Array.getElem?_toList] at hget
    simp [FiniteLattice.name, hget]
  have hantisymm := (isLatticePresentation (Nat.zero_lt_of_lt hlaws.top_lt)).antisymm
  have hleq : ∀ i < l.size, ∀ j < l.size, (l.leq i j = true ↔ i ≤ j) := by
    intro i hi j hj
    rw [hpresented.leq_iff i hi j hj, hname i hi, hname j hj]
    exact generatedOrder_steps_iff hj
  constructor
  case names_eq => exact hpresented.names_eq
  case nodup => exact hpresented.names_eq ▸ nodup_elementNames l.size
  case leq_iff => exact hleq
  case meet_eq =>
    intro i hi j hj
    obtain ⟨hlt, hmeet⟩ := hpresented.meet i hi j hj
    rw [hname i hi, hname j hj, hname _ hlt] at hmeet
    exact elementName_injective _ (hmeet.unique hantisymm (isMeet_min hi hj))
  case join_eq =>
    intro i hi j hj
    obtain ⟨hlt, hjoin⟩ := hpresented.join i hi j hj
    rw [hname i hi, hname j hj, hname _ hlt] at hjoin
    exact elementName_injective _ (IsMeet.unique
      (fun x hx y hy hxy hyx => hantisymm x hx y hy hyx hxy) hjoin (isJoin_max hi hj))
  case top_eq =>
    have htop := hlaws.top_lt
    have hlast : l.size - 1 < l.size := Nat.sub_one_lt_of_lt htop
    have hle := (hleq _ hlast _ htop).mp (hlaws.leq_top hlast)
    exact Nat.le_antisymm (Nat.le_sub_one_of_lt htop) hle
  case bottom_eq =>
    have hbottom := hlaws.bottom_lt
    have hfirst : 0 < l.size := Nat.zero_lt_of_lt hbottom
    exact Nat.le_zero.mp ((hleq _ hbottom 0 hfirst).mp (hlaws.bottom_leq hfirst))

/-! ## The algebra -/

lemma entry_rows (hi : i < n) (hj : j < n) :
    ResiduatedLattice.entry (rows family n) i j = family.product n i j := by
  simp [ResiduatedLattice.entry, rows, hi, hj]

/-- The product of a family is a residuated product on a chain. -/
theorem isResiduatedProduct (family : ChainFamily) (hl : IsChain l n) (hn : 0 < n) :
    ResiduatedLattice.IsResiduatedProduct l (rows family n) := by
  obtain rfl := hl.size_eq
  have hentry : ∀ i < l.size, ∀ j < l.size,
      ResiduatedLattice.entry (rows family l.size) i j = family.product l.size i j :=
    fun i hi j hj => entry_rows hi hj
  have hproduct : ∀ i < l.size, ∀ j < l.size, family.product l.size i j < l.size :=
    fun i hi j hj => family.product_lt hi hj
  have hlast : l.size - 1 < l.size := Nat.sub_one_lt_of_lt hn
  constructor
  case rowCount => simp [rows]
  case rowLength => simp [rows]
  case entries =>
    intro row hrow c hc
    obtain ⟨i, hi, rfl⟩ := List.mem_map.mp hrow
    obtain ⟨j, hj, rfl⟩ := List.mem_map.mp hc
    exact hproduct i (List.mem_range.mp hi) j (List.mem_range.mp hj)
  case comm =>
    intro a ha b hb
    rw [hentry a ha b hb, hentry b hb a ha, family.product_comm]
  case assoc =>
    intro a ha b hb c hc
    rw [hentry a ha b hb, hentry b hb c hc, hentry _ (hproduct a ha b hb) c hc,
      hentry a ha _ (hproduct b hb c hc), family.product_assoc ha hc]
  case unit =>
    intro a ha
    rw [hl.top_eq, hentry a ha _ hlast, hentry _ hlast a ha, family.product_comm (a := l.size - 1),
      family.product_top ha]
    exact ⟨rfl, rfl⟩
  case join_distrib =>
    intro a ha b hb c hc
    rw [hl.join_eq a ha b hb, hentry a ha c hc, hentry b hb c hc,
      hentry _ (Nat.max_lt.mpr ⟨ha, hb⟩) c hc,
      hl.join_eq _ (hproduct a ha c hc) _ (hproduct b hb c hc), family.max_product]

/-- A chain of any positive size is built. -/
theorem exists_build_eq_ok (family : ChainFamily) (hn : 0 < n) : ∃ r, build family n = .ok r := by
  obtain ⟨l, hl⟩ := FiniteLattice.exists_build_eq_ok (isLatticePresentation hn)
  have hlaws := FiniteLattice.lawful_of_build_eq_ok hl
  have hproduct := isResiduatedProduct family (isChain_of_lattice hl) hn
  obtain ⟨r, hr⟩ := hproduct.exists_extend_eq_ok hlaws
  exact ⟨r, build_eq_ok_iff.mpr ⟨l, hl, hr⟩⟩

/-- An algebra is a chain with the product of a family and its residuum. -/
structure IsChainOf (r : ResiduatedLattice) (family : ChainFamily) (n : Nat) : Prop where
  chain : IsChain r.lattice n
  tensor_eq : ∀ i < n, ∀ j < n, r.tensor i j = family.product n i j
  residuum_eq : ∀ i < n, ∀ j < n, r.residuum i j = family.residuum n i j

/-- What is built is the chain with the product of the family and its residuum. -/
theorem isChainOf_of_build (h : build family n = .ok r) : IsChainOf r family n := by
  obtain ⟨l, hl, hr⟩ := build_eq_ok_iff.mp h
  have hchain := isChain_of_lattice hl
  have hlaws := ResiduatedLattice.lawful_of_extend_eq_ok
    (FiniteLattice.lawful_of_build_eq_ok hl) hr
  obtain ⟨-, rfl, hproducts, -⟩ := ResiduatedLattice.of_extend_eq_ok hr
  obtain rfl : r.size = n := hchain.size_eq
  have htensor : ∀ i < r.size, ∀ j < r.size, r.tensor i j = family.product r.size i j := by
    intro i hi j hj
    rw [ResiduatedLattice.tensor, hproducts, ResiduatedLattice.get_tableOfRows]
    exact entry_rows hi hj
  refine ⟨hchain, htensor, fun b hb c hc => ?_⟩
  -- both numbers are above the same factors
  have hlt := hlaws.residuum_lt hb hc
  have hiff : ∀ a < r.size, (a ≤ r.residuum b c ↔ a ≤ family.residuum r.size b c) := by
    intro a ha
    have hproduct : r.tensor a b < r.size := hlaws.tensor_lt ha hb
    rw [← family.product_le_iff ha hb, ← htensor a ha b hb,
      ← hchain.leq_iff a ha _ hlt, ← hchain.leq_iff _ hproduct c hc]
    exact (hlaws.adjunction ha hb hc).symm
  exact Nat.le_antisymm ((hiff _ hlt).mp (Nat.le_refl _))
    ((hiff _ (family.residuum_lt hc)).mpr (Nat.le_refl _))

/-- The name of a family, a colon and a numeral select the chain of that size, if there is room for
it. -/
lemma ofSpecWithin_decimal (hn : 2 ≤ n) (family : ChainFamily) {cells : Nat}
    (hlength : n ≤ maxLength) (hfits : n * n ≤ cells) :
    ofSpecWithin cells (ChainFamily.name family ++ ascii ":" ++ Text.decimal n) =
      build family n := by
  have hpos : 0 < n := Nat.lt_of_lt_of_le Nat.two_pos hn
  obtain ⟨r, hr⟩ := exists_build_eq_ok family hpos
  have hread : (Text.decimal n).readWord64 = some n :=
    (Text.readWord64_eq_some_iff_shown hpos).mpr ⟨n, Text.shows_decimal n,
      Nat.lt_of_le_of_lt hlength (by decide), by simp⟩
  rw [hr]
  exact ofSpecWithin_eq_ok_iff.mpr
    (.inr ⟨family, Text.decimal n, n, rfl, hread, hn, hlength, hfits, hr⟩)

/-! ## The main statement -/

/-- From two elements on, the chains of both families are built.  Their elements have distinct names
and are ordered by their numbers.  Gödel chains multiply by the minimum, and Łukasiewicz chains by
the sum less the greatest number, down to zero; the residua are those of these products.  The name
of a family, a colon and the numeral of the size select the same chain, if there is room for it. -/
theorem build_closedForm (hn : 2 ≤ n) :
    (∃ r, build .goedel n = .ok r ∧ IsChain r.lattice n ∧ ∀ i < n, ∀ j < n,
      r.tensor i j = min i j ∧ r.residuum i j = if i ≤ j then n - 1 else j) ∧
    (∃ r, build .lukasiewicz n = .ok r ∧ IsChain r.lattice n ∧ ∀ i < n, ∀ j < n,
      (r.tensor i j : Int) = max 0 ((i : Int) + j - (n - 1)) ∧
        (r.residuum i j : Int) = min ((n : Int) - 1) (n - 1 - i + j)) ∧
    ∀ family cells, n ≤ maxLength → n * n ≤ cells →
      ofSpecWithin cells (ChainFamily.name family ++ ascii ":" ++ Text.decimal n) =
        build family n := by
  have hpos : 0 < n := Nat.lt_of_lt_of_le Nat.two_pos hn
  refine ⟨?_, ?_, fun family cells => ofSpecWithin_decimal hn family⟩
  · obtain ⟨r, hr⟩ := exists_build_eq_ok .goedel hpos
    obtain ⟨hchain, htensor, hresiduum⟩ := isChainOf_of_build hr
    exact ⟨r, hr, hchain, fun i hi j hj => ⟨htensor i hi j hj, hresiduum i hi j hj⟩⟩
  · obtain ⟨r, hr⟩ := exists_build_eq_ok .lukasiewicz hpos
    obtain ⟨hchain, htensor, hresiduum⟩ := isChainOf_of_build hr
    refine ⟨r, hr, hchain, fun i hi j hj => ?_⟩
    rw [htensor i hi j hj, hresiduum i hi j hj]
    simp only [ChainFamily.product, ChainFamily.residuum, ElementId]
    omega

/-- In the chains of five elements, `1/2` times `3/4` is `1/2` for the one product and `1/4` for the
other.  What `3/4` implies of `1/2` is `1/2` there and `3/4` here. -/
theorem build_closedForm_of_five :
    ∃ g k, ofSpecWithin 25 (ascii "goedel:5") = .ok g ∧
      ofSpecWithin 25 (ascii "lukasiewicz:5") = .ok k ∧ IsChain g.lattice 5 ∧
      IsChain k.lattice 5 ∧ g.tensor 2 3 = 2 ∧ g.residuum 3 2 = 2 ∧ (k.tensor 2 3 : Int) = 1 ∧
      (k.residuum 3 2 : Int) = 3 := by
  obtain ⟨⟨g, hg, hgchain, hgops⟩, ⟨k, hk, hkchain, hkops⟩, hnames⟩ :=
    build_closedForm (n := 5) (by decide)
  have hgname : ofSpecWithin 25 (ascii "goedel:5") = build .goedel 5 :=
    hnames .goedel 25 (by decide) (by decide)
  have hkname : ofSpecWithin 25 (ascii "lukasiewicz:5") = build .lukasiewicz 5 :=
    hnames .lukasiewicz 25 (by decide) (by decide)
  refine ⟨g, k, hgname.trans hg, hkname.trans hk, hgchain, hkchain, ?_, ?_, ?_, ?_⟩
  · exact (hgops 2 (by decide) 3 (by decide)).1
  · exact (hgops 3 (by decide) 2 (by decide)).2
  · exact (hkops 2 (by decide) 3 (by decide)).1
  · exact (hkops 3 (by decide) 2 (by decide)).2

end Chain
end TwistLogic
