import TwistLogic.Proofs.Algebra.Bilattice
import TwistLogic.Proofs.Algebra.Implication
import TwistLogic.Proofs.Algebra.Positions

/-!
# The product of a twist structure

Evidence for `residueMeet x y` is evidence for both, and evidence against it is what the evidence
for either side implies against the other.  So the product is below `z` if the meet of the evidence
for both is below that for `z`, and the evidence against `z` times the evidence for either is below
the evidence against the other (`Lawful.residueMeet_leq_iff`).  The strong implication from `y` to
`z` is the meet of their implication and its contraposition.  That `x` is below it says the same
with a product in place of the meet (`Exact.leq_strongImplication_iff`).

As a product is below the meet of its factors, the first statement implies the second.  They are the
same exactly if the base multiplies by its meet (`Exact.residuated_iff`), as Gödel chains do.  Then
the product of the twist structure is associative too, since three factors enter the evidence
against it alike (`Lawful.leq_residueMeet_residueMeet_con_iff`).
-/

namespace TwistLogic

/-! ## Products and meets -/

namespace ResiduatedLattice

variable {r : ResiduatedLattice} {a b : ElementId}

/-- The product of two elements is their meet. -/
def ProductIsMeet (r : ResiduatedLattice) : Prop :=
  ∀ a < r.size, ∀ b < r.size, r.tensor a b = r.meet a b

lemma Lawful.tensor_leq_left (h : r.Lawful) (ha : a < r.size) (hb : b < r.size) :
    r.leq (r.tensor a b) a = true := by
  have hbelow := h.below_tensor (h.below_refl ha) ⟨hb, h.top_lt, h.lattice.leq_top hb⟩
  rw [h.tensor_top ha] at hbelow
  exact hbelow.leq

/-- A product is below both of its factors. -/
lemma Lawful.tensor_leq_meet (h : r.Lawful) (ha : a < r.size) (hb : b < r.size) :
    r.leq (r.tensor a b) (r.meet a b) = true := by
  have hab := h.tensor_lt ha hb
  refine h.isLatticeOrder.le_inf ha hb hab (h.tensor_leq_left ha hb) ?_
  rw [h.tensor_comm ha hb]
  exact h.tensor_leq_left hb ha

end ResiduatedLattice

/-- Gödel chains multiply by the meet. -/
lemma Chain.productIsMeet_of_build {n : Nat} {r : ResiduatedLattice} (h : build .goedel n = .ok r) :
    r.ProductIsMeet := by
  obtain ⟨hchain, htensor, -⟩ := isChainOf_of_build h
  obtain rfl : r.size = n := hchain.size_eq
  intro a ha b hb
  rw [htensor a ha b hb, ResiduatedLattice.meet, hchain.meet_eq a ha b hb]
  rfl

/-- The names of Gödel chains, and `boolean`. -/
lemma Chain.productIsMeet_of_ofSpecWithin {cells : Nat} {spec : Text} {r : ResiduatedLattice}
    (hspec : spec = ascii "boolean" ∨ ∃ text, spec = ascii "goedel:" ++ text)
    (h : ofSpecWithin cells spec = .ok r) : r.ProductIsMeet := by
  rcases hspec with rfl | ⟨text, rfl⟩
  · rw [ofSpecWithin, if_pos rfl] at h
    exact productIsMeet_of_build h
  · rcases ofSpecWithin_eq_ok_iff.mp h with ⟨-, hbuild⟩ | ⟨family, size, n, hname, -, -, -, -, hbuild⟩
    · exact productIsMeet_of_build hbuild
    · have hname' : ChainFamily.goedel.name ++ ascii ":" ++ text = _ := hname
      obtain ⟨rfl, -⟩ := name_append_inj hname'
      exact productIsMeet_of_build hbuild

/-! ## Bounds -/

namespace TwistStructure

variable {ts : TwistStructure} {x y z : TwistElement} {d : ElementId}

/-- An implication together with its contraposition. -/
def strongImplication (ts : TwistStructure) (y z : TwistElement) : TwistElement :=
  ts.meet (ts.implication y z) (ts.implication (ts.negation z) (ts.negation y))

/-- The product is below `z` exactly if its left factor is below what the right one strongly implies
of `z`. -/
def Residuated (ts : TwistStructure) : Prop :=
  ∀ x y z, ts.contains x = true → ts.contains y = true → ts.contains z = true →
    (ts.leq (ts.residueMeet x y) z = true ↔ ts.leq x (ts.strongImplication y z) = true)

lemma Lawful.contains_residueMeet (h : ts.Lawful) (hx : ts.contains x = true)
    (hy : ts.contains y = true) : ts.contains (ts.residueMeet x y) = true := by
  have horder := h.base.isLatticeOrder
  obtain ⟨hxt, hxf⟩ := contains_iff.mp hx
  obtain ⟨hyt, hyf⟩ := contains_iff.mp hy
  exact contains_iff.mpr ⟨horder.inf_mem hxt hyt,
    horder.inf_mem (h.base.residuum_lt hxt hyf) (h.base.residuum_lt hyt hxf)⟩

/-- What is evidence against a product is, multiplied with the evidence for either factor, evidence
against the other. -/
lemma Lawful.leq_residueMeet_con_iff (h : ts.Lawful) (hx : ts.contains x = true)
    (hy : ts.contains y = true) (hd : d < ts.base.size) :
    ts.base.leq d (ts.residueMeet x y).f = true ↔
      ts.base.leq (ts.base.tensor d x.t) y.f = true ∧
        ts.base.leq (ts.base.tensor d y.t) x.f = true := by
  obtain ⟨hxt, hxf⟩ := contains_iff.mp hx
  obtain ⟨hyt, hyf⟩ := contains_iff.mp hy
  rw [h.base.adjunction hd hxt hyf, h.base.adjunction hd hyt hxf]
  exact h.base.isLatticeOrder.le_inf_iff (h.base.residuum_lt hxt hyf) (h.base.residuum_lt hyt hxf) hd

/-- The bounds of a product. -/
lemma Lawful.residueMeet_leq_iff (h : ts.Lawful) (hx : ts.contains x = true)
    (hy : ts.contains y = true) (hz : ts.contains z = true) :
    ts.leq (ts.residueMeet x y) z = true ↔
      ts.base.leq (ts.base.meet x.t y.t) z.t = true ∧
        ts.base.leq (ts.base.tensor z.f x.t) y.f = true ∧
          ts.base.leq (ts.base.tensor z.f y.t) x.f = true := by
  rw [leq, Bool.and_eq_true, h.leq_residueMeet_con_iff hx hy (contains_iff.mp hz).2]
  rfl

/-- What lies below a strong implication. -/
lemma Exact.leq_strongImplication_iff (h : ts.Exact) (hx : ts.contains x = true)
    (hy : ts.contains y = true) (hz : ts.contains z = true) :
    ts.leq x (ts.strongImplication y z) = true ↔
      ts.base.leq (ts.base.tensor x.t y.t) z.t = true ∧
        ts.base.leq (ts.base.tensor z.f x.t) y.f = true ∧
          ts.base.leq (ts.base.tensor z.f y.t) x.f = true := by
  have hbase := h.base
  obtain ⟨hxt, hxf⟩ := contains_iff.mp hx
  obtain ⟨hyt, hyf⟩ := contains_iff.mp hy
  obtain ⟨hzt, hzf⟩ := contains_iff.mp hz
  have hpro : ts.base.leq x.t (ts.strongImplication y z).t = true ↔
      ts.base.leq (ts.base.tensor x.t y.t) z.t = true ∧
        ts.base.leq (ts.base.tensor z.f x.t) y.f = true := by
    rw [strongImplication, h.negation_eq hz, h.negation_eq hy, hbase.tensor_comm hzf hxt,
      hbase.adjunction hxt hyt hzt, hbase.adjunction hxt hzf hyf]
    exact hbase.isLatticeOrder.le_inf_iff (hbase.residuum_lt hyt hzt) (hbase.residuum_lt hzf hyf) hxt
  have hcon : ts.base.leq (ts.strongImplication y z).f x.f = true ↔
      ts.base.leq (ts.base.tensor z.f y.t) x.f = true := by
    -- contraposition has the same evidence against it
    have hself : (ts.strongImplication y z).f =
        ts.base.join (ts.base.tensor z.f y.t) (ts.base.tensor z.f y.t) := by
      rw [strongImplication, h.negation_eq hz, h.negation_eq hy, hbase.tensor_comm hzf hyt]
      simp only [meet, implication, hbase.tensor_comm hzf hyt]
    have hlt := hbase.tensor_lt hzf hyt
    rw [hself, hbase.isLatticeOrder.sup_le_iff hlt hlt hxf, and_self]
  rw [leq, Bool.and_eq_true, hpro, hcon, and_assoc]

/-! ## The laws of the product -/

lemma Lawful.residueMeet_comm (h : ts.Lawful) (hx : ts.contains x = true)
    (hy : ts.contains y = true) : ts.residueMeet x y = ts.residueMeet y x := by
  have horder := h.base.isLatticeOrder
  obtain ⟨hxt, hxf⟩ := contains_iff.mp hx
  obtain ⟨hyt, hyf⟩ := contains_iff.mp hy
  rw [residueMeet, residueMeet, horder.inf_comm hxt hyt,
    horder.inf_comm (h.base.residuum_lt hxt hyf) (h.base.residuum_lt hyt hxf)]

/-- More evidence for a factor, and less against it, makes the residua against the product
smaller. -/
lemma TruthBelow.residueMeet {x' y' : TwistElement} (h : ts.Lawful) (hx : ts.TruthBelow x x')
    (hy : ts.TruthBelow y y') : ts.TruthBelow (ts.residueMeet x y) (ts.residueMeet x' y') where
  pro := h.base.below_meet hx.pro hy.pro
  con := h.base.below_meet (h.base.below_residuum hx.pro hy.con)
    (h.base.below_residuum hy.pro hx.con)

/-- A product below `z` has its left factor below what the right one strongly implies of `z`. -/
lemma Exact.leq_strongImplication (h : ts.Exact) (hx : ts.contains x = true)
    (hy : ts.contains y = true) (hz : ts.contains z = true)
    (hle : ts.leq (ts.residueMeet x y) z = true) : ts.leq x (ts.strongImplication y z) = true := by
  obtain ⟨hxt, -⟩ := contains_iff.mp hx
  obtain ⟨hyt, -⟩ := contains_iff.mp hy
  obtain ⟨hzt, -⟩ := contains_iff.mp hz
  obtain ⟨hmeet, hagainst⟩ := (h.residueMeet_leq_iff hx hy hz).mp hle
  refine (h.leq_strongImplication_iff hx hy hz).mpr ⟨?_, hagainst⟩
  have horder := h.base.isLatticeOrder
  exact horder.trans (h.base.tensor_lt hxt hyt) (horder.inf_mem hxt hyt) hzt
    (h.base.tensor_leq_meet hxt hyt) hmeet

/-- The product is residuated exactly where the base multiplies by its meet. -/
theorem Exact.residuated_iff (h : ts.Exact) : ts.Residuated ↔ ts.base.ProductIsMeet := by
  have hbase := h.base
  constructor
  · intro hres a ha b hb
    have hab := hbase.tensor_lt ha hb
    have hmeet := hbase.isLatticeOrder.inf_mem ha hb
    have hbottom := hbase.bottom_lt
    refine hbase.isLatticeOrder.antisymm hab hmeet (hbase.tensor_leq_meet ha hb) ?_
    -- nothing is evidence against the bound, so only the first condition says something
    have hx : ts.contains ⟨a, ts.base.bottom⟩ = true := contains_iff.mpr ⟨ha, hbottom⟩
    have hy : ts.contains ⟨b, ts.base.bottom⟩ = true := contains_iff.mpr ⟨hb, hbottom⟩
    have hz : ts.contains ⟨ts.base.tensor a b, ts.base.bottom⟩ = true :=
      contains_iff.mpr ⟨hab, hbottom⟩
    have hleast : ∀ c < ts.base.size,
        ts.base.leq (ts.base.tensor ts.base.bottom c) ts.base.bottom = true := by
      intro c hc
      rw [hbase.bottom_tensor hc]
      exact hbase.isLatticeOrder.refl hbottom
    have hstrong := (h.leq_strongImplication_iff hx hy hz).mpr
      ⟨hbase.isLatticeOrder.refl hab, hleast a ha, hleast b hb⟩
    exact ((h.residueMeet_leq_iff hx hy hz).mp ((hres _ _ _ hx hy hz).mpr hstrong)).1
  · intro hproduct x y z hx hy hz
    rw [h.residueMeet_leq_iff hx hy hz, h.leq_strongImplication_iff hx hy hz,
      hproduct x.t (contains_iff.mp hx).1 y.t (contains_iff.mp hy).1]

/-- Evidence against a product of three is, multiplied with the evidence for any two of them,
evidence against the third. -/
lemma Lawful.leq_residueMeet_residueMeet_con_iff (h : ts.Lawful) (hproduct : ts.base.ProductIsMeet)
    (hx : ts.contains x = true) (hy : ts.contains y = true) (hz : ts.contains z = true)
    (hd : d < ts.base.size) :
    ts.base.leq d (ts.residueMeet (ts.residueMeet x y) z).f = true ↔
      ts.base.leq (ts.base.tensor d (ts.base.tensor x.t y.t)) z.f = true ∧
        ts.base.leq (ts.base.tensor d (ts.base.tensor z.t x.t)) y.f = true ∧
          ts.base.leq (ts.base.tensor d (ts.base.tensor y.t z.t)) x.f = true := by
  obtain ⟨hxt, -⟩ := contains_iff.mp hx
  obtain ⟨hyt, -⟩ := contains_iff.mp hy
  obtain ⟨hzt, -⟩ := contains_iff.mp hz
  have hfor : (ts.residueMeet x y).t = ts.base.tensor x.t y.t := (hproduct x.t hxt y.t hyt).symm
  rw [h.leq_residueMeet_con_iff (h.contains_residueMeet hx hy) hz hd, hfor,
    h.leq_residueMeet_con_iff hx hy (h.base.tensor_lt hd hzt), h.base.tensor_assoc hd hzt hxt,
    h.base.tensor_assoc hd hzt hyt, h.base.tensor_comm hzt hyt]

/-- The product is associative where the base multiplies by its meet. -/
lemma Lawful.residueMeet_assoc (h : ts.Lawful) (hproduct : ts.base.ProductIsMeet)
    (hx : ts.contains x = true) (hy : ts.contains y = true) (hz : ts.contains z = true) :
    ts.residueMeet (ts.residueMeet x y) z = ts.residueMeet x (ts.residueMeet y z) := by
  have hxy := h.contains_residueMeet hx hy
  have hyz := h.contains_residueMeet hy hz
  obtain ⟨hxt, -⟩ := contains_iff.mp hx
  obtain ⟨hyt, -⟩ := contains_iff.mp hy
  obtain ⟨hzt, -⟩ := contains_iff.mp hz
  rw [h.residueMeet_comm hx hyz]
  have hpro : (ts.residueMeet (ts.residueMeet x y) z).t =
      (ts.residueMeet (ts.residueMeet y z) x).t := by
    have hmeet : ∀ {a b : TwistElement}, ts.contains a = true → ts.contains b = true →
        (ts.residueMeet a b).t = ts.base.tensor a.t b.t := fun ha hb =>
      (hproduct _ (contains_iff.mp ha).1 _ (contains_iff.mp hb).1).symm
    rw [hmeet hxy hz, hmeet hx hy, hmeet hyz hx, hmeet hy hz, h.base.tensor_assoc hxt hyt hzt,
      h.base.tensor_comm hxt (h.base.tensor_lt hyt hzt)]
  have hcon : (ts.residueMeet (ts.residueMeet x y) z).f =
      (ts.residueMeet (ts.residueMeet y z) x).f := by
    refine h.base.isLatticeOrder.eq_of_forall_le_iff
      (contains_iff.mp (h.contains_residueMeet hxy hz)).2
      (contains_iff.mp (h.contains_residueMeet hyz hx)).2 fun d hd => ?_
    rw [h.leq_residueMeet_residueMeet_con_iff hproduct hx hy hz hd,
      h.leq_residueMeet_residueMeet_con_iff hproduct hy hz hx hd]
    exact and_rotate.symm
  exact congrArg₂ TwistElement.mk hpro hcon

/-! ## The product over every base, and over its meet -/

/-- The product is commutative and monotone in the truth order, and where it is below an element,
its left factor is below what the right one strongly implies of that element.  If the base
multiplies by its meet, as Gödel chains and `boolean` do, the product is associative and residuated.
What reads negation is stated where all positions are 32-bit numbers. -/
theorem residueMeet_fusion (h : ts.Generated) :
    (∀ x y, ts.contains x = true → ts.contains y = true →
      ts.residueMeet x y = ts.residueMeet y x) ∧
    ts.MonotoneIn ts.leq ts.residueMeet ∧
    (ts.size ≤ UInt32.size → ∀ x y z, ts.contains x = true → ts.contains y = true →
      ts.contains z = true → ts.leq (ts.residueMeet x y) z = true →
      ts.leq x (ts.strongImplication y z) = true) ∧
    (ts.base.ProductIsMeet →
      (∀ x y z, ts.contains x = true → ts.contains y = true → ts.contains z = true →
        ts.residueMeet (ts.residueMeet x y) z = ts.residueMeet x (ts.residueMeet y z)) ∧
      (ts.size ≤ UInt32.size → ts.Residuated)) ∧
    ∀ cells spec, (spec = ascii "boolean" ∨ ∃ text, spec = ascii "goedel:" ++ text) →
      Chain.ofSpecWithin cells spec = .ok ts.base → ts.base.ProductIsMeet := by
  have hlaws := h.lawful
  refine ⟨fun x y => hlaws.residueMeet_comm, monotoneIn_leq (.residueMeet hlaws),
    fun hsize x y z => (h.exact hsize).leq_strongImplication, fun hproduct => ⟨?_, ?_⟩,
    fun cells spec => Chain.productIsMeet_of_ofSpecWithin⟩
  · exact fun x y z => hlaws.residueMeet_assoc hproduct
  · exact fun hsize => (h.exact hsize).residuated_iff.mpr hproduct

/-- Over the Gödel chain of three elements, the product of `(1,1/2)` and `(1/2,0)` is the second of
them, so `(1,1/2)` is below what `(1/2,0)` strongly implies of itself; it is not below what `(1,0)`
strongly implies of `(1/2,0)`. -/
theorem residueMeet_fusion_of_three :
    ∃ ts : TwistStructure, Chain.ofSpecWithin 9 (ascii "goedel:3") = .ok ts.base ∧
      ts.residueMeet ⟨2, 1⟩ ⟨1, 0⟩ = ⟨1, 0⟩ ∧
      ts.residueMeet ⟨2, 1⟩ ⟨1, 0⟩ = ts.residueMeet ⟨1, 0⟩ ⟨2, 1⟩ ∧
      ts.leq (ts.residueMeet ⟨1, 1⟩ ⟨1, 0⟩) (ts.residueMeet ⟨2, 1⟩ ⟨1, 0⟩) = true ∧
      ts.leq ⟨2, 1⟩ (ts.strongImplication ⟨1, 0⟩ ⟨1, 0⟩) = true ∧
      ts.residueMeet (ts.residueMeet ⟨2, 1⟩ ⟨1, 0⟩) ⟨1, 2⟩ =
        ts.residueMeet ⟨2, 1⟩ (ts.residueMeet ⟨1, 0⟩ ⟨1, 2⟩) ∧
      ts.leq ⟨2, 1⟩ (ts.strongImplication ⟨2, 0⟩ ⟨1, 0⟩) = false := by
  let r := (Chain.ofSpecWithin 9 (ascii "goedel:3")).toOption.getD fourValued.base
  have hspec : Chain.ofSpecWithin 9 (ascii "goedel:3") = .ok r :=
    eq_ok_getD_of_isSome (by decide +kernel)
  obtain ⟨family, n, hbuild⟩ := Chain.exists_build_of_ofSpecWithin hspec
  obtain ⟨elements, pairs, l, rows, hl, hr⟩ := Chain.exists_of_build hbuild
  let ts := (generate (some r)).toOption.getD fourValued
  have hts : generate (some r) = .ok ts := eq_ok_getD_of_isSome (by decide +kernel)
  have hgenerated : ts.Generated := ⟨elements, pairs, l, rows, r, hl, hr, hts⟩
  obtain ⟨hcomm, hmono, himplied, hidempotent, hgoedel⟩ := residueMeet_fusion hgenerated
  have hbase : Chain.ofSpecWithin 9 (ascii "goedel:3") = .ok ts.base :=
    (base_of_generate hts).symm ▸ hspec
  obtain ⟨hassoc, hresiduated⟩ := hidempotent (hgoedel 9 _ (.inr ⟨ascii "3", rfl⟩) hbase)
  obtain ⟨hsize, hthree, hproduct, hpro, hrefl, hbelow, hnot⟩ : ts.size ≤ UInt32.size ∧
      ts.base.size = 3 ∧ ts.residueMeet ⟨2, 1⟩ ⟨1, 0⟩ = ⟨1, 0⟩ ∧ ts.leq ⟨1, 1⟩ ⟨2, 1⟩ = true ∧
      ts.leq ⟨1, 0⟩ ⟨1, 0⟩ = true ∧ ts.leq (ts.residueMeet ⟨2, 1⟩ ⟨1, 0⟩) ⟨1, 0⟩ = true ∧
      ts.leq (ts.residueMeet ⟨2, 1⟩ ⟨2, 0⟩) ⟨1, 0⟩ = false := by
    decide +kernel
  have hmem : ∀ a b, a < 3 → b < 3 → ts.contains ⟨a, b⟩ = true := by
    intro a b ha hb
    rw [contains_iff, hthree]
    exact ⟨ha, hb⟩
  have hx := hmem 2 1 (by decide) (by decide)
  have hy := hmem 1 0 (by decide) (by decide)
  refine ⟨ts, hbase, hproduct, hcomm _ _ hx hy, ?_, ?_, ?_, ?_⟩
  · exact hmono _ _ _ _ (hmem 1 1 (by decide) (by decide)) hx hy hy hpro hrefl
  · exact himplied hsize _ _ _ hx hy hy hbelow
  · exact hassoc _ _ _ hx hy (hmem 1 2 (by decide) (by decide))
  · rw [Bool.eq_false_iff] at hnot ⊢
    exact mt (hresiduated hsize _ _ _ hx (hmem 2 0 (by decide) (by decide)) hy).mpr hnot

/-- Where the table of negation wraps, a product may be below an element though its left factor is
not below what the right one strongly implies of that element. -/
theorem residueMeet_leq_without_strongImplication :
    ∃ ts : TwistStructure,
      CommandLine.twistOf (65537 * 65537) (ascii "goedel:65537") = .ok ts ∧ ts.Generated ∧
      ts.base.ProductIsMeet ∧ ts.contains ⟨1, 1⟩ = true ∧ ts.contains ⟨1, 65535⟩ = true ∧
      ts.leq (ts.residueMeet ⟨1, 1⟩ ⟨1, 65535⟩) ⟨1, 1⟩ = true ∧
      ts.leq ⟨1, 1⟩ (ts.strongImplication ⟨1, 65535⟩ ⟨1, 1⟩) = false ∧ ¬ts.Residuated := by
  obtain ⟨ts, h⟩ := exists_isWide
  obtain ⟨hchain, htensor, hresiduum⟩ := h.chain
  obtain ⟨r, hr, hts⟩ := bind_eq_ok_iff.mp h.selected
  have hproduct : ts.base.ProductIsMeet := base_of_generate hts ▸
    Chain.productIsMeet_of_ofSpecWithin (.inr ⟨ascii "65537", rfl⟩) hr
  have hx : ts.contains ⟨1, 1⟩ = true := h.contains_iff.mpr (by decide)
  have hy : ts.contains ⟨1, 65535⟩ = true := h.contains_iff.mpr (by decide)
  have hbelow : ts.leq (ts.residueMeet ⟨1, 1⟩ ⟨1, 65535⟩) ⟨1, 1⟩ = true := by
    have hvalue : ts.residueMeet ⟨1, 1⟩ ⟨1, 65535⟩ = ⟨1, 65536⟩ := by
      rw [residueMeet, hresiduum 1 (by decide) 65535 (by decide),
        hresiduum 1 (by decide) 1 (by decide)]
      exact congrArg₂ TwistElement.mk (hchain.meet_eq 1 (by decide) 1 (by decide))
        (hchain.meet_eq 65536 (by decide) 65536 (by decide))
    rw [hvalue, h.leq_iff (h.contains_iff.mpr (by decide)) hx]
    decide
  have hnot : ts.leq ⟨1, 1⟩ (ts.strongImplication ⟨1, 65535⟩ ⟨1, 1⟩) = false := by
    have hnegation : ts.negation ⟨1, 1⟩ = ⟨1, 1⟩ :=
      h.negation_eq (by decide) (by decide) (by decide)
    -- the exchanged pair has the first number that 32 bits cannot hold
    have hwrapped : ts.negation ⟨1, 65535⟩ = ⟨0, 0⟩ :=
      h.negation_eq (by decide) (by decide) (by decide)
    have hstrong : ts.strongImplication ⟨1, 65535⟩ ⟨1, 1⟩ = ⟨0, 1⟩ := by
      rw [strongImplication, hnegation, hwrapped, implication, implication,
        hresiduum 1 (by decide) 1 (by decide), hresiduum 1 (by decide) 0 (by decide),
        htensor 1 (by decide) 1 (by decide), htensor 1 (by decide) 0 (by decide)]
      exact congrArg₂ TwistElement.mk (hchain.meet_eq 65536 (by decide) 0 (by decide))
        (hchain.join_eq 1 (by decide) 0 (by decide))
    rw [hstrong, Bool.eq_false_iff, ne_eq, h.leq_iff hx (h.contains_iff.mpr (by decide))]
    decide
  refine ⟨ts, h.selected, h.generated, hproduct, hx, hy, hbelow, hnot, fun hresiduated => ?_⟩
  exact Bool.false_ne_true (hnot.symm.trans ((hresiduated _ _ _ hx hy hx).mp hbelow))

end TwistStructure

end TwistLogic
