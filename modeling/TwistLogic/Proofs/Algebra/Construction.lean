import Mathlib.Data.List.Nodup
import TwistLogic.Proofs.Algebra.Lattice

/-!
# Which presentations are lattices

A presentation lists names and pairs of names.  `IsLatticePresentation` says what has to hold of
them, without numbers and tables: the names are distinct, the pairs are between them, and the order
that the pairs generate is antisymmetric and has a greatest lower and a least upper bound for every
two names.  `FiniteLattice.build` accepts exactly these presentations (`build_spec`).

Two things stand between the names and the build.  The tables hold numbers, so the generated order
has to be moved from names to numbers (`Reflects`).  And the build looks for a top and a bottom
after its last check: a finite order in which every two elements have an upper bound has a greatest
element (`exists_greatest`), which is then the only maximal one, so this search never fails
(`exists_only_extrema`).
-/

namespace TwistLogic

/-! ## Lattices by names -/

/-- The least reflexive and transitive relation that holds of some pairs of names. -/
def GeneratedOrder (pairs : List (Text × Text)) : Text → Text → Prop :=
  Relation.ReflTransGen fun x y => (x, y) ∈ pairs

/-- The greatest of the names that are below two others. -/
structure IsMeet (elements : List Text) (le : Text → Text → Prop) (x y m : Text) : Prop where
  mem : m ∈ elements
  left : le m x
  right : le m y
  best : ∀ z ∈ elements, le z x → le z y → le z m

/-- The least of the names that are above two others. -/
def IsJoin (elements : List Text) (le : Text → Text → Prop) (x y j : Text) : Prop :=
  IsMeet elements (fun a b => le b a) x y j

/-- In an antisymmetric order two names have one greatest bound at most. -/
lemma IsMeet.unique {elements : List Text} {le : Text → Text → Prop} {x y m m' : Text}
    (hantisymm : ∀ x ∈ elements, ∀ y ∈ elements, le x y → le y x → x = y)
    (h : IsMeet elements le x y m) (h' : IsMeet elements le x y m') : m = m' :=
  hantisymm m h.mem m' h'.mem (h'.best m h.mem h.left h.right)
    (h.best m' h'.mem h'.left h'.right)

/-- Names and pairs of names that describe a lattice. -/
structure IsLatticePresentation (elements : List Text) (pairs : List (Text × Text)) : Prop where
  nonempty : elements ≠ []
  nodup : elements.Nodup
  listed : ∀ p ∈ pairs, p.1 ∈ elements ∧ p.2 ∈ elements
  antisymm : ∀ x ∈ elements, ∀ y ∈ elements,
    GeneratedOrder pairs x y → GeneratedOrder pairs y x → x = y
  meets : ∀ x ∈ elements, ∀ y ∈ elements, ∃ m, IsMeet elements (GeneratedOrder pairs) x y m
  joins : ∀ x ∈ elements, ∀ y ∈ elements, ∃ j, IsJoin elements (GeneratedOrder pairs) x y j

/-! ## Relations on names and on numbers -/

/-- A relation on numbers is a relation on the names with these numbers. -/
structure Reflects (elements : List Text) (R : ElementId → ElementId → Bool)
    (le : Text → Text → Prop) : Prop where
  iff : ∀ {a b : ElementId} {x y : Text}, elements[a]? = some x → elements[b]? = some y →
    (R a b = true ↔ le x y)

section Reflects

variable {elements : List Text} {R : ElementId → ElementId → Bool} {le : Text → Text → Prop}
  {a b c : ElementId} {x y z : Text}

lemma Reflects.flip (h : Reflects elements R le) :
    Reflects elements (fun a b => R b a) fun x y => le y x where
  iff hx hy := h.iff hy hx

/-- The best bound of two names has the number of the best bound of their numbers. -/
lemma Reflects.isMeet_iff (h : Reflects elements R le) (ha : elements[a]? = some x)
    (hb : elements[b]? = some y) (hc : elements[c]? = some z) :
    IsMeet elements le x y z ↔ R c a = true ∧ R c b = true ∧
      ∀ d < elements.length, R d a = true → R d b = true → R d c = true := by
  rw [h.iff hc ha, h.iff hc hb]
  constructor
  · rintro ⟨-, hzx, hzy, hbest⟩
    refine ⟨hzx, hzy, fun d hd hda hdb => ?_⟩
    have hget : elements[d]? = some elements[d] := List.getElem?_eq_getElem hd
    rw [h.iff hget ha] at hda
    rw [h.iff hget hb] at hdb
    rw [h.iff hget hc]
    exact hbest _ (List.getElem_mem hd) hda hdb
  · rintro ⟨hzx, hzy, hbest⟩
    refine ⟨List.mem_of_getElem? hc, hzx, hzy, fun u hu hux huy => ?_⟩
    obtain ⟨d, hd, rfl⟩ := List.getElem_of_mem hu
    have hget : elements[d]? = some elements[d] := List.getElem?_eq_getElem hd
    rw [← h.iff hget ha] at hux
    rw [← h.iff hget hb] at huy
    rw [← h.iff hget hc]
    exact hbest d hd hux huy

/-- Two names have a best bound exactly if one of the bounds of their numbers is best. -/
lemma Reflects.exists_isMeet_iff (h : Reflects elements R le) (ha : elements[a]? = some x)
    (hb : elements[b]? = some y) :
    let bounds := (List.range elements.length).filter fun d => R d a && R d b
    (∃ c ∈ bounds, ∀ d ∈ bounds, R d c = true) ↔ ∃ z, IsMeet elements le x y z := by
  intro bounds
  have hmem : ∀ d, d ∈ bounds ↔ d < elements.length ∧ R d a = true ∧ R d b = true := by
    simp [bounds]
  constructor
  · rintro ⟨c, hc, hbest⟩
    obtain ⟨hlt, hca, hcb⟩ := (hmem c).mp hc
    refine ⟨elements[c], (h.isMeet_iff ha hb (List.getElem?_eq_getElem hlt)).mpr ⟨hca, hcb, ?_⟩⟩
    exact fun d hd hda hdb => hbest d ((hmem d).mpr ⟨hd, hda, hdb⟩)
  · rintro ⟨z, hz⟩
    obtain ⟨c, hlt, rfl⟩ := List.getElem_of_mem hz.mem
    obtain ⟨hca, hcb, hbest⟩ := (h.isMeet_iff ha hb (List.getElem?_eq_getElem hlt)).mp hz
    refine ⟨c, (hmem c).mpr ⟨hlt, hca, hcb⟩, fun d hd => ?_⟩
    obtain ⟨hd, hda, hdb⟩ := (hmem d).mp hd
    exact hbest d hd hda hdb

end Reflects

/-! ## Numbers of names -/

namespace FiniteLattice

section Numbers

variable {elements : List Text} {pairs : List (Text × Text)} {ids : List (ElementId × ElementId)}
  {a b : ElementId} {x y : Text}

/-- The numbers of a pair of distinct names are their places. -/
lemma orderPair_eq_ok_iff (hnodup : elements.Nodup) {p : Text × Text} :
    orderPair elements.toArray p = .ok (a, b) ↔
      elements[a]? = some p.1 ∧ elements[b]? = some p.2 := by
  rw [← idxOf?_eq_some_iff_of_nodup hnodup, ← idxOf?_eq_some_iff_of_nodup hnodup, orderPair,
    List.idxOf?_toArray, List.idxOf?_toArray]
  rcases elements.idxOf? p.1 with _ | i
  · simp
  · rcases elements.idxOf? p.2 with _ | j <;> simp

/-- A pair has numbers exactly if its two names are listed. -/
lemma exists_orderPair_iff (hnodup : elements.Nodup) {p : Text × Text} :
    (∃ q, orderPair elements.toArray p = .ok q) ↔ p.1 ∈ elements ∧ p.2 ∈ elements := by
  simp only [Prod.exists, orderPair_eq_ok_iff hnodup, exists_and_left, exists_and_right,
    List.mem_iff_getElem?]

/-- The order that is generated by numbers is the one that is generated by names. -/
theorem reflTransGen_iff_generatedOrder (hnodup : elements.Nodup)
    (hids : pairs.mapM (orderPair elements.toArray) = .ok ids) (ha : elements[a]? = some x)
    (hb : elements[b]? = some y) :
    Relation.ReflTransGen (fun i j => (i, j) ∈ ids) a b ↔ GeneratedOrder pairs x y := by
  have hplace : ∀ {i j : ElementId} {u : Text}, elements[i]? = some u → elements[j]? = some u →
      i = j := by
    intro i j u hi hj
    have hlt : i < elements.length := (List.getElem?_eq_some_iff.mp hi).1
    exact (List.getElem?_inj hlt hnodup).mp (hi.trans hj.symm)
  constructor
  · intro h
    induction h generalizing y with
    | refl =>
      obtain rfl : x = y := Option.some.inj (ha.symm.trans hb)
      exact .refl
    | tail _ hstep ih =>
      obtain ⟨p, hp, hpair⟩ := exists_of_mem_of_mapM_eq_ok hids hstep
      obtain ⟨hfirst, hsecond⟩ := (orderPair_eq_ok_iff hnodup).mp hpair
      obtain rfl : p.2 = y := Option.some.inj (hsecond.symm.trans hb)
      exact (ih hfirst).tail hp
  · intro h
    induction h generalizing b with
    | refl =>
      obtain rfl : a = b := hplace ha hb
      exact .refl
    | tail _ hstep ih =>
      obtain ⟨⟨i, j⟩, hq, hpair⟩ := exists_mem_of_mapM_eq_ok hids hstep
      obtain ⟨hfirst, hsecond⟩ := (orderPair_eq_ok_iff hnodup).mp hpair
      obtain rfl : j = b := hplace hsecond hb
      exact (ih hfirst).tail hq

/-- The closure of the numbers of the pairs is the generated order. -/
lemma reflects_closure (hnodup : elements.Nodup)
    (hids : pairs.mapM (orderPair elements.toArray) = .ok ids) :
    Reflects elements (closure elements.length ids).get (GeneratedOrder pairs) := by
  refine ⟨fun {a b x y} ha hb => ?_⟩
  have hlt : ∀ {i : ElementId} {u : Text}, elements[i]? = some u → i < elements.length :=
    fun hi => (List.getElem?_eq_some_iff.mp hi).1
  rw [closure_get_iff (lt_length_of_mapM_orderPair hids) (hlt ha) (hlt hb)]
  exact reflTransGen_iff_generatedOrder hnodup hids ha hb

end Numbers

/-! ## Top and bottom -/

section Extrema

variable {n : Nat} {R : ElementId → ElementId → Bool}

/-- A number above all others is the only one with nothing above it. -/
lemma exists_filter_maximal_eq_singleton (hn : 0 < n)
    (htrans : ∀ {a b c}, a < n → b < n → c < n → R a b = true → R b c = true → R a c = true)
    (hantisymm : ∀ {a b}, a < n → b < n → R a b = true → R b a = true → a = b)
    (hbound : ∀ a < n, ∀ b < n, ∃ j < n, R a j = true ∧ R b j = true) :
    ∃ t, ((List.range n).filter fun x => (List.range n).all fun y => x == y || !R x y) = [t] := by
  obtain ⟨t, ht, htop⟩ : ∃ t ∈ List.range n, ∀ a ∈ List.range n, R a t = true := by
    refine exists_greatest (List.mem_range.mpr hn) ?_ ?_
    · simpa only [List.mem_range] using fun a b c ha hb hc => htrans ha hb hc
    · simpa only [List.mem_range] using hbound
  simp only [List.mem_range] at ht htop
  refine ⟨t, List.perm_singleton.mp ?_⟩
  refine (List.perm_ext_iff_of_nodup (List.nodup_range.filter _) (List.nodup_singleton t)).mpr ?_
  intro x
  simp only [List.mem_filter, List.mem_range, List.all_eq_true, Bool.or_eq_true, beq_iff_eq,
    Bool.not_eq_true', List.mem_singleton]
  constructor
  · rintro ⟨hx, hmax⟩
    exact (hmax t ht).resolve_right (by simp [htop x hx])
  · rintro rfl
    refine ⟨ht, fun y hy => ?_⟩
    by_cases hxy : R x y = true
    · exact .inl (hantisymm ht hy hxy (htop y hy))
    · exact .inr (eq_false_of_ne_true hxy)

end Extrema

/-! ## What the checks of a build mean -/

section Checks

variable {elements : List Text} {order : Table Bool} {le : Text → Text → Prop}

/-- No antisymmetry fault is found exactly if the order on the names is antisymmetric. -/
lemma antisymmetryFault?_eq_none_iff_forall (h : Reflects elements order.get le)
    (hnodup : elements.Nodup) :
    antisymmetryFault? elements.toArray order = none ↔
      ∀ x ∈ elements, ∀ y ∈ elements, le x y → le y x → x = y := by
  rw [antisymmetryFault?_eq_none_iff]
  constructor
  · intro hfault x hx y hy hxy hyx
    obtain ⟨a, ha, rfl⟩ := List.getElem_of_mem hx
    obtain ⟨b, hb, rfl⟩ := List.getElem_of_mem hy
    have hga : elements[a]? = some elements[a] := List.getElem?_eq_getElem ha
    have hgb : elements[b]? = some elements[b] := List.getElem?_eq_getElem hb
    have hab : order.get a b = true := (h.iff hga hgb).mpr hxy
    have hba : order.get b a = true := (h.iff hgb hga).mpr hyx
    obtain rfl : a = b := eq_of_forall_lt_not hfault ha hb hab hba
    rfl
  · rintro hantisymm a b hlt (hb : b < elements.length) ⟨hab, hba⟩
    have ha : a < elements.length := Nat.lt_trans hlt hb
    have hga : elements[a]? = some elements[a] := List.getElem?_eq_getElem ha
    have hgb : elements[b]? = some elements[b] := List.getElem?_eq_getElem hb
    have heq := hantisymm _ (List.getElem_mem ha) _ (List.getElem_mem hb)
      ((h.iff hga hgb).mp hab) ((h.iff hgb hga).mp hba)
    exact Nat.ne_of_lt hlt (hnodup.getElem_inj_iff.mp heq)

/-- No bound fault is found exactly if every two numbers have a meet and a join. -/
lemma boundFault?_ofFn_eq_none_iff :
    boundFault? elements.toArray order
        (.ofFn elements.length fun a b => greatest? order (lowerBounds elements.length order a b))
        (.ofFn elements.length fun a b => least? order (upperBounds elements.length order a b)) =
        none ↔
      ∀ a < elements.length, ∀ b < elements.length,
        (∃ x, greatest? order (lowerBounds elements.length order a b) = some x) ∧
          ∃ x, least? order (upperBounds elements.length order a b) = some x := by
  rw [boundFault?_eq_none_iff]
  constructor
  · intro h
    have hle : ∀ a b, a ≤ b → b < elements.length →
        (∃ x, greatest? order (lowerBounds elements.length order a b) = some x) ∧
          ∃ x, least? order (upperBounds elements.length order a b) = some x := by
      intro a b hab hb
      have hbound := h a b hab hb
      rwa [Table.get_ofFn _ (Nat.lt_of_le_of_lt hab hb) hb,
        Table.get_ofFn _ (Nat.lt_of_le_of_lt hab hb) hb] at hbound
    intro a ha b hb
    rcases Nat.le_total a b with hab | hba
    · exact hle a b hab hb
    · rw [BuiltFrom.lowerBounds_comm, BuiltFrom.upperBounds_comm]
      exact hle b a hba ha
  · intro h a b hab (hb : b < elements.length)
    have ha : a < elements.length := Nat.lt_of_le_of_lt hab hb
    rw [Table.get_ofFn _ ha hb, Table.get_ofFn _ ha hb]
    exact h a ha b hb

/-- No bound fault is found exactly if every two names have a meet and a join. -/
lemma boundFault?_eq_none_iff_forall (h : Reflects elements order.get le) :
    boundFault? elements.toArray order
        (.ofFn elements.length fun a b => greatest? order (lowerBounds elements.length order a b))
        (.ofFn elements.length fun a b => least? order (upperBounds elements.length order a b)) =
        none ↔
      ∀ x ∈ elements, ∀ y ∈ elements, (∃ m, IsMeet elements le x y m) ∧
        ∃ j, IsJoin elements le x y j := by
  have hcell : ∀ {a b : ElementId} (ha : a < elements.length) (hb : b < elements.length),
      ((∃ x, greatest? order (lowerBounds elements.length order a b) = some x) ∧
          ∃ x, least? order (upperBounds elements.length order a b) = some x) ↔
        (∃ m, IsMeet elements le elements[a] elements[b] m) ∧
          ∃ j, IsJoin elements le elements[a] elements[b] j := by
    intro a b ha hb
    have hga : elements[a]? = some elements[a] := List.getElem?_eq_getElem ha
    have hgb : elements[b]? = some elements[b] := List.getElem?_eq_getElem hb
    rw [exists_greatest?_iff, exists_least?_iff]
    exact and_congr (h.exists_isMeet_iff hga hgb) (h.flip.exists_isMeet_iff hga hgb)
  rw [boundFault?_ofFn_eq_none_iff]
  constructor
  · intro hbound x hx y hy
    obtain ⟨a, ha, rfl⟩ := List.getElem_of_mem hx
    obtain ⟨b, hb, rfl⟩ := List.getElem_of_mem hy
    exact (hcell ha hb).mp (hbound a ha b hb)
  · intro hbound a ha b hb
    exact (hcell ha hb).mpr (hbound _ (List.getElem_mem ha) _ (List.getElem_mem hb))

/-- Behind the other checks, there is one maximal and one minimal element. -/
theorem exists_only_extrema (hne : elements ≠ []) {ids : List (ElementId × ElementId)}
    (hids : ∀ p ∈ ids, p.1 < elements.length ∧ p.2 < elements.length)
    (horder : order = closure elements.length ids)
    (hantisymm : antisymmetryFault? elements.toArray order = none)
    (hbound : boundFault? elements.toArray order
      (.ofFn elements.length fun a b => greatest? order (lowerBounds elements.length order a b))
      (.ofFn elements.length fun a b => least? order (upperBounds elements.length order a b)) =
      none) :
    (∃ top, maximal elements.length order = [top]) ∧
      ∃ bottom, minimal elements.length order = [bottom] := by
  have hpos : 0 < elements.length := List.length_pos_iff.mpr hne
  have htrans : ∀ {a b c}, a < elements.length → b < elements.length → c < elements.length →
      order.get a b = true → order.get b c = true → order.get a c = true := by
    intro a b c ha hb hc hab hbc
    rw [horder, closure_get_iff hids ha hb] at hab
    rw [horder, closure_get_iff hids hb hc] at hbc
    rw [horder, closure_get_iff hids ha hc]
    exact hab.trans hbc
  have hanti : ∀ {a b}, a < elements.length → b < elements.length →
      order.get a b = true → order.get b a = true → a = b :=
    eq_of_forall_lt_not (antisymmetryFault?_eq_none_iff.mp hantisymm)
  rw [boundFault?_ofFn_eq_none_iff] at hbound
  constructor
  · refine exists_filter_maximal_eq_singleton hpos htrans hanti fun a ha b hb => ?_
    obtain ⟨j, hj⟩ := (hbound a ha b hb).2
    exact ⟨j, by simpa [upperBounds] using (least?_eq_some hj).1⟩
  · refine exists_filter_maximal_eq_singleton hpos (fun ha hb hc hab hbc => htrans hc hb ha hbc hab)
      (fun ha hb hab hba => hanti ha hb hba hab) fun a ha b hb => ?_
    obtain ⟨m, hm⟩ := (hbound a ha b hb).1
    exact ⟨m, by simpa [lowerBounds] using (greatest?_eq_some hm).1⟩

end Checks

/-! ## Builds that succeed -/

section Build

variable {elements : List Text} {pairs : List (Text × Text)}

/-- A lattice presentation is built. -/
theorem exists_build_eq_ok (h : IsLatticePresentation elements pairs) :
    ∃ l, build elements pairs = .ok l := by
  have hdistinct : duplicate? [] elements = none :=
    duplicate?_eq_none_iff.mpr ⟨h.nodup, by simp⟩
  obtain ⟨ids, hids⟩ : ∃ ids, pairs.mapM (orderPair elements.toArray) = .ok ids :=
    exists_mapM_eq_ok fun p hp => (exists_orderPair_iff h.nodup).mpr (h.listed p hp)
  have hreflects := reflects_closure h.nodup hids
  have hantisymm := (antisymmetryFault?_eq_none_iff_forall hreflects h.nodup).mpr h.antisymm
  have hbound := (boundFault?_eq_none_iff_forall hreflects).mpr
    fun x hx y hy => ⟨h.meets x hx y hy, h.joins x hx y hy⟩
  obtain ⟨⟨top, htop⟩, bottom, hbottom⟩ :=
    exists_only_extrema h.nonempty (lt_length_of_mapM_orderPair hids) rfl hantisymm hbound
  unfold build
  simp only [throw_bind_eq, ite_throw_eq_ok_iff, bind_eq_ok_iff, exists_unit_iff, refuse_eq_ok_iff,
    List.isEmpty_iff, hdistinct, Option.map_none, hids, List.size_toArray, Except.ok.injEq,
    exists_eq_left', hantisymm, hbound, htop, hbottom, only?, true_and]
  exact ⟨_, h.nonempty, rfl⟩

/-- What is built comes from a lattice presentation. -/
theorem isLatticePresentation_of_build_eq_ok {l : FiniteLattice}
    (h : build elements pairs = .ok l) : IsLatticePresentation elements pairs := by
  have hbuild := h
  unfold build at h
  simp only [throw_bind_eq, ite_throw_eq_ok_iff, bind_eq_ok_iff, exists_unit_iff,
    refuse_eq_ok_iff, List.isEmpty_iff] at h
  obtain ⟨hne, hdistinct, ids, hids, hantisymm, hbound, -⟩ := h
  rw [Option.map_eq_none_iff, duplicate?_eq_none_iff] at hdistinct
  have hnodup : elements.Nodup := hdistinct.1
  have hreflects := reflects_closure hnodup hids
  have hbounds := (boundFault?_eq_none_iff_forall hreflects).mp hbound
  refine ⟨hne, hnodup, fun p hp => ?_, ?_, fun x hx y hy => (hbounds x hx y hy).1,
    fun x hx y hy => (hbounds x hx y hy).2⟩
  · exact (exists_orderPair_iff hnodup).mp (exists_eq_ok_of_mapM_eq_ok hids hp)
  · exact (antisymmetryFault?_eq_none_iff_forall hreflects hnodup).mp hantisymm

/-- A lattice has the elements and the order of a presentation, and its operations are best bounds
in that order. -/
structure IsLatticeOf (l : FiniteLattice) (elements : List Text) (pairs : List (Text × Text)) :
    Prop where
  names_eq : l.names.toList = elements
  leq_iff : ∀ a < l.size, ∀ b < l.size,
    (l.leq a b = true ↔ GeneratedOrder pairs (l.name a) (l.name b))
  meet : ∀ a < l.size, ∀ b < l.size, l.meet a b < l.size ∧
    IsMeet elements (GeneratedOrder pairs) (l.name a) (l.name b) (l.name (l.meet a b))
  join : ∀ a < l.size, ∀ b < l.size, l.join a b < l.size ∧
    IsJoin elements (GeneratedOrder pairs) (l.name a) (l.name b) (l.name (l.join a b))
  top : l.top < l.size ∧ ∀ x ∈ elements, GeneratedOrder pairs x (l.name l.top)
  bottom : l.bottom < l.size ∧ ∀ x ∈ elements, GeneratedOrder pairs (l.name l.bottom) x

/-- A built lattice is that of its presentation. -/
theorem isLatticeOf_of_build_eq_ok {l : FiniteLattice} (h : build elements pairs = .ok l) :
    l.IsLatticeOf elements pairs := by
  obtain ⟨ids, hids, hl⟩ := exists_builtFrom_of_build h
  have hlaws := hl.lawful
  have hsize : l.size = elements.length := by rw [size, hl.names_eq, List.size_toArray]
  have hreflects : Reflects elements l.leq (GeneratedOrder pairs) := by
    have hclosure := reflects_closure hl.nodup hids
    rw [← hsize, ← hl.order_eq] at hclosure
    exact hclosure
  have hname : ∀ {a}, a < l.size → elements[a]? = some (l.name a) := by
    intro a ha
    rw [hsize] at ha
    simp [name, hl.names_eq, ha]
  have hnumber : ∀ x ∈ elements, ∃ a < l.size, l.name a = x := by
    intro x hx
    obtain ⟨a, ha, rfl⟩ := List.getElem_of_mem hx
    exact ⟨a, hsize ▸ ha, by simp [name, hl.names_eq, ha]⟩
  refine ⟨by rw [hl.names_eq], fun a ha b hb => hreflects.iff (hname ha) (hname hb), ?_, ?_,
    ⟨hlaws.top_lt, ?_⟩, ⟨hlaws.bottom_lt, ?_⟩⟩
  · intro a ha b hb
    have hmeet : l.meet a b < l.size := hlaws.meet_lt ha hb
    refine ⟨hmeet, (hreflects.isMeet_iff (hname ha) (hname hb) (hname hmeet)).mpr ⟨?_, ?_, ?_⟩⟩
    · exact hlaws.meet_leq_left ha hb
    · exact hlaws.meet_leq_right ha hb
    · exact fun d hd hda hdb => hlaws.leq_meet ha hb (hsize ▸ hd) hda hdb
  · intro a ha b hb
    have hjoin : l.join a b < l.size := hlaws.join_lt ha hb
    refine ⟨hjoin, (hreflects.flip.isMeet_iff (hname ha) (hname hb) (hname hjoin)).mpr
      ⟨?_, ?_, ?_⟩⟩
    · exact hlaws.leq_join_left ha hb
    · exact hlaws.leq_join_right ha hb
    · exact fun d hd had hbd => hlaws.join_leq ha hb (hsize ▸ hd) had hbd
  · intro x hx
    obtain ⟨a, ha, rfl⟩ := hnumber x hx
    exact (hreflects.iff (hname ha) (hname hlaws.top_lt)).mp (hlaws.leq_top ha)
  · intro x hx
    obtain ⟨a, ha, rfl⟩ := hnumber x hx
    exact (hreflects.iff (hname hlaws.bottom_lt) (hname ha)).mp (hlaws.bottom_leq ha)

/-! ## Builds that fail -/

/-- A pair without numbers is refused for a name that is not listed. -/
lemma exists_unknown_of_orderPair_eq_error {names : Array Text} {p : Text × Text}
    {fault : LatticeFault} (h : orderPair names p = .error fault) :
    ∃ name, fault = .unknownInOrder p.1 p.2 name := by
  unfold orderPair at h
  split at h
  · simp at h
  · exact ⟨p.1, (Except.error.inj h).symm⟩
  · exact ⟨p.2, (Except.error.inj h).symm⟩

lemma exists_of_antisymmetryFault?_eq_some {names : Array Text} {order : Table Bool}
    {fault : LatticeFault} (h : antisymmetryFault? names order = some fault) :
    ∃ x y, fault = .notAntisymmetric x y := by
  obtain ⟨a, -, ha⟩ := List.exists_of_findSome?_eq_some h
  obtain ⟨b, -, hb⟩ := List.exists_of_findSome?_eq_some ha
  split at hb
  · exact ⟨_, _, (Option.some.inj hb).symm⟩
  · simp at hb

lemma exists_of_boundFault?_eq_some {names : Array Text} {order : Table Bool}
    {meets joins : Table (Option ElementId)} {fault : LatticeFault}
    (h : boundFault? names order meets joins = some fault) :
    ∃ x y bounds, fault = .noMeet x y bounds ∨ fault = .noJoin x y bounds := by
  obtain ⟨a, -, ha⟩ := List.exists_of_findSome?_eq_some h
  obtain ⟨b, -, hb⟩ := List.exists_of_findSome?_eq_some ha
  split at hb
  · exact ⟨_, _, _, .inl (Option.some.inj hb).symm⟩
  · split at hb
    · exact ⟨_, _, _, .inr (Option.some.inj hb).symm⟩
    · simp at hb

/-- No presentation is refused for its top or its bottom: an order that passes the other checks has
both. -/
theorem ne_extremumFault_of_build_eq_error {fault : LatticeFault}
    (h : build elements pairs = .error fault) (names : List Text) :
    fault ≠ .topNotUnique names ∧ fault ≠ .bottomNotUnique names := by
  unfold build at h
  by_cases hne : elements = []
  · subst hne
    obtain rfl : LatticeFault.noElements = fault := Except.error.inj h
    simp
  simp only [List.isEmpty_iff, hne, if_false, bind_eq_error_iff, refuse_eq_error_iff,
    exists_unit_iff, refuse_eq_ok_iff, List.size_toArray] at h
  rcases h with h | ⟨-, h | ⟨ids, hids, h | ⟨hantisymm, h | ⟨hbound, h⟩⟩⟩⟩
  · obtain ⟨name, -, rfl⟩ := Option.map_eq_some_iff.mp h
    simp
  · obtain ⟨p, -, hp⟩ := exists_of_mapM_eq_error h
    obtain ⟨name, rfl⟩ := exists_unknown_of_orderPair_eq_error hp
    simp
  · obtain ⟨x, y, rfl⟩ := exists_of_antisymmetryFault?_eq_some h
    simp
  · obtain ⟨x, y, bounds, rfl | rfl⟩ := exists_of_boundFault?_eq_some h
    all_goals simp
  · obtain ⟨⟨top, htop⟩, bottom, hbottom⟩ :=
      exists_only_extrema hne (lt_length_of_mapM_orderPair hids) rfl hantisymm hbound
    simp [htop, hbottom, only?, pure, Except.pure] at h

/-! ## The main statement -/

/-- Exactly the lattice presentations are built, all others are refused, and none for its top or its
bottom.  What is built is the lattice of the presentation. -/
theorem build_spec (elements : List Text) (pairs : List (Text × Text)) :
    ((∃ l, build elements pairs = .ok l) ↔ IsLatticePresentation elements pairs) ∧
    ((∃ fault, build elements pairs = .error fault) ↔ ¬IsLatticePresentation elements pairs) ∧
    (∀ fault, build elements pairs = .error fault →
      ∀ names, fault ≠ .topNotUnique names ∧ fault ≠ .bottomNotUnique names) ∧
    ∀ l, build elements pairs = .ok l → l.IsLatticeOf elements pairs := by
  have hiff : (∃ l, build elements pairs = .ok l) ↔ IsLatticePresentation elements pairs :=
    ⟨fun ⟨_, hl⟩ => isLatticePresentation_of_build_eq_ok hl, exists_build_eq_ok⟩
  refine ⟨hiff, ?_, fun fault hfault => ne_extremumFault_of_build_eq_error hfault,
    fun l hl => isLatticeOf_of_build_eq_ok hl⟩
  rw [← hiff]
  cases build elements pairs <;> simp

/-- In the pentagon, `c` stands beside the chain from `a` to `b`. -/
theorem build_spec_of_pentagon :
    let elements := ["0", "a", "b", "c", "1"].map ascii
    let pairs := [("0", "a"), ("a", "b"), ("b", "1"), ("0", "c"), ("c", "1")].map
      fun p => (ascii p.1, ascii p.2)
    ((∃ l, build elements pairs = .ok l) ↔ IsLatticePresentation elements pairs) ∧
    ((∃ fault, build elements pairs = .error fault) ↔ ¬IsLatticePresentation elements pairs) ∧
    (∀ fault, build elements pairs = .error fault →
      ∀ names, fault ≠ .topNotUnique names ∧ fault ≠ .bottomNotUnique names) ∧
    (∀ l, build elements pairs = .ok l → l.IsLatticeOf elements pairs) ∧
    ((build elements pairs).toOption.map fun l =>
      (l.leq 0 2, l.leq 1 3, l.meet 2 3, l.join 1 3, l.top, l.bottom)) =
        some (true, false, 0, 4, 4, 0) := by
  intro elements pairs
  obtain ⟨hok, herror, hextremum, hlattice⟩ := build_spec elements pairs
  refine ⟨hok, herror, hextremum, hlattice, ?_⟩
  decide +kernel

end Build

end FiniteLattice

end TwistLogic
