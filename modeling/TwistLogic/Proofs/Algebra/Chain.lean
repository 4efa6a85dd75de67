import TwistLogic.CommandLine.Run
import TwistLogic.Proofs.Algebra.Extension
import TwistLogic.Proofs.Algebra.Monotone

/-!
# Algebras by name

A name selects an algebra if it is `boolean`, or the name of a family, a colon and a text that is
read as a size, where the size is at least two and leaves room for the tables
(`Chain.ofSpecWithin_eq_ok_iff`).  What it selects is an algebra that was built and extended like
every other, so the twist structure over it is generated (`CommandLine.generated_of_twistOf`).
-/

namespace TwistLogic

/-- The name of a family. -/
def ChainFamily.name : ChainFamily → Text
  | goedel => ascii "goedel"
  | lukasiewicz => ascii "lukasiewicz"

lemma ChainFamily.ofName?_eq_some_iff {family : ChainFamily} {name : Text} :
    ofName? name = some family ↔ name = family.name := by
  unfold ofName?
  constructor
  · intro h
    split at h
    next heq =>
      cases h
      exact heq
    next =>
      split at h
      next heq =>
        cases h
        exact heq
      next => cases h
  · rintro rfl
    cases family <;> rfl

namespace Chain

variable {family : ChainFamily} {n cells : Nat} {spec size : Text} {r : ResiduatedLattice}

lemma size_of_lattice {l : FiniteLattice} (h : lattice n = .ok l) : l.size = n := by
  obtain ⟨ids, -, hbuilt⟩ := FiniteLattice.exists_builtFrom_of_build h
  rw [FiniteLattice.size, hbuilt.names_eq]
  simp [elementNames]

/-- The rows of the product table of a chain. -/
def rows (family : ChainFamily) (n : Nat) : List (List ElementId) :=
  (List.range n).map fun a => (List.range n).map fun b => family.product n a b

/-- What is built is the lattice of a chain, extended by the product of the family. -/
lemma build_eq_ok_iff :
    build family n = .ok r ↔
      ∃ l, lattice n = .ok l ∧ ResiduatedLattice.extend l (rows family n) = .ok r := by
  unfold build
  simp only [bind_eq_ok_iff, mapError_eq_ok_iff]
  rfl

lemma exists_of_build (h : build family n = .ok r) :
    ∃ elements pairs l rows, FiniteLattice.build elements pairs = .ok l ∧
      ResiduatedLattice.extend l rows = .ok r := by
  obtain ⟨l, hl, hr⟩ := build_eq_ok_iff.mp h
  exact ⟨_, _, l, _, hl, hr⟩

/-- A chain has as many elements as it was asked for. -/
lemma size_of_build (h : build family n = .ok r) : r.size = n := by
  obtain ⟨l, hl, hr⟩ := build_eq_ok_iff.mp h
  obtain ⟨-, rfl, -, -⟩ := ResiduatedLattice.of_extend_eq_ok hr
  exact size_of_lattice hl

/-! ## Names -/

/-- A size is what is read behind the colon, if it is at least two, not too long for a list of
names, and leaves room for a cell for every pair. -/
lemma sizeOfSpec_eq_ok_iff :
    sizeOfSpec cells spec size = .ok n ↔
      size.readWord64 = some n ∧ 2 ≤ n ∧ n ≤ maxLength ∧ n * n ≤ cells := by
  have hguard : ∀ {p : Prop} [Decidable p] {e : AlgebraError} {x : Except AlgebraError Nat},
      (if p then .error e else x) = .ok n ↔ ¬p ∧ x = .ok n := ite_throw_eq_ok_iff
  have hroom : ∀ m, (if fits cells m then .ok m else .error .outOfMemory) =
      (.ok n : Except AlgebraError Nat) ↔ m * m ≤ cells ∧ m = n := by
    intro m
    by_cases hfits : m * m ≤ cells <;> simp [fits, hfits]
  unfold sizeOfSpec
  cases size.readWord64 with
  | none => simp
  | some m =>
    simp only [hguard, hroom, Nat.not_lt, Option.some.injEq]
    constructor
    · rintro ⟨htwo, hlength, hfits, rfl⟩
      exact ⟨rfl, htwo, hlength, hfits⟩
    · rintro ⟨rfl, htwo, hlength, hfits⟩
      exact ⟨htwo, hlength, hfits, rfl⟩

lemma colon_notMem_name (family : ChainFamily) : byte ':' ∉ family.name := by
  cases family <;> decide

/-- A text with a colon is cut at the first one. -/
lemma cut_at_colon_iff {name : Text} (hname : byte ':' ∉ name) :
    spec.takeWhile (· != byte ':') = name ∧ (∃ c, spec.dropWhile (· != byte ':') = c :: size) ↔
      spec = name ++ byte ':' :: size := by
  constructor
  · rintro ⟨rfl, c, hc⟩
    obtain rfl : c = byte ':' := by
      have hhead := List.head?_dropWhile_not (· != byte ':') spec
      simpa [hc] using hhead
    rw [← hc, List.takeWhile_append_dropWhile]
  · rintro rfl
    have hpos : ∀ c ∈ name, (c != byte ':') = true := fun c hc =>
      bne_iff_ne.mpr fun heq => hname (heq ▸ hc)
    rw [List.takeWhile_append_of_pos hpos, List.dropWhile_append_of_pos hpos]
    exact ⟨by simp, _, List.dropWhile_cons_of_neg (by simp)⟩

/-- A name tells which family is meant, and what stands behind the colon. -/
lemma name_append_inj {family' : ChainFamily} {size' : Text}
    (h : family.name ++ ascii ":" ++ size = family'.name ++ ascii ":" ++ size') :
    family = family' ∧ size = size' := by
  rw [List.append_assoc, List.append_assoc] at h
  generalize hspec : family.name ++ (ascii ":" ++ size) = spec at h
  obtain ⟨hname, c, hsize⟩ := (cut_at_colon_iff (colon_notMem_name family)).mpr hspec.symm
  obtain ⟨hname', c', hsize'⟩ := (cut_at_colon_iff (colon_notMem_name family')).mpr h
  constructor
  · rw [← Option.some_inj, ← ChainFamily.ofName?_eq_some_iff.mpr hname]
    exact ChainFamily.ofName?_eq_some_iff.mpr hname'
  · exact (List.cons.inj (hsize.symm.trans hsize')).2

/-- The names that select an algebra, and the algebras that they select. -/
theorem ofSpecWithin_eq_ok_iff :
    ofSpecWithin cells spec = .ok r ↔
      spec = ascii "boolean" ∧ build .goedel 2 = .ok r ∨
      ∃ family size n, spec = ChainFamily.name family ++ ascii ":" ++ size ∧
        size.readWord64 = some n ∧ 2 ≤ n ∧ n ≤ maxLength ∧ n * n ≤ cells ∧
        build family n = .ok r := by
  have hcut : ∀ {family : ChainFamily} {size : Text},
      spec = family.name ++ ascii ":" ++ size ↔
        ChainFamily.ofName? (spec.takeWhile (· != byte ':')) = some family ∧
          ∃ c, spec.dropWhile (· != byte ':') = c :: size := by
    intro family size
    rw [ChainFamily.ofName?_eq_some_iff, List.append_assoc]
    exact (cut_at_colon_iff (colon_notMem_name family)).symm
  simp only [hcut]
  unfold ofSpecWithin
  by_cases hboolean : spec = ascii "boolean"
  · -- there is no colon in this name
    subst hboolean
    have hnone : (ascii "boolean").dropWhile (· != byte ':') = [] := by decide
    simp [hnone]
  simp only [hboolean, if_false, false_and, false_or]
  cases hrest : spec.dropWhile (· != byte ':') with
  | nil => simp
  | cons c size =>
    cases hfamily : ChainFamily.ofName? (spec.takeWhile (· != byte ':')) with
    | none => simp
    | some family =>
      simp only [bind_eq_ok_iff, sizeOfSpec_eq_ok_iff]
      constructor
      · rintro ⟨n, ⟨hread, htwo, hlength, hfits⟩, hbuild⟩
        exact ⟨family, size, n, ⟨rfl, c, rfl⟩, hread, htwo, hlength, hfits, hbuild⟩
      · rintro ⟨family', size', n, ⟨hfamily', c', hsize'⟩, hread, htwo, hlength, hfits, hbuild⟩
        cases hfamily'
        cases hsize'
        exact ⟨n, ⟨hread, htwo, hlength, hfits⟩, hbuild⟩

/-- What a name selects is a chain. -/
lemma exists_build_of_ofSpecWithin (h : ofSpecWithin cells spec = .ok r) :
    ∃ family n, build family n = .ok r := by
  rcases ofSpecWithin_eq_ok_iff.mp h with ⟨-, hbuild⟩ | ⟨family, _, n, -, -, -, -, -, hbuild⟩
  · exact ⟨.goedel, 2, hbuild⟩
  · exact ⟨family, n, hbuild⟩

end Chain

/-- The twist structures that the command line selects are generated. -/
theorem CommandLine.generated_of_twistOf {cells : Nat} {spec : Text} {ts : TwistStructure}
    (h : twistOf cells spec = .ok ts) : ts.Generated := by
  obtain ⟨r, hr, hts⟩ := bind_eq_ok_iff.mp h
  obtain ⟨family, n, hbuild⟩ := Chain.exists_build_of_ofSpecWithin hr
  obtain ⟨elements, pairs, l, rows, hl, hextend⟩ := Chain.exists_of_build hbuild
  exact ⟨elements, pairs, l, rows, r, hl, hextend, hts⟩

end TwistLogic
