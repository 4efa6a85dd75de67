import Mathlib.Data.Finset.Card
import TwistLogic.Proofs.Formula.Descent
import TwistLogic.Proofs.Formula.HashConsing

/-!
# What a reading appends

`Formula.postorder` walks over a formula and lists the subformulas as they are completed.  A store
that a formula is added to keeps its nodes, and behind them it gets one node for each of those
subformulas that it did not hold, in the order of their first places in the walk
(`FormulaStore.Made.appends_add`).

The step is that of one root over operands that the store holds: either the store has the formula,
and nothing happens, or one node is appended (`Made.appends_root`).  Steps are put together by
`Appends.append`, as what is missing of two lists is what is missing of the first, followed by what
is still missing of the second.

A source is read by `FormulaStore.descend`, so this also says in which order the nodes appear while
the source is being read.
-/

namespace TwistLogic

/-! ## First occurrences -/

section FirstOccurrences

variable {α : Type} [DecidableEq α]

/-- Repetitions may be left out before or after other members are. -/
lemma eraseDups_filter (p : α → Bool) (xs : List α) :
    (xs.filter p).eraseDups = xs.eraseDups.filter p := by
  match xs with
  | [] => rfl
  | x :: xs =>
    have hlt : (xs.filter fun y => !y == x).length < xs.length + 1 :=
      Nat.lt_succ_of_le (List.length_filter_le _ _)
    have ih := eraseDups_filter p (xs.filter fun y => !y == x)
    rw [List.filter_filter] at ih
    by_cases hx : p x
    · rw [List.filter_cons_of_pos hx, List.eraseDups_cons, List.eraseDups_cons,
        List.filter_cons_of_pos hx, List.filter_filter, ← ih]
      simp only [Bool.and_comm]
    · rw [List.filter_cons_of_neg hx, List.eraseDups_cons, List.filter_cons_of_neg hx, ← ih]
      congr 1
      refine List.filter_congr fun y _ => ?_
      by_cases hy : y = x <;> simp [hy, hx]
termination_by xs.length

lemma nodup_eraseDups (xs : List α) : xs.eraseDups.Nodup := by
  match xs with
  | [] => exact List.nodup_nil
  | x :: xs =>
    have hlt : (xs.filter fun y => !y == x).length < xs.length + 1 :=
      Nat.lt_succ_of_le (List.length_filter_le _ _)
    rw [List.eraseDups_cons, List.nodup_cons]
    exact ⟨by simp, nodup_eraseDups _⟩
termination_by xs.length

end FirstOccurrences

/-- The subformulas of a formula in the order in which a walk from left to right completes them. -/
def Formula.postorder : Formula → List Formula
  | top => [top]
  | bot => [bot]
  | atom name => [atom name]
  | neg φ => φ.postorder ++ [neg φ]
  | binary c φ ψ => φ.postorder ++ ψ.postorder ++ [binary c φ ψ]
  | modal m action φ => φ.postorder ++ [modal m action φ]

namespace FormulaStore

/-! ## What is missing -/

/-- The formulas of a store, by their numbers. -/
def formulas (s : FormulaStore) : List Formula := (List.range s.size).filterMap s.tree?

/-- The members of a list that a store does not hold, each at its first place. -/
def missing (s : FormulaStore) (φs : List Formula) : List Formula :=
  φs.eraseDups.filter (· ∉ s.formulas)

/-- The store `s'` has all nodes of `s` and behind them one node for each formula of a list. -/
structure Appends (s : FormulaStore) (φs : List Formula) (s' : FormulaStore) : Prop where
  keeps : s.Extends s'
  size_eq : s'.size = s.size + φs.length
  tree?_eq : ∀ i φ, φs[i]? = some φ → s'.tree? (s.size + i) = some φ

variable {s s' s'' : FormulaStore} {φ ψ : Formula} {φs ψs : List Formula}

lemma mem_formulas : φ ∈ s.formulas ↔ ∃ id, s.Denotes id φ := by
  simp only [formulas, List.mem_filterMap, List.mem_range, tree?_eq_some_iff]
  exact ⟨fun ⟨id, _, hid⟩ => ⟨id, hid⟩, fun ⟨id, hid⟩ => ⟨id, hid.lt_size, hid⟩⟩

lemma mem_missing : φ ∈ s.missing φs ↔ φ ∈ φs ∧ φ ∉ s.formulas := by
  simp [missing]

lemma nodup_missing : (s.missing φs).Nodup := (nodup_eraseDups φs).filter _

/-- What is missing of two lists, if the second meets a store with all of the first. -/
lemma missing_append (h : ∀ φ, φ ∈ s'.formulas ↔ φ ∈ s.formulas ∨ φ ∈ φs) :
    s.missing (φs ++ ψs) = s.missing φs ++ s'.missing ψs := by
  simp only [missing, List.eraseDups_append, List.filter_append, List.removeAll, eraseDups_filter,
    List.filter_filter]
  congr 1
  refine List.filter_congr fun φ _ => ?_
  simp [h, not_or]

namespace Appends

lemma refl : s.Appends [] s := ⟨fun _ _ hn => hn, rfl, nofun⟩

lemma trans (h : s.Appends φs s') (h' : s'.Appends ψs s'') : s.Appends (φs ++ ψs) s'' := by
  refine ⟨h.keeps.trans h'.keeps, ?_, fun i φ hi => ?_⟩
  · rw [h'.size_eq, h.size_eq, List.length_append, Nat.add_assoc]
  · rcases Nat.lt_or_ge i φs.length with hlt | hge
    · rw [List.getElem?_append_left hlt] at hi
      have hold := tree?_eq_some_iff.mp (h.tree?_eq i φ hi)
      exact tree?_eq_some_iff.mpr (hold.mono h'.keeps)
    · rw [List.getElem?_append_right hge] at hi
      have hnew := h'.tree?_eq _ φ hi
      rwa [h.size_eq, Nat.add_assoc, Nat.add_sub_cancel' hge] at hnew

/-- The store holds what it held and what was appended, and nothing else. -/
lemma mem_formulas_iff (h : s.Appends φs s') (hs : s.Built) :
    φ ∈ s'.formulas ↔ φ ∈ s.formulas ∨ φ ∈ φs := by
  simp only [mem_formulas]
  constructor
  · rintro ⟨id, hid⟩
    rcases Nat.lt_or_ge id s.size with hlt | hge
    · obtain ⟨ψ, hψ⟩ := hs.exists_denotes id hlt
      rw [(hψ.mono h.keeps).unique hid] at hψ
      exact .inl ⟨id, hψ⟩
    · obtain ⟨i, rfl⟩ := Nat.exists_eq_add_of_le hge
      have hi : i < φs.length := by
        have hsize := hid.lt_size
        rw [h.size_eq] at hsize
        exact Nat.lt_of_add_lt_add_left hsize
      have hnew := tree?_eq_some_iff.mp (h.tree?_eq i _ (List.getElem?_eq_getElem hi))
      exact .inr (hid.unique hnew ▸ List.getElem_mem hi)
  · rintro (⟨id, hid⟩ | hφ)
    · exact ⟨id, hid.mono h.keeps⟩
    · obtain ⟨i, hi⟩ := List.mem_iff_getElem?.mp hφ
      exact ⟨s.size + i, tree?_eq_some_iff.mp (h.tree?_eq i φ hi)⟩

/-- What is missing of a list is appended part by part. -/
lemma append (h : s.Appends (s.missing φs) s') (h' : s'.Appends (s'.missing ψs) s'')
    (hs : s.Built) : s.Appends (s.missing (φs ++ ψs)) s'' := by
  have hheld : ∀ φ, φ ∈ s'.formulas ↔ φ ∈ s.formulas ∨ φ ∈ φs := by
    intro φ
    rw [h.mem_formulas_iff hs, mem_missing]
    tauto
  rw [missing_append hheld]
  exact h.trans h'

end Appends

/-! ## Adding formulas -/

namespace Made

/-- A root over operands that the store holds is there already or becomes the next node. -/
lemma appends_root (hs : s.Made fun _ => True) {n : Node} (hadd : s.add φ = s.intern n) :
    s.Appends (s.missing [φ]) (s.intern n).2 := by
  have hnew : (s.intern n).2.Denotes (s.intern n).1 φ := hadd ▸ (hs.exact.add_spec φ).2.2
  by_cases hφ : φ ∈ s.formulas
  · obtain ⟨id, hid⟩ := mem_formulas.mp hφ
    have hnone : s.missing [φ] = [] := by simp [missing, hφ]
    rw [hnone, ← hadd, hs.add_eq_of_denotes hid]
    exact .refl
  · have hone : s.missing [φ] = [φ] := by simp [missing, List.eraseDups_cons, hφ]
    have hindex : s.index[n]? = none := by
      refine Option.eq_none_iff_forall_not_mem.mpr fun id hid => hφ (mem_formulas.mpr ⟨id, ?_⟩)
      rwa [intern_of_some hid] at hnew
    refine ⟨extends_intern s n, ?_, fun i ψ hi => ?_⟩
    · rw [hone, intern_of_none hindex]
      exact Array.size_push _
    · obtain ⟨rfl, rfl⟩ : i = 0 ∧ φ = ψ := by
        rw [hone] at hi
        cases i with
        | zero => exact ⟨rfl, Option.some.inj hi⟩
        | succ i => cases hi
      rw [intern_of_none hindex] at hnew ⊢
      exact tree?_eq_some_iff.mpr hnew

/-- A formula that was added is found again. -/
lemma add_add (hs : s.Made fun _ => True) (φ : Formula) :
    (s.add φ).2.Made (fun _ => True) ∧ (s.add φ).2.add φ = s.add φ := by
  have hmade := hs.grows (hs.exact.grows_add (φ := φ) fun _ _ => trivial)
  exact ⟨hmade, hmade.add_eq_of_denotes (hs.exact.add_spec φ).2.2⟩

/-- Adding a formula appends its missing subformulas as they are completed. -/
theorem appends_add (hs : s.Made fun _ => True) (φ : Formula) :
    s.Appends (s.missing φ.postorder) (s.add φ).2 := by
  induction φ generalizing s with
  | top | bot | atom name => exact hs.appends_root rfl
  | neg φ ih | modal m action φ ih =>
    obtain ⟨hmade, hadd⟩ := hs.add_add φ
    refine (ih hs).append (hmade.appends_root ?_) hs.built
    rw [add, hadd]
  | binary c φ ψ ihl ihr =>
    obtain ⟨hmade, hadd⟩ := hs.add_add φ
    obtain ⟨hmade', hadd'⟩ := hmade.add_add ψ
    have hboth := (ihl hs).append (ihr hmade) hs.built
    refine hboth.append (hmade'.appends_root ?_) hs.built
    have hφ : ((s.add φ).2.add ψ).2.add φ = ((s.add φ).1, ((s.add φ).2.add ψ).2) :=
      hmade'.add_eq_of_denotes
        ((hs.exact.add_spec φ).2.2.mono (hmade.exact.add_spec ψ).2.1)
    rw [add, hφ]
    dsimp only
    rw [hadd']

/-- Formulas that are added one after the other append what is missing of them. -/
lemma appends_addAll (hs : s.Made fun _ => True) (φs : List Formula) :
    s.Appends (s.missing (φs.flatMap Formula.postorder)) (s.addAll φs) := by
  induction φs generalizing s with
  | nil => exact .refl
  | cons φ φs ih => exact (hs.appends_add φ).append (ih (hs.add_add φ).1) hs.built

end Made

/-! ## Reading a source -/

lemma formulas_initial : initial.formulas = [.top, .bot] := by
  decide +kernel

/-- How many formulas are missing, repetitions left out. -/
lemma length_missing :
    (s.missing φs).length = (φs.toFinset.filter (· ∉ s.formulas)).card := by
  rw [← List.toFinset_card_of_nodup nodup_missing]
  congr 1
  ext φ
  simp [mem_missing]

/-- A source is read by descent.  If it is read, then the nodes that its subformulas miss in the
store are appended in the order in which they are completed, and nothing else happens to the store;
in particular the initial store gets one node for each subformula that is no constant.  A failed
reading appends what is missing of the formulas that it had completed. -/
theorem parse_appends (hs : s.Made fun _ => True) (source : Text) (line : UInt32) :
    s.descend source line = s.parse source line ∧
    (s.parse source line).2.Made (fun _ => True) ∧
    match s.parse source line with
    | (.ok id, s') =>
      ∃ φ, s'.tree? id = some φ ∧ s.Appends (s.missing φ.postorder) s' ∧
        (s = .initial → s'.size =
          2 + (φ.postorder.toFinset.filter fun ψ => ψ ≠ .top ∧ ψ ≠ .bot).card)
    | (.error _, s') =>
      ∃ φs : List Formula, s.Appends (s.missing (φs.flatMap Formula.postorder)) s' := by
  refine ⟨descend_eq_parse s source line, hs.grows (hs.exact.addRead_spec _).1, ?_⟩
  rw [parse]
  cases hread : Formula.read source line with
  | error f => exact ⟨f.completed, hs.appends_addAll f.completed⟩
  | ok φ =>
    have happends := hs.appends_add φ
    refine ⟨φ, tree?_eq_some_iff.mpr (hs.exact.add_spec φ).2.2, happends, ?_⟩
    rintro rfl
    rw [happends.size_eq, length_missing]
    simp only [formulas_initial, List.mem_cons, List.not_mem_nil, or_false, not_or]
    rfl

/-- A store that holds `p & q` gets one node for each of the three steps that follow. -/
theorem parse_appends_of_conjunction :
    let s := (initial.parse (ascii "p & q") 1).2
    let s' := (s.parse (ascii "(p & q) => ~p => p & q") 1).2
    ∃ φ, s'.tree? 7 = some φ ∧ s.Appends (s.missing φ.postorder) s' ∧
      (s.missing φ.postorder).map Formula.text =
        [ascii "(~p)", ascii "((~p) => (p & q))", ascii "((p & q) => ((~p) => (p & q)))"] := by
  intro s s'
  have hs : s.Made fun _ => True := (parse_appends .refl (ascii "p & q") 1).2.1
  have hid : (s.parse (ascii "(p & q) => ~p => p & q") 1).1 = .ok 7 := by decide +kernel
  have hparse : s.parse (ascii "(p & q) => ~p => p & q") 1 = (.ok 7, s') := Prod.ext hid rfl
  have hspec := (parse_appends hs (ascii "(p & q) => ~p => p & q") 1).2.2
  rw [hparse] at hspec
  obtain ⟨φ, htree, happends, -⟩ := hspec
  refine ⟨φ, htree, happends, ?_⟩
  have htexts : (s'.tree? 7).map (fun φ => (s.missing φ.postorder).map Formula.text) =
      some [ascii "(~p)", ascii "((~p) => (p & q))", ascii "((p & q) => ((~p) => (p & q)))"] := by
    decide +kernel
  rw [htree] at htexts
  exact Option.some.inj htexts

end FormulaStore

end TwistLogic
