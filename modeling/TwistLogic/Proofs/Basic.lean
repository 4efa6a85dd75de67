import Mathlib.Data.List.Forall2
import Mathlib.Data.List.Nodup
import Mathlib.Tactic.Common
import TwistLogic.Algebra.Lattice
import TwistLogic.Formula.Store

/-!
# Checks and search trees

A computation that may be refused succeeds if each of its steps does.  The lemmas on outcomes take a
sequence of checks apart, so that what a successful check establishes can be read off.
`getElem?_insert_eq_ite` is the look-up law of the search trees, whose keys compare as equal only if
they are equal, and `getElem?_flatMap_map` that of tables whose rows stand one after the other.
-/

namespace TwistLogic

/-- Looking a key up after an insertion, when only equal keys compare as equal. -/
lemma getElem?_insert_eq_ite {α β : Type} [Ord α] [Std.TransOrd α] [Std.LawfulEqOrd α]
    [DecidableEq α] (t : Std.TreeMap α β) (a b : α) (v : β) :
    (t.insert a v)[b]? = if a = b then some v else t[b]? := by
  rw [Std.TreeMap.getElem?_insert]
  simp only [Std.LawfulEqCmp.compare_eq_iff_eq]

/-- Looking a key up in a tree that is made of entries with distinct keys. -/
lemma getElem?_ofList_iff {α β : Type} [Ord α] [Std.TransOrd α] [Std.LawfulEqOrd α]
    [DecidableEq α] {entries : List (α × β)} (hkeys : (entries.map Prod.fst).Nodup) {a : α} {v : β} :
    (Std.TreeMap.ofList entries compare)[a]? = some v ↔ (a, v) ∈ entries := by
  have hdistinct : entries.Pairwise fun e e' => ¬compare e.1 e'.1 = .eq := by
    simp only [Std.LawfulEqCmp.compare_eq_iff_eq]
    exact List.pairwise_map.mp hkeys
  have hmem : ∀ {v}, (a, v) ∈ entries → (Std.TreeMap.ofList entries compare)[a]? = some v :=
    fun h => Std.TreeMap.getElem?_ofList_of_mem Std.ReflCmp.compare_self hdistinct h
  refine ⟨fun h => ?_, hmem⟩
  by_cases ha : a ∈ entries.map Prod.fst
  · obtain ⟨⟨_, v'⟩, he, rfl⟩ := List.mem_map.mp ha
    rwa [← Option.some.inj ((hmem he).symm.trans h)]
  · rw [Std.TreeMap.getElem?_ofList_of_contains_eq_false (by simpa using ha)] at h
    cases h

/-- Among distinct members of a list, each is found at the one place where it stands. -/
lemma idxOf?_eq_some_iff_of_nodup {α : Type} [BEq α] [LawfulBEq α] {xs : List α}
    (hnodup : xs.Nodup) {x : α} {i : Nat} : xs.idxOf? x = some i ↔ xs[i]? = some x := by
  rw [List.idxOf?_eq_some_iff, List.getElem?_eq_some_iff]
  constructor
  · rintro ⟨hi, heq, -⟩
    exact ⟨hi, heq⟩
  · rintro ⟨hi, heq⟩
    refine ⟨hi, heq, fun j hj hx => ?_⟩
    exact Nat.ne_of_lt hj (hnodup.getElem_inj_iff.mp (hx.trans heq.symm))

/-- Lists whose members agree in pairs on two functions have the same images. -/
lemma map_eq_map_of_forall₂ {α β γ : Type} {R : α → β → Prop} {g : α → γ} {g' : β → γ}
    (hR : ∀ x y, R x y → g' y = g x) {xs : List α} {ys : List β} (h : List.Forall₂ R xs ys) :
    ys.map g' = xs.map g := by
  induction h with
  | nil => rfl
  | cons hxy _ ih => rw [List.map_cons, List.map_cons, hR _ _ hxy, ih]

/-- Searches that agree on the members of a list find the same. -/
lemma findSome?_congr {α β : Type} {f g : α → Option β} {xs : List α}
    (h : ∀ x ∈ xs, f x = g x) : xs.findSome? f = xs.findSome? g := by
  rw [← List.head?_filterMap, List.filterMap_congr h, List.head?_filterMap]

/-- Rows of equal length, put one after the other: the entry in column `j` of row `i` stands at `j`
behind `i` whole rows. -/
lemma getElem?_flatMap_map {α β γ : Type} (g : α → β → γ) {xs : List α} {ys : List β} {i j : Nat}
    {x : α} {y : β} (hx : xs[i]? = some x) (hy : ys[j]? = some y) :
    (xs.flatMap fun x => ys.map (g x))[i * ys.length + j]? = some (g x y) := by
  induction xs generalizing i with
  | nil => simp at hx
  | cons x' xs ih =>
    rw [List.flatMap_cons]
    cases i with
    | zero =>
      obtain rfl : x' = x := by simpa using hx
      have hj : j < ys.length := (List.getElem?_eq_some_iff.mp hy).1
      rw [Nat.zero_mul, Nat.zero_add, List.getElem?_append_left (by simpa using hj),
        List.getElem?_map, hy, Option.map_some]
    | succ i =>
      -- the first row ends before the place
      have hplace : (i + 1) * ys.length + j = (ys.map (g x')).length + (i * ys.length + j) := by
        rw [List.length_map, Nat.add_mul, Nat.one_mul]
        omega
      rw [hplace, List.getElem?_append_right (Nat.le_add_right _ _), Nat.add_sub_cancel_left]
      exact ih (by simpa using hx)

/-- Two nested loops that append one entry after the other make the rows one after the other. -/
lemma foldl_foldl_push {α β γ : Type} (g : α → β → γ) (xs : List α) (ys : List β)
    (entries : Array γ) :
    xs.foldl (fun entries x => ys.foldl (fun entries y => entries.push (g x y)) entries) entries =
      entries ++ (xs.flatMap fun x => ys.map (g x)).toArray := by
  calc
    _ = (xs.flatMap fun x => ys.map (g x)).foldl (fun entries z => entries.push (id z))
        entries := by
      simp only [List.foldl_flatMap, List.foldl_map, id]
    _ = _ := by
      rw [List.foldl_push_eq_append, List.map_id]

/-- The first result below `n` is that of the least number with a result. -/
lemma findSome?_range_eq_some_iff {α : Type} {f : Nat → Option α} {n : Nat} {a : α} :
    (List.range n).findSome? f = some a ↔ ∃ k < n, f k = some a ∧ ∀ i < k, f i = none := by
  induction n with
  | zero => simp
  | succ n ih =>
    rw [List.range_succ, List.findSome?_append, Option.or_eq_some_iff, ih,
      List.findSome?_eq_none_iff]
    constructor
    · rintro (⟨k, hk, hfirst⟩ | ⟨hnone, hlast⟩)
      · exact ⟨k, Nat.lt_succ_of_lt hk, hfirst⟩
      · refine ⟨n, Nat.lt_succ_self n, by simpa using hlast, fun i hi => ?_⟩
        exact hnone i (List.mem_range.mpr hi)
    · rintro ⟨k, hk, hsome, hbefore⟩
      rcases Nat.lt_succ_iff_lt_or_eq.mp hk with hk | rfl
      · exact .inl ⟨k, hk, hsome, hbefore⟩
      · refine .inr ⟨fun i hi => hbefore i (List.mem_range.mp hi), ?_⟩
        simp [hsome]

/-- A numbered list has no result exactly if no member has one, whatever its number. -/
lemma findSome?_zipIdx_eq_none_iff {α β : Type} {f : α × Nat → Option β} {p : α → Prop}
    (hf : ∀ x i, f (x, i) = none ↔ p x) {xs : List α} :
    xs.zipIdx.findSome? f = none ↔ ∀ x ∈ xs, p x := by
  rw [List.findSome?_eq_none_iff]
  simp only [Prod.forall, hf]
  constructor
  · intro h x hx
    obtain ⟨i, hi, rfl⟩ := List.getElem_of_mem hx
    exact h _ i (List.mk_mem_zipIdx_iff_getElem?.mpr (List.getElem?_eq_getElem hi))
  · intro h x i hx
    exact h x (List.fst_mem_of_mem_zipIdx hx)

/-! ## Outcomes -/

section Outcome

variable {ε ε' α β γ : Type}

/-- A sequence succeeds exactly if its parts do. -/
lemma bind_eq_ok_iff {x : Except ε α} {f : α → Except ε β} {b : β} :
    (x >>= f) = .ok b ↔ ∃ a, x = .ok a ∧ f a = .ok b := by
  cases x <;> simp [bind, Except.bind]

/-- A sequence fails where its first part fails, or else where the rest does. -/
lemma bind_eq_error_iff {x : Except ε α} {f : α → Except ε β} {e : ε} :
    (x >>= f) = .error e ↔ x = .error e ∨ ∃ a, x = .ok a ∧ f a = .error e := by
  cases x <;> simp [bind, Except.bind]

/-- A check has only one way to succeed. -/
lemma exists_unit_iff {p : Unit → Prop} : (∃ u, p u) ↔ p () :=
  ⟨fun ⟨_, h⟩ => h, fun h => ⟨(), h⟩⟩

/-- Rewording an error changes no success. -/
@[simp] lemma mapError_eq_ok_iff {f : ε → ε'} {x : Except ε α} {a : α} :
    x.mapError f = .ok a ↔ x = .ok a := by
  cases x <;> simp [Except.mapError]

@[simp] lemma pure_eq_ok_iff {a b : α} : (pure a : Except ε α) = .ok b ↔ a = b := by
  simp [pure, Except.pure]

@[simp] lemma throw_ne_ok {e : ε} {a : α} : (throw e : Except ε α) ≠ .ok a := by
  simp [throw, throwThe, MonadExceptOf.throw]

/-- A thrown error ends a sequence. -/
@[simp] lemma throw_bind_eq (e : ε) (f : α → Except ε β) :
    (throw e >>= f : Except ε β) = throw e := rfl

/-- A guard lets a computation pass exactly if its condition does not hold. -/
lemma ite_throw_eq_ok_iff {p : Prop} [Decidable p] {e : ε} {x : Except ε α} {a : α} :
    (if p then throw e else x) = .ok a ↔ ¬p ∧ x = .ok a := by
  by_cases h : p <;> simp [h]

/-- Nothing is refused exactly if there is no fault. -/
@[simp] lemma refuse_eq_ok_iff {fault : Option ε} : refuse fault = .ok () ↔ fault = none := by
  cases fault <;> simp [refuse]

@[simp] lemma refuse_eq_error_iff {fault : Option ε} {e : ε} :
    refuse fault = .error e ↔ fault = some e := by
  cases fault <;> simp [refuse]

/-- What is refused is refused for its fault. -/
lemma refuse_bind_eq_error_iff {fault : Option ε} {a : α} {e : ε} :
    (do refuse fault; pure a) = .error e ↔ fault = some e := by
  cases fault <;> simp [refuse, bind, Except.bind, pure, Except.pure]

/-- A check of one condition finds no fault exactly if the condition does not hold and the rest of
the check finds none. -/
lemma ite_some_eq_none_iff {p : Prop} [Decidable p] {e : ε} {rest : Option ε} :
    (if p then some e else rest) = none ↔ ¬p ∧ rest = none := by
  by_cases h : p <;> simp [h]

/-- All members of a list pass a check exactly if each does. -/
lemma forM_eq_ok_iff {f : α → Except ε Unit} {xs : List α} :
    xs.forM f = .ok () ↔ ∀ x ∈ xs, f x = .ok () := by
  induction xs with
  | nil => simp
  | cons x xs ih =>
    have hstep : (x :: xs).forM f = (f x >>= fun _ => xs.forM f) := rfl
    rw [hstep, bind_eq_ok_iff, exists_unit_iff, ih, List.forall_mem_cons]

/-- A list is mapped successfully exactly if each member is. -/
lemma mapM_eq_ok_iff {f : α → Except ε β} {xs : List α} {ys : List β} :
    xs.mapM f = .ok ys ↔ List.Forall₂ (fun x y => f x = .ok y) xs ys := by
  induction xs generalizing ys with
  | nil => rw [List.mapM_nil, pure_eq_ok_iff, List.forall₂_nil_left_iff, eq_comm]
  | cons x xs ih =>
    simp only [List.mapM_cons, bind_eq_ok_iff, pure_eq_ok_iff, List.forall₂_cons_left_iff, ih]
    constructor
    · rintro ⟨y, hy, ys, hys, rfl⟩
      exact ⟨y, ys, hy, hys, rfl⟩
    · rintro ⟨y, ys, hy, hys, rfl⟩
      exact ⟨y, hy, ys, hys, rfl⟩

/-- A list is mapped to the results of its members. -/
lemma mapM_eq_ok_of_forall {f : α → Except ε β} {g : α → β} {xs : List α}
    (h : ∀ x ∈ xs, f x = .ok (g x)) : xs.mapM f = .ok (xs.map g) := by
  rw [mapM_eq_ok_iff, List.forall₂_map_right_iff, List.forall₂_same]
  exact h

/-- If a list is mapped successfully, every member has its result among the results. -/
lemma exists_mem_of_mapM_eq_ok {f : α → Except ε β} {xs : List α} {ys : List β}
    (h : xs.mapM f = .ok ys) {x : α} (hx : x ∈ xs) : ∃ y ∈ ys, f x = .ok y := by
  have hall := mapM_eq_ok_iff.mp h
  clear h
  induction hall with
  | nil => simp at hx
  | cons hy _ ih =>
    rcases List.mem_cons.mp hx with rfl | hx
    · exact ⟨_, List.mem_cons_self, hy⟩
    · obtain ⟨y, hmem, hy⟩ := ih hx
      exact ⟨y, List.mem_cons_of_mem _ hmem, hy⟩

/-- If a list is mapped successfully, so is each member. -/
lemma exists_eq_ok_of_mapM_eq_ok {f : α → Except ε β} {xs : List α} {ys : List β}
    (h : xs.mapM f = .ok ys) {x : α} (hx : x ∈ xs) : ∃ y, f x = .ok y := by
  obtain ⟨y, -, hy⟩ := exists_mem_of_mapM_eq_ok h hx
  exact ⟨y, hy⟩

/-- If a list is mapped successfully, a function gives its results.  Elsewhere it has the value
`b`. -/
lemma exists_map_of_mapM_eq_ok {f : α → Except ε β} {xs : List α} {ys : List β} (b : β)
    (h : xs.mapM f = .ok ys) : ∃ g : α → β, (∀ x ∈ xs, f x = .ok (g x)) ∧ ys = xs.map g := by
  have hg : ∀ x ∈ xs, f x = .ok ((f x).toOption.getD b) := by
    intro x hx
    obtain ⟨y, hy⟩ := exists_eq_ok_of_mapM_eq_ok h hx
    rw [hy]
    rfl
  exact ⟨_, hg, Except.ok.inj (h.symm.trans (mapM_eq_ok_of_forall hg))⟩

/-- A list is mapped successfully if each member is. -/
lemma exists_mapM_eq_ok {f : α → Except ε β} {xs : List α} (h : ∀ x ∈ xs, ∃ y, f x = .ok y) :
    ∃ ys, xs.mapM f = .ok ys := by
  induction xs with
  | nil => exact ⟨[], rfl⟩
  | cons x xs ih =>
    obtain ⟨y, hy⟩ := h x List.mem_cons_self
    obtain ⟨ys, hys⟩ := ih fun x hx => h x (List.mem_cons_of_mem _ hx)
    exact ⟨y :: ys, by simp [List.mapM_cons, bind_eq_ok_iff, hy, hys]⟩

/-- The error of a mapping comes from a member of the list. -/
lemma exists_of_mapM_eq_error {f : α → Except ε β} {xs : List α} {e : ε}
    (h : xs.mapM f = .error e) : ∃ x ∈ xs, f x = .error e := by
  induction xs with
  | nil => simp [pure, Except.pure] at h
  | cons x xs ih =>
    rw [List.mapM_cons, bind_eq_error_iff] at h
    rcases h with h | ⟨y, -, h⟩
    · exact ⟨x, List.mem_cons_self, h⟩
    · rcases bind_eq_error_iff.mp h with h | ⟨ys, -, h⟩
      · obtain ⟨x', hx', he⟩ := ih h
        exact ⟨x', List.mem_cons_of_mem _ hx', he⟩
      · simp [pure, Except.pure] at h

/-- Every result of a successful mapping comes from a member of the list. -/
lemma exists_of_mem_of_mapM_eq_ok {f : α → Except ε β} {xs : List α} {ys : List β}
    (h : xs.mapM f = .ok ys) {y : β} (hy : y ∈ ys) : ∃ x ∈ xs, f x = .ok y := by
  have hall := mapM_eq_ok_iff.mp h
  clear h
  induction hall with
  | nil => simp at hy
  | cons hx _ ih =>
    rcases List.mem_cons.mp hy with rfl | hy
    · exact ⟨_, List.mem_cons_self, hx⟩
    · obtain ⟨x, hmem, hx⟩ := ih hy
      exact ⟨x, List.mem_cons_of_mem _ hmem, hx⟩

/-- What every step of a successful fold preserves holds at its end. -/
lemma foldlM_eq_ok_induction {f : β → α → Except ε β} (P : β → Prop)
    (hstep : ∀ b a b', P b → f b a = .ok b' → P b') {xs : List α} {b b' : β} (hb : P b)
    (h : xs.foldlM f b = .ok b') : P b' := by
  induction xs generalizing b with
  | nil =>
    obtain rfl : b = b' := by simpa using h
    exact hb
  | cons x xs ih =>
    rw [List.foldlM_cons, bind_eq_ok_iff] at h
    obtain ⟨c, hc, hrest⟩ := h
    exact ih (hstep b x c hb hc) hrest

/-! ### Errors -/

/-- The error of an outcome, if it has one. -/
def error? : Except ε α → Option ε
  | .ok _ => none
  | .error e => some e

lemma error?_eq_none_iff {x : Except ε α} : error? x = none ↔ ∃ a, x = .ok a := by
  cases x <;> simp [error?]

lemma error?_eq_some_iff {x : Except ε α} {e : ε} : error? x = some e ↔ x = .error e := by
  cases x <;> simp [error?]

lemma toOption_eq_some_iff {x : Except ε α} {a : α} : x.toOption = some a ↔ x = .ok a := by
  cases x <;> simp [Except.toOption]

/-- A computation that succeeds has the result that it is asked for. -/
lemma eq_ok_getD_of_isSome {x : Except ε α} {a : α} (h : x.toOption.isSome = true) :
    x = .ok (x.toOption.getD a) := by
  cases x with
  | ok b => rfl
  | error e => simp [Except.toOption] at h

/-- The error of a reworded outcome is the reworded error. -/
lemma error?_mapError (x : Except ε α) (f : ε → ε') : error? (x.mapError f) = (error? x).map f := by
  cases x <;> rfl

/-- A function of a value has the error of the value. -/
lemma error?_bind_pure (x : Except ε α) (g : α → β) :
    error? (do let a ← x; pure (g a)) = error? x := by
  cases x <;> rfl

/-- A function of two values has the error of the first or else that of the second. -/
lemma error?_bind_bind_pure (x : Except ε α) (y : Except ε β) (g : α → β → γ) :
    error? (do let a ← x; let b ← y; pure (g a b)) = (error? x).or (error? y) := by
  cases x <;> cases y <;> rfl

/-- The error of a mapping is the first one in the lists of errors of its members. -/
lemma error?_mapM {f : α → Except ε β} {errors : α → List ε} {xs : List α}
    (h : ∀ x, error? (f x) = (errors x).head?) :
    error? (xs.mapM f) = (xs.flatMap errors).head? := by
  induction xs with
  | nil => rfl
  | cons x xs ih =>
    rw [List.mapM_cons, error?_bind_bind_pure, ih, h, List.flatMap_cons, List.head?_append]

/-- The error of a mapping is that of its first member that has one. -/
lemma error?_mapM_eq_findSome? {f : α → Except ε β} {xs : List α} :
    error? (xs.mapM f) = xs.findSome? fun x => error? (f x) := by
  induction xs with
  | nil => rfl
  | cons x xs ih =>
    rw [List.mapM_cons, error?_bind_bind_pure, ih, List.findSome?_cons]
    cases error? (f x) <;> rfl

/-- Mappings that agree on the members of a list have the same outcome. -/
lemma mapM_congr {f g : α → Except ε β} {xs : List α} (h : ∀ x ∈ xs, f x = g x) :
    xs.mapM f = xs.mapM g := by
  induction xs with
  | nil => rfl
  | cons x xs ih =>
    obtain ⟨hx, hxs⟩ := List.forall_mem_cons.mp h
    rw [List.mapM_cons, List.mapM_cons, hx, ih hxs]

end Outcome

end TwistLogic
