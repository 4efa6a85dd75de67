import TwistLogic.Proofs.Basic

/-!
# Computations side by side

Two computations that may be refused are `Related` if both succeed, with results that stand in a
relation, or both are refused for the same error.  Every way to build a computation out of others
keeps this: a sequence, a rewording of errors, a mapping and a fold over lists whose members
correspond.
-/

namespace TwistLogic

/-- Both computations succeed with related results, or both fail with the same error. -/
inductive Related {ε α β : Type} (R : α → β → Prop) : Except ε α → Except ε β → Prop
  | ok {a : α} {b : β} : R a b → Related R (.ok a) (.ok b)
  | error (e : ε) : Related R (.error e) (.error e)

namespace Related

variable {ε ε' α β γ δ ι κ : Type} {R S : α → β → Prop} {T : γ → δ → Prop} {P : ι → κ → Prop}
  {x : Except ε α} {y : Except ε β}

lemma mono (h : Related R x y) (hRS : ∀ a b, R a b → S a b) : Related S x y := by
  cases h with
  | ok hab => exact .ok (hRS _ _ hab)
  | error e => exact .error e

lemma and (h : Related R x y) (h' : Related S x y) : Related (fun a b => R a b ∧ S a b) x y := by
  cases h with
  | ok hab =>
    cases h' with
    | ok hab' => exact .ok ⟨hab, hab'⟩
  | error e => exact .error e

/-- Computations that fail alike, and whose results stand in a relation under a condition. -/
lemma under {p : Prop} (hall : Related (fun _ _ => True) x y) (h : p → Related R x y) :
    Related (fun a b => p → R a b) x y := by
  by_cases hp : p
  · exact (h hp).mono fun _ _ hab _ => hab
  · exact hall.mono fun _ _ _ hyes => absurd hyes hp

lemma eq_error {e : ε} (h : Related R (.error e) y) : y = .error e := by
  cases h
  rfl

lemma of_eq {x y : Except ε α} (h : x = y) : Related Eq x y := by
  subst h
  cases x with
  | ok a => exact .ok rfl
  | error e => exact .error e

/-- Computations with equal results have equal outcomes. -/
lemma eq {x y : Except ε α} (h : Related Eq x y) : x = y := by
  cases h with
  | ok hab => rw [hab]
  | error e => rfl

/-- Related computations that go on in related ways are related as a whole. -/
lemma bind (h : Related R x y) {f : α → Except ε γ} {g : β → Except ε δ}
    (hfg : ∀ a b, R a b → Related T (f a) (g b)) : Related T (x >>= f) (y >>= g) := by
  cases h with
  | ok hab => exact hfg _ _ hab
  | error e => exact .error e

/-- A function of the results of related computations. -/
lemma bind_pure (h : Related R x y) {f : α → γ} {g : β → δ} (hfg : ∀ a b, R a b → T (f a) (g b)) :
    Related T (do let a ← x; pure (f a)) (do let b ← y; pure (g b)) :=
  h.bind fun a b hab => .ok (hfg a b hab)

/-- Rewording the errors of related computations in the same way. -/
lemma mapError (h : Related R x y) (f : ε → ε') : Related R (x.mapError f) (y.mapError f) := by
  cases h with
  | ok hab => exact .ok hab
  | error e => exact .error (f e)

/-- Mapping corresponding lists. -/
lemma mapM {f : ι → Except ε α} {g : κ → Except ε β} {is : List ι} {ks : List κ}
    (h : List.Forall₂ (fun i k => Related R (f i) (g k)) is ks) :
    Related (List.Forall₂ R) (is.mapM f) (ks.mapM g) := by
  induction h with
  | nil => exact .ok .nil
  | cons hik _ ih =>
    rw [List.mapM_cons, List.mapM_cons]
    exact hik.bind fun a b hab => ih.bind fun as bs habs => .ok (.cons hab habs)

/-- Folding corresponding lists from related starts. -/
lemma foldlM {f : α → ι → Except ε α} {g : β → κ → Except ε β} {is : List ι} {ks : List κ}
    (h : List.Forall₂ P is ks)
    (hstep : ∀ a b i k, R a b → P i k → Related R (f a i) (g b k)) {a : α} {b : β} (hab : R a b) :
    Related R (is.foldlM f a) (ks.foldlM g b) := by
  induction h generalizing a b with
  | nil => exact .ok hab
  | cons hik _ ih =>
    rw [List.foldlM_cons, List.foldlM_cons]
    exact (hstep a b _ _ hab hik).bind fun a' b' hab' => ih hab'

end Related

end TwistLogic
