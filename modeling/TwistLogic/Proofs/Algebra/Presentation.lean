import Mathlib.Data.Set.Insert
import TwistLogic.Proofs.Algebra.Construction
import TwistLogic.Proofs.Algebra.Extension

/-!
# Products by names

What the triples of a presentation say about the product of two names does not depend on their order
or on how often they are listed: a product is `Gives`n by a triple, or by one with its factors
exchanged if there is none.  `Presentation.productRows` enters the triples one after the other into
a table of numbers.  `Entered` says what the table holds at any moment, in terms of the set of
triples that were entered; so the table is filled exactly for an `IsProduct`, and its entries are
the products that the triples give (`exists_productRows_iff`, `gives_of_productRows`).
-/

namespace TwistLogic

/-! ## Names and numbers -/

namespace FiniteLattice

variable {l : FiniteLattice} {a b : ElementId} {x y : Text}

/-- An element and its name. -/
def HasName (l : FiniteLattice) (a : ElementId) (x : Text) : Prop := l.names[a]? = some x

lemma HasName.lt_size (h : l.HasName a x) : a < l.size :=
  (Array.getElem?_eq_some_iff.mp h).1

lemma HasName.unique (h : l.HasName a x) (h' : l.HasName a y) : x = y :=
  Option.some.inj (h.symm.trans h')

lemma HasName.mem (h : l.HasName a x) : x ∈ l.names := Array.mem_of_getElem? h

lemma exists_hasName_of_lt (ha : a < l.size) : ∃ x, l.HasName a x :=
  ⟨l.names[a], Array.getElem?_eq_getElem ha⟩

lemma exists_hasName_of_mem (hx : x ∈ l.names) : ∃ a, l.HasName a x := by
  obtain ⟨a, ha, rfl⟩ := Array.getElem_of_mem hx
  exact ⟨a, Array.getElem?_eq_getElem ha⟩

lemma HasName.name_eq (h : l.HasName a x) : l.name a = x := by
  rw [name, Array.getD_eq_getD_getElem?, h, Option.getD_some]

/-- Among distinct names, a name belongs to one element only. -/
lemma HasName.inj (hnodup : l.names.toList.Nodup) (h : l.HasName a x) (h' : l.HasName b x) :
    a = b := by
  rw [HasName, ← Array.getElem?_toList] at h h'
  have hlt := (List.getElem?_eq_some_iff.mp h).1
  exact (List.getElem?_inj hlt hnodup).mp (h.trans h'.symm)

/-- Among distinct names, an element is found by its name. -/
lemma find?_eq_some_iff (hnodup : l.names.toList.Nodup) :
    l.find? x = some a ↔ l.HasName a x := by
  have hfind := idxOf?_eq_some_iff_of_nodup hnodup (x := x) (i := a)
  rwa [← List.idxOf?_toArray, Array.toArray_toList, Array.getElem?_toList] at hfind

end FiniteLattice

namespace Presentation

open FiniteLattice (HasName)

variable {l : FiniteLattice} {triples : List ProductTriple}
  {cells cells' : Table (Option ElementId)} {S : Set ProductTriple} {t : ProductTriple}
  {a b c : ElementId} {x y z : Text}

/-! ## Products that triples give -/

/-- A product is given for two factors, or it is given for the exchanged factors only. -/
def Gives (triples : List ProductTriple) (x y z : Text) : Prop :=
  ⟨x, y, z⟩ ∈ triples ∨ (∀ w, ⟨x, y, w⟩ ∉ triples) ∧ ⟨y, x, z⟩ ∈ triples

/-- Triples of listed names that do not contradict each other and give a product of every two
names. -/
structure IsProduct (elements : List Text) (triples : List ProductTriple) : Prop where
  listed : ∀ t ∈ triples, t.left ∈ elements ∧ t.right ∈ elements ∧ t.product ∈ elements
  consistent : ∀ t ∈ triples, ∀ u ∈ triples, t.left = u.left → t.right = u.right →
    t.product = u.product
  total : ∀ x ∈ elements, ∀ y ∈ elements, ∃ z, Gives triples x y z

/-- Triples that do not contradict each other give at most one product. -/
lemma Gives.unique (hconsistent : ∀ t ∈ triples, ∀ u ∈ triples, t.left = u.left →
    t.right = u.right → t.product = u.product) (h : Gives triples x y z) {z' : Text}
    (h' : Gives triples x y z') : z = z' := by
  rcases h with h | ⟨hnone, h⟩
  · rcases h' with h' | ⟨hnone', -⟩
    · exact hconsistent _ h _ h' rfl rfl
    · exact absurd h (hnone' z)
  · rcases h' with h' | ⟨-, h'⟩
    · exact absurd h' (hnone z')
    · exact hconsistent _ h _ h' rfl rfl

/-! ## Entering triples -/

/-- The numbers of the three names of a triple. -/
structure Numbers (l : FiniteLattice) (t : ProductTriple) (a b c : ElementId) : Prop where
  left : l.HasName a t.left
  right : l.HasName b t.right
  product : l.HasName c t.product

/-- The cells hold the products of the triples that were entered, and nothing else. -/
structure Entered (l : FiniteLattice) (cells : Table (Option ElementId)) (S : Set ProductTriple) :
    Prop where
  inside : ∀ {a b}, a < l.size → b < l.size → (cells.get? a b).isSome = true
  listed : ∀ t ∈ S, ∃ a b c, Numbers l t a b c
  get_iff : ∀ {a b c}, a < l.size → b < l.size →
    (cells.get a b = some c ↔ ∃ t ∈ S, Numbers l t a b c)

lemma resolve_eq_ok_iff (hnodup : l.names.toList.Nodup) :
    resolve l x = .ok a ↔ l.HasName a x := by
  rw [← FiniteLattice.find?_eq_some_iff hnodup, resolve]
  cases l.find? x <;> simp

/-- A triple is entered if its names are known and no other product is there. -/
lemma enter_eq_ok_iff (hnodup : l.names.toList.Nodup) :
    enter l cells t = .ok cells' ↔ ∃ a b c, Numbers l t a b c ∧
      (cells.get a b = none ∧ cells' = cells.set a b (some c) ∨
        cells.get a b = some c ∧ cells' = cells) := by
  unfold enter
  simp only [bind_eq_ok_iff, resolve_eq_ok_iff hnodup]
  constructor
  · rintro ⟨a, ha, b, hb, c, hc, h⟩
    refine ⟨a, b, c, ⟨ha, hb, hc⟩, ?_⟩
    split at h
    next hnone => exact .inl ⟨hnone, (pure_eq_ok_iff.mp h).symm⟩
    next d hsome =>
      split at h
      next heq => exact .inr ⟨heq ▸ hsome, (pure_eq_ok_iff.mp h).symm⟩
      next => exact absurd h throw_ne_ok
  · rintro ⟨a, b, c, ⟨ha, hb, hc⟩, ⟨hnone, rfl⟩ | ⟨hsome, rfl⟩⟩
    · exact ⟨a, ha, b, hb, c, hc, by simp [hnone]⟩
    · exact ⟨a, ha, b, hb, c, hc, by simp [hsome]⟩

/-- A cell after another cell inside the table has been set. -/
lemma get_set (hinside : (cells.get? a b).isSome = true) (v : Option ElementId) (d e : ElementId) :
    (cells.set a b v).get d e = if a = d ∧ b = e then v else cells.get d e := by
  rw [Table.get_eq, Table.get?_set, Table.get_eq]
  split
  next heq =>
    obtain ⟨rfl, rfl⟩ := heq
    obtain ⟨u, hu⟩ := Option.isSome_iff_exists.mp hinside
    simp [hu]
  next => rfl

lemma isSome_get?_set (hinside : (cells.get? a b).isSome = true) (v : Option ElementId)
    (d e : ElementId) : ((cells.set d e v).get? a b).isSome = true := by
  rw [Table.get?_set]
  split
  · rwa [Option.isSome_map]
  · exact hinside

namespace Entered

lemma start : Entered l (.ofFn l.size fun _ _ => none) ∅ where
  inside ha hb := by simp [Table.get?_ofFn, ha, hb]
  listed := by simp
  get_iff ha hb := by simp [Table.get_ofFn _ ha hb]

/-- Entering a triple adds its product. -/
lemma enter (hnodup : l.names.toList.Nodup) (h : Entered l cells S)
    (ht : enter l cells t = .ok cells') : Entered l cells' (insert t S) := by
  obtain ⟨a, b, c, hnumbers, hcase⟩ := (enter_eq_ok_iff hnodup).mp ht
  have ha := hnumbers.left.lt_size
  have hb := hnumbers.right.lt_size
  have hsame : ∀ {d e f}, Numbers l t d e f → d = a ∧ e = b ∧ f = c := fun hn =>
    ⟨hn.left.inj hnodup hnumbers.left, hn.right.inj hnodup hnumbers.right,
      hn.product.inj hnodup hnumbers.product⟩
  have hlisted : ∀ u ∈ insert t S, ∃ d e f, Numbers l u d e f := by
    rintro u (rfl | hu)
    · exact ⟨a, b, c, hnumbers⟩
    · exact h.listed u hu
  rcases hcase with ⟨hnone, rfl⟩ | ⟨hsome, rfl⟩
  · refine ⟨fun hd he => isSome_get?_set (h.inside hd he) _ _ _, hlisted, fun {d e f} hd he => ?_⟩
    rw [get_set (h.inside ha hb)]
    split
    next heq =>
      obtain ⟨rfl, rfl⟩ := heq
      rw [Option.some.injEq]
      constructor
      · rintro rfl
        exact ⟨t, .inl rfl, hnumbers⟩
      · rintro ⟨u, rfl | hu, hn⟩
        · exact (hsame hn).2.2.symm
        · exact absurd ((h.get_iff hd he).mpr ⟨u, hu, hn⟩) (by simp [hnone])
    next hne =>
      rw [h.get_iff hd he]
      constructor
      · rintro ⟨u, hu, hn⟩
        exact ⟨u, .inr hu, hn⟩
      · rintro ⟨u, rfl | hu, hn⟩
        · obtain ⟨rfl, rfl, -⟩ := hsame hn
          exact absurd ⟨rfl, rfl⟩ hne
        · exact ⟨u, hu, hn⟩
  · refine ⟨h.inside, hlisted, fun {d e f} hd he => ?_⟩
    rw [h.get_iff hd he]
    constructor
    · rintro ⟨u, hu, hn⟩
      exact ⟨u, .inr hu, hn⟩
    · rintro ⟨u, rfl | hu, hn⟩
      · obtain ⟨rfl, rfl, rfl⟩ := hsame hn
        exact (h.get_iff hd he).mp hsome
      · exact ⟨u, hu, hn⟩

/-- A triple of listed names that contradicts none of the entered ones can be entered. -/
lemma exists_enter (hnodup : l.names.toList.Nodup) (h : Entered l cells S)
    (hlisted : t.left ∈ l.names ∧ t.right ∈ l.names ∧ t.product ∈ l.names)
    (hconsistent : ∀ u ∈ S, t.left = u.left → t.right = u.right → t.product = u.product) :
    ∃ cells', Presentation.enter l cells t = .ok cells' := by
  obtain ⟨a, ha⟩ := FiniteLattice.exists_hasName_of_mem hlisted.1
  obtain ⟨b, hb⟩ := FiniteLattice.exists_hasName_of_mem hlisted.2.1
  obtain ⟨c, hc⟩ := FiniteLattice.exists_hasName_of_mem hlisted.2.2
  simp only [enter_eq_ok_iff hnodup]
  cases hcell : cells.get a b with
  | none => exact ⟨_, a, b, c, ⟨ha, hb, hc⟩, .inl ⟨hcell, rfl⟩⟩
  | some d =>
    obtain ⟨u, hu, hn⟩ := (h.get_iff ha.lt_size hb.lt_size).mp hcell
    have hproduct := hconsistent u hu (ha.unique hn.left) (hb.unique hn.right)
    obtain rfl : d = c := hn.product.inj hnodup (hproduct ▸ hc)
    exact ⟨cells, a, b, d, ⟨ha, hb, hc⟩, .inr ⟨hcell, rfl⟩⟩

/-- Entering several triples adds all their products. -/
lemma foldlM (hnodup : l.names.toList.Nodup) (h : Entered l cells S)
    (hfold : triples.foldlM (Presentation.enter l) cells = .ok cells') :
    Entered l cells' ({t | t ∈ triples} ∪ S) := by
  induction triples generalizing cells S with
  | nil =>
    obtain rfl : cells = cells' := by simpa using hfold
    simpa using h
  | cons t triples ih =>
    rw [List.foldlM_cons, bind_eq_ok_iff] at hfold
    obtain ⟨next, ht, hrest⟩ := hfold
    have hset : {u | u ∈ t :: triples} ∪ S = {u | u ∈ triples} ∪ insert t S := by
      ext u
      simp only [Set.mem_union, Set.mem_ofPred_eq, Set.mem_insert_iff, List.mem_cons]
      tauto
    rw [hset]
    exact ih (h.enter hnodup ht) hrest

/-- Triples of listed names that contradict neither each other nor the entered ones can be
entered. -/
lemma exists_foldlM (hnodup : l.names.toList.Nodup) (h : Entered l cells S)
    (hlisted : ∀ t ∈ triples, t.left ∈ l.names ∧ t.right ∈ l.names ∧ t.product ∈ l.names)
    (hconsistent : ∀ t ∈ triples, ∀ u, u ∈ triples ∨ u ∈ S → t.left = u.left → t.right = u.right →
      t.product = u.product) :
    ∃ cells', triples.foldlM (Presentation.enter l) cells = .ok cells' := by
  induction triples generalizing cells S with
  | nil => exact ⟨cells, rfl⟩
  | cons t triples ih =>
    obtain ⟨next, ht⟩ := h.exists_enter hnodup (hlisted t List.mem_cons_self)
      fun u hu => hconsistent t List.mem_cons_self u (.inr hu)
    obtain ⟨cells', hrest⟩ := ih (h.enter hnodup ht)
      (fun u hu => hlisted u (List.mem_cons_of_mem t hu)) fun u hu v hv => by
        refine hconsistent u (List.mem_cons_of_mem t hu) v ?_
        rcases hv with hv | rfl | hv
        · exact .inl (List.mem_cons_of_mem t hv)
        · exact .inl List.mem_cons_self
        · exact .inr hv
    exact ⟨cells', by rw [List.foldlM_cons, ht]; exact hrest⟩

/-- The cell of two names holds the product that a triple says. -/
lemma get_eq_some_iff (h : Entered l cells S) (ha : l.HasName a x) (hb : l.HasName b y) :
    cells.get a b = some c ↔ ∃ z, l.HasName c z ∧ ⟨x, y, z⟩ ∈ S := by
  rw [h.get_iff ha.lt_size hb.lt_size]
  constructor
  · rintro ⟨⟨x', y', z⟩, ht, hn⟩
    obtain rfl := ha.unique hn.left
    obtain rfl := hb.unique hn.right
    exact ⟨z, hn.product, ht⟩
  · rintro ⟨z, hc, hz⟩
    exact ⟨_, hz, ha, hb, hc⟩

/-- The cell of two names is empty exactly if no triple has them as its factors. -/
lemma get_eq_none_iff (h : Entered l cells S) (ha : l.HasName a x) (hb : l.HasName b y) :
    cells.get a b = none ↔ ∀ z, ⟨x, y, z⟩ ∉ S := by
  rw [Option.eq_none_iff_forall_ne_some]
  constructor
  · intro hnone z hz
    obtain ⟨_, _, c, hn⟩ := h.listed _ hz
    exact hnone c ((h.get_eq_some_iff ha hb).mpr ⟨z, hn.product, hz⟩)
  · intro hnone c hc
    obtain ⟨z, -, hz⟩ := (h.get_eq_some_iff ha hb).mp hc
    exact hnone z hz

/-- The product of two numbers is the one that the triples give for their names. -/
lemma productOf_eq_ok_iff (h : Entered l cells {t | t ∈ triples}) (ha : l.HasName a x)
    (hb : l.HasName b y) :
    productOf l cells a b = .ok c ↔ ∃ z, l.HasName c z ∧ Gives triples x y z := by
  have hgiven : cells.get a b = some c ↔ ∃ z, l.HasName c z ∧ ⟨x, y, z⟩ ∈ triples :=
    h.get_eq_some_iff ha hb
  have hmirror : cells.get b a = some c ↔ ∃ z, l.HasName c z ∧ ⟨y, x, z⟩ ∈ triples :=
    h.get_eq_some_iff hb ha
  have hnone : cells.get a b = none ↔ ∀ z, ⟨x, y, z⟩ ∉ triples := h.get_eq_none_iff ha hb
  have hcase : productOf l cells a b = .ok c ↔
      cells.get a b = some c ∨ cells.get a b = none ∧ cells.get b a = some c := by
    unfold productOf
    cases cells.get a b <;> cases cells.get b a <;> simp
  rw [hcase, hgiven, hmirror, hnone]
  constructor
  · rintro (⟨z, hc, hz⟩ | ⟨hno, z, hc, hz⟩)
    · exact ⟨z, hc, .inl hz⟩
    · exact ⟨z, hc, .inr ⟨hno, hz⟩⟩
  · rintro ⟨z, hc, hz | ⟨hno, hz⟩⟩
    · exact .inl ⟨z, hc, hz⟩
    · exact .inr ⟨hno, z, hc, hz⟩

end Entered

/-! ## Filling the table -/

/-- The entries of rows that are computed one by one. -/
lemma entry_eq_of_mapM {ε : Type} {n : Nat} {f : ElementId → ElementId → Except ε ElementId}
    {rows : List (List ElementId)}
    (h : ((List.range n).mapM fun a => (List.range n).mapM (f a)) = .ok rows) :
    (rows.length = n ∧ ∀ row ∈ rows, row.length = n) ∧
      ∀ a < n, ∀ b < n, f a b = .ok (ResiduatedLattice.entry rows a b) := by
  have hget : ∀ {β : Type} {g : Nat → Except ε β} {ys : List β},
      (List.range n).mapM g = .ok ys → ys.length = n ∧
        ∀ a < n, ∃ y, ys[a]? = some y ∧ g a = .ok y := by
    intro β g ys hys
    have hall := mapM_eq_ok_iff.mp hys
    have hlength : ys.length = n := by simpa using hall.length_eq.symm
    refine ⟨hlength, fun a ha => ⟨ys[a], List.getElem?_eq_getElem (hlength ▸ ha), ?_⟩⟩
    simpa using hall.get (i := a) (by simpa using ha) (hlength ▸ ha)
  obtain ⟨hlength, hrows⟩ := hget h
  refine ⟨⟨hlength, fun row hrow => ?_⟩, fun a ha b hb => ?_⟩
  · obtain ⟨_, _, hmap⟩ := exists_of_mem_of_mapM_eq_ok h hrow
    exact (hget hmap).1
  · obtain ⟨row, hrow, hmap⟩ := hrows a ha
    obtain ⟨c, hc, hf⟩ := (hget hmap).2 b hb
    have hget_row : rows.getD a [] = row := by
      rw [List.getD_eq_getElem?_getD, hrow, Option.getD_some]
    rw [hf, ResiduatedLattice.entry, hget_row, List.getD_eq_getElem?_getD, hc, Option.getD_some]

/-- Rows that are filled in hold the products that the triples give. -/
theorem gives_of_productRows (hnodup : l.names.toList.Nodup) {rows : List (List ElementId)}
    (h : productRows l triples = .ok rows) :
    (rows.length = l.size ∧ ∀ row ∈ rows, row.length = l.size) ∧
      IsProduct l.names.toList triples ∧
      ∀ {a b x y}, l.HasName a x → l.HasName b y →
        ∃ z, l.HasName (ResiduatedLattice.entry rows a b) z ∧ Gives triples x y z := by
  obtain ⟨cells, hfold, hrows⟩ := bind_eq_ok_iff.mp h
  have hentered : Entered l cells {t | t ∈ triples} := by
    simpa using Entered.start.foldlM hnodup hfold
  obtain ⟨hshape, hentry⟩ := entry_eq_of_mapM hrows
  have hgives : ∀ {a b x y}, l.HasName a x → l.HasName b y →
      ∃ z, l.HasName (ResiduatedLattice.entry rows a b) z ∧ Gives triples x y z :=
    fun ha hb => (hentered.productOf_eq_ok_iff ha hb).mp (hentry _ ha.lt_size _ hb.lt_size)
  refine ⟨hshape, ⟨fun t ht => ?_, fun t ht u hu hleft hright => ?_, fun x hx y hy => ?_⟩, hgives⟩
  · obtain ⟨a, b, c, hn⟩ := hentered.listed t ht
    simpa using ⟨hn.left.mem, hn.right.mem, hn.product.mem⟩
  · obtain ⟨a, b, c, hn⟩ := hentered.listed t ht
    obtain ⟨a', b', c', hn'⟩ := hentered.listed u hu
    have hcell := (hentered.get_iff hn.left.lt_size hn.right.lt_size).mpr ⟨t, ht, hn⟩
    have hcell' := (hentered.get_iff hn.left.lt_size hn.right.lt_size).mpr
      ⟨u, hu, hleft ▸ hn.left, hright ▸ hn.right, hn'.product⟩
    obtain rfl : c = c' := Option.some.inj (hcell.symm.trans hcell')
    exact hn.product.unique hn'.product
  · obtain ⟨a, ha⟩ := FiniteLattice.exists_hasName_of_mem (Array.mem_toList_iff.mp hx)
    obtain ⟨b, hb⟩ := FiniteLattice.exists_hasName_of_mem (Array.mem_toList_iff.mp hy)
    obtain ⟨z, -, hz⟩ := hgives ha hb
    exact ⟨z, hz⟩

/-- The table is filled exactly for triples that give one product of every two names. -/
theorem exists_productRows_iff (hnodup : l.names.toList.Nodup) :
    (∃ rows, productRows l triples = .ok rows) ↔ IsProduct l.names.toList triples := by
  constructor
  · rintro ⟨rows, h⟩
    exact (gives_of_productRows hnodup h).2.1
  · intro h
    have hlisted : ∀ t ∈ triples, t.left ∈ l.names ∧ t.right ∈ l.names ∧ t.product ∈ l.names := by
      simpa using h.listed
    obtain ⟨cells, hfold⟩ := Entered.start.exists_foldlM hnodup hlisted fun t ht u hu =>
      h.consistent t ht u (hu.resolve_right (Set.notMem_empty u))
    have hentered : Entered l cells {t | t ∈ triples} := by
      simpa using Entered.start.foldlM hnodup hfold
    obtain ⟨rows, hrows⟩ : ∃ rows, ((List.range l.size).mapM fun a =>
        (List.range l.size).mapM fun b => productOf l cells a b) = .ok rows := by
      refine exists_mapM_eq_ok fun a ha => exists_mapM_eq_ok fun b hb => ?_
      obtain ⟨x, hx⟩ := FiniteLattice.exists_hasName_of_lt (List.mem_range.mp ha)
      obtain ⟨y, hy⟩ := FiniteLattice.exists_hasName_of_lt (List.mem_range.mp hb)
      obtain ⟨z, hz⟩ := h.total x (Array.mem_toList_iff.mpr hx.mem) y
        (Array.mem_toList_iff.mpr hy.mem)
      have hproduct : z ∈ l.names := by
        rcases hz with hz | ⟨-, hz⟩
        · exact (hlisted _ hz).2.2
        · exact (hlisted _ hz).2.2
      obtain ⟨c, hc⟩ := FiniteLattice.exists_hasName_of_mem hproduct
      exact ⟨c, (hentered.productOf_eq_ok_iff hx hy).mpr ⟨z, hc, hz⟩⟩
    exact ⟨rows, bind_eq_ok_iff.mpr ⟨cells, hfold, hrows⟩⟩

end Presentation

end TwistLogic
