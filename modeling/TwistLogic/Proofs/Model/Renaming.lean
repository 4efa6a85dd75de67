import TwistLogic.Model.Description
import TwistLogic.Proofs.Algebra.Renaming
import TwistLogic.Proofs.Model.Edit
import TwistLogic.Proofs.Model.Parallel
import TwistLogic.Proofs.Workspace

/-!
# The same model with other numbers

Two models over structures that rename each other correspond if they have the same worlds, values,
transitions and actions by name (`Model.Renames`).  A description is built into corresponding
models, or refused for the same reason (`ModelDescription.related_build`).

Corresponding models answer the same questions, and refuse the others for the same reason.  The
answers contain names only, so they are the same where negation keeps names
(`Model.Renames.related_answer`).
-/

namespace TwistLogic

variable {ts ts' : TwistStructure} {m m' : Model}

/-! ## Values -/

namespace TwistStructure.Correspond

variable {x x' y y' : TwistElement}

lemma material (h : ts.Renames ts') (hx : ts.Correspond ts' x x') (hy : ts.Correspond ts' y y') :
    ts.Correspond ts' (ts.material x y) (ts'.material x' y') :=
  (hx.negation h).join h hy

lemma connective (h : ts.Renames ts') (c : Connective) (hx : ts.Correspond ts' x x')
    (hy : ts.Correspond ts' y y') :
    ts.Correspond ts' (c.value ts x y) (c.value ts' x' y') := by
  cases c with
  | and => exact hx.meet h hy
  | or => exact hx.join h hy
  | resImplies => exact hx.implication h hy
  | implies => exact hx.material h hy
  | iff => exact (hx.material h hy).meet h (hy.material h hx)

lemma keeps (h : ts.Renames ts') : ts.Keeps ts' (ts.SameNames ts') (ts.Correspond ts') where
  absoluteTrue := h.absoluteTrue.correspond
  absoluteFalse := h.absoluteFalse.correspond
  meet := meet h
  join := join h
  weight := SameNames.correspond
  implication ha hx := ha.correspond.implication h hx

end TwistStructure.Correspond

/-! ## Models -/

/-- Corresponding values of the same propositions. -/
def TwistStructure.SameValues (ts ts' : TwistStructure) (v v' : Valuation) : Prop :=
  ∀ p : Text, Option.Rel (ts.SameNames ts') v[p]? v'[p]?

/-- The same name, and corresponding values and transitions. -/
structure World.Renames (ts ts' : TwistStructure) (u u' : World) : Prop where
  id_eq : u.id = u'.id
  valuation : ts.SameValues ts' u.valuation u'.valuation
  edges : ∀ action : Text, List.Forall₂
    (fun tr tr' => tr.target = tr'.target ∧ ts.SameNames ts' tr.weight tr'.weight)
    (u.edges[action]?.getD []) (u'.edges[action]?.getD [])

namespace Model

/-- The same actions, and corresponding worlds in the same order. -/
structure Renames (ts ts' : TwistStructure) (m m' : Model) : Prop where
  twist : m.twist = ts
  twist' : m'.twist = ts'
  size_eq : m.worlds.size = m'.worlds.size
  world : ∀ w : WorldIndex, Option.Rel (World.Renames ts ts') m.worlds[w]? m'.worlds[w]?
  hasAction_eq : ∀ action, m.hasAction action = m'.hasAction action

namespace Renames

/-- The values of corresponding models correspond. -/
lemma value (hm : Renames ts ts' m m') (w : WorldIndex) (p : Text) :
    Option.Rel (ts.Correspond ts') (m.value? w p) (m'.value? w p) := by
  have hworld := hm.world w
  unfold value?
  generalize m.worlds[w]? = u at hworld
  generalize m'.worlds[w]? = u' at hworld
  cases hworld with
  | none => exact .none
  | @some u u' hu =>
    have hp := hu.valuation p
    rw [Option.bind_some, Option.bind_some]
    generalize u.valuation[p]? = x at hp
    generalize u'.valuation[p]? = y at hp
    cases hp with
    | none => exact .none
    | some hxy => exact .some hxy.correspond

/-- Corresponding models are parallel. -/
lemma parallel (hm : Renames ts ts' m m') : m.Parallel (ts.SameNames ts') m' where
  size_eq := hm.size_eq
  worldId_eq w := by
    have hworld := hm.world w
    unfold worldId
    generalize m.worlds[w]? = u at hworld
    generalize m'.worlds[w]? = u' at hworld
    cases hworld with
    | none => rfl
    | some hu => exact hu.id_eq
  hasAction_eq := hm.hasAction_eq
  successors w action := by
    have hworld := hm.world w
    unfold successors
    generalize m.worlds[w]? = u at hworld
    generalize m'.worlds[w]? = u' at hworld
    cases hworld with
    | none => exact .nil
    | some hu => exact hu.edges action

end Renames

end Model

/-- The values of a formula in corresponding models correspond, or are missing for the same
reason. -/
theorem Formula.related_of_renames (h : ts.Renames ts') (hm : Model.Renames ts ts' m m')
    (φ : Formula) (w : WorldIndex) :
    Related (ts.Correspond ts') (φ.value m w) (φ.value m' w) := by
  have hparallel := hm.parallel
  obtain ⟨rfl, rfl⟩ : m.twist = ts ∧ m'.twist = ts' := ⟨hm.twist, hm.twist'⟩
  have hkeeps := TwistStructure.Correspond.keeps h
  induction φ generalizing w with
  | top => exact related_top hkeeps
  | bot => exact related_bot hkeeps
  | atom p => exact related_atom (hparallel.worldId_eq w) (hm.value w p)
  | neg φ ih => exact related_neg (ih w) fun x x' hx => hx.negation h
  | binary c φ ψ ihφ ihψ =>
    exact related_binary (ihφ w) (ihψ w) fun x x' y y' hx hy => hx.connective h c hy
  | modal mod action φ ih => exact related_modal hparallel hkeeps ih

/-! ## Answers -/

/-- Every element has names on both sides. -/
lemma TwistStructure.exists_names_of_contains {x : TwistElement} (hx : ts.contains x = true) :
    ∃ n, ts.names? x = .ok n := by
  obtain ⟨ht, hf⟩ := contains_iff.mp hx
  obtain ⟨t, hxt⟩ := FiniteLattice.exists_hasName_of_lt ht
  obtain ⟨f, hxf⟩ := FiniteLattice.exists_hasName_of_lt hf
  simp only [FiniteLattice.HasName] at hxt hxf
  refine ⟨(t, f), ?_⟩
  simp only [names?, FiniteLattice.name?, hxt, hxf]
  rfl

/-- Counterexamples at the same world whose values have the same names. -/
def CounterExample.Renames (ts ts' : TwistStructure) (c c' : CounterExample) : Prop :=
  c.world = c'.world ∧ ts.SameNames ts' c.value c'.value

namespace Workspace

/-- Counterexamples whose values are elements can be named. -/
lemma exists_nameAll {cs : List CounterExample} (h : ∀ c ∈ cs, ts.contains c.value = true) :
    ∃ named, cs.mapM (nameCounterExample ts) = .ok named := by
  refine exists_mapM_eq_ok fun c hc => ?_
  obtain ⟨n, hn⟩ := TwistStructure.exists_names_of_contains (h c hc)
  exact ⟨{ world := c.world, t := n.1, f := n.2 }, bind_eq_ok_iff.mpr ⟨n, hn, rfl⟩⟩

/-- Corresponding counterexamples are named alike. -/
lemma nameAll_eq {cs cs' : List CounterExample}
    (h : List.Forall₂ (CounterExample.Renames ts ts') cs cs') :
    cs.mapM (nameCounterExample ts) = cs'.mapM (nameCounterExample ts') := by
  have hnamed := Related.mapM (R := Eq) (h.imp fun c c' ⟨hworld, hvalue⟩ =>
    (.of_eq (by rw [nameCounterExample, nameCounterExample, hvalue.names?_eq, hworld]) :
      Related Eq (nameCounterExample ts c) (nameCounterExample ts' c')))
  exact (hnamed.mono fun _ _ => List.forall₂_eq_eq_eq ▸ id).eq

end Workspace

/-- The values of counterexamples are among those of the worlds. -/
lemma Model.value_mem_of_mem_counterExamples {values : List TwistElement} {c : CounterExample}
    (hc : c ∈ m.counterExamples values) : c.value ∈ values := by
  obtain ⟨⟨u, x⟩, hux, hsome⟩ := List.mem_filterMap.mp hc
  dsimp only at hsome
  split at hsome
  · cases hsome
  · obtain rfl := Option.some.inj hsome
    exact (List.of_mem_zip hux).2

namespace Model.Renames

/-- Values with the same names are counterexamples at the same worlds. -/
lemma counterExamples (h : ts.Renames ts') (hm : Renames ts ts' m m') {xs xs' : List TwistElement}
    (hxs : List.Forall₂ (ts.SameNames ts') xs xs') :
    List.Forall₂ (CounterExample.Renames ts ts') (m.counterExamples xs)
      (m'.counterExamples xs') := by
  have hids : m.worlds.map (·.id) = m'.worlds.map (·.id) := hm.parallel.ids_eq
  rw [counterExamples_eq, counterExamples_eq, hids, hm.twist, hm.twist']
  generalize (m'.worlds.map (·.id)).toList = ids
  induction hxs generalizing ids with
  | nil => simp
  | @cons x x' _ _ hx _ ih =>
    cases ids with
    | nil => simp
    | cons id ids =>
      rw [List.zip_cons_cons, List.zip_cons_cons, List.filterMap_cons, List.filterMap_cons]
      by_cases htrue : x = ts.absoluteTrue
      · have htrue' := (h.eq_absoluteTrue_iff hx).mp htrue
        simpa only [htrue, htrue', if_true] using ih ids
      · have htrue' := (h.eq_absoluteTrue_iff hx).not.mp htrue
        simp only [htrue, htrue', if_false]
        exact .cons ⟨rfl, hx⟩ (ih ids)

/-- Corresponding models give the same verdicts by name, if negation exchanges the two sides of all
pairs, and their verdicts are about elements in any case. -/
lemma related_verdict (h : ts.Renames ts') (hm : Renames ts ts' m m') (φ : Formula) :
    Related (fun found found' =>
        (∀ c ∈ found.counterExamples, ts.contains c.value = true) ∧
        (∀ c ∈ found'.counterExamples, ts'.contains c.value = true) ∧
        (ts.Exact → ts'.Exact → List.Forall₂ (CounterExample.Renames ts ts')
          found.counterExamples found'.counterExamples))
      (m.verdict (φ.value m)) (m'.verdict (φ.value m')) := by
  unfold verdict
  rw [← hm.size_eq]
  have hvalues := Related.mapM (f := φ.value m) (g := φ.value m')
    (List.forall₂_same.mpr fun w (_ : w ∈ List.range m.worlds.size) =>
      Formula.related_of_renames h hm φ w)
  refine hvalues.bind_pure fun xs xs' hxs => ⟨fun c hc => ?_, fun c hc => ?_, fun hts hts' => ?_⟩
  · have hleft := (List.forall₂_and_left _ _).mp (hxs.imp fun _ _ hx => ⟨hx.contains_left, hx⟩)
    exact hleft.1 _ (value_mem_of_mem_counterExamples hc)
  · have hright := (List.forall₂_and_left _ _).mp
      (hxs.flip.imp fun _ _ hx => ⟨hx.contains_right, hx⟩)
    exact hright.1 _ (value_mem_of_mem_counterExamples hc)
  · exact hm.counterExamples h (hxs.imp fun _ _ hx => hx.sameNames hts hts')

/-- Corresponding models answer the same questions and refuse the others for the same reason.  The
answers are the same if negation exchanges the two sides of all pairs. -/
theorem related_answer (h : ts.Renames ts') (hm : Renames ts ts' m m') (source : Text) :
    Related (fun a a' => ts.Exact → ts'.Exact → a = a') (m.answer source) (m'.answer source) := by
  unfold answer
  cases Formula.read source 1 with
  | error f => exact .error _
  | ok φ =>
    refine ((hm.related_verdict h φ).mapError Error.evaluation).bind
      fun found found' ⟨hleft, hright, hsame⟩ => ?_
    obtain ⟨named, hnamed⟩ := Workspace.exists_nameAll hleft
    obtain ⟨named', hnamed'⟩ := Workspace.exists_nameAll hright
    rw [hm.twist, hm.twist', hnamed, hnamed']
    refine .ok fun hts hts' => ?_
    have hcounterExamples := hsame hts hts'
    have hempty : found.counterExamples.isEmpty = found'.counterExamples.isEmpty := by
      rw [Bool.eq_iff_iff, List.isEmpty_iff_length_eq_zero, List.isEmpty_iff_length_eq_zero,
        hcounterExamples.length_eq]
    have heq : (.ok named : Except Mismatch _) = .ok named' := by
      rw [← hnamed, ← hnamed', Workspace.nameAll_eq hcounterExamples]
    rw [hempty, Except.ok.inj heq]

end Model.Renames

/-! ## Descriptions -/

section Valuations

variable {v v' : Valuation}

lemma TwistStructure.SameValues.insert (hv : ts.SameValues ts' v v') (p : Text)
    {x x' : TwistElement} (hx : ts.SameNames ts' x x') :
    ts.SameValues ts' (v.insert p x) (v'.insert p x') := by
  intro q
  rw [getElem?_insert_eq_ite, getElem?_insert_eq_ite]
  split
  · exact .some hx
  · exact hv q

/-- Corresponding values that are entered in the same order. -/
lemma TwistStructure.sameValues_ofList {entries entries' : List (Text × TwistElement)}
    (h : List.Forall₂ (fun e e' => e.1 = e'.1 ∧ ts.SameNames ts' e.2 e'.2) entries entries') :
    ts.SameValues ts' (.ofList entries) (.ofList entries') := by
  have hinsert : ∀ {v v' : Valuation}, ts.SameValues ts' v v' →
      ts.SameValues ts' (v.insertMany entries) (v'.insertMany entries') := by
    induction h with
    | nil => exact fun hv => hv
    | @cons e e' _ _ he _ ih =>
      intro v v' hv
      obtain ⟨p, x⟩ := e
      obtain ⟨p', x'⟩ := e'
      obtain ⟨rfl, hx⟩ := he
      rw [Std.TreeMap.insertMany_cons, Std.TreeMap.insertMany_cons]
      exact ih (hv.insert p hx)
  rw [Std.TreeMap.ofList_eq_insertMany_empty, Std.TreeMap.ofList_eq_insertMany_empty]
  exact hinsert fun p => by simp

/-- Corresponding values are elements, so none of them is refused. -/
lemma TwistStructure.SameValues.checkValuation_eq_ok (hv : ts.SameValues ts' v v')
    (world : Text) :
    Model.checkValuation ts world v = .ok () ∧ Model.checkValuation ts' world v' = .ok () := by
  rw [Model.checkValuation_eq_ok_iff, Model.checkValuation_eq_ok_iff]
  constructor
  · intro p x hx
    have hp := hv p
    rw [hx] at hp
    generalize v'[p]? = y at hp
    cases hp with
    | some hxy => exact hxy.contains_left
  · intro p y hy
    have hp := hv p
    rw [hy] at hp
    generalize v[p]? = x at hp
    cases hp with
    | some hxy => exact hxy.contains_right

/-- Values are resolved in both structures, or they are refused for the same name. -/
lemma TwistStructure.Renames.related_resolve (h : ts.Renames ts') (v : NamedValuation) :
    Related (ts.SameValues ts') (Model.resolve ts v) (Model.resolve ts' v) := by
  unfold Model.resolve
  refine (Related.mapM (List.forall₂_same.mpr fun entry _ => ?_)).bind_pure
    fun _ _ hentries => sameValues_ofList hentries
  obtain ⟨p, t, f⟩ := entry
  exact (h.related_element? t f).bind_pure fun _ _ hx => ⟨rfl, hx⟩

end Valuations

/-- Worlds of the same name and with corresponding values, before they are added. -/
structure WorldSpec.Renames (ts ts' : TwistStructure) (spec spec' : WorldSpec) : Prop where
  id_eq : spec.id = spec'.id
  valuation : ts.SameValues ts' spec.valuation spec'.valuation

/-- A world after transitions with corresponding weights were added. -/
lemma World.Renames.addEdge {u u' : World} (hu : World.Renames ts ts' u u') (action : Text)
    (target : WorldIndex) {x x' : TwistElement} (hx : ts.SameNames ts' x x') :
    World.Renames ts ts' (u.addEdge action ⟨target, x⟩) (u'.addEdge action ⟨target, x'⟩) where
  id_eq := hu.id_eq
  valuation := hu.valuation
  edges b := by
    simp only [World.addEdge, getElem?_insert_eq_ite]
    by_cases hb : action = b
    · subst hb
      simp only [if_true, Option.getD_some]
      exact List.rel_append (hu.edges action) (.cons ⟨rfl, hx⟩ .nil)
    · simpa only [hb, if_false] using hu.edges b

namespace Model.Renames

/-- The revision does not matter. -/
lemma withRevision (hm : Renames ts ts' m m') (n n' : Nat) :
    Renames ts ts' { m with revision := n } { m' with revision := n' } :=
  ⟨hm.twist, hm.twist', hm.size_eq, hm.world, hm.hasAction_eq⟩

/-- A world with corresponding values is placed in both models, or its name is taken in both. -/
lemma related_place (hm : Renames ts ts' m m') {spec spec' : WorldSpec}
    (hspec : WorldSpec.Renames ts ts' spec spec') :
    Related (Renames ts ts') (m.place spec) (m'.place spec') := by
  obtain ⟨hid, hvalues⟩ := hspec
  obtain ⟨hcheck, hcheck'⟩ := hvalues.checkValuation_eq_ok spec.id
  unfold place
  rw [← hid, hm.parallel.findWorld?_eq, hm.twist, hm.twist', hcheck, hcheck']
  split
  · exact .error _
  · refine .ok ⟨rfl, rfl, ?_, fun w => ?_, hm.hasAction_eq⟩
    · simp [hm.size_eq]
    · simp only [Array.getElem?_push, hm.size_eq]
      split
      · exact .some ⟨rfl, hvalues, fun action => by simp⟩
      · exact hm.world w

/-- Adding worlds with corresponding values. -/
lemma related_addWorlds (hm : Renames ts ts' m m') {specs specs' : List WorldSpec}
    (hspecs : List.Forall₂ (WorldSpec.Renames ts ts') specs specs') :
    Related (Renames ts ts') (m.addWorlds specs) (m'.addWorlds specs') :=
  (Related.foldlM hspecs (fun _ _ _ _ hm => hm.related_place) hm).bind_pure
    fun _ _ hm => hm.withRevision _ _

/-- Adding transitions with corresponding weights. -/
lemma addEdge (hm : Renames ts ts' m m') (source target : WorldIndex) (action : Text)
    {x x' : TwistElement} (hx : ts.SameNames ts' x x') :
    Renames ts ts'
      { m with
        worlds := m.worlds.modify source (World.addEdge · action ⟨target, x⟩)
        actions := m.actions.insert action }
      { m' with
        worlds := m'.worlds.modify source (World.addEdge · action ⟨target, x'⟩)
        actions := m'.actions.insert action } where
  twist := hm.twist
  twist' := hm.twist'
  size_eq := by simp [hm.size_eq]
  world v := by
    have hworld := hm.world v
    simp only [Array.getElem?_modify]
    generalize m.worlds[v]? = u at hworld
    generalize m'.worlds[v]? = u' at hworld
    split
    · cases hworld with
      | none => exact .none
      | some hu => exact .some (hu.addEdge action target hx)
    · exact hworld
  hasAction_eq b := by
    have hb := hm.hasAction_eq b
    simp only [hasAction, Std.TreeSet.contains_insert] at hb ⊢
    rw [hb]

/-- Adding a transition whose weight is given by names. -/
lemma related_addRelationNamed (h : ts.Renames ts') (hm : Renames ts ts' m m')
    (source target action t f : Text) :
    Related (Renames ts ts') (m.addRelationNamed source target action t f)
      (m'.addRelationNamed source target action t f) := by
  have hindex : ∀ id, Related Eq (m.worldIndex id) (m'.worldIndex id) := by
    intro id
    rw [worldIndex, worldIndex, hm.parallel.findWorld?_eq]
    exact .of_eq rfl
  have helement : Related (ts.SameNames ts') (m.twist.element? t f) (m'.twist.element? t f) := by
    rw [hm.twist, hm.twist']
    exact h.related_element? t f
  unfold addRelationNamed addRelation
  refine (hindex source).bind fun _ _ _ => (hindex target).bind fun _ _ _ => ?_
  refine (helement.mapError ModelError.mismatch).bind fun x x' hx => ?_
  refine (hindex source).bind fun src _ hsrc => (hindex target).bind fun dst _ hdst => ?_
  subst hsrc hdst
  dsimp only
  rw [TwistStructure.require_eq_ok_iff.mpr (hm.twist.symm ▸ hx.contains_left),
    TwistStructure.require_eq_ok_iff.mpr (hm.twist'.symm ▸ hx.contains_right)]
  exact .ok ((hm.addEdge src dst action hx).withRevision _ _)

/-- Making an action known. -/
lemma declareAction (hm : Renames ts ts' m m') (action : Text) :
    Renames ts ts' (m.declareAction action) (m'.declareAction action) := by
  unfold Model.declareAction
  rw [hm.hasAction_eq action]
  split
  · exact hm
  · refine ⟨hm.twist, hm.twist', hm.size_eq, hm.world, fun b => ?_⟩
    have hb := hm.hasAction_eq b
    simp only [hasAction, Std.TreeSet.contains_insert] at hb ⊢
    rw [hb]

end Model.Renames

namespace ModelDescription

lemma related_resolveWorld (h : ts.Renames ts') (w : WorldDescription) :
    Related (WorldSpec.Renames ts ts') (resolveWorld ts w) (resolveWorld ts' w) :=
  ((h.related_resolve w.valuation).mapError ModelError.mismatch).bind_pure fun _ _ hv => ⟨rfl, hv⟩

/-- A description is built into corresponding models, or it is refused for the same reason. -/
theorem related_build (h : ts.Renames ts') (d : ModelDescription) :
    Related (Model.Renames ts ts') (d.build (some ts)) (d.build (some ts')) := by
  have hempty : Model.Renames ts ts' (.empty ts) (.empty ts') :=
    ⟨rfl, rfl, rfl, fun _ => by simp [Model.empty], fun _ => rfl⟩
  have hspecs := Related.mapM
    (List.forall₂_same.mpr fun w (_ : w ∈ d.worlds) => related_resolveWorld h w)
  have hrelations : ∀ {m m' : Model}, Model.Renames ts ts' m m' →
      Related (Model.Renames ts ts') (d.relations.foldlM addRelation m)
        (d.relations.foldlM addRelation m') :=
    fun hm => Related.foldlM (P := Eq) (List.forall₂_same.mpr fun _ _ => rfl)
      (fun _ _ r _ hm hr => hr ▸ hm.related_addRelationNamed h r.source r.target r.action r.t r.f)
      hm
  have hactions : ∀ {m m' : Model}, Model.Renames ts ts' m m' →
      Model.Renames ts ts' (d.actions.foldl .declareAction m)
        (d.actions.foldl .declareAction m') := by
    induction d.actions with
    | nil => exact fun hm => hm
    | cons action actions ih => exact fun hm => ih (hm.declareAction action)
  exact hspecs.bind fun _ _ hspecs => (hempty.related_addWorlds hspecs).bind fun _ _ hm =>
    (hrelations hm).bind_pure fun _ _ hm => hactions hm

end ModelDescription

end TwistLogic
