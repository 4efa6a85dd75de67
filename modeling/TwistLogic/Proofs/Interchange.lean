import TwistLogic.Proofs.Algebra.Completion
import TwistLogic.Proofs.Algebra.Positions
import TwistLogic.Proofs.Model.Renaming
import TwistLogic.Proofs.Workspace

/-!
# Presentations are interchangeable

A workspace is used by requests, and whoever uses it sees nothing but the replies.  They contain
names, never numbers, so a twist structure can be exchanged for one over an equivalent presentation:
every model that is defined over it is built or refused as before, and every question about such a
model is answered or refused as before.

Workspaces are `Interchangeable` if what they hold under each name is the same, or the same by name
with other numbers.  One request keeps this (`Interchangeable.reply`), so a sequence of requests
does (`Interchangeable.replies`).  The answers themselves are the same as long as the positions of
pairs are 32-bit numbers.  Beyond that the order in which the elements are listed decides which
negations are wrong (`reversed_elements_distinguished`).  So the relation takes a proposition `P`
under which the tables of negation are exact, and the answers are the same if it holds.
-/

namespace TwistLogic

/-! ## Requests -/

namespace Workspace

/-- What can be asked of a workspace. -/
inductive Request where
  | defineTwist (name : Text) (p : Presentation)
  | defineModel (name : Text) (d : ModelDescription)
  | evaluate {threads : Nat} (schedules : (n : Nat) → Schedule threads n) (source model : Text)
    (memoize : Bool)

/-- The reply to a definition and the workspace after it: a confirmation, or a refusal that changes
nothing. -/
def settle {α : Type} (ws : Workspace) :
    Except Error (α × Workspace) → Except Error (Option EvaluationResponse) × Workspace
  | .ok (_, ws') => (.ok none, ws')
  | .error e => (.error e, ws)

/-- The reply to a request and the workspace after it. -/
def reply (ws : Workspace) : Request → Except Error (Option EvaluationResponse) × Workspace
  | .defineTwist name p => ws.settle (ws.defineTwist name p)
  | .defineModel name d => ws.settle (ws.defineModel name d)
  | .evaluate schedules source model memoize =>
    let (r, ws') := ws.evaluateOn schedules source model memoize
    (r.map some, ws')

/-- The replies to requests that are made one after the other. -/
def replies (ws : Workspace) : List Request → List (Except Error (Option EvaluationResponse))
  | [] => []
  | r :: rs => (ws.reply r).1 :: (ws.reply r).2.replies rs

variable {ws ws' : Workspace}

lemma Reached.settle (h : ws.Reached) {α : Type} {x : Except Error (α × Workspace)}
    (hx : ∀ a ws', x = .ok (a, ws') → ws'.Reached) : (ws.settle x).2.Reached := by
  cases x with
  | ok r => exact hx r.1 r.2 rfl
  | error e => exact h

/-- A request leads to a workspace that is made by use. -/
lemma Reached.reply (h : ws.Reached) (r : Request) : (ws.reply r).2.Reached := by
  cases r with
  | defineTwist name p => exact h.settle fun _ _ => .defineTwist h
  | defineModel name d => exact h.settle fun _ _ => .defineModel h
  | evaluate schedules source model memoize => exact .evaluateOn schedules source model memoize h

/-- A question changes neither structures nor models. -/
lemma content_evaluateOn (ws : Workspace) {threads : Nat}
    (schedules : (n : Nat) → Schedule threads n) (source name : Text) (memoize : Bool) :
    (ws.evaluateOn schedules source name memoize).2.twists = ws.twists ∧
      (ws.evaluateOn schedules source name memoize).2.models = ws.models := by
  cases hm : ws.model name with
  | error e =>
    rw [evaluateOn_snd_of_error hm]
    exact ⟨rfl, rfl⟩
  | ok m =>
    rw [evaluateOn_snd hm]
    exact ⟨rfl, rfl⟩

end Workspace

/-! ## Interchangeable content -/

variable {P : Prop}

/-- The same structure, or the same by name.  If `P` holds, negation exchanges the two sides of all
pairs in both. -/
def TwistStructure.Interchangeable (P : Prop) (ts ts' : TwistStructure) : Prop :=
  ts = ts' ∨ ts.Renames ts' ∧ (P → ts.Exact ∧ ts'.Exact)

/-- The same model, or the same by name. -/
def Model.Interchangeable (P : Prop) (m m' : Model) : Prop :=
  m = m' ∨ ∃ ts ts', (ts.Renames ts' ∧ (P → ts.Exact ∧ ts'.Exact)) ∧ Model.Renames ts ts' m m'

lemma Model.Interchangeable.related_answer {m m' : Model} (h : m.Interchangeable P m')
    (source : Text) : Related (fun a a' => P → a = a') (m.answer source) (m'.answer source) := by
  rcases h with rfl | ⟨ts, ts', ⟨hts, hexact⟩, hm⟩
  · exact (Related.of_eq rfl).mono fun _ _ heq _ => heq
  · exact (hm.related_answer hts source).mono fun _ _ heq hyes =>
      heq (hexact hyes).1 (hexact hyes).2

lemma ModelDescription.interchangeable_build {ts ts' : TwistStructure}
    (h : ts.Interchangeable P ts') (d : ModelDescription) :
    Related (Model.Interchangeable P) (d.build (some ts)) (d.build (some ts')) := by
  rcases h with rfl | h
  · exact (Related.of_eq rfl).mono fun _ _ => .inl
  · exact (d.related_build h.1).mono fun _ _ hm => .inr ⟨ts, ts', h, hm⟩

namespace Workspace

/-- Interchangeable content under each name. -/
structure Interchangeable (P : Prop) (ws ws' : Workspace) : Prop where
  twists : ∀ name : Text,
    Option.Rel (TwistStructure.Interchangeable P) ws.twists[name]? ws'.twists[name]?
  models : ∀ name : Text,
    Option.Rel (Model.Interchangeable P) ws.models[name]? ws'.models[name]?

namespace Interchangeable

variable {ws ws' : Workspace}

lemma refl (ws : Workspace) : ws.Interchangeable P ws where
  twists name := by
    cases ws.twists[name]? with
    | none => exact .none
    | some ts => exact .some (.inl rfl)
  models name := by
    cases ws.models[name]? with
    | none => exact .none
    | some m => exact .some (.inl rfl)

lemma related_twist (h : ws.Interchangeable P ws') (name : Text) :
    Related (TwistStructure.Interchangeable P) (ws.twist name) (ws'.twist name) := by
  have hname := h.twists name
  unfold twist
  generalize ws.twists[name]? = ts at hname
  generalize ws'.twists[name]? = ts' at hname
  cases hname with
  | none => exact .error _
  | some hts => exact .ok hts

lemma related_model (h : ws.Interchangeable P ws') (name : Text) :
    Related (Model.Interchangeable P) (ws.model name) (ws'.model name) := by
  have hname := h.models name
  unfold model
  generalize ws.models[name]? = m at hname
  generalize ws'.models[name]? = m' at hname
  cases hname with
  | none => exact .error _
  | some hm => exact .ok hm

lemma insertTwist (h : ws.Interchangeable P ws') (name : Text) {ts ts' : TwistStructure}
    (hts : ts.Interchangeable P ts') :
    Interchangeable P { ws with twists := ws.twists.insert name ts }
      { ws' with twists := ws'.twists.insert name ts' } where
  twists other := by
    rw [getElem?_insert_eq_ite, getElem?_insert_eq_ite]
    split
    · exact .some hts
    · exact h.twists other
  models := h.models

lemma putModel (h : ws.Interchangeable P ws') (name : Text) {m m' : Model}
    (hm : m.Interchangeable P m') :
    (ws.putModel name m).Interchangeable P (ws'.putModel name m') where
  twists := h.twists
  models other := by
    simp only [Workspace.putModel, getElem?_insert_eq_ite]
    split
    · exact .some hm
    · exact h.models other

/-- A presentation is defined in both workspaces, or it is refused for the same reason. -/
lemma related_defineTwist (h : ws.Interchangeable P ws') (name : Text) (p : Presentation) :
    Related (fun r r' => r.2.Interchangeable P r'.2) (ws.defineTwist name p)
      (ws'.defineTwist name p) := by
  unfold defineTwist
  refine (Related.of_eq rfl).bind fun base _ hbase => ?_
  subst hbase
  refine (Related.of_eq rfl).bind fun ts _ hts => ?_
  subst hts
  exact .ok (h.insertTwist name (.inl rfl))

/-- A model is defined in both workspaces, or it is refused for the same reason. -/
lemma related_defineModel (h : ws.Interchangeable P ws') (name : Text) (d : ModelDescription) :
    Related (fun r r' => r.2.Interchangeable P r'.2) (ws.defineModel name d)
      (ws'.defineModel name d) := by
  unfold defineModel
  refine (h.related_twist d.twist).bind fun ts ts' hts => ?_
  exact ((d.interchangeable_build hts).mapError Error.model).bind_pure
    fun _ _ hm => h.putModel name hm

lemma settle (h : ws.Interchangeable P ws') {α : Type}
    {x y : Except Error (α × Workspace)}
    (hxy : Related (fun r r' => r.2.Interchangeable P r'.2) x y) :
    Related (fun a a' => P → a = a') (ws.settle x).1 (ws'.settle y).1 ∧
      (ws.settle x).2.Interchangeable P (ws'.settle y).2 := by
  cases hxy with
  | ok h' => exact ⟨.ok fun _ => rfl, h'⟩
  | error e => exact ⟨.error e, h⟩

/-- Interchangeable workspaces reply alike to a request, and are interchangeable after it. -/
theorem reply (h : ws.Interchangeable P ws') (hws : ws.Reached) (hws' : ws'.Reached)
    (r : Request) :
    Related (fun a a' => P → a = a') (ws.reply r).1 (ws'.reply r).1 ∧
      (ws.reply r).2.Interchangeable P (ws'.reply r).2 := by
  cases r with
  | defineTwist name p => exact h.settle (h.related_defineTwist name p)
  | defineModel name d => exact h.settle (h.related_defineModel name d)
  | evaluate schedules source name memoize =>
    constructor
    · -- the answer depends on the named model only, not on what was read into the stores
      have hanswer := (h.related_model name).bind fun _ _ hm => hm.related_answer source
      simp only [Workspace.reply, evaluateOn_fst hws, evaluateOn_fst hws']
      exact hanswer.bind_pure fun _ _ heq hyes => congrArg some (heq hyes)
    · obtain ⟨htwists, hmodels⟩ := content_evaluateOn ws schedules source name memoize
      obtain ⟨htwists', hmodels'⟩ := content_evaluateOn ws' schedules source name memoize
      constructor
      · simpa only [Workspace.reply, htwists, htwists'] using h.twists
      · simpa only [Workspace.reply, hmodels, hmodels'] using h.models

/-- Interchangeable workspaces reply alike to all requests. -/
theorem replies (h : ws.Interchangeable P ws') (hws : ws.Reached) (hws' : ws'.Reached)
    (requests : List Request) :
    List.Forall₂ (Related fun a a' => P → a = a') (ws.replies requests)
      (ws'.replies requests) := by
  induction requests generalizing ws ws' with
  | nil => exact .nil
  | cons r rs ih =>
    obtain ⟨hreply, hnext⟩ := h.reply hws hws' r
    exact .cons hreply (ih hnext (hws.reply r) (hws'.reply r))

end Interchangeable

end Workspace

/-! ## The main statement -/

namespace Workspace

/-- An algebra that was built is defined: nothing is refused after the build. -/
lemma defineTwist_eq_ok (ws : Workspace) (name : Text) {p : Presentation} {r : ResiduatedLattice}
    {ts : TwistStructure} (hr : p.build = .ok r)
    (hts : TwistStructure.generate (some r) = .ok ts) :
    ws.defineTwist name p = .ok (ts, { ws with twists := ws.twists.insert name ts }) := by
  rw [defineTwist, hr]
  simp only [Except.mapError, bind, Except.bind, hts]
  rfl

/-- Equivalent presentations are both built, or both refused.  If they are built, a workspace that
defines a twist structure by one of them answers the same requests as it does if it defines it by
the other, and refuses the others for the same reason.  The answers are the same too, if there are
so few elements that the position of every pair is a 32-bit number. -/
theorem presentations_interchangeable {p q : Presentation} (h : p.Equivalent q) :
    ((∃ r, p.build = .ok r) ↔ ∃ r, q.build = .ok r) ∧
    ((∃ r, p.build = .ok r) → ∀ (ws : Workspace) (name : Text), ws.Reached → ∃ ts wp ts' wq,
      ws.defineTwist name p = .ok (ts, wp) ∧ ws.defineTwist name q = .ok (ts', wq) ∧
      ∀ requests : List Request,
        List.Forall₂ (Related fun a a' => p.elements.length ≤ 65536 → a = a')
          (wp.replies requests) (wq.replies requests)) := by
  refine ⟨h.exists_build_iff, fun ⟨r, hr⟩ ws name hws => ?_⟩
  obtain ⟨r', hr', -⟩ := h.exists_build hr
  obtain ⟨ts, hts⟩ := Presentation.exists_generate_of_build hr
  obtain ⟨ts', hts'⟩ := Presentation.exists_generate_of_build hr'
  have hp := ws.defineTwist_eq_ok name hr hts
  have hq := ws.defineTwist_eq_ok name hr' hts'
  refine ⟨ts, _, ts', _, hp, hq, fun requests => ?_⟩
  have hrenames : ts.Renames ts' := h.renames_generate hr hr' hts hts'
  have hexact : p.elements.length ≤ 65536 → ts.Exact ∧ ts'.Exact := fun hlength =>
    ⟨Presentation.exact_of_build hr hts hlength,
      Presentation.exact_of_build hr' hts' (h.elements.length_eq ▸ hlength)⟩
  have hinterchangeable := (Interchangeable.refl ws).insertTwist name (.inr ⟨hrenames, hexact⟩)
  exact hinterchangeable.replies (.defineTwist hws hp) (.defineTwist hws hq) requests

/-- Three elements with the Łukasiewicz product. -/
def threeChain : Presentation where
  elements := ["0", "h", "1"].map ascii
  order := [("0", "h"), ("h", "1")].map fun r => (ascii r.1, ascii r.2)
  products := [("0", "0", "0"), ("0", "h", "0"), ("0", "1", "0"), ("h", "h", "0"), ("h", "1", "h"),
    ("1", "1", "1")].map fun t => ⟨ascii t.1, ascii t.2.1, ascii t.2.2⟩

/-- The same algebra with permuted elements, two pairs more in its order, and every triple twice. -/
def shuffledChain : Presentation where
  elements := ["1", "0", "h"].map ascii
  order := [("h", "1"), ("h", "h"), ("0", "1"), ("0", "h")].map fun r => (ascii r.1, ascii r.2)
  products := threeChain.products.reverse ++ threeChain.products

lemma equivalent_shuffledChain : threeChain.Equivalent shuffledChain where
  elements := by decide +kernel
  order x y := by
    constructor
    · refine Relation.TransGen.mono ?_ x y
      have hpairs : ∀ r ∈ threeChain.order, r ∈ shuffledChain.order := by decide +kernel
      have hnames : ∀ z ∈ threeChain.elements, z ∈ shuffledChain.elements := by decide +kernel
      rintro a b (h | ⟨rfl, h⟩)
      · exact .inl (hpairs _ h)
      · exact .inr ⟨rfl, hnames _ h⟩
    · refine Relation.TransGen.closed ?_ x y
      have hpairs : ∀ r ∈ shuffledChain.order, (r ∈ threeChain.order ∨
          r.1 = r.2 ∧ r.1 ∈ threeChain.elements) ∨ r = (ascii "0", ascii "1") := by decide +kernel
      have hnames : ∀ z ∈ shuffledChain.elements, z ∈ threeChain.elements := by decide +kernel
      have hsteps : (ascii "0", ascii "h") ∈ threeChain.order ∧
          (ascii "h", ascii "1") ∈ threeChain.order := by decide +kernel
      rintro a b (h | ⟨rfl, h⟩)
      · rcases hpairs _ h with h | h
        · exact .single h
        · obtain ⟨rfl, rfl⟩ := Prod.mk.inj h
          exact .tail (.single (.inl hsteps.1)) (.inl hsteps.2)
      · exact .single (.inr ⟨rfl, hnames _ h⟩)
  products t := by simp [shuffledChain]

/-- `p` is worth `h` at `u` and everything at `v`, where a step of weight `h` leads. -/
def halfway : ModelDescription where
  twist := ascii "T"
  worlds := [⟨ascii "u", .ofList [(ascii "p", ascii "h", ascii "0")]⟩,
    ⟨ascii "v", .ofList [(ascii "p", ascii "1", ascii "h")]⟩]
  relations := [⟨ascii "u", ascii "v", ascii "a", ascii "h", ascii "h"⟩]
  actions := []

/-- What the chain replies about a model and two formulas, the shuffled chain replies too. -/
theorem presentations_interchangeable_threeChain :
    let name := ascii "T"
    let requests : List Request := [.defineModel (ascii "M") halfway,
      .evaluate Schedule.sequential (ascii "<a> p -> p") (ascii "M") true,
      .evaluate Schedule.sequential (ascii "p => <a> p") (ascii "M") true]
    let expected : List (Except Error (Option EvaluationResponse)) := [.ok none,
      .ok (some ⟨false, [⟨ascii "u", ascii "h", ascii "0"⟩]⟩),
      .ok (some ⟨false, [⟨ascii "v", ascii "0", ascii "1"⟩]⟩)]
    (empty.defineTwist name threeChain).map (fun r => r.2.replies requests) = .ok expected ∧
    (empty.defineTwist name shuffledChain).map (fun r => r.2.replies requests) = .ok expected := by
  intro name requests expected
  obtain ⟨-, hworks⟩ := presentations_interchangeable equivalent_shuffledChain
  have hbuild : threeChain.build.toOption.isSome = true := by decide +kernel
  obtain ⟨ts, wp, ts', wq, hp, hq, halike⟩ := hworks
    ⟨_, eq_ok_getD_of_isSome (a := TwistStructure.fourValued.base) hbuild⟩ .empty name .refl
  have hreplies : wp.replies requests = wq.replies requests := by
    refine List.forall₂_eq_eq_eq ▸ (halike requests).imp fun _ _ hreply => ?_
    exact (hreply.mono fun _ _ heq => heq (by decide)).eq
  have hexpected : (empty.defineTwist name threeChain).map (fun r => r.2.replies requests) =
      .ok expected := by decide +kernel
  refine ⟨hexpected, ?_⟩
  rw [hp] at hexpected
  rw [hq, ← hexpected]
  exact congrArg Except.ok hreplies.symm

end Workspace

/-! ## Presentations that are told apart -/

/-- A chain of 65537 elements that is listed from its greatest element: the position of the pair
that exchanges falsity is 2^32, and the number in the table of negation is that of truth. -/
lemma TwistStructure.negation_absoluteFalse_of_reverse {r r' : ResiduatedLattice}
    {ts : TwistStructure} (h : Chain.IsChain r.lattice 65537)
    (hnames : r'.lattice.names.toList = r.lattice.names.toList.reverse) (hr : r.Renames r')
    (hts : ts.Generated) (hbase : ts.base = r') :
    ts.negation ts.absoluteFalse = ts.absoluteTrue := by
  subst hbase
  have htop : ts.base.lattice.top = 0 := by
    have hlast := FiniteLattice.sameName_of_reverse hnames hr.lattice.lawful.top_lt
    rw [← hr.lattice.right_unique hlast hr.lattice.top, h.top_eq, h.size_eq]
  have hbottom : ts.base.lattice.bottom = 65536 := by
    have hfirst := FiniteLattice.sameName_of_reverse hnames hr.lattice.lawful.bottom_lt
    rw [← hr.lattice.right_unique hfirst hr.lattice.bottom, h.bottom_eq, h.size_eq]
  have hsize : ts.base.size = 65537 := by
    have hlength := congrArg List.length hnames
    rw [List.length_reverse, Array.length_toList, Array.length_toList] at hlength
    exact hlength.trans h.size_eq
  refine hts.negation_eq hts.lawful.contains_absoluteFalse hts.lawful.contains_absoluteTrue ?_
  rw [index, index, hsize, absoluteTrue, absoluteFalse, ResiduatedLattice.top,
    ResiduatedLattice.bottom, htop, hbottom]
  decide

/-- One world without values. -/
def ModelDescription.bare : ModelDescription where
  twist := ascii "T"
  worlds := [⟨ascii "w", ∅⟩]
  relations := []
  actions := []

lemma ModelDescription.exists_build_bare (ts : TwistStructure) :
    ∃ m v, bare.build (some ts) = .ok m ∧ m.twist = ts ∧ m.worlds = #[⟨ascii "w", v, ∅⟩] := by
  let v : Valuation := .ofList ([] : List (Text × TwistElement)) compare
  have hplace : (Model.empty ts).place ⟨ascii "w", v⟩ =
      .ok { Model.empty ts with worlds := #[⟨ascii "w", v, ∅⟩] } :=
    Model.place_eq_ok_iff.mpr ⟨by simp [Model.findWorld?, Model.empty], by simp [v], rfl⟩
  refine ⟨{ Model.empty ts with worlds := #[⟨ascii "w", v, ∅⟩], revision := 1 }, v, ?_, rfl, rfl⟩
  have hadd : (Model.empty ts).addWorlds [⟨ascii "w", v⟩] =
      .ok { Model.empty ts with worlds := #[⟨ascii "w", v, ∅⟩], revision := 1 } := by
    refine Model.addWorlds_eq_ok_iff.mpr
      ⟨{ Model.empty ts with worlds := #[⟨ascii "w", v, ∅⟩] }, ?_, rfl⟩
    exact (List.foldlM_cons ..).trans (bind_eq_ok_iff.mpr ⟨_, hplace, rfl⟩)
  exact bind_eq_ok_iff.mpr ⟨_, rfl, bind_eq_ok_iff.mpr ⟨[⟨ascii "w", v⟩], rfl,
    bind_eq_ok_iff.mpr ⟨_, hadd, rfl⟩⟩⟩

lemma Model.answer_of_negated_falsity {m : Model} {u : World} {x : TwistElement}
    (hworlds : m.worlds = #[u]) (hx : m.twist.negation m.twist.absoluteFalse = x) :
    (x = m.twist.absoluteTrue → m.answer (ascii "~0") = .ok ⟨true, []⟩) ∧
    (x ≠ m.twist.absoluteTrue → ∀ t f, m.twist.names? x = .ok (t, f) →
      m.answer (ascii "~0") = .ok ⟨false, [⟨u.id, t, f⟩]⟩) := by
  have hread : Formula.read (ascii "~0") 1 = .ok (.neg .bot) := by decide +kernel
  have hverdict : m.verdict ((Formula.neg .bot).value m) = .ok {
      counterExamples := if x = m.twist.absoluteTrue then [] else [⟨u.id, x⟩]
      values := [x]
      aggregate := m.twist.meetAll [x] } := by
    subst hx
    by_cases h : m.twist.negation m.twist.absoluteFalse = m.twist.absoluteTrue <;>
      simp [Model.verdict, hworlds, Formula.value, Model.counterExamples, h]
  constructor
  · intro h
    simp only [Model.answer, hread, hverdict, if_pos h]
    rfl
  · intro h t f hnames
    simp only [Model.answer, hread, hverdict, if_neg h]
    have : Workspace.nameCounterExample m.twist ⟨u.id, x⟩ = .ok ⟨u.id, t, f⟩ := by
      rw [Workspace.nameCounterExample, hnames]
      rfl
    simp only [Except.mapError, bind, Except.bind, List.mapM_cons, this, List.mapM_nil]
    rfl

namespace Workspace

/-- A definition of a model and a question about it. -/
def bareRequests : List Request :=
  [.defineModel (ascii "M") .bare, .evaluate Schedule.sequential (ascii "~0") (ascii "M") true]

lemma replies_bareRequests {ws : Workspace} (hws : ws.Reached) (ts : TwistStructure)
    (hts : ws.twists[ascii "T"]? = some ts) {x : TwistElement}
    (hx : ts.negation ts.absoluteFalse = x) :
    (x = ts.absoluteTrue → ws.replies bareRequests = [.ok none, .ok (some ⟨true, []⟩)]) ∧
    (x ≠ ts.absoluteTrue → ∀ t f, ts.names? x = .ok (t, f) →
      ws.replies bareRequests = [.ok none, .ok (some ⟨false, [⟨ascii "w", t, f⟩]⟩)]) := by
  obtain ⟨m, v, hm, rfl, hworlds⟩ := ModelDescription.exists_build_bare ts
  obtain ⟨htrue, hfalse⟩ := Model.answer_of_negated_falsity hworlds hx
  have hdefine : ws.defineModel (ascii "M") .bare = .ok (m, ws.putModel (ascii "M") m) := by
    have htwist : ws.twist (ascii "T") = .ok m.twist := by rw [twist, hts]
    refine bind_eq_ok_iff.mpr ⟨_, htwist, bind_eq_ok_iff.mpr ⟨m, ?_, rfl⟩⟩
    rw [hm]
    rfl
  have hreplies : ws.replies bareRequests =
      [.ok none, (m.answer (ascii "~0")).map some] := by
    have hmodel : (ws.putModel (ascii "M") m).model (ascii "M") = .ok m := by
      simp [model, putModel]
    have hreached : (ws.putModel (ascii "M") m).Reached := .defineModel hws hdefine
    simp only [bareRequests, replies, reply, hdefine, settle, evaluateOn_fst hreached, hmodel]
    rfl
  constructor
  · intro h
    rw [hreplies, htrue h]
    rfl
  · intro h t f hnames
    rw [hreplies, hfalse h t f hnames]
    rfl

/-- Where the positions of pairs are no longer 32-bit numbers, equivalent presentations tell their
workspaces apart: if the 65537 elements of a chain are listed in reverse, `~0` is valid. -/
theorem reversed_elements_distinguished :
    ∃ r, Chain.build .goedel 65537 = .ok r ∧
      let p := r.exported
      let q : Presentation := { p with elements := p.elements.reverse }
      p.Equivalent q ∧ p.build = .ok r ∧ ∃ ts wp ts' wq,
        empty.defineTwist (ascii "T") p = .ok (ts, wp) ∧
        empty.defineTwist (ascii "T") q = .ok (ts', wq) ∧
        wp.replies bareRequests =
          [.ok none, .ok (some ⟨false, [⟨ascii "w", ascii "0", ascii "1"⟩]⟩)] ∧
        wq.replies bareRequests = [.ok none, .ok (some ⟨true, []⟩)] := by
  obtain ⟨r, hr⟩ := Chain.exists_build_eq_ok .goedel (n := 65537) (by decide)
  obtain ⟨elements, pairs, l, rows, hl, hextend⟩ := Chain.exists_of_build hr
  have hp : r.exported.build = .ok r :=
    r.exports_exported.build_eq ⟨elements, pairs, l, rows, hl, hextend⟩
  have hequivalent := r.exported.equivalent_reverse
  obtain ⟨r', hq, hrenames⟩ := hequivalent.exists_build hp
  obtain ⟨ts, hts⟩ := Presentation.exists_generate_of_build hp
  obtain ⟨ts', hts'⟩ := Presentation.exists_generate_of_build hq
  have hpdefine := empty.defineTwist_eq_ok (ascii "T") hp hts
  have hqdefine := empty.defineTwist_eq_ok (ascii "T") hq hts'
  refine ⟨r, hr, hequivalent, hp, ts, _, ts', _, hpdefine, hqdefine, ?_, ?_⟩
  · have hwide : ts.IsWide := TwistStructure.isWide_of_build hr hts
    have hreplies := replies_bareRequests (.defineTwist .refl hpdefine) ts (by simp)
      hwide.negation_absoluteFalse
    refine hreplies.2 ?_ _ _ ?_
    · rw [hwide.absoluteFalse_eq, hwide.absoluteTrue_eq]
      decide
    · rw [hwide.absoluteFalse_eq, TwistStructure.names?,
        hwide.chain.chain.name?_eq (by decide), hwide.chain.chain.name?_eq (by decide)]
      rfl
  · have hnegation := TwistStructure.negation_absoluteFalse_of_reverse
      (Chain.isChainOf_of_build hr).chain (Presentation.names_of_build hq) hrenames
      (Presentation.generated_of_build hq hts') (TwistStructure.base_of_generate hts')
    exact (replies_bareRequests (.defineTwist .refl hqdefine) ts' (by simp)
      hnegation).1 rfl

end Workspace

end TwistLogic
