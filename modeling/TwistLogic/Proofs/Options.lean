import TwistLogic.CommandLine.Options
import TwistLogic.Proofs.Basic
import TwistLogic.Proofs.Text.Integer

/-!
# What a command line asks for

The arguments of a command line spell out requests from left to right (`Options.Spells`).  Two
options take whatever stands behind them as their value, also an argument that would be an option
elsewhere.

`Options.parse` accepts the arguments that spell out requests of which at least one gives something
to do, and its options answer all of them: a flag is set if it was given, and of several values the
last one counts (`Options.parse_eq_ok_iff`).

An empty input leaves no trace in the options, so the next input is not noticed to be a second one.
Several inputs are refused only if one of them that is not the last is not empty
(`Options.empty_input_not_counted`).
-/

namespace TwistLogic

/-! ## Requests -/

/-- The words that have a role. -/
def Argument.words : Argument → List Text
  | .flag .selftest => [ascii "--selftest"]
  | .flag .legend => [ascii "--legend"]
  | .flag .tables => [ascii "--tables"]
  | .flag .certify => [ascii "--certify"]
  | .flag .stats => [ascii "--stats"]
  | .flag .help => [ascii "--help", ascii "-h"]
  | .algebra => [ascii "--algebra", ascii "-a"]
  | .threads => [ascii "--threads", ascii "-j"]
  | .unknown | .positional => []

/-- The value of a thread count: a natural number of 31 bits stands at its front. -/
def Text.ShowsThreads (value : Text) (n : Nat) : Prop := value.LeadsWith n ∧ n < 2147483648

namespace Options

/-- One thing that a command line asks for. -/
inductive Request where
  | flag (f : Flag)
  | algebra (name : Text)
  | threads (n : Nat)
  | input (text : Text)

namespace Request

/-- The algebra that is asked for. -/
def algebra? : Request → Option Text
  | algebra name => some name
  | _ => .none

/-- The thread count that is asked for. -/
def threads? : Request → Option Nat
  | threads n => some n
  | _ => .none

/-- The input that is given. -/
def input? : Request → Option Text
  | input text => some text
  | _ => .none

/-- The request alone gives something to do. -/
def Acts : Request → Prop
  | flag f => f ≠ .stats
  | input text => text ≠ []
  | algebra _ | threads _ => False

end Request

/-- No text is followed by another one unless it is empty. -/
def EmptyButLast (xs : List Text) : Prop := ∀ x ∈ xs.dropLast, x = []

/-- How arguments spell out requests. -/
inductive Spells : List Text → List Request → Prop
  | nil : Spells [] []
  | flag {f : Flag} {arg : Text} {args : List Text} {rs : List Request} :
    arg ∈ (Argument.flag f).words → Spells args rs → Spells (arg :: args) (.flag f :: rs)
  | algebra {arg value : Text} {args : List Text} {rs : List Request} :
    arg ∈ Argument.algebra.words → Spells args rs →
      Spells (arg :: value :: args) (.algebra value :: rs)
  | threads {arg value : Text} {n : Nat} {args : List Text} {rs : List Request} :
    arg ∈ Argument.threads.words → value.ShowsThreads n → Spells args rs →
      Spells (arg :: value :: args) (.threads n :: rs)
  | input {arg : Text} {args : List Text} {rs : List Request} :
    arg.head? ≠ some (byte '-') → Spells args rs → Spells (arg :: args) (.input arg :: rs)

/-- The field of a flag. -/
def has (o : Options) : Flag → Bool
  | .selftest => o.selftest
  | .legend => o.legend
  | .tables => o.tables
  | .certify => o.certify
  | .stats => o.stats
  | .help => o.help

/-- The options say what was asked for: the flags that were given, and the last value of each kind
or its default. -/
structure Answers (o : Options) (rs : List Request) : Prop where
  has_iff : ∀ f, o.has f = true ↔ .flag f ∈ rs
  algebra_eq : o.algebra = (rs.filterMap Request.algebra?).getLastD (ascii "boolean")
  threads_eq : o.threads = (rs.filterMap Request.threads?).getLastD 0
  input_eq : o.input = (rs.filterMap Request.input?).getLastD []

/-- The options after one more request. -/
def grant (o : Options) : Request → Options
  | .flag f => o.set f
  | .algebra name => { o with algebra := name }
  | .threads n => { o with threads := n }
  | .input text => { o with input := text }

end Options

/-! ## Roles of arguments -/

namespace Argument

variable {a : Argument} {w : Text}

lemma ofText_of_mem_words (h : w ∈ a.words) : ofText w = a := by
  revert w
  cases a with
  | flag f => cases f <;> decide +kernel
  | algebra | threads | unknown | positional => decide +kernel

lemma head?_of_mem_words (h : w ∈ a.words) : w.head? = some (byte '-') := by
  revert w
  cases a with
  | flag f => cases f <;> decide +kernel
  | algebra | threads | unknown | positional => decide +kernel

/-- An argument has the role of a word, or it is told by its first byte. -/
def HasRole (w : Text) (a : Argument) : Prop :=
  w ∈ a.words ∨ (a = .unknown ∧ w.head? = some (byte '-')) ∨
    (a = .positional ∧ w.head? ≠ some (byte '-'))

lemma hasRole_ofText (w : Text) : HasRole w (ofText w) := by
  unfold ofText
  iterate 5
    refine iteInduction (motive := HasRole w) (fun hw => .inl ?_) fun _ => ?_
    · exact List.mem_singleton.mpr hw
  iterate 3
    refine iteInduction (motive := HasRole w) (fun hw => .inl ?_) fun _ => ?_
    · simpa [words] using hw
  exact iteInduction (fun hdash => .inr (.inl ⟨rfl, hdash⟩)) fun hdash => .inr (.inr ⟨rfl, hdash⟩)

lemma mem_words_of_ofText (h : ofText w = a) (hu : a ≠ .unknown) (hp : a ≠ .positional) :
    w ∈ a.words := by
  subst h
  rcases hasRole_ofText w with hwords | ⟨hrole, -⟩ | ⟨hrole, -⟩
  · exact hwords
  · exact absurd hrole hu
  · exact absurd hrole hp

lemma ofText_eq_positional_iff : ofText w = .positional ↔ w.head? ≠ some (byte '-') := by
  rcases hasRole_ofText w with hwords | ⟨hrole, hdash⟩ | ⟨hrole, hdash⟩
  · refine iff_of_false (fun hrole => ?_) (not_not_intro (head?_of_mem_words hwords))
    rw [hrole] at hwords
    cases hwords
  · exact iff_of_false (by rw [hrole]; nofun) (not_not_intro hdash)
  · exact iff_of_true hrole hdash

end Argument

namespace Options

namespace Spells

variable {args : List Text} {rs rs' : List Request}

/-- The role of the first argument decides how the requests begin. -/
lemma of_cons {arg : Text} (h : Spells (arg :: args) rs) :
    match Argument.ofText arg with
    | .flag f => ∃ rs', Spells args rs' ∧ rs = .flag f :: rs'
    | .algebra => ∃ value args' rs',
        args = value :: args' ∧ Spells args' rs' ∧ rs = .algebra value :: rs'
    | .threads => ∃ value args' n rs',
        args = value :: args' ∧ value.ShowsThreads n ∧ Spells args' rs' ∧ rs = .threads n :: rs'
    | .unknown => False
    | .positional => ∃ rs', Spells args rs' ∧ rs = .input arg :: rs' := by
  cases h with
  | flag hw h =>
    rw [Argument.ofText_of_mem_words hw]
    exact ⟨_, h, rfl⟩
  | algebra hw h =>
    rw [Argument.ofText_of_mem_words hw]
    exact ⟨_, _, _, rfl, h, rfl⟩
  | threads hw hn h =>
    rw [Argument.ofText_of_mem_words hw]
    exact ⟨_, _, _, _, rfl, hn, h, rfl⟩
  | input hw h =>
    rw [Argument.ofText_eq_positional_iff.mpr hw]
    exact ⟨_, h, rfl⟩

/-- Arguments spell out one list of requests at most. -/
theorem unique (h : Spells args rs) (h' : Spells args rs') : rs = rs' := by
  induction h generalizing rs' with
  | nil =>
    cases h'
    rfl
  | flag hw _ ih =>
    have hcons := h'.of_cons
    rw [Argument.ofText_of_mem_words hw] at hcons
    obtain ⟨rs, hrs, rfl⟩ := hcons
    rw [ih hrs]
  | algebra hw _ ih =>
    have hcons := h'.of_cons
    rw [Argument.ofText_of_mem_words hw] at hcons
    obtain ⟨value, args, rs, hargs, hrs, rfl⟩ := hcons
    obtain ⟨rfl, rfl⟩ := List.cons.inj hargs
    rw [ih hrs]
  | threads hw hn _ ih =>
    have hcons := h'.of_cons
    rw [Argument.ofText_of_mem_words hw] at hcons
    obtain ⟨value, args, n, rs, hargs, hn', hrs, rfl⟩ := hcons
    obtain ⟨rfl, rfl⟩ := List.cons.inj hargs
    rw [ih hrs, Int.ofNat_inj.mp (hn.1.unique hn'.1)]
  | input hw _ ih =>
    have hcons := h'.of_cons
    rw [Argument.ofText_eq_positional_iff.mpr hw] at hcons
    obtain ⟨rs, hrs, rfl⟩ := hcons
    rw [ih hrs]

end Spells

/-! ## Reading -/

lemma emptyButLast_cons_cons {x y : Text} {xs : List Text} :
    EmptyButLast (x :: y :: xs) ↔ x = [] ∧ EmptyButLast (y :: xs) :=
  List.forall_mem_cons

lemma emptyButLast_nil_cons {xs : List Text} : EmptyButLast ([] :: xs) ↔ EmptyButLast xs := by
  cases xs with
  | nil => simp [EmptyButLast]
  | cons x xs => exact emptyButLast_cons_cons.trans (and_iff_right rfl)

lemma threadCount_eq_ok_iff {value : Text} {n : Nat} :
    threadCount value = .ok n ↔ value.ShowsThreads n := by
  have hread : threadCount value = .ok n ↔ value.readInt32 = some (n : Int) := by
    unfold threadCount
    cases value.readInt32 with
    | none => exact iff_of_false nofun nofun
    | some v =>
      rw [Option.some.injEq]
      dsimp only
      split
      next hv => exact iff_of_false nofun (by omega)
      next hv =>
        rw [Except.ok.injEq]
        omega
  rw [hread, Text.readInt32_eq_some_iff, Text.ShowsThreads]
  refine and_congr_right fun _ => ?_
  omega

variable {o o' : Options} {args : List Text} {rs : List Request}

@[simp] lemma input_set {f : Flag} : (o.set f).input = o.input := by
  cases f <;> rfl

@[simp] lemma algebra_set {f : Flag} : (o.set f).algebra = o.algebra := by
  cases f <;> rfl

@[simp] lemma threads_set {f : Flag} : (o.set f).threads = o.threads := by
  cases f <;> rfl

/-- What is read answers the requests one after the other. -/
lemma read_of_spells (h : Spells args rs)
    (hone : EmptyButLast (o.input :: rs.filterMap Request.input?)) :
    o.read args = .ok (rs.foldl grant o) := by
  induction h generalizing o with
  | nil => rfl
  | flag hw _ ih =>
    rw [read.eq_def]
    dsimp only
    rw [Argument.ofText_of_mem_words hw]
    refine ih ?_
    rwa [input_set]
  | algebra hw _ ih =>
    rw [read, Argument.ofText_of_mem_words hw]
    exact ih hone
  | threads hw hn _ ih =>
    rw [read, Argument.ofText_of_mem_words hw]
    dsimp only
    rw [threadCount_eq_ok_iff.mpr hn]
    exact ih hone
  | input hw _ ih =>
    obtain ⟨hinput, hone⟩ := emptyButLast_cons_cons.mp hone
    rw [read.eq_def]
    dsimp only
    rw [Argument.ofText_eq_positional_iff.mpr hw, hinput]
    exact ih hone

/-- Arguments that are read spell out requests. -/
lemma exists_spells_of_read (h : o.read args = .ok o') :
    ∃ rs, Spells args rs ∧ EmptyButLast (o.input :: rs.filterMap Request.input?) := by
  fun_induction Options.read o args with
  | case1 => exact ⟨[], .nil, nofun⟩
  | case2 o arg rest f hrole ih =>
    obtain ⟨rs, hrs, hone⟩ := ih h
    rw [input_set] at hone
    exact ⟨_, .flag (Argument.mem_words_of_ofText hrole nofun nofun) hrs, hone⟩
  | case4 o arg hrole value rest ih =>
    obtain ⟨rs, hrs, hone⟩ := ih h
    exact ⟨_, .algebra (Argument.mem_words_of_ofText hrole nofun nofun) hrs, hone⟩
  | case7 o arg hrole value rest n hn ih =>
    obtain ⟨rs, hrs, hone⟩ := ih h
    have hw := Argument.mem_words_of_ofText hrole nofun nofun
    exact ⟨_, .threads hw (threadCount_eq_ok_iff.mp hn) hrs, hone⟩
  | case9 o arg rest hrole hinput ih =>
    obtain ⟨rs, hrs, hone⟩ := ih h
    refine ⟨_, .input (Argument.ofText_eq_positional_iff.mp hrole) hrs, ?_⟩
    exact emptyButLast_cons_cons.mpr ⟨List.isEmpty_iff.mp hinput, hone⟩
  | case3 | case5 | case6 | case8 | case10 => cases h

/-! ## Answers -/

/-- A field that the requests of one kind set has the last value that they ask for. -/
lemma foldl_grant_field {α : Type} {get : Options → α} {ask : Request → Option α}
    (hgrant : ∀ o r, get (o.grant r) = (ask r).getD (get o)) (o : Options) (rs : List Request) :
    get (rs.foldl grant o) = (rs.filterMap ask).getLastD (get o) := by
  induction rs generalizing o with
  | nil => rfl
  | cons r rs ih =>
    rw [List.foldl_cons, ih, hgrant, List.filterMap_cons]
    cases ask r with
    | none => rfl
    | some a => rw [List.getLastD_cons, Option.getD_some]

lemma has_set (o : Options) (f g : Flag) : (o.set g).has f = (decide (g = f) || o.has f) := by
  cases f <;> cases g <;> rfl

/-- A flag is set if it was or if it was asked for. -/
lemma has_foldl_grant (f : Flag) :
    (rs.foldl grant o).has f = true ↔ o.has f = true ∨ .flag f ∈ rs := by
  induction rs generalizing o with
  | nil => simp
  | cons r rs ih =>
    have hgrant : (o.grant r).has f = true ↔ o.has f = true ∨ r = .flag f := by
      cases r with
      | flag g => simp [grant, has_set, or_comm]
      | algebra | threads | input => cases f <;> exact (or_iff_left nofun).symm
    rw [List.foldl_cons, ih, hgrant, List.mem_cons, or_assoc, @eq_comm _ r]

/-- Granting requests one after the other answers them. -/
lemma answers_foldl_grant : (rs.foldl grant none).Answers rs := by
  constructor
  case has_iff =>
    intro f
    rw [has_foldl_grant]
    refine or_iff_right ?_
    cases f <;> decide
  case algebra_eq =>
    exact foldl_grant_field (fun o r => by cases r <;> simp [grant, Request.algebra?]) none rs
  case threads_eq =>
    exact foldl_grant_field (fun o r => by cases r <;> simp [grant, Request.threads?]) none rs
  case input_eq =>
    exact foldl_grant_field (fun o r => by cases r <;> simp [grant, Request.input?]) none rs

/-- Requests have one answer. -/
lemma Answers.unique (h : o.Answers rs) (h' : o'.Answers rs) : o = o' := by
  have hflags : ∀ f, o.has f = o'.has f := fun f =>
    Bool.eq_iff_iff.mpr ((h.has_iff f).trans (h'.has_iff f).symm)
  have halgebra := h.algebra_eq.trans h'.algebra_eq.symm
  have hthreads := h.threads_eq.trans h'.threads_eq.symm
  have hinput := h.input_eq.trans h'.input_eq.symm
  cases o
  cases o'
  obtain rfl := halgebra
  obtain rfl := hthreads
  obtain rfl := hinput
  congr 1
  · exact hflags .selftest
  · exact hflags .legend
  · exact hflags .tables
  · exact hflags .certify
  · exact hflags .stats
  · exact hflags .help

lemma mem_inputs {x : Text} : x ∈ rs.filterMap Request.input? ↔ .input x ∈ rs := by
  rw [List.mem_filterMap]
  constructor
  · rintro ⟨r, hr, hx⟩
    cases r with
    | input text => exact Option.some.inj hx ▸ hr
    | flag | algebra | threads => cases hx
  · exact fun h => ⟨_, h, rfl⟩

/-- Only the last input may be kept, so it is if one of them is not empty. -/
lemma Answers.input_ne_nil_iff (h : o.Answers rs)
    (hone : EmptyButLast (rs.filterMap Request.input?)) :
    o.input ≠ [] ↔ ∃ x, .input x ∈ rs ∧ x ≠ [] := by
  rw [h.input_eq]
  simp only [← mem_inputs]
  generalize rs.filterMap Request.input? = xs at hone ⊢
  rcases xs.eq_nil_or_concat with rfl | ⟨ys, y, rfl⟩
  · simp
  · rw [List.concat_eq_append, EmptyButLast, List.dropLast_concat] at hone
    rw [List.concat_eq_append, List.getLastD_concat]
    constructor
    · exact fun hy => ⟨y, List.mem_concat_self, hy⟩
    · rintro ⟨x, hx, hne⟩
      rcases List.mem_append.mp hx with hx | hx
      · exact absurd (hone x hx) hne
      · rwa [← List.mem_singleton.mp hx]

/-- There is something to do exactly if one of the requests alone gives something to do. -/
lemma Answers.asksForSomething_iff (h : o.Answers rs)
    (hone : EmptyButLast (rs.filterMap Request.input?)) :
    o.asksForSomething = true ↔ ∃ r ∈ rs, r.Acts := by
  have hfields : o.asksForSomething = true ↔ (∃ f, f ≠ .stats ∧ o.has f = true) ∨ o.input ≠ [] := by
    simp only [asksForSomething, Bool.or_eq_true, Bool.not_eq_true', List.isEmpty_eq_false_iff]
    refine or_congr_left ⟨?_, ?_⟩
    · rintro ((((h | h) | h) | h) | h)
      exacts [⟨.selftest, nofun, h⟩, ⟨.help, nofun, h⟩, ⟨.legend, nofun, h⟩, ⟨.tables, nofun, h⟩,
        ⟨.certify, nofun, h⟩]
    · rintro ⟨f, hf, h⟩
      cases f with
      | stats => exact absurd rfl hf
      | selftest | legend | tables | certify | help => simp only [has] at h; simp [h]
  rw [hfields, h.input_ne_nil_iff hone]
  simp only [h.has_iff]
  constructor
  · rintro (⟨f, hf, hmem⟩ | ⟨x, hmem, hx⟩)
    · exact ⟨_, hmem, hf⟩
    · exact ⟨_, hmem, hx⟩
  · rintro ⟨r, hr, hacts⟩
    cases r with
    | flag f => exact .inl ⟨f, hacts, hr⟩
    | input x => exact .inr ⟨x, hr, hacts⟩
    | algebra | threads => exact hacts.elim

/-- Arguments are accepted if they spell out requests, of which at least one gives something to do
and no input but the last one is not empty.  The options answer these requests. -/
theorem parse_eq_ok_iff (args : List Text) (o : Options) :
    parse args = .ok o ↔
      ∃ rs, Spells (args.map Text.untilZero) rs ∧
        EmptyButLast (rs.filterMap Request.input?) ∧
        (∃ r ∈ rs, r.Acts) ∧ o.Answers rs := by
  rw [parse, bind_eq_ok_iff]
  constructor
  · rintro ⟨o', hread, hask⟩
    obtain ⟨rs, hrs, hone⟩ := exists_spells_of_read hread
    have hfold := (read_of_spells hrs hone).symm.trans hread
    obtain rfl := Except.ok.inj hfold
    split_ifs at hask with hsome
    · obtain rfl := Except.ok.inj hask
      have hanswers : (rs.foldl grant none).Answers rs := answers_foldl_grant
      have hone := emptyButLast_nil_cons.mp hone
      exact ⟨rs, hrs, hone, (hanswers.asksForSomething_iff hone).mp hsome, hanswers⟩
  · rintro ⟨rs, hrs, hone, hacts, hanswers⟩
    obtain rfl := hanswers.unique answers_foldl_grant
    refine ⟨_, read_of_spells hrs (emptyButLast_nil_cons.mpr hone), ?_⟩
    rw [if_pos ((hanswers.asksForSomething_iff hone).mpr hacts)]
    rfl

/-- The value of an option may look like an option. -/
example :
    parse [ascii "-a", ascii "--help", ascii "-j", ascii " +2x", ascii "p"] =
      .ok { none with algebra := ascii "--help", threads := 2, input := ascii "p" } := by
  decide +kernel

/-- An empty input and another one are accepted in this order, but not in the other. -/
theorem empty_input_not_counted :
    parse [[], ascii "p"] = .ok { none with input := ascii "p" } ∧
    (∀ rs, Spells [[], ascii "p"] rs → rs.filterMap Request.input? = [[], ascii "p"]) ∧
    parse [ascii "p", []] = .error .severalInputs := by
  refine ⟨by decide +kernel, fun rs hrs => ?_, by decide +kernel⟩
  rw [hrs.unique (.input (by decide) (.input (by decide) .nil))]
  rfl

end Options

end TwistLogic
