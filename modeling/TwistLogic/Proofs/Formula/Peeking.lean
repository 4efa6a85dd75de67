import Mathlib.Tactic.Common
import TwistLogic.Proofs.Formula.Scanning

/-!
# Looking ahead

A walk over a source can be asked for a token in two ways: `next` takes it, `peek` only shows it.
Calls of both kinds may follow each other in any order; `Lexer.replies` is what they answer, up to
and with the first error.

`Lexer.nth` is what `next` alone answers, call after call, without any `peek` between.  A token that
was shown is the one that is taken next, so the walk behind a `peek` has the same answers in front
of it as before (`nth_of_call`).  Hence every call is answered with the first token that no earlier
call has taken, and the first error is the one that `next` alone meets in this place
(`answer_eq_nth`).  `Lexer.Transparent` collects what this means for the callers.
-/

namespace TwistLogic

namespace Lexer

/-! ## Calls -/

/-- The two ways to ask for a token. -/
inductive Call where
  | next
  | peek
  deriving DecidableEq

/-- The answer to a call, and the walk behind it. -/
def call (l : Lexer) : Call → Except SyntaxError Token × Lexer
  | .next => l.next
  | .peek => l.peek

/-- A call that was made, its answer, and the walk behind it. -/
structure Reply where
  call : Call
  answer : Except SyntaxError Token
  behind : Lexer

/-- The replies to calls that are made one after the other, up to and with the first error. -/
def replies (l : Lexer) : List Call → List Reply
  | [] => []
  | c :: cs =>
    match l.call c with
    | (.ok t, l') => { call := c, answer := .ok t, behind := l' } :: l'.replies cs
    | (.error e, l') => [{ call := c, answer := .error e, behind := l' }]

/-- Whether a call takes its token. -/
def Reply.takes (r : Reply) : Bool := r.call = .next

/-- The tokens that calls have taken. -/
def taken (rs : List Reply) : List Token :=
  (rs.filter Reply.takes).filterMap (·.answer.toOption)

/-- What `next` answers behind `n` tokens, if it is called alone.  It goes no further than to the
first error. -/
def nth (l : Lexer) : Nat → Except SyntaxError Token
  | 0 => l.next.1
  | n + 1 =>
    match l.next with
    | (.ok _, l') => l'.nth n
    | (.error e, _) => .error e

/-- Replies of a walk to some calls in which `peek` changes nothing. -/
structure Transparent (l : Lexer) (calls : List Call) (rs : List Reply) : Prop where
  /-- Every call is answered, unless one before it has failed. -/
  answered : ∀ (i : Nat) (c : Call), calls[i]? = some c → (∃ r, rs[i]? = some r ∧ r.call = c) ∨
    ∃ j < i, ∃ (r : Reply) (e : SyntaxError), rs[j]? = some r ∧ r.answer = .error e
  /-- The answers to the calls that take tokens are those that `next` alone gives. -/
  nexts : (rs.filter Reply.takes).map Reply.answer =
    (List.range (rs.countP Reply.takes)).map l.nth
  /-- Every call has the answer that `next` alone gives behind the tokens that were taken before,
  also if this is an error. -/
  inTurn : ∀ (i : Nat) (r : Reply), rs[i]? = some r →
    r.answer = l.nth ((rs.take i).countP Reply.takes)
  /-- What is shown stays the answer, up to and with the call that takes it. -/
  shown : ∀ (i j : Nat) (r r' : Reply), i ≤ j → rs[i]? = some r → rs[j]? = some r' →
    (∀ p ∈ (rs.take j).drop i, p.call = .peek) → r'.answer = r.answer
  /-- The end of the input is the answer to all later calls. -/
  ended : ∀ (i j : Nat) (r r' : Reply) (t : Token), i ≤ j → rs[i]? = some r → rs[j]? = some r' →
    r.answer = .ok t → t.kind = .endOfInput → r'.answer = .ok t
  /-- Behind a call that succeeds, the walk stands at the end of the last token that was read: of
  the one that is shown and not taken, or else of the last one that was taken. -/
  place : ∀ (i : Nat) (r : Reply) (t : Token), rs[i]? = some r → r.answer = .ok t →
    (taken (rs.take (i + 1)) ++ r.behind.ahead.toList).getLast?.map Token.stop = some r.behind.pos

/-! ## One call -/

variable {l l' : Lexer} {c : Call} {t : Token}

/-- A walk that has shown its next token is as before but for this. -/
lemma next_of_peek (h : l.peek = (.ok t, l')) : l.next = (.ok t, { l' with ahead := none }) ∧
    l'.ahead = some t := by
  have hahead := ahead_next l
  unfold peek at h
  rcases hnext : l.next with ⟨e | u, l₁⟩
  · rw [hnext] at h
    cases h
  · rw [hnext] at h hahead
    cases h
    exact ⟨by rw [← hahead], rfl⟩

lemma fst_peek (l : Lexer) : l.peek.1 = l.next.1 := by
  unfold peek
  rcases l.next with ⟨e | t, l'⟩ <;> rfl

/-- A call answers with the first token that is to come. -/
lemma fst_call (l : Lexer) (c : Call) : (l.call c).1 = l.nth 0 := by
  cases c with
  | next => rfl
  | peek => exact l.fst_peek

/-- Behind a call the same answers are to come, without the one that was taken. -/
theorem nth_of_call (h : l.call c = (.ok t, l')) (n : Nat) :
    l'.nth n = l.nth (n + if c = .next then 1 else 0) := by
  cases c with
  | next =>
    have hnext : l.next = (.ok t, l') := h
    rw [if_pos rfl, nth, hnext]
  | peek =>
    obtain ⟨hnext, hshown⟩ := next_of_peek h
    have hsame : l'.next = l.next := by rw [hnext, next, hshown]
    have hkeeps : Call.peek ≠ Call.next := by decide
    rw [if_neg hkeeps, Nat.add_zero]
    cases n with
    | zero => rw [nth, nth, hsame]
    | succ n => rw [nth, nth, hsame]

/-! ## The end of the input -/

/-- Behind the end of the input a walk stays where it is. -/
lemma next_of_end (hahead : l.ahead = none) (h : l.next = (.ok t, l'))
    (hend : t.kind = .endOfInput) : l'.next = (.ok t, l') := by
  have hahead' : l'.ahead = none := by
    have hnone := ahead_next l
    rwa [h] at hnone
  rw [next, hahead] at h
  obtain ⟨hrest, rfl, rfl⟩ | ⟨c, cs, more, -, hscan, -⟩ := take_eq_ok h
  · generalize l.skip (gapLength false l.rest) = l₁ at hrest hahead' ⊢
    have hskip : l₁.skip (gapLength false l₁.rest) = l₁ := by
      obtain ⟨rest, pos, ahead⟩ := l₁
      obtain rfl : rest = [] := hrest
      obtain rfl : ahead = none := hahead'
      rfl
    rw [next, hahead']
    change (l₁.skip (gapLength false l₁.rest)).take = _
    rw [hskip, take, hrest]
  · have hsound : (scan c cs).Sound (c :: cs) := sound_scan c cs
    rw [hscan] at hsound
    exact absurd hend hsound.kind_ne

/-- A walk that stays where it is gives the same answer again and again. -/
lemma nth_of_next_self (h : l.next = (.ok t, l)) (n : Nat) : l.nth n = .ok t := by
  induction n with
  | zero => rw [nth, h]
  | succ n ih =>
    rw [nth, h]
    exact ih

/-- Once `next` alone has met the end of the input, it meets nothing else. -/
theorem nth_add_of_end (hahead : l.ahead = none) {n : Nat} (h : l.nth n = .ok t)
    (hend : t.kind = .endOfInput) (k : Nat) : l.nth (n + k) = .ok t := by
  induction n generalizing l with
  | zero =>
    cases k with
    | zero => exact h
    | succ k =>
      have hnext : l.next = (.ok t, l.next.2) := Prod.ext h rfl
      rw [Nat.zero_add, nth, hnext]
      exact nth_of_next_self (next_of_end hahead hnext hend) k
  | succ n ih =>
    rcases hnext : l.next with ⟨e | u, l'⟩
    · rw [nth, hnext] at h
      cases h
    · have hahead' := ahead_next l
      rw [hnext] at hahead'
      rw [nth, hnext] at h
      rw [Nat.succ_add, nth, hnext]
      exact ih hahead' h

/-! ## The place of a walk -/

/-- A walk that shows a token stands at its end. -/
def Steady (l : Lexer) : Prop := ∀ a, l.ahead = some a → l.pos = a.stop

lemma steady_start (source : Text) (line : UInt32) : (start source line).Steady := by
  intro a ha
  cases ha

/-- A walk that has just answered stands at the end of its answer, and shows it if it was not
taken. -/
structure StandsBehind (l : Lexer) (c : Call) (t : Token) : Prop where
  pos_eq : l.pos = t.stop
  ahead_eq : l.ahead = if c = .next then none else some t

lemma StandsBehind.steady (h : l.StandsBehind c t) : l.Steady := by
  intro a ha
  rw [h.ahead_eq] at ha
  split at ha
  · cases ha
  · cases ha
    exact h.pos_eq

lemma standsBehind_next (hl : l.Steady) (h : l.next = (.ok t, l')) : l'.StandsBehind .next t := by
  have hahead := ahead_next l
  rw [h] at hahead
  refine ⟨?_, hahead⟩
  unfold next at h
  split at h
  next a ha =>
    cases h
    exact hl t ha
  next =>
    obtain ⟨-, rfl, rfl⟩ | ⟨-, -, -, -, -, -, hstop, -⟩ := take_eq_ok h
    · rfl
    · exact hstop.symm

/-- Every call that succeeds leaves the walk behind its answer. -/
lemma standsBehind_call (hl : l.Steady) (h : l.call c = (.ok t, l')) : l'.StandsBehind c t := by
  cases c with
  | next => exact standsBehind_next hl h
  | peek =>
    obtain ⟨hnext, hshown⟩ := next_of_peek h
    exact ⟨(standsBehind_next hl hnext).pos_eq, hshown⟩

/-! ## Runs of calls -/

variable {calls : List Call} {i : Nat} {r : Reply}

/-- Every call is answered with the first token that no call before it has taken. -/
theorem answer_eq_nth (l : Lexer) (calls : List Call) (h : (l.replies calls)[i]? = some r) :
    r.answer = l.nth (((l.replies calls).take i).countP Reply.takes) := by
  fun_induction replies l calls generalizing i with
  | case1 l => cases h
  | case2 l c cs t l' hcall ih =>
    cases i with
    | zero =>
      cases h
      rw [List.take_zero, List.countP_nil, ← fst_call l c, hcall]
    | succ i =>
      rw [ih h, nth_of_call hcall, List.take_succ_cons, List.countP_cons]
      simp [Reply.takes]
  | case3 l c cs e l' hcall =>
    cases i with
    | zero =>
      cases h
      rw [List.take_zero, List.countP_nil, ← fst_call l c, hcall]
    | succ i => cases h

/-- The tokens are taken in the order in which `next` alone delivers them. -/
theorem map_answer_filter_takes (l : Lexer) (calls : List Call) :
    ((l.replies calls).filter Reply.takes).map Reply.answer =
      (List.range ((l.replies calls).countP Reply.takes)).map l.nth := by
  fun_induction replies l calls with
  | case1 l => rfl
  | case2 l c cs t l' hcall ih =>
    have hfirst := l.fst_call c
    have hrest : l'.nth = fun n => l.nth (n + if c = .next then 1 else 0) :=
      funext (nth_of_call hcall)
    rw [hcall] at hfirst
    rw [hrest] at ih
    cases c with
    | next =>
      rw [List.filter_cons_of_pos rfl, List.countP_cons_of_pos rfl, List.map_cons, ih,
        List.range_succ_eq_map, List.map_cons, List.map_map, ← hfirst]
      rfl
    | peek =>
      rw [List.filter_cons_of_neg Bool.false_ne_true,
        List.countP_cons_of_neg Bool.false_ne_true, ih]
      rfl
  | case3 l c cs e l' hcall =>
    have hfirst := l.fst_call c
    rw [hcall] at hfirst
    cases c with
    | next => exact congrArg (fun a => [a]) hfirst
    | peek => rfl

/-- A call is answered unless one before it has failed. -/
lemma exists_reply (l : Lexer) {c : Call} (h : calls[i]? = some c) :
    (∃ r, (l.replies calls)[i]? = some r ∧ r.call = c) ∨
      ∃ j < i, ∃ (r : Reply) (e : SyntaxError), (l.replies calls)[j]? = some r ∧
        r.answer = .error e := by
  fun_induction replies l calls generalizing i with
  | case1 l => cases h
  | case2 l d cs t l' hcall ih =>
    cases i with
    | zero =>
      cases h
      exact .inl ⟨_, rfl, rfl⟩
    | succ i =>
      obtain hreply | ⟨j, hj, hfailed⟩ := ih h
      · exact .inl hreply
      · exact .inr ⟨j + 1, Nat.succ_lt_succ hj, hfailed⟩
  | case3 l d cs e l' hcall =>
    cases i with
    | zero =>
      cases h
      exact .inl ⟨_, rfl, rfl⟩
    | succ i => exact .inr ⟨0, Nat.succ_pos i, _, e, rfl, rfl⟩

/-- Every reply without error leaves the walk behind its answer. -/
lemma standsBehind_of_reply (hl : l.Steady) (h : r ∈ l.replies calls) (hr : r.answer = .ok t) :
    r.behind.StandsBehind r.call t := by
  fun_induction replies l calls with
  | case1 l => cases h
  | case2 l c cs u l' hcall ih =>
    have hbehind := standsBehind_call hl hcall
    rcases List.mem_cons.mp h with rfl | h
    · cases hr
      exact hbehind
    · exact ih hbehind.steady h
  | case3 l c cs e l' hcall =>
    obtain rfl := List.mem_singleton.mp h
    cases hr

/-- Where the last of some replies leaves the walk, the last token that was read has its end. -/
lemma getLast?_read {rs : List Reply} (hr : r.answer = .ok t)
    (h : r.behind.StandsBehind r.call t) :
    (taken (rs ++ [r]) ++ r.behind.ahead.toList).getLast?.map Token.stop = some r.behind.pos := by
  rw [h.pos_eq, h.ahead_eq, taken, List.filter_append, List.filterMap_append]
  by_cases hcall : r.call = .next
  · simp [hcall, Reply.takes, hr, Except.toOption]
  · simp [hcall, Reply.takes]

/-- However calls of `next` and `peek` follow each other on the tokens of a source, `peek` changes
nothing. -/
theorem peek_transparent (source : Text) (line : UInt32) (calls : List Call) :
    (start source line).Transparent calls ((start source line).replies calls) := by
  have hturn : ∀ (i : Nat) (r : Reply), ((start source line).replies calls)[i]? = some r →
      r.answer = (start source line).nth
        ((((start source line).replies calls).take i).countP Reply.takes) :=
    fun i r => answer_eq_nth (start source line) calls
  generalize hrs : (start source line).replies calls = rs at hturn
  constructor
  case answered => exact fun i c h => hrs ▸ exists_reply (start source line) h
  case nexts => exact hrs ▸ map_answer_filter_takes (start source line) calls
  case inTurn => exact hturn
  case shown =>
    intro i j r r' hij hr hr' hpeek
    have hnone : ((rs.take j).drop i).countP Reply.takes = 0 := by
      refine List.countP_eq_zero.mpr fun p hp => ?_
      simp [Reply.takes, hpeek p hp]
    have hsplit := List.take_append_drop i (rs.take j)
    rw [List.take_take, Nat.min_eq_left hij] at hsplit
    rw [hturn i r hr, hturn j r' hr', ← hsplit, List.countP_append, hnone, Nat.add_zero]
  case ended =>
    intro i j r r' t hij hr hr' hanswer hend
    have hsplit := List.take_append_drop i (rs.take j)
    rw [List.take_take, Nat.min_eq_left hij] at hsplit
    rw [hturn i r hr] at hanswer
    rw [hturn j r' hr', ← hsplit, List.countP_append]
    exact nth_add_of_end rfl hanswer hend _
  case place =>
    intro i r t hr hanswer
    have hlast : rs.take (i + 1) = rs.take i ++ [r] := by
      rw [List.take_add_one, hr, Option.toList_some]
    rw [hlast]
    have hmem : r ∈ (start source line).replies calls := hrs ▸ List.mem_of_getElem? hr
    have hsteady := steady_start source line
    exact getLast?_read hanswer (standsBehind_of_reply hsteady hmem hanswer)

/-- An arrow that is shown twice and taken, and then the front of another one. -/
example : ((start (ascii "=> =") 1).replies [.peek, .peek, .next, .peek, .next]).map
    (fun r => (r.call, r.answer.toOption, r.behind.pos.column)) =
      let arrow : Token := ⟨.fatArrow, ascii "=>", ⟨1, 1, 0⟩, ⟨1, 3, 2⟩⟩
      [(.peek, some arrow, 3), (.peek, some arrow, 3), (.next, some arrow, 3),
        (.peek, none, 4)] := by
  decide +kernel

end Lexer

end TwistLogic
