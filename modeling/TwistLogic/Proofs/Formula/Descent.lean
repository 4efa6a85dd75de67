import TwistLogic.Proofs.Formula.Reading

/-!
# Reading by descent

The grammar can be read level by level.  To read a phrase, a descent reads a phrase of the next
tighter level and then, for as long as the next token is the connective of the level, further
operands.  Every formula is interned as soon as its last operand is complete, so the store fills up
while the source is being read.

`Descent.phrase` follows the grammar in this way.  Its recursion ends because a phrase has at least
one token, so the tokens that are left become fewer from one operand to the next; a `Phrase` carries
the proof of that.

A descent stays beside the machine of `TokenStream.read` all the time (`Descent.Follows`): behind a
phrase the machine has its formula on top of the operators that waited before, and where a descent
stops, the machine fails with the same error and has completed the formulas that the descent has
stored.  Hence a source is read by descent with the result and into the store that
`FormulaStore.parse` gives (`FormulaStore.descend_eq_parse`).
-/

namespace TwistLogic

/-! ## Descents -/

namespace TokenStream

/-- The number of tokens in front of the end of a stream. -/
def length : TokenStream → Nat
  | .more _ _ rest => rest.length + 1
  | .done _ _ | .failed _ _ => 0

/-- The first token of a stream. -/
def head? : TokenStream → Option Token
  | .more t _ _ | .done t _ => some t
  | .failed _ _ => none

end TokenStream

/-- A reading that interns as it goes: what is left to read, the token taken last, and the store. -/
structure Descent where
  stream : TokenStream
  last : Option Token
  store : FormulaStore

/-- Why a descent stops, and the store that it leaves. -/
structure Stop where
  error : SyntaxError
  store : FormulaStore

/-- A phrase that was read: its number, and the descent behind it, which has less than `n` tokens
left. -/
structure Phrase (n : Nat) where
  id : FormulaId
  behind : Descent
  length_lt : behind.stream.length < n

namespace Phrase

variable {m n : Nat}

/-- Interns a node over a phrase. -/
def under (q : Phrase n) (node : FormulaId → Node) : Phrase n :=
  let (id, store) := q.behind.store.intern (node q.id)
  { id, behind := { q.behind with store }, length_lt := q.length_lt }

/-- Forgets how few tokens are left. -/
def widen (q : Phrase m) (h : m ≤ n) : Phrase n :=
  { q with length_lt := Nat.lt_of_lt_of_le q.length_lt h }

end Phrase

/-- The number of steps from a level down to the primary phrases. -/
def Level.rank : Level → Nat
  | .primary => 0
  | .unary => 1
  | .expr c => c.rank + 2
  | .formula => 7

lemma Connective.rank_operand_lt (c : Connective) : c.operand.rank < (Level.expr c).rank := by
  cases c <;> decide

namespace Descent

/-- A phrase that ends where the descent is. -/
def ending (d : Descent) (id : FormulaId) : Phrase (d.stream.length + 1) :=
  { id, behind := d, length_lt := Nat.lt_succ_self _ }

/-- Interns a leaf, which is a phrase that ends where the descent is. -/
def leaf (d : Descent) (k : NodeKind) : Phrase (d.stream.length + 1) :=
  let (id, store) := d.store.intern (.leaf k)
  { id, behind := { d with store }, length_lt := Nat.lt_succ_self _ }

/-- Takes the parenthesis that closes a phrase, which was opened by `t`. -/
def close {n : Nat} (t : Token) : Phrase n → Except Stop (Phrase n)
  | ⟨_, ⟨.failed error _, _, store⟩, _⟩ => .error { error, store }
  | ⟨_, ⟨.done u _, _, store⟩, _⟩ => .error { error := ReadState.parenError t u, store }
  | ⟨id, ⟨.more u _ rest, _, store⟩, h⟩ =>
    if u.kind = .closeParen then
      .ok { id, behind := ⟨rest, some u, store⟩, length_lt := Nat.lt_of_succ_lt h }
    else .error { error := ReadState.parenError t u, store }

mutual

/-- Reads a phrase of a level. -/
def phrase (d : Descent) : Level → Except Stop (Phrase d.stream.length)
  | .formula => d.phrase (.expr .iff)
  | .expr .resImplies => do
    let q ← d.phrase (.expr .or)
    return (← q.behind.residual q.id).widen q.length_lt
  | .expr c => do
    let q ← d.phrase c.operand
    return (← q.behind.chain c q.id).widen q.length_lt
  | .unary => d.unary
  | .primary => d.primary
termination_by l => (d.stream.length, l.rank, 1)
decreasing_by
  · exact .right _ (.left _ _ (by decide))
  · exact .right _ (.left _ _ (by decide))
  · exact .left _ _ q.length_lt
  · exact .right _ (.left _ _ c.rank_operand_lt)
  · exact .left _ _ q.length_lt
  · exact .right _ (.right _ Nat.zero_lt_one)
  · exact .right _ (.right _ Nat.zero_lt_one)

/-- Reads prefix operators and what they stand before. -/
def unary : (d : Descent) → Except Stop (Phrase d.stream.length)
  | ⟨.failed error _, _, s⟩ => .error { error, store := s }
  | ⟨.done t behind, last, s⟩ => phrase ⟨.done t behind, last, s⟩ .primary
  | ⟨.more t behind rest, last, s⟩ =>
    match t.kind with
    | .tilde => do
      let q ← phrase ⟨rest, some t, s⟩ .unary
      return (q.under (.unary .neg)).widen (Nat.le_succ _)
    | .modality m action => do
      let q ← phrase ⟨rest, some t, s⟩ .unary
      return (q.under (.unary (.modal m action))).widen (Nat.le_succ _)
    | _ => phrase ⟨.more t behind rest, last, s⟩ .primary
termination_by d => (d.stream.length, 1, 0)
decreasing_by
  · exact .right _ (.left _ _ Nat.zero_lt_one)
  · exact .left _ _ (Nat.lt_succ_self _)
  · exact .left _ _ (Nat.lt_succ_self _)
  · exact .right _ (.left _ _ Nat.zero_lt_one)

/-- Reads a constant, an atom or a formula in parentheses. -/
def primary : (d : Descent) → Except Stop (Phrase d.stream.length)
  | ⟨.failed error _, _, s⟩ => .error { error, store := s }
  | ⟨.done t _, last, s⟩ => .error { error := ReadState.endError last t, store := s }
  | ⟨.more t _ rest, _, s⟩ =>
    match t.kind with
    | .one => .ok (leaf ⟨rest, some t, s⟩ .top)
    | .zero => .ok (leaf ⟨rest, some t, s⟩ .bot)
    | .identifier => .ok (leaf ⟨rest, some t, s⟩ (.atom t.text))
    | .openParen => do
      let q ← phrase ⟨rest, some t, s⟩ .formula
      close t (q.widen (Nat.le_succ _))
    | _ =>
      .error {
        error := { fault := .missingOperandBefore t.text, token := t.text, pos := t.pos }
        store := s }
termination_by d => (d.stream.length, 0, 0)
decreasing_by exact .left _ _ (Nat.lt_succ_self _)

/-- Reads the rest of a chain behind its first operands. -/
def chain (c : Connective) (a : FormulaId) :
    (d : Descent) → Except Stop (Phrase (d.stream.length + 1))
  | ⟨.failed error _, _, s⟩ => .error { error, store := s }
  | ⟨.done t behind, last, s⟩ => .ok (ending ⟨.done t behind, last, s⟩ a)
  | ⟨.more t behind rest, last, s⟩ =>
    if t.kind.connective? = some c then do
      let q ← phrase ⟨rest, some t, s⟩ c.operand
      let q := q.under (.binary c a)
      return (← q.behind.chain c q.id).widen (Nat.le_trans q.length_lt (Nat.le_add_right _ 2))
    else .ok (ending ⟨.more t behind rest, last, s⟩ a)
termination_by d => (d.stream.length, 0, 0)
decreasing_by
  · exact .left _ _ (Nat.lt_succ_self _)
  · exact .left _ _ (Nat.lt_succ_of_lt q.length_lt)

/-- Reads the right side of a residuated implication, if there is one. -/
def residual (a : FormulaId) : (d : Descent) → Except Stop (Phrase (d.stream.length + 1))
  | ⟨.failed error _, _, s⟩ => .error { error, store := s }
  | ⟨.done t behind, last, s⟩ => .ok (ending ⟨.done t behind, last, s⟩ a)
  | ⟨.more t behind rest, last, s⟩ =>
    if t.kind.connective? = some .resImplies then do
      let q ← phrase ⟨rest, some t, s⟩ (.expr .resImplies)
      return (q.under (.binary .resImplies a)).widen (Nat.le_add_right _ 2)
    else .ok (ending ⟨.more t behind rest, last, s⟩ a)
termination_by d => (d.stream.length, 0, 0)
decreasing_by exact .left _ _ (Nat.lt_succ_self _)

end

/-- Checks that a formula is the rest of the source. -/
def finish (id : FormulaId) : Descent → Except SyntaxError FormulaId × FormulaStore
  | ⟨.failed e _, _, s⟩ => (.error e, s)
  | ⟨.more t _ _, _, s⟩ | ⟨.done t _, _, s⟩ =>
    match Parser.trailingFault? t with
    | none => (.ok id, s)
    | some fault => (.error { fault, token := t.text, pos := t.pos }, s)

end Descent

/-- Reads a source that is one formula by descent. -/
def FormulaStore.descend (s : FormulaStore) (source : Text) (line : UInt32) :
    Except SyntaxError FormulaId × FormulaStore :=
  match Descent.phrase ⟨(Lexer.start source line).stream, none, s⟩ .formula with
  | .error e => (.error e.error, e.store)
  | .ok q => q.behind.finish q.id

/-! ## The machine beside a descent -/

namespace TokenStream

variable {σ : TokenStream} {st st' : ReadState} {t : Token}

/-- The machine takes a token. -/
lemma read_more_of_shift {behind : Lexer} {rest : TokenStream} (h : st.move t = .shift st') :
    (more t behind rest).read st = rest.read st' := by
  rw [read, h]

/-- Two states that do the same with the next token read the same. -/
lemma read_congr (ht : σ.head? = some t) (hmove : st.move t = st'.move t)
    (hlast : st.last = st'.last) : σ.read st = σ.read st' := by
  cases σ with
  | more u behind rest | done u behind =>
    obtain rfl := Option.some.inj ht
    rw [read, read, hmove, hlast]
  | failed => cases ht

/-- The machine fails at a token that it refuses where it stands. -/
lemma fst_read_of_refuse {e : SyntaxError} (ht : σ.head? = some t)
    (h : st.move t = .refuse e st') :
    (σ.read st).1 = .error { error := e, completed := st'.completed } := by
  cases σ with
  | more u behind rest | done u behind =>
    obtain rfl := Option.some.inj ht
    rw [read, h]
    rfl
  | failed => cases ht

/-- The stream goes on with a token that ends the phrases of a level. -/
def Ends (σ : TokenStream) (l : Level) : Prop :=
  ∃ t, σ.head? = some t ∧ (Category.phrase l).EndsBefore [t]

end TokenStream

/-- The end of the source ends all phrases. -/
lemma TokenStream.Proper.endsBefore_done {t : Token} {behind : Lexer} {l : Level}
    (h : (TokenStream.done t behind).Proper) : (Category.phrase l).EndsBefore [t] := by
  have hend : t.kind = .endOfInput := h
  exact Category.endsBefore_cons_of_not_connective _ (by rw [hend]; rfl)

/-- A connective before a token that ends the phrases on its right takes the operand. -/
lemma ReadState.move_join {c : Connective} {fs : List Frame} {φ ψ : Formula} {last : Option Token}
    {t : Token} (ht : ∀ e, t.kind.connective? = some e → c.takesBefore e = true) :
    ReadState.move ⟨.binary c φ :: fs, some ψ, last⟩ t =
      ReadState.move ⟨fs, some (.binary c φ ψ), last⟩ t := by
  simp only [move, afterOperand]
  cases he : t.kind.connective? with
  | some e => simp only [reduceWhile, ht e he, if_true]
  | none => simp only [reduceAll, reduceWhile, if_true]

/-- Behind a formula in parentheses, the machine takes the closing one and refuses all else that is
no connective. -/
lemma ReadState.move_paren (t : Token) (fs : List Frame) (φ : Formula) (last : Option Token)
    {u : Token} (hu : u.kind.connective? = none) :
    ReadState.move ⟨.paren t :: fs, some φ, last⟩ u =
      if u.kind = .closeParen then .shift (ReadState.closed φ fs u)
      else .refuse (ReadState.parenError t u) ⟨.paren t :: fs, some φ, last⟩ := by
  simp only [move, afterOperand, hu, reduceAll, reduceWhile]

namespace Descent

/-- A phrase of a level that begins here stays whole on a stack.  No primary phrase begins with a
prefix operator. -/
def Admits (d : Descent) : Level → List Frame → Prop
  | .formula, fs => Awaits .iff fs
  | .expr c, fs => Awaits c fs
  | .unary, _ => True
  | .primary, _ => ∀ t, d.stream.head? = some t →
      t.kind ≠ .tilde ∧ ∀ m action, t.kind ≠ .modality m action

/-- The store when the operands on the left of all waiting operators are complete. -/
def held (s : FormulaStore) (fs : List Frame) : FormulaStore :=
  s.addAll (fs.reverse.filterMap Frame.left?)

/-- Behind a phrase, the machine goes on with its formula on top of the stack below. -/
def Reaches (fs : List Frame) (φ : Formula) (d : Descent)
    (r : Except ReadFailure Formula × Parser) : Level → Prop
  | .formula => r = d.stream.read ⟨fs, some φ, d.last⟩ ∧ d.stream.Ends (.expr .iff)
  | .expr c => r = d.stream.read ⟨fs, some φ, d.last⟩ ∧ d.stream.Ends (.expr c)
  | .unary | .primary => ∃ t, d.last = some t ∧ r = d.stream.read (ReadState.closed φ fs t)

/-- A call of a descent against the outcome `r` of the machine: if the call stops, the machine fails
with the same error, and the formulas that it has completed are stored; if it reads a phrase, the
formula of the phrase was added, and the machine goes on behind it. -/
def Follows {n : Nat} (s : FormulaStore) (fs : List Frame) (l : Level)
    (r : Except ReadFailure Formula × Parser) : Except Stop (Phrase n) → Prop
  | .error e => ∃ f, r.1 = .error f ∧ f.error = e.error ∧ s.addAll f.completed = e.store
  | .ok q => ∃ φ, (held s fs).add φ = (q.id, q.behind.store) ∧ q.behind.stream.Proper ∧
      Reaches fs φ q.behind r l

variable {s : FormulaStore} {fs : List Frame} {l : Level} {m n : Nat}
  {r : Except ReadFailure Formula × Parser} {φ ψ : Formula} {c : Connective}

/-! ### What is held -/

lemma held_cons_binary : held s (.binary c φ :: fs) = ((held s fs).add φ).2 := by
  simp [held, FormulaStore.addAll, Frame.left?]

lemma held_cons_of_left?_eq_none {f : Frame} (hf : f.left? = none) :
    held s (f :: fs) = held s fs := by
  simp [held, hf]

/-- The formulas that are complete while an operand is due are those that are held. -/
lemma addAll_completed_none {last : Option Token} :
    s.addAll (ReadState.completed ⟨fs, none, last⟩) = held s fs := by
  simp [ReadState.completed, held]

/-- Behind an operand, it is stored as well. -/
lemma addAll_completed_some {last : Option Token} :
    s.addAll (ReadState.completed ⟨fs, some φ, last⟩) = ((held s fs).add φ).2 := by
  simp [ReadState.completed, held, FormulaStore.addAll]

/-! ### Putting calls together -/

/-- A call that goes on behind a phrase. -/
lemma Follows.bind {x : Except Stop (Phrase m)} {k : Phrase m → Except Stop (Phrase n)}
    {fs' : List Frame} {l' : Level} (h : Follows s fs l r x)
    (hk : ∀ q φ, (held s fs).add φ = (q.id, q.behind.store) → q.behind.stream.Proper →
      Reaches fs φ q.behind r l → Follows s fs' l' r (k q)) :
    Follows s fs' l' r (x >>= k) := by
  cases x with
  | error e => exact h
  | ok q =>
    obtain ⟨φ, hadd, hproper, hreach⟩ := h
    exact hk q φ hadd hproper hreach

lemma Follows.widen {x : Except Stop (Phrase m)} (hmn : m ≤ n) (h : Follows s fs l r x) :
    Follows s fs l r (do return (← x).widen hmn) :=
  h.bind fun _ φ hadd hproper hreach => ⟨φ, hadd, hproper, hreach⟩

/-- Where the operands of a connective end, it takes the operand before the next connective. -/
lemma takesBefore_of_endsBefore {e : Connective} {t : Token} (hc : c.groupsRight = false)
    (h : (Category.phrase c.operand).EndsBefore [t]) (he : t.kind.connective? = some e) :
    c.takesBefore e = true := by
  have hlt := h.continuesWith_eq_false he
  rw [Connective.continuesWith_operand, decide_eq_false_iff_not, Nat.not_lt] at hlt
  rcases Nat.eq_or_lt_of_le hlt with heq | hlt
  · obtain rfl := Connective.rank_injective heq
    exact Connective.takesBefore_of_rank_le (Nat.le_refl _) hc
  · exact Connective.takesBefore_of_rank_lt hlt

/-- Where the operands of a connective end and the connective does not stand, its phrases end. -/
lemma endsBefore_expr {t : Token} (h : (Category.phrase c.operand).EndsBefore [t])
    (hne : t.kind.connective? ≠ some c) : (Category.phrase (.expr c)).EndsBefore [t] := by
  intro u e hu he
  obtain rfl : t = u := Option.some.inj hu
  have hle := h.continuesWith_eq_false he
  rw [Connective.continuesWith_operand, decide_eq_false_iff_not, Nat.not_lt] at hle
  have hrank : c.rank ≠ e.rank := fun heq => hne (Connective.rank_injective heq ▸ he)
  exact decide_eq_false (Nat.not_le.mpr (Nat.lt_of_le_of_ne hle hrank))

/-- Behind the first operand of a connective the machine may go on with the connective. -/
lemma Reaches.first {d : Descent} (h : Reaches fs φ d r c.operand) (hfs : Awaits c fs) :
    r = d.stream.read ⟨fs, some φ, d.last⟩ ∧
      ∀ t, d.stream.head? = some t → (Category.phrase c.operand).EndsBefore [t] := by
  cases c with
  | and =>
    obtain ⟨t, hlast, rfl⟩ := h
    refine ⟨?_, fun t _ u e _ _ => rfl⟩
    rw [ReadState.closed, tighten_of_awaits hfs, hlast]
  | or | resImplies | implies | iff =>
    obtain ⟨rfl, t, ht, hends⟩ := h
    refine ⟨rfl, fun u hu => ?_⟩
    rwa [← Option.some.inj (ht.symm.trans hu)]

/-- Behind an operand on the right of a connective, the machine has joined both sides. -/
lemma Reaches.right {d : Descent} (h : Reaches (.binary c φ :: fs) ψ d r c.operand)
    (hc : c.groupsRight = false) (hfs : Awaits c fs) :
    r = d.stream.read ⟨fs, some (.binary c φ ψ), d.last⟩ ∧
      ∀ t, d.stream.head? = some t → (Category.phrase c.operand).EndsBefore [t] := by
  cases c with
  | and =>
    obtain ⟨t, hlast, rfl⟩ := h
    refine ⟨?_, fun t _ u e _ _ => rfl⟩
    rw [ReadState.closed, tighten, tighten_of_awaits hfs, hlast]
  | resImplies => exact absurd hc (by decide)
  | or | implies | iff =>
    obtain ⟨rfl, t, ht, hends⟩ := h
    refine ⟨TokenStream.read_congr ht (ReadState.move_join fun e he => ?_) rfl, fun u hu => ?_⟩
    · exact takesBefore_of_endsBefore rfl hends he
    · rwa [← Option.some.inj (ht.symm.trans hu)]

/-- An operand stays whole where its connective does, -/
lemma admits_operand (d : Descent) (hfs : Awaits c fs) : d.Admits c.operand fs := by
  cases c with
  | and => trivial
  | or | resImplies | implies | iff => exact hfs.of_rank_lt (by decide)

/-- and on the right of its connective. -/
lemma admits_operand_right (d : Descent) (hc : c.groupsRight = false) :
    d.Admits c.operand (.binary c φ :: fs) := by
  cases c with
  | and => trivial
  | resImplies => exact absurd hc (by decide)
  | or | implies | iff => rfl

/-- A connective that groups to the left is read as a chain. -/
lemma phrase_expr (d : Descent) (hc : c.groupsRight = false) :
    d.phrase (.expr c) = do
      let q ← d.phrase c.operand
      return (← q.behind.chain c q.id).widen q.length_lt := by
  cases c with
  | resImplies => exact absurd hc (by decide)
  | and | or | implies | iff => rw [phrase]; simp

/-! ### One call -/

/-- A phrase of a level is read beside the machine, whatever waits below it. -/
def ReadsBeside (s : FormulaStore) (d : Descent) (l : Level) : Prop :=
  ∀ fs, d.Admits l fs → held s fs = d.store →
    Follows s fs l (d.stream.read ⟨fs, none, d.last⟩) (d.phrase l)

/-- All phrases are read beside the machine that have less than `n` tokens in front of them. -/
def ReadsBesideBelow (s : FormulaStore) (n : Nat) : Prop :=
  ∀ (d : Descent) (l : Level), d.stream.length < n → d.stream.Proper → ReadsBeside s d l

/-- A connective behind its first operand waits for the next one. -/
lemma move_connective {last : Option Token} {t : Token} (hfs : Awaits c fs)
    (ht : t.kind.connective? = some c) :
    ReadState.move ⟨fs, some φ, last⟩ t = .shift ⟨.binary c φ :: fs, none, some t⟩ := by
  simp only [ReadState.move, ReadState.afterOperand, ht, reduceWhile_of_awaits hfs]

/-- A node over two formulas that were added one after the other adds the formula that joins
them. -/
lemma add_under {a : FormulaId} {store : FormulaStore} {q : Phrase n}
    (hφ : s.add φ = (a, store)) (hψ : store.add ψ = (q.id, q.behind.store)) :
    s.add (.binary c φ ψ) =
      ((q.under (.binary c a)).id, (q.under (.binary c a)).behind.store) := by
  rw [FormulaStore.add, hφ]
  dsimp only
  rw [hψ]
  rfl

/-- The rest of a chain is read beside the machine. -/
theorem chain_follows (hn : ReadsBesideBelow s n) (hc : c.groupsRight = false) (hfs : Awaits c fs)
    {φ : Formula} {a : FormulaId} (d : Descent) (hd : d.stream.length ≤ n) (hσ : d.stream.Proper)
    (hadd : (held s fs).add φ = (a, d.store))
    (hends : ∀ t, d.stream.head? = some t → (Category.phrase c.operand).EndsBefore [t]) :
    Follows s fs (.expr c) (d.stream.read ⟨fs, some φ, d.last⟩) (d.chain c a) := by
  match d with
  | ⟨.failed error behind, last, store⟩ =>
    rw [chain]
    exact ⟨_, rfl, rfl, addAll_completed_some.trans (congrArg Prod.snd hadd)⟩
  | ⟨.done t behind, last, store⟩ =>
    rw [chain]
    exact ⟨φ, hadd, hσ, rfl, t, rfl, hσ.endsBefore_done⟩
  | ⟨.more t behind rest, last, store⟩ =>
    rw [chain]
    split
    next ht =>
      rw [TokenStream.read_more_of_shift (move_connective hfs ht)]
      have hstore : held s (.binary c φ :: fs) = store :=
        held_cons_binary.trans (congrArg Prod.snd hadd)
      refine (hn ⟨rest, some t, store⟩ c.operand (Nat.lt_of_succ_le hd) hσ.2 (.binary c φ :: fs)
        (admits_operand_right _ hc) hstore).bind fun q ψ hψ hproper hreach => ?_
      obtain ⟨hr, hends'⟩ := hreach.right hc hfs
      have hlt : q.behind.stream.length < rest.length := q.length_lt
      refine Follows.widen _ ?_
      rw [hr]
      exact chain_follows hn hc hfs _
        (Nat.le_trans (Nat.le_of_lt (Nat.lt_succ_of_lt hlt)) hd)
        hproper (add_under hadd (hstore ▸ hψ)) hends'
    next ht =>
      exact ⟨φ, hadd, hσ, rfl, t, rfl, endsBefore_expr (hends t rfl) ht⟩
termination_by d.stream.length
decreasing_by exact Nat.lt_succ_of_lt hlt

/-- The right side of a residuated implication is read beside the machine. -/
lemma residual_follows (hn : ReadsBesideBelow s n) (hfs : Awaits .resImplies fs) {a : FormulaId}
    (d : Descent) (hd : d.stream.length ≤ n) (hσ : d.stream.Proper)
    (hadd : (held s fs).add φ = (a, d.store))
    (hends : ∀ t, d.stream.head? = some t → (Category.phrase (.expr .or)).EndsBefore [t]) :
    Follows s fs (.expr .resImplies) (d.stream.read ⟨fs, some φ, d.last⟩) (d.residual a) := by
  match d with
  | ⟨.failed error behind, last, store⟩ =>
    rw [residual]
    exact ⟨_, rfl, rfl, addAll_completed_some.trans (congrArg Prod.snd hadd)⟩
  | ⟨.done t behind, last, store⟩ =>
    rw [residual]
    exact ⟨φ, hadd, hσ, rfl, t, rfl, hσ.endsBefore_done⟩
  | ⟨.more t behind rest, last, store⟩ =>
    rw [residual]
    split
    next ht =>
      rw [TokenStream.read_more_of_shift (move_connective hfs ht)]
      have hstore : held s (.binary .resImplies φ :: fs) = store :=
        held_cons_binary.trans (congrArg Prod.snd hadd)
      refine (hn ⟨rest, some t, store⟩ (.expr .resImplies) (Nat.lt_of_succ_le hd) hσ.2
        (.binary .resImplies φ :: fs) rfl hstore).bind fun q ψ hψ hproper hreach => ?_
      obtain ⟨hr, u, hu, hends'⟩ := hreach
      refine ⟨_, add_under hadd (hstore ▸ hψ), hproper, ?_, u, hu, hends'⟩
      rw [hr]
      refine TokenStream.read_congr hu (ReadState.move_join fun e he => ?_) rfl
      have hlt := hends'.continuesWith_eq_false he
      exact Connective.takesBefore_of_rank_lt (Nat.not_le.mp (of_decide_eq_false hlt))
    next ht =>
      exact ⟨φ, hadd, hσ, rfl, t, rfl, endsBefore_expr (c := .resImplies) (hends t rfl) ht⟩

/-- A phrase of a connective is read beside the machine if its first operand is. -/
lemma expr_follows (c : Connective) {d : Descent} (hd : ReadsBesideBelow s d.stream.length)
    (h : ReadsBeside s d c.operand) : ReadsBeside s d (.expr c) := by
  intro fs hfs hs
  by_cases hc : c.groupsRight
  · obtain rfl := Connective.eq_resImplies_of_groupsRight hc
    rw [phrase]
    refine (h fs (admits_operand (c := .resImplies) d hfs) hs).bind fun q φ hφ hproper hreach => ?_
    obtain ⟨hr, hends⟩ := Reaches.first (c := .resImplies) hreach hfs
    rw [hr]
    exact (residual_follows hd hfs q.behind (Nat.le_of_lt q.length_lt) hproper hφ hends).widen _
  · have hleft := eq_false_of_ne_true hc
    rw [phrase_expr d hleft]
    refine (h fs (admits_operand d hfs) hs).bind fun q φ hφ hproper hreach => ?_
    obtain ⟨hr, hends⟩ := hreach.first hfs
    rw [hr]
    exact (chain_follows hd hleft hfs q.behind (Nat.le_of_lt q.length_lt) hproper hφ hends).widen _

/-- A leaf is read beside the machine. -/
lemma leaf_follows (φ : Formula) {k : NodeKind} {t : Token} {behind : Lexer} {rest : TokenStream}
    {last : Option Token} {store : FormulaStore} (hσ : rest.Proper) (hs : held s fs = store)
    (hadd : store.add φ = store.intern (.leaf k))
    (hmove : ReadState.move ⟨fs, none, last⟩ t = .shift (ReadState.closed φ fs t)) :
    Follows s fs .primary ((TokenStream.more t behind rest).read ⟨fs, none, last⟩)
      (.ok (leaf ⟨rest, some t, store⟩ k)) :=
  ⟨φ, hs ▸ hadd, hσ, t, rfl, TokenStream.read_more_of_shift hmove⟩

/-- Behind a formula in parentheses stands no connective. -/
lemma connective?_eq_none_of_endsBefore {t : Token}
    (h : (Category.phrase (.expr .iff)).EndsBefore [t]) : t.kind.connective? = none := by
  cases he : t.kind.connective? with
  | none => rfl
  | some e =>
    have hlt := of_decide_eq_false (h.continuesWith_eq_false he)
    cases e <;> exact absurd hlt (by decide)

/-- A closing parenthesis is taken as the machine takes it. -/
lemma close_follows {t : Token} (q : Phrase n) (hadd : (held s fs).add φ = (q.id, q.behind.store))
    (hσ : q.behind.stream.Proper) (hreach : Reaches (.paren t :: fs) φ q.behind r .formula) :
    Follows s fs .primary r (close t q) := by
  obtain ⟨rfl, u, hu, hends⟩ := hreach
  have hmove := ReadState.move_paren t fs φ q.behind.last
    (connective?_eq_none_of_endsBefore hends)
  have hheld : s.addAll (ReadState.completed ⟨.paren t :: fs, some φ, q.behind.last⟩) =
      q.behind.store := by
    rw [addAll_completed_some, held_cons_of_left?_eq_none rfl, hadd]
  match q with
  | ⟨id, ⟨.failed error behind, last, store⟩, h⟩ => cases hu
  | ⟨id, ⟨.done v behind, last, store⟩, h⟩ =>
    obtain rfl := Option.some.inj hu
    have hend : v.kind = .endOfInput := hσ
    rw [if_neg (by simp [hend])] at hmove
    exact ⟨_, TokenStream.fst_read_of_refuse hu hmove, rfl, hheld⟩
  | ⟨id, ⟨.more v behind rest, last, store⟩, h⟩ =>
    obtain rfl := Option.some.inj hu
    rw [close]
    split
    next hclose =>
      rw [if_pos hclose] at hmove
      exact ⟨φ, hadd, hσ.2, v, rfl, TokenStream.read_more_of_shift hmove⟩
    next hclose =>
      rw [if_neg hclose] at hmove
      exact ⟨_, TokenStream.fst_read_of_refuse hu hmove, rfl, hheld⟩

/-- A primary phrase is read beside the machine. -/
lemma primary_follows {d : Descent} (hd : ReadsBesideBelow s d.stream.length)
    (hσ : d.stream.Proper) : ReadsBeside s d .primary := by
  intro fs hfs hs
  have hstored : ∀ last, s.addAll (ReadState.completed ⟨fs, none, last⟩) = d.store :=
    fun _ => addAll_completed_none.trans hs
  have hmove : ∀ t, ReadState.move ⟨fs, none, d.last⟩ t =
      ReadState.expectOperand ⟨fs, none, d.last⟩ t := fun _ => rfl
  rw [phrase]
  match d with
  | ⟨.failed error behind, last, store⟩ =>
    rw [primary]
    exact ⟨_, rfl, rfl, hstored last⟩
  | ⟨.done t behind, last, store⟩ =>
    rw [primary]
    have hend : t.kind = .endOfInput := hσ
    have hrefuse : ReadState.move ⟨fs, none, last⟩ t =
        .refuse (ReadState.endError last t) ⟨fs, none, last⟩ := by
      simp only [hmove, ReadState.expectOperand, hend]
    exact ⟨_, TokenStream.fst_read_of_refuse rfl hrefuse, rfl, hstored last⟩
  | ⟨.more t behind rest, last, store⟩ =>
    have hmove := hmove t
    rw [primary]
    split
    next hk =>
      simp only [ReadState.expectOperand, hk] at hmove
      exact leaf_follows .top hσ.2 hs rfl hmove
    next hk =>
      simp only [ReadState.expectOperand, hk] at hmove
      exact leaf_follows .bot hσ.2 hs rfl hmove
    next hk =>
      simp only [ReadState.expectOperand, hk] at hmove
      exact leaf_follows (.atom t.text) hσ.2 hs rfl hmove
    next hk =>
      simp only [ReadState.expectOperand, hk] at hmove
      rw [TokenStream.read_more_of_shift hmove]
      have hparen : held s (.paren t :: fs) = held s fs := held_cons_of_left?_eq_none rfl
      refine (hd ⟨rest, some t, store⟩ .formula (Nat.lt_succ_self _) hσ.2 (.paren t :: fs) trivial
        (hparen.trans hs)).bind fun q φ hφ hproper hreach => ?_
      exact close_follows (q.widen _) (hparen ▸ hφ) hproper hreach
    next hone hzero hidentifier hparen =>
      obtain ⟨htilde, hmodality⟩ := hfs t rfl
      have hend : t.kind ≠ .endOfInput := hσ.1
      have hspoil : ReadState.move ⟨fs, none, last⟩ t =
          .spoil { fault := .missingOperandBefore t.text, token := t.text, pos := t.pos }
            ⟨fs, none, some t⟩ := by
        rw [hmove, ReadState.expectOperand]
        split <;> simp_all
      exact ⟨_, by rw [TokenStream.read, hspoil]; rfl, rfl, hstored _⟩

/-- A prefix operator is read beside the machine if what it stands before is. -/
lemma ReadsBeside.under {d : Descent} (hn : d.stream.length ≤ n) (h : ReadsBeside s d .unary)
    {f : Frame} {node : FormulaId → Node} {g : Formula → Formula} (hs : held s fs = d.store)
    (hf : f.left? = none) (hg : ∀ φ, tighten φ (f :: fs) = tighten (g φ) fs)
    (hadd : ∀ {s s' : FormulaStore} {φ : Formula} {a : FormulaId}, s.add φ = (a, s') →
      s.add (g φ) = s'.intern (node a)) :
    Follows (n := n) s fs .unary (d.stream.read ⟨f :: fs, none, d.last⟩)
      (do return ((← d.phrase .unary).under node).widen hn) := by
  have hheld : held s (f :: fs) = held s fs := held_cons_of_left?_eq_none hf
  refine (h (f :: fs) trivial (hheld.trans hs)).bind fun q φ hφ hproper hreach => ?_
  obtain ⟨t, hlast, hr⟩ := hreach
  refine ⟨g φ, hadd (hheld ▸ hφ), hproper, t, hlast, ?_⟩
  rw [hr, ReadState.closed, hg]
  rfl

/-- Prefix operators and what they stand before are read beside the machine. -/
lemma unary_follows {d : Descent} (hd : ReadsBesideBelow s d.stream.length)
    (hσ : d.stream.Proper) : ReadsBeside s d .unary := by
  intro fs _ hs
  have hprimary := primary_follows hd hσ fs
  rw [phrase]
  match d with
  | ⟨.failed error behind, last, store⟩ =>
    rw [unary]
    exact ⟨_, rfl, rfl, addAll_completed_none.trans hs⟩
  | ⟨.done t behind, last, store⟩ =>
    rw [unary]
    have hend : t.kind = .endOfInput := hσ
    refine hprimary (fun u hu => ?_) hs
    obtain rfl := Option.some.inj hu
    simp [hend]
  | ⟨.more t behind rest, last, store⟩ =>
    have hmove : ReadState.move ⟨fs, none, last⟩ t =
      ReadState.expectOperand ⟨fs, none, last⟩ t := rfl
    rw [unary]
    split
    next hk =>
      simp only [ReadState.expectOperand, hk] at hmove
      rw [TokenStream.read_more_of_shift hmove]
      refine (hd ⟨rest, some t, store⟩ .unary (Nat.lt_succ_self _) hσ.2).under (f := .neg)
        (g := .neg) _ hs rfl (fun _ => rfl) fun hadd => ?_
      rw [FormulaStore.add, hadd]
    next m action hk =>
      simp only [ReadState.expectOperand, hk] at hmove
      rw [TokenStream.read_more_of_shift hmove]
      refine (hd ⟨rest, some t, store⟩ .unary (Nat.lt_succ_self _) hσ.2).under
        (f := .modal m action) (g := .modal m action) _ hs rfl (fun _ => rfl) fun hadd => ?_
      rw [FormulaStore.add, hadd]
    next htilde hmodality =>
      refine hprimary (fun u hu => ?_) hs
      obtain rfl := Option.some.inj hu
      exact ⟨htilde, hmodality⟩

/-- All phrases are read beside the machine. -/
theorem readsBeside (s : FormulaStore) (d : Descent) (l : Level) (hσ : d.stream.Proper) :
    ReadsBeside s d l := by
  have hd : ReadsBesideBelow s d.stream.length := fun d' l' _ hσ' => readsBeside s d' l' hσ'
  have hunary : ReadsBeside s d .unary := unary_follows hd hσ
  have hand : ReadsBeside s d (.expr .and) := expr_follows .and hd hunary
  have hor : ReadsBeside s d (.expr .or) := expr_follows .or hd hand
  have hres : ReadsBeside s d (.expr .resImplies) := expr_follows .resImplies hd hor
  have himplies : ReadsBeside s d (.expr .implies) := expr_follows .implies hd hres
  have hiff : ReadsBeside s d (.expr .iff) := expr_follows .iff hd himplies
  match l with
  | .primary => exact primary_follows hd hσ
  | .unary => exact hunary
  | .expr .and => exact hand
  | .expr .or => exact hor
  | .expr .resImplies => exact hres
  | .expr .implies => exact himplies
  | .expr .iff => exact hiff
  | .formula =>
    intro fs hfs hs
    rw [phrase]
    exact hiff fs hfs hs
termination_by d.stream.length

end Descent

/-! ## Whole sources -/

/-- Behind a formula on an empty stack, the machine accepts before a token that is no connective. -/
lemma TokenStream.exists_read_eq_ok {σ : TokenStream} (φ : Formula) (last : Option Token)
    {t : Token} (ht : σ.head? = some t) (hnone : t.kind.connective? = none) :
    ∃ p, σ.read ⟨[], some φ, last⟩ = (.ok φ, p) ∧ p.lexer.ahead = some t := by
  have hmove : ReadState.move ⟨[], some φ, last⟩ t = .accept φ := by
    simp only [ReadState.move, ReadState.afterOperand, hnone, reduceAll, reduceWhile]
  cases σ with
  | more u behind rest | done u behind =>
    obtain rfl := Option.some.inj ht
    rw [read, hmove]
    exact ⟨_, rfl, rfl⟩
  | failed => cases ht

/-- What is found behind a formula decides whether it is the whole source. -/
lemma Parser.fst_readWhole_of_ahead {p q : Parser} {φ : Formula} {t : Token}
    (h : p.readFormula = (.ok φ, q)) (ht : q.lexer.ahead = some t) :
    p.readWhole.1 = match trailingFault? t with
      | none => .ok φ
      | some fault =>
        .error { error := { fault, token := t.text, pos := t.pos }, completed := [φ] } := by
  simp only [readWhole, h, Lexer.peek, Lexer.next, ht]
  cases trailingFault? t <;> rfl

/-- A parser whose first formula cannot be read does not read its source. -/
lemma Parser.fst_readWhole_of_error {p : Parser} {f : ReadFailure}
    (h : p.readFormula.1 = .error f) : p.readWhole.1 = .error f := by
  have hread : p.readFormula = (.error f, p.readFormula.2) := Prod.ext h rfl
  rw [readWhole, hread]

/-- A source is read by descent as it is parsed: the number or the error is the same, and so is the
store. -/
theorem FormulaStore.descend_eq_parse (s : FormulaStore) (source : Text) (line : UInt32) :
    s.descend source line = s.parse source line := by
  have hσ : (Lexer.start source line).stream.Proper := Lexer.proper_stream _
  have h := Descent.readsBeside s ⟨(Lexer.start source line).stream, none, s⟩ .formula hσ []
    trivial rfl
  rw [descend, parse, Formula.read]
  cases hphrase : Descent.phrase ⟨(Lexer.start source line).stream, none, s⟩ .formula with
  | error e =>
    obtain ⟨f, hr, he, hstore⟩ := hphrase ▸ h
    rw [Parser.fst_readWhole_of_error (p := Parser.start source line) hr, addRead, he, hstore]
  | ok q =>
    obtain ⟨φ, hadd, -, hr, t, ht, hends⟩ := hphrase ▸ h
    obtain ⟨p, hread, hahead⟩ := TokenStream.exists_read_eq_ok φ q.behind.last ht
      (Descent.connective?_eq_none_of_endsBefore hends)
    rw [Parser.fst_readWhole_of_ahead (p := Parser.start source line) (hr.trans hread) hahead]
    obtain ⟨id, ⟨σ, last, store⟩, hlt⟩ := q
    have hstore : s.add φ = (id, store) := hadd
    cases σ with
    | failed => cases ht
    | more u behind rest | done u behind =>
      obtain rfl := Option.some.inj ht
      cases hfault : Parser.trailingFault? u with
      | none => simp only [Descent.finish, hfault, addRead, hstore]
      | some fault =>
        simp only [Descent.finish, hfault, addRead, addAll, List.foldl_cons, List.foldl_nil, hstore]

end TwistLogic
