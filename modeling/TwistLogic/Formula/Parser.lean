import TwistLogic.Formula.Lexer
import TwistLogic.Formula.Store

/-!
# Reading formulas

The grammar, from the loosest connective to the tightest operand:

    formula   = implies { "<->" implies }
    implies   = residual { "->" residual }
    residual  = or [ "=>" residual ]
    or        = and { "|" and }
    and       = unary { "&" unary }
    unary     = ( "~" | box | diamond ) unary | primary
    primary   = "1" | "0" | identifier | "(" formula ")"

The reader is a machine on a stack of unfinished operators.  A `ReadState` either waits for an
operand or has just completed one; `ReadState.move` says what one token does to it.  An operand
that is complete at once joins the prefix operators before it and a `&` to its left; every looser
connective waits until the next token shows that it does not bind tighter.

A reading that fails leaves the formulas that it had completed, in the order in which they stand
in the source, so that a store can keep them.
-/

namespace TwistLogic

/-! ### The stack -/

/-- An operator that waits for the operand on its right. -/
inductive Frame where
  | neg
  | modal (m : Modality) (action : Text)
  /-- A connective and its left operand. -/
  | binary (c : Connective) (left : Formula)
  /-- An opening parenthesis. -/
  | paren (t : Token)
  deriving DecidableEq

/-- Joins a complete operand to the prefix operators and the `&` that wait for it. -/
def tighten (φ : Formula) : List Frame → Formula × List Frame
  | .neg :: fs => tighten (.neg φ) fs
  | .modal m action :: fs => tighten (.modal m action φ) fs
  | .binary .and ψ :: fs => tighten (.binary .and ψ φ) fs
  | fs => (φ, fs)

/-- Joins an operand to the waiting connectives, as long as `p` holds of them. -/
def reduceWhile (p : Connective → Bool) (φ : Formula) : List Frame → Formula × List Frame
  | .binary c ψ :: fs => if p c then reduceWhile p (.binary c ψ φ) fs else (φ, .binary c ψ :: fs)
  | fs => (φ, fs)

/-- Joins an operand to all waiting connectives up to the innermost open parenthesis. -/
def reduceAll (φ : Formula) (fs : List Frame) : Formula × List Frame :=
  reduceWhile (fun _ => true) φ fs

/-- The formula that a waiting operator holds. -/
def Frame.left? : Frame → Option Formula
  | .binary _ φ => some φ
  | _ => none

/-! ### One token -/

/-- How far a reading has come. -/
structure ReadState where
  /-- The unfinished operators, the innermost first. -/
  stack : List Frame
  /-- The operand that was just completed, if one was. -/
  operand : Option Formula
  /-- The token taken last, if one was. -/
  last : Option Token
  deriving DecidableEq

/-- What a token does to a reading. -/
inductive Move where
  /-- The token is taken. -/
  | shift (next : ReadState)
  /-- The formula ends before the token. -/
  | accept (φ : Formula)
  /-- The token is refused where it stands. -/
  | refuse (e : SyntaxError) (reached : ReadState)
  /-- The token is taken and refused. -/
  | spoil (e : SyntaxError) (reached : ReadState)

namespace ReadState

/-- A reading that waits for the first operand. -/
def start (last : Option Token) : ReadState := { stack := [], operand := none, last }

/-- The formulas that are complete, from left to right. -/
def completed (st : ReadState) : List Formula :=
  st.stack.reverse.filterMap Frame.left? ++ st.operand.toList

/-- Takes a token that opens an operator. -/
def opened (st : ReadState) (f : Frame) (t : Token) : ReadState :=
  { stack := f :: st.stack, operand := none, last := some t }

/-- Takes the token that completes an operand. -/
def closed (φ : Formula) (fs : List Frame) (t : Token) : ReadState :=
  let (φ, fs) := tighten φ fs
  { stack := fs, operand := some φ, last := some t }

/-- The error for an input that ends in place of an operand. -/
def endError (last : Option Token) (t : Token) : SyntaxError :=
  match last with
  | none => { fault := .emptyFormula, token := t.text, pos := t.pos }
  | some l => { fault := .missingOperandAfter l.text, token := [], pos := l.stop }

/-- What a token does where an operand is due. -/
def expectOperand (st : ReadState) (t : Token) : Move :=
  match t.kind with
  | .one => .shift (closed .top st.stack t)
  | .zero => .shift (closed .bot st.stack t)
  | .identifier => .shift (closed (.atom t.text) st.stack t)
  | .tilde => .shift (st.opened .neg t)
  | .modality m action => .shift (st.opened (.modal m action) t)
  | .openParen => .shift (st.opened (.paren t) t)
  | .endOfInput => .refuse (endError st.last t) st
  | _ =>
    .spoil { fault := .missingOperandBefore t.text, token := t.text, pos := t.pos }
      { st with last := some t }

/-- The error for a token in place of the closing parenthesis that `p` needs. -/
def parenError (p t : Token) : SyntaxError :=
  if t.kind = .endOfInput then { fault := .unmatchedOpen, token := p.text, pos := p.pos }
  else { fault := .expectedClose p.pos.column t.text, token := t.text, pos := t.pos }

/-- What a token does behind a complete operand. -/
def afterOperand (st : ReadState) (φ : Formula) (t : Token) : Move :=
  match t.kind.connective? with
  | some c =>
    let (φ, fs) := reduceWhile (·.takesBefore c) φ st.stack
    .shift { stack := .binary c φ :: fs, operand := none, last := some t }
  | none =>
    match reduceAll φ st.stack with
    | (φ, .paren p :: fs) =>
      if t.kind = .closeParen then .shift (closed φ fs t)
      else .refuse (parenError p t) { st with stack := .paren p :: fs, operand := some φ }
    | (φ, _) => .accept φ

/-- What a token does to a reading. -/
def move (st : ReadState) (t : Token) : Move :=
  match st.operand with
  | none => st.expectOperand t
  | some φ => st.afterOperand φ t

end ReadState

/-! ### A whole reading -/

/-- A reading that failed: why, and the formulas that it had completed. -/
structure ReadFailure where
  error : SyntaxError
  completed : List Formula
  deriving DecidableEq

/-- A walk over a source that reads formulas, with the token that the last reading took last. -/
structure Parser where
  lexer : Lexer
  last : Option Token
  deriving DecidableEq

/-- A failed reading in a state that it had reached. -/
def ReadState.fail (st : ReadState) (e : SyntaxError) (behind : Lexer) :
    Except ReadFailure Formula × Parser :=
  (.error { error := e, completed := st.completed }, { lexer := behind, last := st.last })

/-- Reads one formula off a stream of tokens.  The token that ends it is not taken. -/
def TokenStream.read (st : ReadState) : TokenStream → Except ReadFailure Formula × Parser
  | .more t behind rest =>
    match st.move t with
    | .shift st => rest.read st
    | .accept φ => (.ok φ, { lexer := { behind with ahead := some t }, last := st.last })
    | .refuse e st => st.fail e { behind with ahead := some t }
    | .spoil e st => st.fail e behind
  | .done t behind =>
    match st.move t with
    | .shift st => st.fail (ReadState.endError st.last t) { behind with ahead := some t }
    | .accept φ => (.ok φ, { lexer := { behind with ahead := some t }, last := st.last })
    | .refuse e st => st.fail e { behind with ahead := some t }
    | .spoil e st => st.fail e behind
  | .failed e behind => st.fail e behind

namespace Parser

/-- A parser at the front of a source. -/
def start (source : Text) (line : UInt32) : Parser :=
  { lexer := .start source line, last := none }

/-- Reads one formula and stops at the first token that cannot continue it. -/
def readFormula (p : Parser) : Except ReadFailure Formula × Parser :=
  p.lexer.stream.read (.start p.last)

/-- The cause for which a token cannot follow a whole formula. -/
def trailingFault? (t : Token) : Option SyntaxFault :=
  match t.kind with
  | .endOfInput => none
  | .closeParen => some .unmatchedClose
  | _ => some (.trailing t.text)

/-- Reads one formula, which has to be the rest of the source. -/
def readWhole (p : Parser) : Except ReadFailure Formula × Parser :=
  match p.readFormula with
  | (.error f, p) => (.error f, p)
  | (.ok φ, p) =>
    match p.lexer.peek with
    | (.error e, l) => (.error { error := e, completed := [φ] }, { p with lexer := l })
    | (.ok t, l) =>
      match trailingFault? t with
      | none => (.ok φ, { p with lexer := l })
      | some fault =>
        (.error { error := { fault, token := t.text, pos := t.pos }, completed := [φ] },
          { p with lexer := l })

end Parser

/-- Reads a source that is one formula. -/
def Formula.read (source : Text) (line : UInt32) : Except ReadFailure Formula :=
  (Parser.start source line).readWhole.1

namespace FormulaStore

/-- Adds the formula of a reading.  A failed one adds the formulas that it had completed. -/
def addRead (s : FormulaStore) :
    Except ReadFailure Formula → Except SyntaxError FormulaId × FormulaStore
  | .ok φ =>
    let (id, s) := s.add φ
    (.ok id, s)
  | .error f => (.error f.error, s.addAll f.completed)

/-- Reads a source that is one formula and adds it. -/
def parse (s : FormulaStore) (source : Text) (line : UInt32) :
    Except SyntaxError FormulaId × FormulaStore :=
  s.addRead (Formula.read source line)

end FormulaStore

end TwistLogic
