import TwistLogic.Formula.Basic

/-!
# Tokens

The words of the formula language.  A `SourcePos` says where a byte stands in a source, and a
`Token` carries its class, its spelling and the positions of its two ends.
-/

namespace TwistLogic

/-- A place in a source: line and column count from one, the offset from zero.  The line number
is a 32-bit word, so it starts again at zero after its largest value. -/
structure SourcePos where
  line : UInt32
  column : Nat
  offset : Nat
  deriving DecidableEq

namespace SourcePos

/-- The first place of a source whose first line has the given number. -/
def start (line : UInt32) : SourcePos := { line, column := 1, offset := 0 }

/-- The place behind one byte. -/
def step (p : SourcePos) (c : UInt8) : SourcePos :=
  if c = byte '\n' then { line := p.line + 1, column := 1, offset := p.offset + 1 }
  else { line := p.line, column := p.column + 1, offset := p.offset + 1 }

/-- The place behind a stretch of source. -/
def advance (p : SourcePos) (s : Text) : SourcePos := s.foldl step p

end SourcePos

/-- The classes of tokens.  A modality carries the label of its action. -/
inductive TokenKind where
  | identifier
  | one
  | zero
  | tilde
  | amp
  | pipe
  | fatArrow
  | arrow
  | doubleArrow
  | modality (m : Modality) (action : Text)
  | openParen
  | closeParen
  | endOfInput
  deriving DecidableEq

namespace TokenKind

/-- The name of a class. -/
def name : TokenKind → Text
  | identifier => ascii "identifier"
  | one => ascii "1"
  | zero => ascii "0"
  | tilde => ascii "~"
  | amp => ascii "&"
  | pipe => ascii "|"
  | fatArrow => ascii "=>"
  | arrow => ascii "->"
  | doubleArrow => ascii "<->"
  | modality m _ => m.noun
  | openParen => ascii "("
  | closeParen => ascii ")"
  | endOfInput => ascii "EOF"

/-- The action label of a modality; every other class has the empty one. -/
def action : TokenKind → Text
  | modality _ a => a
  | _ => []

/-- The connective that a class stands for. -/
def connective? : TokenKind → Option Connective
  | amp => some .and
  | pipe => some .or
  | fatArrow => some .resImplies
  | arrow => some .implies
  | doubleArrow => some .iff
  | _ => none

/-- One member of every class, in the order of their numbers. -/
def catalogue : List TokenKind :=
  [identifier, one, zero, tilde, amp, pipe, fatArrow, arrow, doubleArrow,
    modality .box [], modality .diamond [], openParen, closeParen, endOfInput]

end TokenKind

/-- A word of the formula language. -/
structure Token where
  kind : TokenKind
  /-- The spelling, without the blanks inside a modality. -/
  text : Text
  /-- The place of the first byte. -/
  pos : SourcePos
  /-- The place behind the last byte. -/
  stop : SourcePos
  deriving DecidableEq

/-- The token that ends a source. -/
def Token.endOfInput (p : SourcePos) : Token :=
  { kind := .endOfInput, text := [], pos := p, stop := p }

end TwistLogic
