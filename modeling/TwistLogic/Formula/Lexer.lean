import TwistLogic.Formula.SyntaxError

/-!
# Reading tokens

White space separates tokens and a comment runs from `#` to the end of its line.  A token is the
longest word, arrow or modality that stands at the front of the source; `scan` finds it.

A `Lexer` walks over a source.  `Lexer.next` takes one token, `Lexer.peek` shows the one that
`next` will take, and both keep the place that they reached when they fail.  `Lexer.stream` is
everything that repeated `next` delivers up to the end of the input or the first error; it exists
because every token has at least one byte (`Lexer.work_next_lt`).
-/

namespace TwistLogic

/-! ### Gaps -/

/-- The number of bytes of white space and comments at the front of a source.  The flag says
whether a comment is open. -/
def gapLength (inComment : Bool) : Text → Nat
  | [] => 0
  | c :: cs =>
    if inComment then gapLength (c != byte '\n') cs + 1
    else if c = byte '#' then gapLength true cs + 1
    else if Text.isSpace c then gapLength false cs + 1
    else 0

/-! ### One token -/

/-- What stands at the front of a source. -/
inductive Scan where
  /-- A token, with its spelling; its lexeme is the first byte and `more` bytes behind it. -/
  | token (kind : TokenKind) (text : Text) (more : Nat)
  /-- An error that points `shift` bytes behind the first byte, after `read` bytes were read. -/
  | fault (fault : SyntaxFault) (token : Text) (shift read : Nat)

/-- The kind of a word that does not begin with a digit: `TOP` and `BOT` in any case are the
constants. -/
def wordKind (word : Text) : TokenKind :=
  let capitals := word.map Text.upper
  if capitals = ascii "TOP" then .one
  else if capitals = ascii "BOT" then .zero
  else .identifier

/-- Scans a word whose first byte is `c`. -/
def scanWord (c : UInt8) (cs : Text) : Scan :=
  let tail := cs.takeWhile Text.isWord
  let word := c :: tail
  if Text.isDigit c then
    if word = ascii "1" then .token .one word tail.length
    else if word = ascii "0" then .token .zero word tail.length
    else .fault (.notAConstant word) word 0 word.length
  else .token (wordKind word) word tail.length

/-- Scans the label of a modality whose two brackets are read: an underscore and a word. -/
def scanLongLabel (m : Modality) (cs : Text) : Scan :=
  match cs with
  | u :: c :: _ =>
    if u = byte '_' && Text.isWord c then
      let action := cs.tail.takeWhile Text.isWord
      .token (.modality m action) (m.symbol ++ ascii "_" ++ action) (action.length + 2)
    else .fault (.missingLabel m) m.symbol 0 2
  | _ => .fault (.missingLabel m) m.symbol 0 2

/-- Scans a modality whose opening bracket is read.  Blanks may stand around a label between
brackets. -/
def scanModality (m : Modality) (cs : Text) : Scan :=
  if cs.head? = some m.closing then scanLongLabel m cs.tail
  else
    let before := cs.takeWhile Text.isBlank
    let body := cs.dropWhile Text.isBlank
    let action := body.takeWhile Text.isWord
    if action.isEmpty then .fault (.emptyLabel m) [m.opening] 0 (before.length + 1)
    else
      let behind := body.dropWhile Text.isWord
      let after := behind.takeWhile Text.isBlank
      let length := before.length + action.length + after.length
      let found := (behind.dropWhile Text.isBlank).headD 0
      if found = m.closing then
        .token (.modality m action) (m.opening :: action ++ [m.closing]) (length + 1)
      else .fault (.unclosedLabel m action) [found] (length + 1) (length + 1)

/-- Scans the token of a source with first byte `c` and rest `cs`. -/
def scan (c : UInt8) (cs : Text) : Scan :=
  if c = byte '~' then .token .tilde [c] 0
  else if c = byte '&' then .token .amp [c] 0
  else if c = byte '|' then .token .pipe [c] 0
  else if c = byte '(' then .token .openParen [c] 0
  else if c = byte ')' then .token .closeParen [c] 0
  else if c = byte '=' then
    if cs.head? = some (byte '>') then .token .fatArrow (ascii "=>") 1
    else .fault (.brokenArrow (ascii "=") (ascii "=>")) (ascii "=") 0 0
  else if c = byte '-' then
    if cs.head? = some (byte '>') then .token .arrow (ascii "->") 1
    else .fault (.brokenArrow (ascii "-") (ascii "->")) (ascii "-") 0 0
  else if c = byte '[' then scanModality .box cs
  else if c = byte '<' then
    if cs.head? = some (byte '-') then
      if cs.tail.head? = some (byte '>') then .token .doubleArrow (ascii "<->") 2
      else .fault (.brokenArrow (ascii "<-") (ascii "<->")) (ascii "<-") 0 0
    else scanModality .diamond cs
  else if Text.isWord c then scanWord c cs
  else .fault (.unexpectedByte c) [c] 0 0

/-! ### The walk over a source -/

/-- A walk over a source: what is left to read, the place of its first byte, and a token that was
shown but not taken. -/
structure Lexer where
  rest : Text
  pos : SourcePos
  ahead : Option Token
  deriving DecidableEq

namespace Lexer

/-- The walk at the front of a source. -/
def start (source : Text) (line : UInt32) : Lexer :=
  { rest := source, pos := .start line, ahead := none }

/-- The walk after `n` more bytes. -/
def skip (l : Lexer) (n : Nat) : Lexer :=
  { rest := l.rest.drop n, pos := l.pos.advance (l.rest.take n), ahead := none }

/-- Takes the token at the front of a source that begins with no gap. -/
def take (l : Lexer) : Except SyntaxError Token × Lexer :=
  match l.rest with
  | [] => (.ok (.endOfInput l.pos), l)
  | c :: cs =>
    match scan c cs with
    | .token kind text more =>
      let l' := l.skip (more + 1)
      (.ok { kind, text, pos := l.pos, stop := l'.pos }, l')
    | .fault fault token shift read =>
      (.error { fault, token, pos := (l.skip shift).pos }, l.skip read)

/-- Takes the next token.  After the end of the input the token is the end, again and again. -/
def next (l : Lexer) : Except SyntaxError Token × Lexer :=
  match l.ahead with
  | some t => (.ok t, { l with ahead := none })
  | none => (l.skip (gapLength false l.rest)).take

/-- Shows the next token and keeps it. -/
def peek (l : Lexer) : Except SyntaxError Token × Lexer :=
  match l.next with
  | (.ok t, l') => (.ok t, { l' with ahead := some t })
  | (.error e, l') => (.error e, l')

/-- The number of bytes left to read, and one for a token that was shown. -/
def work (l : Lexer) : Nat := l.rest.length + if l.ahead.isSome then 1 else 0

/-- Every token but the end of the input uses up some of the work. -/
theorem work_next_lt {l l' : Lexer} {t : Token} (h : l.next = (.ok t, l'))
    (ht : t.kind ≠ .endOfInput) : l'.work < l.work := by
  unfold next at h
  cases ha : l.ahead with
  | some a =>
    simp only [ha, Prod.mk.injEq, Except.ok.injEq] at h
    obtain ⟨-, rfl⟩ := h
    simp [work, ha]
  | none =>
    simp only [ha] at h
    unfold take at h
    split at h
    · simp only [Prod.mk.injEq, Except.ok.injEq] at h
      exact absurd (h.1 ▸ rfl) ht
    · rename_i c cs hrest
      split at h
      · simp only [Prod.mk.injEq, Except.ok.injEq] at h
        obtain ⟨-, rfl⟩ := h
        have hl : (c :: cs).length ≤ l.rest.length := by
          rw [← hrest]; simp [skip]
        simp only [List.length_cons] at hl
        simp only [work, skip, ha, List.drop_drop, List.length_drop]
        simp
        omega
      · simp at h

end Lexer

/-! ### All tokens of a source -/

/-- The tokens of a source one after the other, each with the walk behind it. -/
inductive TokenStream where
  /-- A token, and what follows it. -/
  | more (t : Token) (behind : Lexer) (rest : TokenStream)
  /-- The end of the input. -/
  | done (t : Token) (behind : Lexer)
  /-- A stretch of source that is no token. -/
  | failed (e : SyntaxError) (behind : Lexer)

/-- What a walk delivers from here on. -/
def Lexer.stream (l : Lexer) : TokenStream :=
  match h : l.next with
  | (.error e, l') => .failed e l'
  | (.ok t, l') =>
    if ht : t.kind = .endOfInput then .done t l'
    else
      have : l'.work < l.work := Lexer.work_next_lt h ht
      .more t l' l'.stream
termination_by l.work

/-- The tokens up to and with the end of the input. -/
def TokenStream.tokens : TokenStream → Except SyntaxError (List Token)
  | .more t _ rest => return t :: (← rest.tokens)
  | .done t _ => return [t]
  | .failed e _ => throw e

/-- All tokens of a source; the last one is the end of the input. -/
def tokenise (source : Text) (line : UInt32) : Except SyntaxError (List Token) :=
  (Lexer.start source line).stream.tokens

end TwistLogic
