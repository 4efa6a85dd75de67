/-!
# Byte texts

A `Text` is a finite sequence of bytes.  Columns, offsets, widths and the order of names all count
bytes, so a text need not be valid in any character encoding.

`ascii` gives the bytes of a literal, `byte` a single one, `Text.quoted` puts a text between
single quotes, and `Text.untilZero` cuts a text at its first zero byte, which is where a message
and a command-line argument end.
-/

namespace TwistLogic

/-- A finite sequence of bytes. -/
abbrev Text := List UInt8

/-- The byte of an ASCII character. -/
def byte (c : Char) : UInt8 := UInt8.ofNat c.toNat

/-- The bytes of an ASCII literal. -/
def ascii (s : String) : Text := s.toList.map byte

namespace Text

/-- A text between single quotes. -/
def quoted (s : Text) : Text := ascii "'" ++ s ++ ascii "'"

/-- The part of a text before its first zero byte. -/
def untilZero (s : Text) : Text := s.takeWhile (· != 0)

/-- The texts one after the other, with a separator between neighbours. -/
def separated (sep : Text) (items : List Text) : Text := (items.intersperse sep).flatten

/-! ### Classes of bytes -/

/-- An ASCII digit. -/
def isDigit (c : UInt8) : Bool := byte '0' ≤ c && c ≤ byte '9'

/-- An ASCII letter of either case. -/
def isLetter (c : UInt8) : Bool :=
  (byte 'a' ≤ c && c ≤ byte 'z') || (byte 'A' ≤ c && c ≤ byte 'Z')

/-- A byte of a word: a letter, a digit or the underscore. -/
def isWord (c : UInt8) : Bool := isLetter c || isDigit c || c == byte '_'

/-- A space or one of the five control bytes from tab to carriage return. -/
def isSpace (c : UInt8) : Bool := c == byte ' ' || (9 ≤ c && c ≤ 13)

/-- A blank inside a line: a space or a tab. -/
def isBlank (c : UInt8) : Bool := c == byte ' ' || c == byte '\t'

/-- The capital of a small ASCII letter; every other byte stays as it is. -/
def upper (c : UInt8) : UInt8 :=
  if byte 'a' ≤ c && c ≤ byte 'z' then c - 32 else c

end Text

end TwistLogic
