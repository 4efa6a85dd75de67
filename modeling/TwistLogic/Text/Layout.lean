import TwistLogic.Text.Basic
import Std.Data.TreeSet

/-!
# Lines, comments and columns

Reading: a source is cut into `lines`; `stripComment` drops a line's comment, which runs from the
first `#`, and the blanks around what is left.  Writing: `pad` fills a column, `sortedSet` puts
names in order without repetition, and `joined` writes such a set on one line.
-/

namespace TwistLogic.Text

/-! ### Reading -/

/-- The lines of a source.  A newline ends a line, and no empty line follows the last newline. -/
def lines : Text → List Text
  | [] => []
  | c :: cs =>
    if c = byte '\n' then [] :: lines cs
    else match lines cs with
      | [] => [[c]]
      | l :: ls => (c :: l) :: ls

/-- A byte that `trim` removes: a space, a tab, a carriage return or a newline. -/
def isTrimmed (c : UInt8) : Bool := isBlank c || c == byte '\r' || c == byte '\n'

/-- A text without the blanks at its two ends. -/
def trim (s : Text) : Text :=
  ((s.dropWhile isTrimmed).reverse.dropWhile isTrimmed).reverse

/-- What stands before the first `#`, trimmed. -/
def stripComment (s : Text) : Text := trim (s.takeWhile (· != byte '#'))

/-- Whether nothing is left of a line without its comment. -/
def isBlankOrComment (s : Text) : Bool := (stripComment s).isEmpty

/-! ### Writing -/

/-- A text filled with spaces up to a width; a wider text is kept whole. -/
def pad (s : Text) (width : Nat) : Text := s ++ List.replicate (width - s.length) (byte ' ')

/-- The distinct members of a list of names, in increasing order of their bytes. -/
def sortedSet (names : List Text) : List Text := (Std.TreeSet.ofList names).toList

/-- Appends an item to a line that is being written; no separator precedes the first visible
item. -/
def appendItem (sep line item : Text) : Text :=
  if line.isEmpty then item else line ++ sep ++ item

/-- The items of a set on one line, or a dash if there are none. -/
def joined (items : List Text) (sep : Text) : Text :=
  if items.isEmpty then ascii "-" else items.foldl (appendItem sep) []

end TwistLogic.Text
