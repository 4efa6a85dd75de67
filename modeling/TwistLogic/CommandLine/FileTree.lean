import TwistLogic.Text.Basic

/-!
# Files in memory

A `FileTree` holds plain files and a working directory, so that a run need not touch the files of a
machine.  A path is followed part by part from the root or from the working directory: an empty
part and a dot stay where they are, two dots go up, and every other part goes down.  A step can only
be made from a directory, and a directory is there as far as files or the working directory need
it.

`FileTree.read?` opens what a path leads to; a directory can be opened and has no contents.
`FileTree.write` puts a file there.
-/

namespace TwistLogic

/-- A place in a file tree: the names that lead there from the root, the last one first. -/
abbrev Location := List Text

/-- Plain files by location, and the working directory. -/
structure FileTree where
  here : Location
  files : List (Location × Text)

namespace FileTree

/-- The parts of a path between its slashes. -/
def parts : Text → List Text
  | [] => [[]]
  | c :: cs =>
    if c = byte '/' then [] :: parts cs
    else match parts cs with
      | [] => [[c]]
      | p :: ps => (c :: p) :: ps

/-- Whether there is a directory at a location. -/
def isDirectory (t : FileTree) (l : Location) : Bool :=
  l.isSuffixOf t.here || t.files.any fun (file, _) => l.isSuffixOf file.tail

/-- Follows one part of a path. -/
def step (t : FileTree) (l : Location) (part : Text) : Option Location :=
  if !t.isDirectory l then none
  else if part = [] || part = ascii "." then some l
  else if part = ascii ".." then some l.tail
  else some (part :: l)

/-- Where a path leads.  The empty path leads nowhere. -/
def locate? (t : FileTree) (path : Text) : Option Location :=
  if path.isEmpty then none
  else (parts path).foldlM t.step (if path.head? = some (byte '/') then [] else t.here)

/-- What is read from a path, if it can be opened. -/
def read? (t : FileTree) (path : Text) : Option Text := do
  let l ← t.locate? path
  match t.files.lookup l with
  | some content => some content
  | none => if t.isDirectory l then some [] else none

/-- The tree with a file at a path.  Nothing is written over a directory or below a place that is
none. -/
def write (t : FileTree) (path content : Text) : FileTree :=
  match t.locate? path with
  | none => t
  | some l => if t.isDirectory l then t else { t with files := (l, content) :: t.files }

/-- An empty working directory, and the null device. -/
def empty : FileTree :=
  { here := [ascii "work", ascii "tmp"], files := [([ascii "null", ascii "dev"], [])] }

end FileTree

end TwistLogic
