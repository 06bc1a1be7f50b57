import Ancestry.Document.File
import Ancestry.Path

/-!
# File trees

Files by their places, and what stands at a path.  A path is followed part by part: two dots lead
to the directory above, which is always there, and any other part to what has that name.  A name
that is too long to be looked up is noticed where the way comes to it, and not if it ends before; a
path that is too long is not followed at all.
-/

namespace Ancestry

/-- The greatest number of bytes of a name. -/
def maxNameBytes : Nat := 255

/-- The greatest number of bytes of a path. -/
def maxPathBytes : Nat := 4095

/-- A place among the directories, by the names that lead to it: from the directory where paths
begin, from one above it, or from the top, which has the name `/`. -/
abbrev Location := List String

namespace Location

/-- The top of all directories. -/
def top : Location := ["/"]

/-- The place that a part of a path leads to.  Above the top there is nothing else. -/
def next (place : Location) (part : String) : Location :=
  if part = ".." then
    match place.getLast? with
    | none => place ++ [part]
    | some name =>
      if name = ".." then place ++ [part] else if place = top then place else place.dropLast
  else place ++ [part]

/-- The place where a path begins. -/
def origin (path : String) : Location := if path.toList.head? = some '/' then top else []

/-- The place that a path leads to, if all directories on the way are there. -/
def ofPath (path : String) : Location := (pathParts path).foldl next (origin path)

end Location

/-- Files by their places.  Of several files at one place the first counts. -/
structure FileTree where
  entries : List (Location × File)

namespace FileTree

/-- The tree in which files were written at paths, one after the other; a later one replaces an
earlier one, and to write none changes nothing. -/
def ofFiles (files : List (String × File)) : FileTree :=
  ⟨((files.filter fun e => !(e.2 matches .missing)).map fun e => (.ofPath e.1, e.2)).reverse⟩

/-- What is at a place.  A place is a directory also if something is below it. -/
def entry (tree : FileTree) (place : Location) : File :=
  match tree.entries.lookup place with
  | some file => file
  | none => if tree.entries.any fun e => place.isPrefixOf e.1 then .directory else .missing

/-- What stands at the end of a way that goes on with `parts` from a directory. -/
def follow (tree : FileTree) (parts : List String) (directory : Location) : File :=
  match parts with
  | [] => .directory
  | part :: parts =>
    let place := directory.next part
    if part = ".." then tree.follow parts place
    else if maxNameBytes < part.utf8ByteSize then .nameTooLong
    else
      match tree.entry place with
      | .directory => tree.follow parts place
      | .regular bytes => if parts.isEmpty then .regular bytes else .missing
      | file => file

/-- What stands at a path. -/
def find (tree : FileTree) (path : String) : File :=
  if maxPathBytes < path.utf8ByteSize then .nameTooLong
  else tree.follow (pathParts path) (.origin path)

end FileTree
end Ancestry
