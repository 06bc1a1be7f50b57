/-!
# Paths

Two spellings of a path that differ in empty parts and single dots only are one path, and it is
shown in the shortest spelling.  Double dots stay, since what they mean depends on the files.
-/

namespace Ancestry

/-- The parts of a path between its slashes, without those that mean nothing. -/
def pathParts (path : String) : List String :=
  ((path.toList.splitOnP (· = '/')).filter fun part => !part.isEmpty && part != ['.']).map
    String.ofList

/-- The shortest spelling of a path.  Exactly two slashes in front are not the same as one. -/
def shortestPath (path : String) : String :=
  let root := match path.toList.takeWhile (· = '/') with
    | [] => ""
    | ['/', '/'] => "//"
    | _ => "/"
  let shortest := root ++ "/".intercalate (pathParts path)
  if shortest.isEmpty then "." else shortest

end Ancestry
