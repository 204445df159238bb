import RunoffAudit.Path

/-! # Locations

A location is a path from the root of the file system, without components that mean nothing. The first
component is what all paths begin with: the empty text in front of the first slash.
-/
namespace RunoffAudit

abbrev Location := List String

namespace Location

/-- Follows one component. The parent of the root is the root, in which all other locations lie. -/
def step (l : Location) (part : String) : Location :=
  if part = "" ∨ part = "." then l
  else if part = ".." then (if l.length ≤ 1 then [""] else l.dropLast)
  else l ++ [part]

def parts (path : String) : List String := (Path.cut path.toList).map String.ofList

/-- The location of a path; a path that does not begin at the root begins at `here`. -/
def resolve (here : Location) (path : String) : Location :=
  match parts path with
  | [] => here
  | [first] => step here first
  | first :: rest => if first = "" then rest.foldl step [""] else (first :: rest).foldl step here

def text (l : Location) : String := if l = [""] then "/" else "/".intercalate l

def name (l : Location) : String := l.getLastD ""

/-- The greatest size of a component, in bytes of UTF-8. -/
def nameLimit : Nat := 255

def fits (part : String) : Bool := part.utf8ByteSize ≤ nameLimit

/-- Every path is shorter than this, in bytes of UTF-8. -/
def pathLimit : Nat := 4096

end Location
end RunoffAudit
