/-! # Paths

Paths are texts whose components are separated by slashes. Empty components and single dots mean
nothing.
-/
namespace RunoffAudit.Path

def cut : List Char → List (List Char)
  | [] => [[]]
  | c :: rest =>
    if c = '/' then [] :: cut rest
    else match cut rest with
      | [] => [[c]]
      | part :: parts => (c :: part) :: parts

def components (path : String) : List String :=
  (cut path.toList).map String.ofList |>.filter fun part => part ≠ "" ∧ part ≠ "."

/-- What stands in front of the components: a slash if the path begins at the root. Two slashes, but not
more, are kept apart from one. -/
def root (path : String) : String :=
  match (path.toList.takeWhile (· = '/')).length with
  | 0 => ""
  | 2 => "//"
  | _ => "/"

def normal (path : String) : String :=
  let text := root path ++ "/".intercalate (components path)
  if text = "" then "." else text

/-- The last component, or the empty text if there is none. -/
def name (path : String) : String := (components path).getLastD ""

/-- A name without its last extension. A dot that comes first or last starts no extension. -/
def withoutExtension (name : List Char) : List Char :=
  let tail := name.reverse.takeWhile (· ≠ '.')
  let base := (name.reverse.dropWhile (· ≠ '.')).drop 1 |>.reverse
  if tail = [] ∨ base = [] then name else base

def stem (path : String) : String := String.ofList (withoutExtension (name path).toList)

end RunoffAudit.Path
