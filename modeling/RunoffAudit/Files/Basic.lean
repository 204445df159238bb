import RunoffAudit.Document.Format
import RunoffAudit.Files.Error
import RunoffAudit.Files.Glob
import RunoffAudit.Files.Location

/-! # Files

The files that a program works on. What stands where, and what is read and written, is left to a monad:
a list of files in tests and proofs, the real file system otherwise.
-/
namespace RunoffAudit

inductive EntryKind where
  | missing
  | file
  | directory
deriving DecidableEq

/-- Access to files, which hold documents in a certain format. `names` lists a directory, `makeDirectory` makes a
directory with those above it, and `write` makes the directories that it needs. -/
structure Files (m : Type → Type) where
  format : DocumentFormat
  kind : Location → m EntryKind
  names : Location → m (List String)
  read : Location → m String
  makeDirectory : Location → m Unit
  write : Location → String → m Unit

namespace Files

variable {m : Type → Type} [Monad m]

inductive Landing where
  | nowhere
  | nameTooLong
  | found (l : Location)
deriving DecidableEq

/-- Follows the components of a path. Each is looked up in what must be a directory, parents and
components that mean nothing too. -/
def follow (files : Files m) : List String → Location → m Landing
  | [], l => return .found l
  | part :: rest, l => do
    if (← files.kind l) ≠ .directory then return .nowhere
    else if !Location.fits part then return .nameTooLong
    else if (← files.kind (l.step part)) = .missing then return .nowhere
    else follow files rest (l.step part)

/-- Where a path begins, and the components that it is followed by. -/
def start (here : Location) (path : String) : Location × List String :=
  match Location.parts path with
  | "" :: rest@(_ :: _) => ([""], rest)
  | parts => (here, parts)

/-- Looks a path up. The empty path leads nowhere. -/
def lookup (files : Files m) (here : Location) (path : String) : m Landing := do
  if path = "" then return .nowhere
  else if Location.pathLimit ≤ path.utf8ByteSize then return .nameTooLong
  else
    let (l, parts) := start here path
    files.follow parts l

def expandPart (files : Files m) (part : String) (l : Location) : m (List Location) := do
  if Glob.isPattern part.toList then
    if (← files.kind l) = .directory then
      return ((← files.names l).filter (Glob.isMet part)).map (l ++ [·])
    else return []
  else match ← files.follow [part] l with
    | .found next => return [next]
    | _ => return []

def gather {α β : Type} (f : α → m (List β)) : List α → m (List β)
  | [] => pure []
  | a :: rest => do
    let here ← f a
    return here ++ (← gather f rest)

def expandParts (files : Files m) : List String → List Location → m (List Location)
  | [], ls => pure ls
  | part :: rest, ls => do expandParts files rest (← gather (files.expandPart part) ls)

def glob (files : Files m) (here : Location) (pattern : String) : m (List Location) :=
  let (l, parts) := start here pattern
  files.expandParts parts [l]

/-- What a target names: whatever stands at that path, else what the target matches as a pattern. -/
def target (files : Files m) (here : Location) (path : String) : m (Except FileError (List Location)) := do
  match ← files.lookup here (Path.normal path) with
  | .found l => return .ok [l]
  | .nameTooLong => return .error (.nameTooLong (Path.normal path))
  | .nowhere => return .ok (← files.glob here path)

/-- What the targets name, up to the first that cannot be looked up. -/
def targetAll (files : Files m) (here : Location) : List String → m (Except FileError (List Location))
  | [] => return .ok []
  | path :: rest => do
    match ← files.target here path with
    | .error e => return .error e
    | .ok found => return (← targetAll files here rest).map (found ++ ·)

def notAfter (a b : Location) : Bool := !decide (b.text < a.text)

/-- All that the targets name, once each, in the order of the paths. -/
def targets (files : Files m) (here : Location) (paths : List String) :
    m (Except FileError (List Location)) := do
  return (← files.targetAll here paths).map fun found => found.eraseDups.mergeSort notAfter

end Files

/-- A list of files, in which directories are known by the files below them. -/
structure Disk where
  /-- The directories that are there even without files. -/
  directories : List Location
  files : List (Location × String)

namespace Disk

def text? (d : Disk) (l : Location) : Option String := (d.files.find? (·.1 = l)).map (·.2)

def kind (d : Disk) (l : Location) : EntryKind :=
  if d.files.any (·.1 = l) then .file
  else if l = [""] || d.directories.any (l.isPrefixOf ·) || d.files.any (l.isPrefixOf ·.1) then .directory
  else .missing

def names (d : Disk) (l : Location) : List String :=
  let known := d.directories ++ d.files.map (·.1)
  (known.filterMap fun k => if l.isPrefixOf k then (k.drop l.length).head? else none).eraseDups

def makeDirectory (d : Disk) (l : Location) : Disk := { d with directories := l :: d.directories }

def write (d : Disk) (l : Location) (text : String) : Disk :=
  { d with files := (l, text) :: d.files.filter (·.1 ≠ l) }

def access (format : DocumentFormat) : Files (StateM Disk) where
  format
  kind l := return (← get).kind l
  names l := return (← get).names l
  read l := return ((← get).text? l).getD ""
  makeDirectory l := modify (·.makeDirectory l)
  write l text := modify (·.write l text)

end Disk
end RunoffAudit
