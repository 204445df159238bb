import RunoffAudit.Files.Basic
import RunoffAudit.Problem.Parse

/-! # Problem files -/
namespace RunoffAudit

inductive TextError where
  | problem (e : ProblemError)
  | scalar (e : Yaml.ScalarError)

def TextError.message : TextError → String
  | problem e => e.message
  | scalar e => e.message

namespace Problem

/-- The problem in the text of the file at `path`. A problem without a name gets the default name. -/
def ofText (format : DocumentFormat) (path defaultName text : String) : Except TextError Problem :=
  match format.read text with
  | .error .malformed => .error (.problem (.format (.notDocument path)))
  | .error (.scalar e) => .error (.scalar e)
  | .ok .null => (parse [] defaultName).mapError .problem
  | .ok (.mapping e) => (parse e defaultName).mapError .problem
  | .ok _ => .error (.problem (.format (.notMapping path)))

def toText (format : DocumentFormat) (p : Problem) : String := format.write p.toValue

end Problem

inductive LoadError where
  | file (e : FileError)
  | text (e : TextError)

inductive SaveError where
  | file (e : FileError)
  | digits (e : Text.DigitError)

def SaveError.message : SaveError → String
  | file e => e.message
  | digits e => e.message

namespace Problem

variable {m : Type → Type} [Monad m]

def load (files : Files m) (l : Location) : m (Except LoadError Problem) := do
  match ← files.kind l with
  | .missing => return .error (.file (.missing l.text))
  | .directory => return .error (.file (.isDirectory l.text))
  | .file =>
    let name := String.ofList (Path.withoutExtension l.name.toList)
    return (ofText files.format l.text name (← files.read l)).mapError .text

/-- Loads problems up to the first that cannot be loaded. -/
def loadAll (files : Files m) : List Location → m (Except LoadError (List Problem))
  | [] => return .ok []
  | l :: rest => do
    match ← load files l with
    | .error e => return .error e
    | .ok p => return (← loadAll files rest).map (p :: ·)

/-- Walks down to `l`, which is to be written, unless a file stands where a directory should or a name is
too long. The directory of `l` is made in one go if the one above it is there, and otherwise directory by
directory down to the long name; the error names what was to be made. -/
def approach (files : Files m) (l : Location) : (above : Location) → (below : List String) →
    m (Except FileError Unit)
  | _, [] => return .ok ()
  | above, part :: rest => do
    let parent : Location := l.dropLast
    let kind ← files.kind above
    if kind = .file then
      return .error (if above = parent then .exists_ parent.text else .notDirectory parent.text)
    else if Location.fits part then approach files l (above ++ [part]) rest
    else
      files.makeDirectory above
      return .error <| .nameTooLong <|
        if rest = [] then l.text
        else if kind = .directory then parent.text
        else Location.text (above ++ [part])

/-- Writes a problem file, and the directories that it is to stand in. A path that is too long is refused when the
directory is made, or else when the file is. The text is made in between. -/
def save (files : Files m) (l : Location) (p : Problem) : m (Except SaveError Unit) := do
  let parent : Location := l.dropLast
  if Location.pathLimit ≤ parent.text.utf8ByteSize then return .error (.file (.nameTooLong parent.text))
  else match ← approach files l [] l with
  | .error e => return .error (.file e)
  | .ok () =>
    if !p.toValue.isWritable then
      files.makeDirectory parent
      return .error (.digits .tooMany)
    else if Location.pathLimit ≤ l.text.utf8ByteSize then
      files.makeDirectory parent
      return .error (.file (.nameTooLong l.text))
    else if (← files.kind l) = .directory then return .error (.file (.isDirectory l.text))
    else
      files.write l (p.toText files.format)
      return .ok ()

end Problem
end RunoffAudit
