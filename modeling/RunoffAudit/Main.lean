import RunoffAudit.CommandLine.Run

/-! # The program

Connects the command line to the real files and streams. Nothing is decided here.
-/
namespace RunoffAudit.CommandLine

def realKind (l : Location) : IO EntryKind := do
  try
    let path ← IO.FS.realPath l.text
    return if ← path.isDir then .directory else .file
  catch _ => return .missing

def realNames (l : Location) : IO (List String) := do
  let path ← IO.FS.realPath l.text
  return (← path.readDir).toList.map (·.fileName)

def realMakeDirectory (l : Location) : IO Unit := IO.FS.createDirAll l.text

def realWrite (l : Location) (text : String) : IO Unit := do
  realMakeDirectory l.dropLast
  IO.FS.writeFile l.text text

def realFiles : Files IO :=
  ⟨.yaml, realKind, realNames, fun l => IO.FS.readFile l.text, realMakeDirectory, realWrite⟩

def usageText : List String :=
  ["Usage: irvcert [--version] [--verbose] COMMAND",
    "Commands: verify TARGETS..., trim FILE, explain FILE, order FILE"]

def report (r : Run) : IO UInt32 := do
  r.stdout.forM IO.println
  r.stderr.forM IO.eprintln
  match r.ending with
  | .exit _ => pure ()
  | .usage => usageText.forM IO.eprintln
  | .help => usageText.forM IO.println
  | .failed f => IO.eprintln f.message
  return r.code.toUInt32

end RunoffAudit.CommandLine

open RunoffAudit CommandLine in
def main (args : List String) : IO UInt32 := do
  let here : Location := Location.parts (← IO.currentDir).toString
  report (← run realFiles here args)
