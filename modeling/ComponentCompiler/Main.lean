import ComponentCompiler.Project.Build

namespace ComponentCompiler.CommandLine

def usage : String :=
  "usage: elements-build <project.yaml>"

def configVariable : String :=
  "ELEMENTS_CONFIG"

def fileText? (path : String) : IO (Option String) := do
  try
    return some (← IO.FS.readFile path)
  catch _ =>
    return none

def readAll (paths : List String) : IO (List (String × String)) :=
  paths.filterMapM fun path => do
    return (← fileText? path).map fun text => (path, text)

def inputPaths (path : String) (text named : Option String) : List String :=
  let project := text.bind Project.parse?
  let units := project.elim [] fun p => p.unitPaths.map (Volume.join (Volume.parent path))
  path :: units ++ (named.map fun name => String.ofList (Text.trim name.toList)).toList

def writeText (volume : Volume) (path : String) : IO Unit := do
  let directory := Volume.parent path
  if directory ≠ "" then IO.FS.createDirAll directory
  IO.FS.writeFile path ((volume.textAt? path).getD "")

def run (path : String) : IO Unit := do
  let named ← IO.getEnv configVariable
  let files ← readAll (inputPaths path (← fileText? path) named)
  let volume := (Volume.ofFiles? files).getD {}
  match Project.build volume path named with
  | .error e => throw (IO.userError e.message)
  | .ok (report, volume) =>
    (report.files ++ [report.manifest, report.drawing]).forM (writeText volume)
    IO.println report.toJson.pretty

end ComponentCompiler.CommandLine

def main (args : List String) : IO Unit :=
  match args with
  | path :: _ => ComponentCompiler.CommandLine.run path
  | [] => throw (IO.userError ComponentCompiler.CommandLine.usage)
