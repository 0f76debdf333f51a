import ComponentCompiler.Config.Document
import ComponentCompiler.Graph.Basic
import ComponentCompiler.Yaml.Decode

namespace ComponentCompiler

structure UnitFiles where
  source : String
  /-- The file of the unit's concrete tree. -/
  tree : String
  deriving Repr, DecidableEq

structure ModuleFiles where
  importId : String
  units : List UnitFiles := []
  deriving Repr, DecidableEq

structure Project where
  outDir : String := "build"
  /-- The project's own configuration. -/
  compiler : Option Config := none
  modules : List ModuleFiles
  deriving Repr, DecidableEq

inductive BuildError where
  | unreadable (path : String)
  | unparsable (path : String)
  /-- A node of the tree lists one that it stands below. -/
  | cyclic (path : String)
  | noModules (path : String)
  | config (e : CompileError)
  /-- The unit of a source file cannot be built. -/
  | unit (path : String) (e : GraphError)
  | graph (e : GraphError)
  | noDirectory (path : String)
  | unwritten (path : String)
  | uncreated (path : String)
  /-- A unit without a number stands in the way of the drawing. -/
  | undrawn (path : String)
  deriving Repr, DecidableEq

namespace BuildError

def message : BuildError → String
  | unreadable path => "read " ++ path
  | unparsable path => "parse " ++ path
  | cyclic path => "unfold " ++ path
  | noModules path => path ++ " declares no modules"
  | config e => e.message
  | unit path _ => "build " ++ path
  | graph e => e.message
  | noDirectory path => "create_dir_all " ++ path
  | unwritten path => "write " ++ path
  | uncreated path => "create " ++ path
  | undrawn path => "draw " ++ path

def cause? : BuildError → Option GraphError
  | config e => some (.compile e)
  | unit _ e => some e
  | graph e => some e
  | _ => none

end BuildError

variable {δ : Type}

def UnitFiles.read (f : Format δ) (d : δ) : Option UnitFiles := do
  let fs ← f.fields? ["source", "cst"] d
  return { source := ← fs.required "source" f.text?, tree := ← fs.required "cst" f.text? }

def ModuleFiles.read (f : Format δ) (d : δ) : Option ModuleFiles := do
  let fs ← f.fields? ["import_id", "units"] d
  return {
    importId := ← fs.required "import_id" f.text?
    units := ← fs.orElse "units" (f.list (UnitFiles.read f)) [] }

namespace Project

def read (f : Format δ) (d : δ) : Option Project := do
  let fs ← f.fields? ["out_dir", "compiler", "modules"] d
  return {
    outDir := ← fs.orElse "out_dir" f.text? "build"
    compiler := ← fs.orElse "compiler" (f.nullable (Config.read f)) none
    modules := ← fs.required "modules" (f.list (ModuleFiles.read f)) }

def parse? (text : String) : Option Project :=
  (Yaml.parse? text).bind (read Yaml.format)

def unitPaths (p : Project) : List String :=
  p.modules.flatMap fun m => m.units.flatMap fun u => [u.source, u.tree]

end Project

end ComponentCompiler
