import ComponentCompiler.Config.Load
import ComponentCompiler.Cst.Document
import ComponentCompiler.Graph.Compilation
import ComponentCompiler.Graph.Drawing
import ComponentCompiler.Graph.Linking
import ComponentCompiler.Project.Basic
import ComponentCompiler.Volume

namespace ComponentCompiler

structure BuildReport where
  outDir : String
  /-- The scripts, in the order they were compiled. -/
  files : List String
  manifest : String
  drawing : String
  deriving Repr, DecidableEq

def BuildReport.toJson (r : BuildReport) : Json :=
  .record [
    ("out_dir", .text r.outDir),
    ("files", .texts r.files),
    ("manifest", .text r.manifest),
    ("graphml", .text r.drawing)]

namespace Project

def load (v : Volume) (path : String) : Except BuildError Project := do
  let some text := v.textAt? path | throw (.unreadable path)
  let some project := parse? text | throw (.unparsable path)
  if project.modules.isEmpty then throw (.noModules path)
  return project

/-- The configuration in the file named by the environment, or the default one. A blank name counts
as none. -/
def environmentConfig (v : Volume) (named : Option String) : Except CompileError Config :=
  match (named.map fun name => String.ofList (Text.trim name.toList)).filter (· ≠ "") with
  | none =>
    let config : Config := {}
    config.validate.map fun _ => config
  | some path =>
    match v.textAt? path with
    | none => .error .missingConfig
    | some text => Config.parse text

def config (p : Project) (v : Volume) (named : Option String) : Except BuildError Config :=
  (match p.compiler with
  | some config => config.validate.map fun _ => config
  | none => environmentConfig v named).mapError BuildError.config

def loadUnit (v : Volume) (root : String) (module : ModuleId) (g : ModuleGraph) (u : UnitFiles) :
    Except BuildError (UnitId × ModuleGraph) := do
  let sourcePath := Volume.join root u.source
  let some source := v.textAt? sourcePath | throw (.unreadable sourcePath)
  let treePath := Volume.join root u.tree
  let some treeText := v.textAt? treePath | throw (.unreadable treePath)
  let some table := Cst.Table.parse? treeText | throw (.unparsable treePath)
  let some tree := table.tree? | throw (.cyclic treePath)
  (g.addUnit module (Volume.fileName sourcePath) source tree).mapError (.unit sourcePath)

abbrev Loaded := List UnitId × ModuleGraph

def loadModule (v : Volume) (root : String) (loaded : Loaded) (m : ModuleFiles) :
    Except BuildError Loaded := do
  let (module, g) ← (loaded.2.addModule m.importId).mapError BuildError.graph
  m.units.foldlM (fun (ids, g) u => do
    let (id, g) ← loadUnit v root module g u
    return (ids ++ [id], g)) (loaded.1, g)

def loadModules (p : Project) (v : Volume) (root : String) (config : Config) :
    Except BuildError Loaded :=
  p.modules.foldlM (loadModule v root) ([], { config })

def compileUnits (loaded : Loaded) : Except BuildError (List UnitId × ModuleGraph) := do
  let g ← loaded.1.foldlM (fun g id => do
    return (← (g.linkImports id).mapError BuildError.graph).2) loaded.2
  match g.compileAll with
  | (.ok order, g) => return (order, g)
  | (.error e, _) => throw (.graph e)

/-- The directory of a module's scripts: one level for each part of its import id. -/
def moduleDirectory (importId : String) : String :=
  String.ofList (importId.toList.map fun c => if c = '.' then '/' else c)

def scriptDirectory (outDir : String) (g : ModuleGraph) (u : ModuleUnit) : String :=
  Volume.join outDir (moduleDirectory (g.importIdOf u.module))

def writeScript (outDir : String) (g : ModuleGraph) (written : List String × Volume)
    (id : UnitId) : Except BuildError (List String × Volume) := do
  let u ← (g.requireUnit id).mapError BuildError.graph
  let directory := scriptDirectory outDir g u
  let some v := written.2.createDirAll? directory | throw (.noDirectory directory)
  let path := Volume.join directory u.targetFileName
  let some v := v.write? path (u.output.getD "") | throw (.unwritten path)
  return (written.1 ++ [path], v)

def create (v : Volume) (path text : String) : Except BuildError Volume :=
  match v.write? path text with
  | some v => .ok v
  | none => .error (.uncreated path)

def writeAll (outDir : String) (g : ModuleGraph) (order : List UnitId) (v : Volume) :
    Except BuildError (BuildReport × Volume) := do
  let (files, v) ← order.foldlM (writeScript outDir g) ([], v)
  let manifest := Volume.join outDir "modules.json"
  let v ← create v manifest g.manifest.render
  let drawing := Volume.join outDir "modules.graphml"
  let some drawn := g.drawing? | throw (.undrawn drawing)
  let v ← create v drawing drawn
  return ({ outDir, files, manifest, drawing }, v)

/-- Builds the project in the file at `path`. `named` is the configuration file that the environment
names. Paths in the project file count from its directory. -/
def build (v : Volume) (path : String) (named : Option String) :
    Except BuildError (BuildReport × Volume) := do
  let project ← load v path
  let root := Volume.parent path
  let config ← project.config v named
  let (order, g) ← compileUnits (← project.loadModules v root config)
  writeAll (Volume.join root project.outDir) g order v

end Project

end ComponentCompiler
