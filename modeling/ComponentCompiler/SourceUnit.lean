import ComponentCompiler.Ast.Build
import ComponentCompiler.Cst.Table
import ComponentCompiler.ImportTypes.Collect
import ComponentCompiler.ModulePath
import ComponentCompiler.Script.Edits

namespace ComponentCompiler

inductive ExportKind where
  /-- A component declaration. -/
  | component
  /-- A root instance with a name. -/
  | element
  deriving Repr, DecidableEq

structure Export where
  name : String
  kind : ExportKind
  deriving Repr, DecidableEq

structure SourceUnit where
  name : String
  source : String
  ast : Ast
  config : Config
  importTypes : ImportTypes
  /-- The path of the module of each import statement, where it is known. -/
  importPaths : List (Option String)

namespace SourceUnit

def build (name source : String) (root : Cst.Tree) (config : Config) :
    Except CompileError SourceUnit := do
  let ast ← Ast.build root name
  return {
    name, source, ast, config
    importTypes := ast.importTypes source config.scope
    importPaths := ast.imports.map fun _ => none }

def exported? (u : SourceUnit) (id : NodeId) : Option (NodeId × ExportKind) :=
  match u.ast.kind? id with
  | some (.declaration d) => d.name.map fun name => (name, .component)
  | some (.instance_ i) => i.boundName.map fun name => (name, .element)
  | _ => none

/-- What is named `default` is exported under the name of the unit. -/
def export? (u : SourceUnit) (id : NodeId) : Option Export :=
  (u.exported? id).bind fun (nameId, kind) =>
    let written := u.ast.slice nameId u.source
    let name := if written = "default" then u.name else written
    if name = "" then none else some ⟨name, kind⟩

def exports (u : SourceUnit) : List Export :=
  u.ast.exports.filterMap u.export?

def import? (u : SourceUnit) (id : NodeId) : Option Import :=
  match u.ast.kind? id with
  | some (.importStatement d) => some {
      uri := u.ast.dotted d.path u.source
      localName := u.ast.sliceOption d.localName u.source
      isRelative := d.isRelative }
  | _ => none

def imports (u : SourceUnit) : List Import :=
  u.ast.imports.filterMap u.import?

def resolveImportType? (u : SourceUnit) (qualifier name path : String) : Option SourceUnit :=
  (u.importTypes.resolve? qualifier name path).map fun importTypes => { u with importTypes }

def resolveImport? (u : SourceUnit) (index : Nat) (path : String) : Option SourceUnit :=
  if index < u.importPaths.length then
    some { u with importPaths := u.importPaths.set index (some path) }
  else
    none

def scriptInput (u : SourceUnit) : ScriptInput where
  ast := u.ast
  source := u.source
  unitName := u.name
  config := u.config.script
  importTypes := some u.importTypes
  importPaths := u.importPaths

def edits (u : SourceUnit) : List Edit :=
  u.scriptInput.edits

def script (u : SourceUnit) : Except CompileError String :=
  u.scriptInput.script

end SourceUnit

/-- The script of a unit on its own: what it needs from other units stays unresolved. -/
def compile (name source : String) (root : Cst.Tree) (config : Config) :
    Except CompileError String := do
  (← SourceUnit.build name source root config).script

end ComponentCompiler
