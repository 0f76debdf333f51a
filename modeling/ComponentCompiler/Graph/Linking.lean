import ComponentCompiler.Graph.Basic

namespace ComponentCompiler.ModuleGraph

def importsOf (u : ModuleUnit) (uri : String) : List Nat :=
  (u.imports.zipIdx.filter fun (i, _) => i.entry.uri == uri).map (·.2)

def bindUnit (uri : String) (module : ModuleId) (importId : String) (u : ModuleUnit) : ModuleUnit :=
  { u with
    imports := u.imports.map fun i =>
      if i.entry.uri = uri then { i with module := some module } else i
    source := (importsOf u uri).foldl
      (fun source index => (source.resolveImport? index importId).getD source) u.source }

/-- The number of import statements that were bound. -/
def bindImport (g : ModuleGraph) (unit : UnitId) (uri : String) (module : ModuleId) :
    Except GraphError (Nat × ModuleGraph) := do
  let m ← g.requireModule module
  let u ← g.requireUnit unit
  return ((importsOf u uri).length, g.modifyUnit unit (bindUnit uri module m.importId))

/-- Binds the import statements with the uri of `i` to the module that `i` names. The uris without
a module are collected. -/
def linkImport (unit : UnitId) (importer : String) (state : List String × ModuleGraph)
    (i : Import) : Except GraphError (List String × ModuleGraph) := do
  let (missing, g) := state
  match g.registry.find? (ModulePath.target importer i) with
  | none => return (missing ++ [i.uri], g)
  | some module =>
    let (_, g) ← g.bindImport unit i.uri module
    return (missing, g)

def linkImports (g : ModuleGraph) (unit : UnitId) :
    Except GraphError (List String × ModuleGraph) := do
  let u ← g.requireUnit unit
  let m ← g.requireModule u.module
  (u.imports.map (·.entry)).foldlM (linkImport unit m.importId) ([], g)

end ComponentCompiler.ModuleGraph
