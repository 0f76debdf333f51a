import ComponentCompiler.Graph.Dependency

namespace ComponentCompiler.ModuleGraph

structure Hit where
  exporter : UnitId
  path : String
  deriving Repr, DecidableEq

structure ResolveSummary where
  resolved : Nat := 0
  /-- The symbols that nothing exports, as they are written. -/
  unresolved : List String := []
  deriving Repr, DecidableEq

def ownExporter (g : ModuleGraph) (u : ModuleUnit) (t : ImportType) :
    Except GraphError (Option Hit) :=
  if t.qualifier = "" then
    match g.findExport? u.module t.name with
    | none => .ok none
    | some exporter => do
      let file := (← g.requireUnit exporter).targetFileName
      return some { exporter, path := "./" ++ file }
  else
    .ok none

def importedExporter (g : ModuleGraph) (importer name : String) (i : BoundImport) :
    Except GraphError (Option Hit) :=
  match i.module.bind fun module => (g.findExport? module name).map fun k => (module, k) with
  | none => .ok none
  | some (module, exporter) => do
    let target ← g.requireModule module
    let file := (← g.requireUnit exporter).targetFileName
    return some {
      exporter
      path := ModulePath.filePath importer target.importId file i.entry.isRelative }

/-- Plain names are looked for in the unit's own module first, then every name in the modules of
the import statements whose local name qualifies it. -/
def findExporter (g : ModuleGraph) (id : UnitId) (t : ImportType) :
    Except GraphError (Option Hit) := do
  let u ← g.requireUnit id
  match ← g.ownExporter u t with
  | some hit => return some hit
  | none =>
    let importer ← g.requireModule u.module
    (u.imports.filter fun i => i.entry.localName == t.qualifier).findSomeM?
      (g.importedExporter importer.importId t.name)

def recordPath (t : ImportType) (path : String) (u : ModuleUnit) : ModuleUnit :=
  { u with source := (u.source.resolveImportType? t.qualifier t.name path).getD u.source }

def resolveEntries (id : UnitId) : List ImportType → ResolveSummary → ModuleGraph →
    Except GraphError ResolveSummary × ModuleGraph
  | [], summary, g => (.ok summary, g)
  | t :: rest, summary, g =>
    match g.findExporter id t with
    | .error e => (.error e, g)
    | .ok none =>
      resolveEntries id rest { summary with unresolved := summary.unresolved ++ [t.written] } g
    | .ok (some hit) =>
      match g.addDependency id hit.exporter with
      | .error e => (.error e, g)
      | .ok (_, g) =>
        resolveEntries id rest { summary with resolved := summary.resolved + 1 }
          (g.modifyUnit id (recordPath t hit.path))

def markParsed (u : ModuleUnit) : ModuleUnit :=
  if u.state = .initialized then { u with state := .parsed } else u

/-- Resolves the symbols a unit needs. A cycle ends the pass; what was resolved before it stays. -/
def resolveTypes (g : ModuleGraph) (id : UnitId) :
    Except GraphError ResolveSummary × ModuleGraph :=
  match g.unit? id with
  | none => (.error (.unknownUnit id), g)
  | some u =>
    match resolveEntries id u.source.importTypes.entries {} g with
    | (.error e, g) => (.error e, g)
    | (.ok summary, g) => (.ok summary, g.modifyUnit id markParsed)

def ensureResolved (g : ModuleGraph) (id : UnitId) : Except GraphError Unit × ModuleGraph :=
  match g.unit? id with
  | none => (.error (.unknownUnit id), g)
  | some u =>
    if u.state = .initialized then
      match g.resolveTypes id with
      | (.error e, g) => (.error e, g)
      | (.ok _, g) => (.ok (), g)
    else
      (.ok (), g)

def setOutput (text : String) (u : ModuleUnit) : ModuleUnit :=
  { u with output := some text, state := .compiled }

def compile (g : ModuleGraph) (id : UnitId) : Except GraphError String × ModuleGraph :=
  match g.ensureResolved id with
  | (.error e, g) => (.error e, g)
  | (.ok _, g) =>
    match g.unit? id with
    | none => (.error (.unknownUnit id), g)
    | some u =>
      match u.source.script with
      | .error e => (.error (.compile e), g)
      | .ok text => (.ok text, g.modifyUnit id (setOutput text))

def forEach {α : Type} (f : ModuleGraph → UnitId → Except GraphError α × ModuleGraph) :
    List UnitId → ModuleGraph → Except GraphError Unit × ModuleGraph
  | [], g => (.ok (), g)
  | id :: rest, g =>
    match f g id with
    | (.error e, g) => (.error e, g)
    | (.ok _, g) => forEach f rest g

/-- Resolves all units, then compiles each behind the units it imports from. -/
def compileAll (g : ModuleGraph) : Except GraphError (List UnitId) × ModuleGraph :=
  match forEach ensureResolved g.unitIds g with
  | (.error e, g) => (.error e, g)
  | (.ok _, g) =>
    match g.compileOrder with
    | .error e => (.error e, g)
    | .ok order =>
      match forEach compile order g with
      | (.error e, g) => (.error e, g)
      | (.ok _, g) => (.ok order, g)

end ComponentCompiler.ModuleGraph
