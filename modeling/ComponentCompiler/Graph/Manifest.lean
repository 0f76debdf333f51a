import ComponentCompiler.Graph.Dependency
import ComponentCompiler.Json.Printer

namespace ComponentCompiler

structure ModuleRecord where
  importId : String
  units : List Nat
  deriving Repr, DecidableEq

structure ImportRecord where
  entry : Import
  /-- The import id of the module the import is bound to. -/
  module : Option String
  deriving Repr, DecidableEq

structure UnitRecord where
  id : Nat
  name : String
  module : String
  file : String
  state : UnitState
  exports : List Export
  imports : List ImportRecord
  deriving Repr, DecidableEq

structure Manifest where
  modules : List ModuleRecord
  units : List UnitRecord
  /-- From importers to exporters. -/
  edges : List (Nat × Nat)
  deriving Repr, DecidableEq

namespace ModuleGraph

def ordinal? (g : ModuleGraph) (id : UnitId) : Option Nat :=
  g.unitIds.idxOf? id

def importIdOf (g : ModuleGraph) (id : ModuleId) : String :=
  (g.module? id).elim "" (·.importId)

def unitRecord (g : ModuleGraph) (id : Nat) (u : ModuleUnit) : UnitRecord where
  id := id
  name := u.name
  module := g.importIdOf u.module
  file := u.targetFileName
  state := u.state
  exports := u.exports
  imports := u.imports.map fun i => { entry := i.entry, module := i.module.map g.importIdOf }

def edgeRecord? (g : ModuleGraph) (e : UnitId × UnitId) : Option (Nat × Nat) := do
  return (← g.ordinal? e.1, ← g.ordinal? e.2)

def manifest (g : ModuleGraph) : Manifest where
  modules := g.registry.entries.map fun m =>
    { importId := m.importId, units := m.units.filterMap g.ordinal? }
  units := g.units.zipIdx.map fun ((_, u), id) => g.unitRecord id u
  edges := g.sortedEdges.filterMap g.edgeRecord?

end ModuleGraph

def UnitState.name : UnitState → String
  | initialized => "initialized"
  | parsed => "parsed"
  | compiled => "compiled"

def ExportKind.name : ExportKind → String
  | component => "component"
  | element => "element"

def Export.toJson (e : Export) : Json :=
  .record [("name", .text e.name), ("kind", .text e.kind.name)]

def ImportRecord.toJson (i : ImportRecord) : Json :=
  .record ([("uri", .text i.entry.uri)] ++
    (if i.entry.localName = "" then [] else [("alias", .text i.entry.localName)]) ++
    [("is_relative", .bool i.entry.isRelative), ("module", .option .text i.module)])

def ModuleRecord.toJson (m : ModuleRecord) : Json :=
  .record [("import_id", .text m.importId), ("units", .naturals m.units)]

def UnitRecord.toJson (u : UnitRecord) : Json :=
  .record [
    ("id", .natural u.id),
    ("name", .text u.name),
    ("module", .text u.module),
    ("file", .text u.file),
    ("state", .text u.state.name),
    ("exports", .list (u.exports.map Export.toJson)),
    ("imports", .list (u.imports.map ImportRecord.toJson))]

def edgeJson (e : Nat × Nat) : Json :=
  .record [("src", .natural e.1), ("dst", .natural e.2)]

namespace Manifest

def toJson (m : Manifest) : Json :=
  .record [
    ("modules", .list (m.modules.map ModuleRecord.toJson)),
    ("units", .list (m.units.map UnitRecord.toJson)),
    ("edges", .list (m.edges.map edgeJson))]

def render (m : Manifest) : String :=
  m.toJson.pretty ++ "\n"

end Manifest

end ComponentCompiler
