import ComponentCompiler.Registry
import ComponentCompiler.SourceUnit

namespace ComponentCompiler

inductive UnitState where
  /-- The tree is built. -/
  | initialized
  /-- The symbols the unit needs are resolved. -/
  | parsed
  /-- The script is generated. -/
  | compiled
  deriving Repr, DecidableEq

structure BoundImport where
  entry : Import
  module : Option ModuleId := none
  deriving Repr, DecidableEq

structure ModuleUnit where
  module : ModuleId
  source : SourceUnit
  state : UnitState := .initialized
  exports : List Export
  imports : List BoundImport
  output : Option String := none

namespace ModuleUnit

def ofSource (module : ModuleId) (source : SourceUnit) : ModuleUnit :=
  { module, source, exports := source.exports
    imports := source.imports.map fun entry => { entry } }

def name (u : ModuleUnit) : String :=
  u.source.name

def exportsName (u : ModuleUnit) (name : String) : Bool :=
  u.exports.any fun e => e.name == name

def targetFileName (u : ModuleUnit) : String :=
  u.source.config.modules.targetFileName u.name

end ModuleUnit

inductive GraphError where
  /-- The edge would close a cycle; the names on it, the importing unit first and last. -/
  | dependencyCycle (path : List String)
  | unknownUnit (id : UnitId)
  | unknownModule (id : ModuleId)
  | duplicateModule (importId : String)
  | compile (e : CompileError)
  deriving Repr, DecidableEq

namespace GraphError

def message : GraphError → String
  | dependencyCycle path => "module file dependency cycle found: " ++ " -> ".intercalate path
  | unknownUnit id => s!"unknown unit: UnitId(NodeIndex({id}))"
  | unknownModule id => s!"unknown module: ModuleId({id})"
  | duplicateModule importId => "module already registered: " ++ importId
  | compile e => e.message

end GraphError

structure ModuleGraph where
  config : Config := {}
  registry : Registry := {}
  /-- A unit a slot; the slot of a removed unit is empty. -/
  slots : Array (Option ModuleUnit) := #[]
  /-- The empty slots, the one emptied last first. -/
  free : List UnitId := []
  /-- From importers to exporters, the newest edge first. -/
  edges : List (UnitId × UnitId) := []

namespace ModuleGraph

def unit? (g : ModuleGraph) (id : UnitId) : Option ModuleUnit :=
  (g.slots[id]?).join

def module? (g : ModuleGraph) (id : ModuleId) : Option ModuleEntry :=
  g.registry.get? id

def requireUnit (g : ModuleGraph) (id : UnitId) : Except GraphError ModuleUnit :=
  match g.unit? id with
  | some u => .ok u
  | none => .error (.unknownUnit id)

def requireModule (g : ModuleGraph) (id : ModuleId) : Except GraphError ModuleEntry :=
  match g.module? id with
  | some m => .ok m
  | none => .error (.unknownModule id)

def modifyUnit (g : ModuleGraph) (id : UnitId) (f : ModuleUnit → ModuleUnit) : ModuleGraph :=
  { g with slots := g.slots.modify id fun slot => slot.map f }

def units (g : ModuleGraph) : List (UnitId × ModuleUnit) :=
  g.slots.toList.zipIdx.filterMap fun (slot, id) => slot.map fun u => (id, u)

def unitIds (g : ModuleGraph) : List UnitId :=
  g.units.map (·.1)

def addModule (g : ModuleGraph) (importId : String) : Except GraphError (ModuleId × ModuleGraph) :=
  match g.registry.add? importId with
  | some (id, registry) => .ok (id, { g with registry })
  | none => .error (.duplicateModule importId)

/-- Puts a unit in the slot emptied last, or in a new one. -/
def place (g : ModuleGraph) (u : ModuleUnit) : UnitId × ModuleGraph :=
  match g.free with
  | id :: free => (id, { g with slots := g.slots.modify id fun _ => some u, free })
  | [] => (g.slots.size, { g with slots := g.slots.push (some u) })

def addUnit (g : ModuleGraph) (module : ModuleId) (fileName source : String) (root : Cst.Tree) :
    Except GraphError (UnitId × ModuleGraph) := do
  let _ ← g.requireModule module
  let unit ← (SourceUnit.build (g.config.modules.unitName fileName) source root
    g.config).mapError GraphError.compile
  let (id, g) := g.place (.ofSource module unit)
  return (id, { g with registry := g.registry.addUnit module id })

/-- Empties a slot and takes the edges of its unit out; nothing happens to a slot that is empty. -/
def removeUnit (g : ModuleGraph) (id : UnitId) : ModuleGraph :=
  match g.unit? id with
  | none => g
  | some _ =>
    { g with
      slots := g.slots.modify id fun _ => none
      free := id :: g.free
      edges := g.edges.filter fun e => e.1 != id && e.2 != id }

def unbind (module : ModuleId) (u : ModuleUnit) : ModuleUnit :=
  { u with imports := u.imports.map fun i =>
      if i.module = some module then { i with module := none } else i }

/-- Unloads a module: its units, their edges and the bindings to it. -/
def removeModule (g : ModuleGraph) (id : ModuleId) :
    Except GraphError (List UnitId × ModuleGraph) :=
  match g.registry.remove? id with
  | none => .error (.unknownModule id)
  | some (m, registry) =>
    let g := m.units.foldl removeUnit { g with registry }
    .ok (m.units, { g with slots := g.slots.map fun slot => slot.map (unbind id) })

def findExport? (g : ModuleGraph) (module : ModuleId) (name : String) : Option UnitId :=
  (g.module? module).bind fun m =>
    m.units.find? fun id => (g.unit? id).any fun u => u.exportsName name

end ModuleGraph

end ComponentCompiler
