import ComponentCompiler.Graph.Basic
import ComponentCompiler.Graph.Search

namespace ComponentCompiler.ModuleGraph

/-- The units that `id` imports from, the newest edge first. -/
def next (g : ModuleGraph) (id : UnitId) : List UnitId :=
  (g.edges.filter fun e => e.1 == id).map (·.2)

/-- Enough for a search that enters no unit twice. -/
def searchFuel (g : ModuleGraph) : Nat :=
  2 * g.edges.length + 2 * g.slots.size + 2

def path? (g : ModuleGraph) (start goal : UnitId) : Option (List UnitId) :=
  Search.path? g.next g.searchFuel start goal

def nameOf (g : ModuleGraph) (id : UnitId) : String :=
  (g.unit? id).elim "" (·.name)

/-- Whether the edge is new. Nothing happens for an edge to itself and for one that is there. -/
def addDependency (g : ModuleGraph) (importer exporter : UnitId) :
    Except GraphError (Bool × ModuleGraph) := do
  let _ ← g.requireUnit importer
  let _ ← g.requireUnit exporter
  if importer = exporter ∨ g.edges.contains (importer, exporter) then
    return (false, g)
  match g.path? exporter importer with
  | some back => throw (.dependencyCycle ((importer :: back).map g.nameOf))
  | none => return (true, { g with edges := (importer, exporter) :: g.edges })

def edgeLe (a b : UnitId × UnitId) : Bool :=
  a.1 < b.1 || (a.1 == b.1 && a.2 ≤ b.2)

def sortedEdges (g : ModuleGraph) : List (UnitId × UnitId) :=
  g.edges.mergeSort edgeLe

def dependencies (g : ModuleGraph) (id : UnitId) : List UnitId :=
  (g.next id).mergeSort

def dependents (g : ModuleGraph) (id : UnitId) : List UnitId :=
  ((g.edges.filter fun e => e.2 == id).map (·.1)).mergeSort

/-- The units in the order a depth-first search leaves them, along the oldest edges first. -/
def finishOrder (g : ModuleGraph) : List UnitId :=
  let ids := g.unitIds
  (Search.finish (fun id => (g.next id).reverse) (g.searchFuel + ids.length) ids {}).left

def isOrdered (order : List UnitId) (e : UnitId × UnitId) : Bool :=
  order.idxOf e.2 < order.idxOf e.1

def compileOrder (g : ModuleGraph) : Except GraphError (List UnitId) :=
  let order := g.finishOrder
  match g.edges.find? fun e => !isOrdered order e with
  | some e => .error (.dependencyCycle [g.nameOf e.1])
  | none => .ok order

end ComponentCompiler.ModuleGraph
