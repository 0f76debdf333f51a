import ComponentCompiler.Dictionary

namespace ComponentCompiler

abbrev UnitId := Nat

abbrev ModuleId := Nat

structure ModuleEntry where
  /-- The dotted id that imports name the module by. -/
  importId : String
  units : List UnitId := []
  deriving Repr, DecidableEq

structure Registry where
  modules : Array (Option ModuleEntry) := #[]
  index : Dictionary ModuleId := {}
  deriving Repr, DecidableEq

namespace Registry

def get? (r : Registry) (id : ModuleId) : Option ModuleEntry :=
  (r.modules[id]?).join

def find? (r : Registry) (importId : String) : Option ModuleId :=
  r.index.get? importId

def add? (r : Registry) (importId : String) : Option (ModuleId × Registry) :=
  if r.index.contains importId then
    none
  else
    some (r.modules.size, {
      modules := r.modules.push (some { importId })
      index := r.index.insert importId r.modules.size })

def remove? (r : Registry) (id : ModuleId) : Option (ModuleEntry × Registry) :=
  (r.get? id).map fun m =>
    (m, { modules := r.modules.modify id fun _ => none, index := r.index.erase m.importId })

def addUnit (r : Registry) (id : ModuleId) (unit : UnitId) : Registry :=
  { r with modules := r.modules.modify id fun m =>
      m.map fun m => { m with units := m.units ++ [unit] } }

def entries (r : Registry) : List ModuleEntry :=
  r.modules.toList.filterMap id

def size (r : Registry) : Nat :=
  r.index.size

def isEmpty (r : Registry) : Bool :=
  r.index.isEmpty

end Registry

end ComponentCompiler
