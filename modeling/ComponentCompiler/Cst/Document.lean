import ComponentCompiler.Cst.Table
import ComponentCompiler.Json.Decode
import ComponentCompiler.Json.Printer
import ComponentCompiler.Json.Reader

namespace ComponentCompiler.Cst

def Point.toJson (p : Point) : Json :=
  .record [("row", .natural p.row), ("column", .natural p.column)]

def Point.ofJson? (value : Json) : Option Point := do
  let fs ← value.fields? ["row", "column"]
  return { row := ← fs.required "row" Json.size?, column := ← fs.required "column" Json.size? }

def Entry.toJson (e : Entry) : Json :=
  .record [
    ("kind", .text e.head.kind),
    ("start_byte", .natural e.head.span.start),
    ("end_byte", .natural e.head.span.stop),
    ("start_point", e.head.point.toJson),
    ("named", .bool e.head.named),
    ("children", .naturals e.children)]

/-- A place, the mark of a named node and the children may be left out. -/
def Entry.ofJson? (value : Json) : Option Entry := do
  let fs ← value.fields? ["kind", "start_byte", "end_byte", "start_point", "named", "children"]
  let kind ← fs.required "kind" Json.text?
  let start ← fs.required "start_byte" Json.size?
  let stop ← fs.required "end_byte" Json.size?
  let point ← fs.orElse "start_point" Point.ofJson? {}
  let named ← fs.orElse "named" Json.format.truth? true
  let children ← fs.orElse "children" (Json.format.list Json.size?) []
  return ⟨{ kind, span := ⟨start, stop⟩, point, named }, children⟩

namespace Table

def toJson (t : Table) : Json :=
  .record [("nodes", .list (t.entries.toList.map Entry.toJson)), ("root", .natural t.root)]

def ofJson? (value : Json) : Option Table := do
  let fs ← value.fields? ["nodes", "root"]
  let entries ← fs.required "nodes" (Json.format.list Entry.ofJson?)
  let root ← fs.required "root" Json.size?
  return { entries := entries.toArray, root }

def render (t : Table) : String :=
  t.toJson.pretty

def parse? (text : String) : Option Table :=
  (Json.parse? text).bind ofJson?

end Table

end ComponentCompiler.Cst
