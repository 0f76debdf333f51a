import ComponentCompiler.ImportTypes.Basic
import ComponentCompiler.Json.Decode

namespace ComponentCompiler

def ImportType.toJson (t : ImportType) : Json :=
  .record ([("name", .text t.name), ("namespace", .text t.qualifier)] ++
    t.resolvedPath.elim [] fun path => [("resolved_path", .text path)])

def ImportType.ofJson? (value : Json) : Option ImportType := do
  let fs ← value.fields? ["name", "namespace", "resolved_path"]
  return {
    name := ← fs.required "name" Json.text?
    qualifier := ← fs.required "namespace" Json.text?
    resolvedPath := ← fs.orElse "resolved_path" (Json.format.nullable Json.text?) none }

/-- A dictionary is a record; of a repeated key the last value counts. -/
def Dictionary.ofJson? {α : Type} (read : Json → Option α) : Json → Option (Dictionary α)
  | .record entries => do
    let values ← entries.mapM fun e => (read e.2).map fun value => (e.1, value)
    return Dictionary.ofList values
  | _ => none

def ImportTypes.ofJson? (value : Json) : Option ImportTypes := do
  let fs ← value.fields? ["namespaces"]
  return ⟨← fs.required "namespaces" (Dictionary.ofJson? (Dictionary.ofJson? ImportType.ofJson?))⟩

end ComponentCompiler
