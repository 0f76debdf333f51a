import ComponentCompiler.Json.Decode
import ComponentCompiler.ModulePath

namespace ComponentCompiler

def Import.toJson (i : Import) : Json :=
  .record [
    ("uri", .text i.uri),
    ("alias", .text i.localName),
    ("is_relative", .bool i.isRelative)]

def Import.ofJson? (value : Json) : Option Import := do
  let fs ← value.fields? ["uri", "alias", "is_relative"]
  return {
    uri := ← fs.required "uri" Json.text?
    localName := ← fs.orElse "alias" Json.text? ""
    isRelative := ← fs.orElse "is_relative" Json.format.truth? false }

end ComponentCompiler
