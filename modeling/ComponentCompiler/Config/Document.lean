import ComponentCompiler.Config
import ComponentCompiler.Json.Decode

namespace ComponentCompiler

variable {δ : Type}

def ScopeConfig.read (f : Format δ) (d : δ) : Option ScopeConfig := do
  let fs ← f.fields? ["builtin_names"] d
  let base : ScopeConfig := {}
  return { builtinNames := ← fs.orElse "builtin_names" (f.list f.text?) base.builtinNames }

def ScriptConfig.read (f : Format δ) (d : δ) : Option ScriptConfig := do
  let fs ← f.fields?
    ["default_base", "runtime_object", "unresolved_sentinel", "indent_width", "loader_object"] d
  let base : ScriptConfig := {}
  return {
    defaultBase := ← fs.orElse "default_base" f.text? base.defaultBase
    runtimeObject := ← fs.orElse "runtime_object" f.text? base.runtimeObject
    unresolvedSentinel := ← fs.orElse "unresolved_sentinel" f.text? base.unresolvedSentinel
    indentWidth := ← fs.orElse "indent_width" f.size? base.indentWidth
    loaderObject := ← fs.orElse "loader_object" f.text? base.loaderObject }

def ModuleConfig.read (f : Format δ) (d : δ) : Option ModuleConfig := do
  let fs ← f.fields? ["source_extension", "target_extension"] d
  let base : ModuleConfig := {}
  return {
    sourceExtension := ← fs.orElse "source_extension" f.text? base.sourceExtension
    targetExtension := ← fs.orElse "target_extension" f.text? base.targetExtension }

namespace Config

def read (f : Format δ) (d : δ) : Option Config := do
  let fs ← f.fields? ["scope", "codegen", "modules"] d
  return {
    scope := ← fs.orElse "scope" (ScopeConfig.read f) {}
    script := ← fs.orElse "codegen" (ScriptConfig.read f) {}
    modules := ← fs.orElse "modules" (ModuleConfig.read f) {} }

def toJson (c : Config) : Json :=
  .record [
    ("scope", .record [("builtin_names", .texts c.scope.builtinNames)]),
    ("codegen", .record [
      ("default_base", .text c.script.defaultBase),
      ("runtime_object", .text c.script.runtimeObject),
      ("unresolved_sentinel", .text c.script.unresolvedSentinel),
      ("indent_width", .natural c.script.indentWidth),
      ("loader_object", .text c.script.loaderObject)]),
    ("modules", .record [
      ("source_extension", .text c.modules.sourceExtension),
      ("target_extension", .text c.modules.targetExtension)])]

end Config

end ComponentCompiler
