import ComponentCompiler.Text.Blank
import ComponentCompiler.Text.Quoted

namespace ComponentCompiler

structure ScopeConfig where
  /-- Names that count as declared everywhere. -/
  builtinNames : List String :=
    ["this", "parent", "Element", "Container", "import", "vlog", "console"]
  deriving Repr, DecidableEq

structure ScriptConfig where
  /-- The class a component extends when it names no base. -/
  defaultBase : String := "Element"
  /-- The object whose methods register properties, events and default content. -/
  runtimeObject : String := "Element"
  /-- The path written for what no module provides. -/
  unresolvedSentinel : String := "__UNRESOLVED__"
  indentWidth : Nat := 4
  /-- The object that loads modules. -/
  loaderObject : String := "imports"
  deriving Repr, DecidableEq

structure ModuleConfig where
  sourceExtension : String := "lv"
  targetExtension : String := "js"
  deriving Repr, DecidableEq

structure Config where
  scope : ScopeConfig := {}
  script : ScriptConfig := {}
  modules : ModuleConfig := {}
  deriving Repr, DecidableEq

inductive ConfigFault where
  | blankName (key : String)
  | zeroIndent
  | blankBuiltin (name : String)
  deriving Repr, DecidableEq

namespace ConfigFault

def message : ConfigFault → String
  | blankName key => s!"`{key}` must not be empty"
  | zeroIndent => "`codegen.indent_width` must be greater than 0"
  | blankBuiltin name =>
    "`scope.builtin_names` contains an empty entry: " ++ Text.quoted name

end ConfigFault

def ScopeConfig.isBuiltin (c : ScopeConfig) (name : String) : Bool :=
  c.builtinNames.contains name

namespace ModuleConfig

def targetFileName (c : ModuleConfig) (unit : String) : String :=
  unit ++ "." ++ c.sourceExtension ++ "." ++ c.targetExtension

def dropTail? (tail text : List Char) : Option (List Char) :=
  if tail.length ≤ text.length ∧ text.drop (text.length - tail.length) = tail then
    some (text.take (text.length - tail.length))
  else
    none

/-- A file name without the source extension, or whole when it has none. -/
def unitName (c : ModuleConfig) (fileName : String) : String :=
  match dropTail? ('.' :: c.sourceExtension.toList) fileName.toList with
  | some stem => String.ofList stem
  | none => fileName

end ModuleConfig

namespace Config

/-- The settings that must hold more than white space, in the order they are checked. -/
def namedTexts (c : Config) : List (String × String) :=
  [("codegen.default_base", c.script.defaultBase),
   ("codegen.runtime_object", c.script.runtimeObject),
   ("codegen.unresolved_sentinel", c.script.unresolvedSentinel),
   ("codegen.loader_object", c.script.loaderObject),
   ("modules.source_extension", c.modules.sourceExtension),
   ("modules.target_extension", c.modules.targetExtension)]

def fault? (c : Config) : Option ConfigFault :=
  match c.namedTexts.find? fun (_, text) => Text.isBlankText text with
  | some (key, _) => some (.blankName key)
  | none =>
    if c.script.indentWidth = 0 then
      some .zeroIndent
    else
      (c.scope.builtinNames.find? Text.isBlankText).map .blankBuiltin

end Config

end ComponentCompiler
