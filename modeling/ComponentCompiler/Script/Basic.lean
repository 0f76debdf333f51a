import ComponentCompiler.Ast.Basic
import ComponentCompiler.Edit
import ComponentCompiler.ImportTypes.Basic

namespace ComponentCompiler

structure ScriptInput where
  ast : Ast
  source : String
  unitName : String
  config : ScriptConfig := {}
  /-- The symbols that the head of the script imports. -/
  importTypes : Option ImportTypes := none
  /-- The module path of each import statement. -/
  importPaths : List (Option String) := []

/-- The edits of the nodes from one on, given the depth of its text. -/
abbrev Conversion := NodeId → Nat → List Edit

namespace ScriptInput

def text (s : ScriptInput) (id : NodeId) : String :=
  s.ast.slice id s.source

def textOption (s : ScriptInput) (id : Option NodeId) : String :=
  s.ast.sliceOption id s.source

def dotted (s : ScriptInput) (ids : List NodeId) : String :=
  s.ast.dotted ids s.source

/-- What is named `default` takes the name of the unit. -/
def publicName (s : ScriptInput) (name : String) : String :=
  if name = "default" then s.unitName else name

def indent (s : ScriptInput) (depth : Nat) : String :=
  String.ofList (List.replicate (depth * s.config.indentWidth) ' ')

def line (s : ScriptInput) (depth : Nat) (text : String) : String :=
  s.indent depth ++ text ++ "\n"

def renderRange (s : ScriptInput) (convert : Conversion) (range : Span) (roots : List NodeId)
    (depth : Nat) : String :=
  Edit.splice s.source range (roots.flatMap fun root => convert root depth)

def renderChildren (s : ScriptInput) (convert : Conversion) (id : NodeId) : String :=
  s.renderRange convert (s.ast.span id) (s.ast.children id) 0

def renderNode (s : ScriptInput) (convert : Conversion) (id : NodeId) (depth : Nat) : String :=
  s.renderRange convert (s.ast.span id) [id] depth

def renderBody (s : ScriptInput) (convert : Conversion) (f : FunctionData) : String :=
  f.body.elim "\x7b\x7d" (s.renderChildren convert)

def paramNames (s : ScriptInput) (params : List Parameter) : String :=
  ",".intercalate (params.map fun p => s.text p.name)

end ScriptInput

end ComponentCompiler
