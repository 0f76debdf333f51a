import ComponentCompiler.Script.Basic

namespace ComponentCompiler.ScriptInput

def importPath (s : ScriptInput) (t : ImportType) : String :=
  t.resolvedPath.getD s.config.unresolvedSentinel

def mangledName (qualifier name : String) : String :=
  "__" ++ qualifier ++ "__" ++ name

def plainImport (s : ScriptInput) (t : ImportType) : String :=
  "import \x7b" ++ t.name ++ "\x7d from '" ++ s.importPath t ++ "'\n"

def mangledImport (s : ScriptInput) (qualifier : String) (t : ImportType) : String :=
  "import \x7b" ++ t.name ++ " as " ++ mangledName qualifier t.name ++ "\x7d from '" ++
    s.importPath t ++ "'\n"

def qualifierObject (qualifier : String) (symbols : List ImportType) : String :=
  "let " ++ qualifier ++ " = \x7b" ++
    ", ".intercalate (symbols.map fun t => t.name ++ ":" ++ mangledName qualifier t.name) ++
    "\x7d\n"

def importGroup (s : ScriptInput) (qualifier : String) (symbols : List ImportType) : String :=
  if symbols.isEmpty then
    ""
  else if qualifier = "" then
    String.join (symbols.map s.plainImport)
  else
    String.join (symbols.map (s.mangledImport qualifier)) ++ qualifierObject qualifier symbols

def header? (s : ScriptInput) : Option String :=
  (s.importTypes.filter fun t => !t.isEmpty).map fun t =>
    String.join (t.groups.entries.map fun (qualifier, symbols) =>
      s.importGroup qualifier symbols.values) ++ "\n"

/-- An alias that the head provides leaves nothing behind. -/
def importText (s : ScriptInput) (index : Nat) (d : ImportData) : String :=
  let path := (s.importPaths[index]?.getD none).getD s.config.unresolvedSentinel
  match d.localName.map s.text with
  | some name =>
    if s.importTypes.any fun t => t.hasQualifier name then
      ""
    else
      "var " ++ name ++ " = " ++ s.config.loaderObject ++ ".requireAs('" ++ path ++ "')\n"
  | none => s.config.loaderObject ++ ".require('" ++ path ++ "')\n"

def importEdit? (s : ScriptInput) (index : Nat) (id : NodeId) : Option Edit :=
  match s.ast.kind? id with
  | some (.importStatement d) => some ⟨s.ast.span id, s.importText index d⟩
  | _ => none

def importEdits (s : ScriptInput) : List Edit :=
  s.ast.imports.zipIdx.filterMap fun (id, index) => s.importEdit? index id

end ComponentCompiler.ScriptInput
