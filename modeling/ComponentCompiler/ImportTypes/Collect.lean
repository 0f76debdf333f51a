import ComponentCompiler.Ast.Scoping
import ComponentCompiler.ImportTypes.Basic

namespace ComponentCompiler.Ast

def importAliases (ast : Ast) (source : String) : List String :=
  ast.imports.filterMap fun i =>
    match ast.kind? i with
    | some (.importStatement d) => d.localName.map (ast.slice · source)
    | _ => none

def secondOf? (head : NodeId) : List NodeId → Option NodeId
  | first :: second :: _ => if first = head then some second else none
  | _ => none

/-- The segment behind `ident` where it heads a base type, a member expression or the type of an
instance. -/
def qualifiedSymbol? (ast : Ast) (ident : NodeId) : Option NodeId := do
  let parent ← ast.parent? ident
  match ← ast.kind? parent with
  | .heritage | .member => secondOf? ident (ast.children parent)
  | .instance_ i => secondOf? ident i.name
  | _ => none

/-- The qualifier and the name that an undeclared reference asks for. An alias on its own asks for
nothing. -/
def neededSymbol? (ast : Ast) (source : String) (aliases : List String) (ident : NodeId) :
    Option (String × String) :=
  let name := ast.slice ident source
  if aliases.contains name then
    (ast.qualifiedSymbol? ident).map fun symbol => (name, ast.slice symbol source)
  else
    some ("", name)

def externalReferences (ast : Ast) (source : String) (config : ScopeConfig) : List NodeId :=
  ast.exports.flatMap fun export_ =>
    (ast.descendants export_).flatMap (ast.undeclared source config)

def importTypes (ast : Ast) (source : String) (config : ScopeConfig) : ImportTypes :=
  ((ast.externalReferences source config).filterMap
    (ast.neededSymbol? source (ast.importAliases source))).foldl
      (fun t needed => t.add needed.1 needed.2) {}

end ComponentCompiler.Ast
