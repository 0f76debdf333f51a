import ComponentCompiler.Ast.Basic

namespace ComponentCompiler.Ast

def snippetLimit : Nat := 60

def snippetChar (c : Char) : List Char :=
  if c = '\n' then ['\\', 'n']
  else if c = '\r' then ['\\', 'r']
  else if c = '\t' then ['\\', 't']
  else [c]

def snippet (text : String) : String :=
  let cs := text.toList.flatMap snippetChar
  if cs.length ≤ snippetLimit then
    String.ofList cs
  else
    String.ofList (cs.take snippetLimit) ++ "..."

def detail? (ast : Ast) (source : String) (id : NodeId) : NodeKind → Option String
  | .identifier | .number | .taggedString => some (snippet (ast.slice id source))
  | .declaration d => some (ast.sliceOption d.name source)
  | .instance_ i => some (ast.dotted i.name source ++ if i.isRoot then ", root" else "")
  | .importStatement d =>
    let path := ast.dotted d.path source
    some (d.localName.elim path fun name => path ++ " as " ++ ast.slice name source)
  | .variableList keyword => some keyword.word
  | .call true => some "super"
  | _ => none

def outlineLine (ast : Ast) (source : String) (depth : Nat) (id : NodeId) (n : Node) : String :=
  String.ofList (List.replicate (2 * depth) ' ') ++ n.kind.typeName ++
    (ast.detail? source id n.kind).elim "" (fun d => " (" ++ d ++ ")") ++ n.span.render ++ "\n"

def outlineLines (ast : Ast) (source : String) : Nat → Nat → NodeId → List String
  | 0, _, _ => []
  | levels + 1, depth, id =>
    match ast.node? id with
    | none => []
    | some n =>
      ast.outlineLine source depth id n ::
        n.children.flatMap (ast.outlineLines source levels (depth + 1))

def outline (ast : Ast) (source : String) : String :=
  String.join (ast.outlineLines source (ast.size + 1) 0 rootId)

end ComponentCompiler.Ast
