import ComponentCompiler.Ast.Basic
import ComponentCompiler.Config

namespace ComponentCompiler.Ast

def scopesFrom (ast : Ast) : Nat → NodeId → List NodeId
  | 0, _ => []
  | steps + 1, start =>
    match ast.scopeOwner? start with
    | none => []
    | some owner =>
      owner :: match ast.parent? owner with
        | none => []
        | some p => ast.scopesFrom steps p

def enclosingScopes (ast : Ast) (start : NodeId) : List NodeId :=
  ast.scopesFrom (ast.size + 1) start

def declares (ast : Ast) (source name : String) (owner : NodeId) : Bool :=
  (ast.scope? owner).any fun s => s.declarations.any fun d => ast.slice d source == name

def isDeclared (ast : Ast) (source : String) (config : ScopeConfig) (name : String)
    (start : NodeId) : Bool :=
  config.isBuiltin name || (ast.enclosingScopes start).any (ast.declares source name)

def undeclared (ast : Ast) (source : String) (config : ScopeConfig) (owner : NodeId) :
    List NodeId :=
  ((ast.scope? owner).elim [] (·.used)).filter fun ident =>
    !ast.isDeclared source config (ast.slice ident source) ident

def leftmostWithin (ast : Ast) : Nat → NodeId → Option NodeId
  | 0, _ => none
  | depth + 1, id =>
    match ast.kind? id with
    | some .identifier => some id
    | some .member => (ast.children id).head?.bind (ast.leftmostWithin depth)
    | _ => none

def leftmostIdentifier? (ast : Ast) (id : NodeId) : Option NodeId :=
  ast.leftmostWithin (ast.size + 1) id

/-- The member expression starts with a name declared between it and the property `prop`: a
variable or a parameter of the value. -/
def isLocalBinding (ast : Ast) (source : String) (member prop : NodeId) : Bool :=
  match ast.leftmostIdentifier? member with
  | none => false
  | some ident =>
    ((ast.ancestors member).takeWhile (· != prop)).any
      (ast.declares source (ast.slice ident source))

end ComponentCompiler.Ast
