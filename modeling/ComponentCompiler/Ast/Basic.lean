import ComponentCompiler.Ast.Kind

namespace ComponentCompiler

structure Node where
  kind : NodeKind
  span : Span
  parent : Option NodeId
  children : List NodeId := []
  scope : Option Scope := none
  deriving Repr, DecidableEq, Inhabited

inductive Diagnostic where
  /-- A body declares several constructors, and the last one counts. -/
  | duplicateConstructor (component ignored : Span)
  deriving Repr, DecidableEq

structure Ast where
  nodes : Array Node
  /-- Declarations and root instances, in source order. -/
  exports : List NodeId := []
  imports : List NodeId := []
  diagnostics : List Diagnostic := []
  deriving Repr, DecidableEq

namespace Ast

def rootId : NodeId := 0

def newNode (kind : NodeKind) (span : Span) (parent : Option NodeId) : Node :=
  { kind, span, parent, scope := if kind.bearsScope then some {} else none }

def ofSpan (span : Span) : Ast :=
  { nodes := #[newNode .program span none] }

/-- The number of nodes, which is the id of the node added next. -/
def size (ast : Ast) : Nat :=
  ast.nodes.size

def node? (ast : Ast) (id : NodeId) : Option Node :=
  ast.nodes[id]?

def modify (ast : Ast) (id : NodeId) (f : Node → Node) : Ast :=
  { ast with nodes := ast.nodes.modify id f }

def modifyKind (ast : Ast) (id : NodeId) (f : NodeKind → NodeKind) : Ast :=
  ast.modify id fun n => { n with kind := f n.kind }

def add (ast : Ast) (kind : NodeKind) (span : Span) (parent : NodeId) : Ast :=
  { ast with nodes := (ast.nodes.push (newNode kind span (some parent))).modify parent fun n =>
      { n with children := n.children ++ [ast.size] } }

def addAll (ast : Ast) (kind : NodeKind) (spans : List Span) (parent : NodeId) : Ast :=
  spans.foldl (fun ast span => ast.add kind span parent) ast

def kind? (ast : Ast) (id : NodeId) : Option NodeKind :=
  (ast.node? id).map (·.kind)

def isKind (ast : Ast) (id : NodeId) (p : NodeKind → Bool) : Bool :=
  (ast.kind? id).any p

def span (ast : Ast) (id : NodeId) : Span :=
  (ast.node? id).elim .empty (·.span)

def parent? (ast : Ast) (id : NodeId) : Option NodeId :=
  (ast.node? id).bind (·.parent)

def children (ast : Ast) (id : NodeId) : List NodeId :=
  (ast.node? id).elim [] (·.children)

def scope? (ast : Ast) (id : NodeId) : Option Scope :=
  (ast.node? id).bind (·.scope)

def parents (ast : Ast) : Nat → NodeId → List NodeId
  | 0, _ => []
  | steps + 1, id =>
    match ast.parent? id with
    | none => []
    | some p => p :: ast.parents steps p

def ancestors (ast : Ast) (id : NodeId) : List NodeId :=
  ast.parents (ast.size + 1) id

def nearestAncestor? (ast : Ast) (id : NodeId) (p : NodeKind → Bool) : Option NodeId :=
  (ast.ancestors id).find? fun a => ast.isKind a p

/-- The nearest node with a scope, `id` included. -/
def scopeOwner? (ast : Ast) (id : NodeId) : Option NodeId :=
  (id :: ast.ancestors id).find? fun a => (ast.scope? a).isSome

def modifyScope (ast : Ast) (start : NodeId) (f : Scope → Scope) : Ast :=
  match ast.scopeOwner? start with
  | none => ast
  | some owner => ast.modify owner fun n => { n with scope := n.scope.map f }

def declare (ast : Ast) (start ident : NodeId) : Ast :=
  ast.modifyScope start fun s => { s with declarations := s.declarations ++ [ident] }

def declareAll (ast : Ast) (start : NodeId) (idents : List NodeId) : Ast :=
  idents.foldl (fun ast ident => ast.declare start ident) ast

def use (ast : Ast) (start ident : NodeId) : Ast :=
  ast.modifyScope start fun s => { s with used := s.used ++ [ident] }

def slice (ast : Ast) (id : NodeId) (source : String) : String :=
  (ast.span id).slice source

def sliceOption (ast : Ast) (id : Option NodeId) (source : String) : String :=
  id.elim "" (ast.slice · source)

def dotted (ast : Ast) (ids : List NodeId) (source : String) : String :=
  ".".intercalate (ids.map (ast.slice · source))

/-- `id` and the nodes below it down to `depth` levels, each before its children. -/
def below (ast : Ast) : Nat → NodeId → List NodeId
  | 0, id => [id]
  | depth + 1, id => id :: (ast.children id).flatMap (ast.below depth)

def descendants (ast : Ast) (id : NodeId) : List NodeId :=
  ast.below ast.size id

def bodyOwner? (ast : Ast) (body : NodeId) : Option NodeId :=
  if ast.isKind body (· == .body) then
    (ast.parent? body).filter fun owner => ast.isKind owner fun k => k.members?.isSome
  else
    none

def addMember (ast : Ast) (body : NodeId) (f : Members → Members) : Ast :=
  match ast.bodyOwner? body with
  | none => ast
  | some owner => ast.modifyKind owner (.mapMembers f)

end Ast

end ComponentCompiler
