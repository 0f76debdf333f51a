import ComponentCompiler.Ast.Rule

namespace ComponentCompiler.Ast

/-- The component that constructs the instances with an id found under `start`: the nearest
declaration around, seen through its body, or the nearest root instance. -/
def exposingOwner? (ast : Ast) (start : NodeId) : Option NodeId :=
  (start :: ast.ancestors start).findSome? fun p =>
    match ast.kind? p with
    | some .body => (ast.parent? p).filter fun owner =>
      ast.isKind owner fun | .declaration _ => true | _ => false
    | some (.instance_ i) => if i.isRoot then some p else none
    | _ => none

def exposeIdComponent (ast : Ast) (parent inst id : NodeId) : Ast :=
  match ast.exposingOwner? parent with
  | none => ast
  | some owner =>
    ((ast.modifyKind owner
      (.mapMembers fun m => { m with idComponents := m.idComponents ++ [inst] })).modifyKind inst
        (.mapInstance fun i => { i with owner := some owner })).declare owner id

def addDefault (ast : Ast) (parent child : NodeId) : Ast :=
  ast.addMember parent fun m => { m with defaultSlot := m.defaultSlot ++ [child] }

/-- The id may come from a member of the body, so it is looked for at the end. -/
def leaveInstance (ast : Ast) (parent inst : NodeId) : Ast :=
  match ast.kind? inst with
  | some (.instance_ { id := some id, isRoot := false, .. }) =>
    ast.exposeIdComponent parent inst id
  | some (.instance_ { id := none, .. }) => ast.addDefault parent inst
  | _ => ast

/-- The property fed by what stands at `id`: the nearest one above, unless a member expression, a
call, a function or a class stands between. -/
def fedProperty? (ast : Ast) (id : NodeId) : Option NodeId :=
  ast.nearestAncestor? id fun k => k.stopsBinding || k.isProperty

/-- A leading identifier is a reference, and the expression is a binding of the property it feeds,
if it starts with an identifier or a member expression. -/
def leaveMember (ast : Ast) (id : NodeId) : Ast :=
  match (ast.children id).head? with
  | none => ast
  | some receiver =>
    let isIdentifier := ast.isKind receiver (· == .identifier)
    let isMember := ast.isKind receiver (· == .member)
    let ast := if isIdentifier then ast.use id receiver else ast
    if isIdentifier || isMember then
      match ast.fedProperty? id with
      | some target => ast.modifyKind target (.addBinding id)
      | none => ast
    else
      ast

def addToList (form : Callable) (id : NodeId) (m : Members) : Members :=
  match form with
  | .event => { m with events := m.events ++ [id] }
  | .listener => { m with listeners := m.listeners ++ [id] }
  | .method | .typedFunction => { m with functions := m.functions ++ [id] }
  | .function | .arrow | .ctor => m

/-- The last constructor of a declaration counts; the one it takes the place of is reported. -/
def keepConstructor (ast : Ast) (parent id : NodeId) : Ast :=
  match ast.bodyOwner? parent with
  | none => ast
  | some owner =>
    let previous := match ast.kind? owner with
      | some (.declaration d) => d.ctor
      | _ => none
    let ast := ast.modifyKind owner (.mapDeclaration fun d => { d with ctor := some id })
    match previous with
    | none => ast
    | some previous =>
      { ast with diagnostics := ast.diagnostics ++
          [.duplicateConstructor (ast.span owner) (ast.span previous)] }

def declareFunction (ast : Ast) (parent id : NodeId) : Ast :=
  match ((ast.kind? id).bind NodeKind.function?).bind (·.name) with
  | some name => ast.declare parent name
  | none => ast

def leaveCallable (ast : Ast) (form : Callable) (parent id : NodeId) : Ast :=
  let ast := ast.addMember parent (addToList form id)
  match form with
  | .function => ast.declareFunction parent id
  | .ctor => ast.keepConstructor parent id
  | _ => ast

def leaveClass (ast : Ast) (parent id : NodeId) : Ast :=
  match (ast.children id).find? fun c => ast.isKind c (· == .identifier) with
  | some name => ast.declare parent name
  | none => ast

def leaveArguments (ast : Ast) (owner id : NodeId) : Ast :=
  let idents := (ast.children id).filter fun c => ast.isKind c (· == .identifier)
  (idents.foldl (fun ast ident => ast.use id ident) ast).modifyKind owner
    (.mapInstance fun i => { i with arguments := some id })

def leave (rule : Rule) (owner id : NodeId) (ast : Ast) : Ast :=
  match rule with
  | .instance_ => ast.leaveInstance owner id
  | .tagged => ast.addDefault owner id
  | .property => ast.addMember owner fun m => { m with properties := m.properties ++ [id] }
  | .assignment => ast.addMember owner fun m => { m with assignments := m.assignments ++ [id] }
  | .member => ast.leaveMember id
  | .callable form => ast.leaveCallable form owner id
  | .classDeclaration => ast.leaveClass owner id
  | .body => ast.modifyKind owner (.withBody id)
  | .argumentList => ast.leaveArguments owner id
  | .value form => ast.modifyKind owner (.withValue ⟨form, id⟩)
  | .arrowBody => ast.modifyKind owner (.mapFunction fun f => { f with body := some id })
  | _ => ast

end ComponentCompiler.Ast
