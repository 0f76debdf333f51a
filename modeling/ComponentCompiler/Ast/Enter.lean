import ComponentCompiler.Ast.Rule

namespace ComponentCompiler.Ast

open Cst (Tree)

def childrenOfKind (t : Tree) (k : Cst.Kind) : List Tree :=
  t.children.filter fun c => c.kind == some k

def alternate {α : Type} : List α → List α
  | [] => []
  | [a] => [a]
  | a :: _ :: rest => a :: alternate rest

def nextIds (ast : Ast) (n : Nat) : List NodeId :=
  List.range' ast.size n

/-- A bare statement under the program, or a place whose nearest scope is the script scope. -/
def isRootPlace (ast : Ast) (parent : NodeId) : Bool :=
  parent == rootId ||
    (ast.isKind parent (· == .expressionStatement) && ast.parent? parent == some rootId) ||
    (ast.scopeOwner? parent).any fun owner => ast.isKind owner (· == .scriptScope)

def enterDeclaration (ast : Ast) (parent : NodeId) (t : Tree) : Ast :=
  let id := ast.size
  let ast := ast.add (.declaration {}) t.span parent
  if parent = rootId then { ast with exports := ast.exports ++ [id] } else ast

def enterInstance (ast : Ast) (parent : NodeId) (t : Tree) : Ast :=
  let id := ast.size
  let isRoot := ast.isRootPlace parent
  let ast := ast.add (.instance_ { isRoot }) t.span parent
  if isRoot then { ast with exports := ast.exports ++ [id] } else ast

def addImportPart (importId : NodeId) (state : Ast × ImportData) (t : Tree) : Ast × ImportData :=
  let (ast, data) := state
  match t.kind with
  | some .importAs =>
    match t.childOfKind? 1 .identifier with
    | some name =>
      (ast.add .identifier name.span importId, { data with localName := some ast.size })
    | none => state
  | some .dot => (ast, { data with isRelative := true })
  | some .importPath =>
    let path := ast.size
    let ast := ast.add .importPath t.span importId
    let segments := childrenOfKind t .identifier
    (ast.addAll .identifier (segments.map Tree.span) path,
      { data with path := ast.nextIds segments.length })
  | _ => state

def enterImport (ast : Ast) (parent : NodeId) (t : Tree) : Ast :=
  let id := ast.size
  let ast := ast.add (.importStatement {}) t.span parent
  let ast := { ast with imports := ast.imports ++ [id] }
  let (ast, data) := t.children.foldl (addImportPart id) (ast, {})
  ast.modifyKind id fun _ => .importStatement data

/-- The keyword in the first slot; without one a declaration counts as `var`. -/
def keywordOf (t : Tree) : Keyword :=
  match (t.child? 0).bind Tree.kind with
  | some .letWord => .let_
  | some .constWord => .const
  | _ => .var

def enterHeritage (ast : Ast) (owner : NodeId) (t : Tree) : Ast :=
  let id := ast.size
  let ast := ast.add .heritage t.span owner
  let segments := childrenOfKind t .identifier
  let ids := ast.nextIds segments.length
  let ast := ast.addAll .identifier (segments.map Tree.span) id
  let ast := match ids with
    | first :: _ => ast.use owner first
    | [] => ast
  ast.modifyKind owner (.mapDeclaration fun d => { d with heritage := ids })

def enterExplicitId (ast : Ast) (owner : NodeId) (t : Tree) : Ast :=
  match t.childOfKind? 1 .identifier with
  | none => ast
  | some ident =>
    let id := ast.size
    ((ast.add .identifier ident.span owner).modifyKind owner (.withId id)).declare owner id

def enterIdAssignment (ast : Ast) (parent : NodeId) (t : Tree) : Ast :=
  match ast.bodyOwner? parent, t.childOfKind? 2 .identifier with
  | some owner, some ident =>
    let id := ast.size
    ((ast.add .identifier ident.span owner).modifyKind owner (.withId id)).declare owner id
  | _, _ => ast

def enterBoundName (ast : Ast) (owner : NodeId) (t : Tree) : Ast :=
  match t.childOfKind? 1 .identifier with
  | none => ast
  | some ident =>
    (ast.add .identifier ident.span owner).modifyKind owner
      (.mapInstance fun i => { i with boundName := some ast.size })

/-- Of several names the first one counts, but each is declared. -/
def enterDeclarationName (ast : Ast) (owner outer : NodeId) (t : Tree) : Ast :=
  let id := ast.size
  ((ast.add .identifier t.span owner).modifyKind owner
    (.mapDeclaration fun d => { d with name := d.name <|> some id })).declare outer id

def enterTypeSegment (ast : Ast) (owner : NodeId) (t : Tree) : Ast :=
  let id := ast.size
  let isFirst := match ast.kind? owner with
    | some (.instance_ i) => i.name.isEmpty
    | _ => false
  let ast := (ast.add .identifier t.span owner).modifyKind owner
    (.mapInstance fun i => { i with name := i.name ++ [id] })
  if isFirst then ast.use owner id else ast

def enterTag (ast : Ast) (owner : NodeId) (t : Tree) : Ast :=
  let id := ast.size
  ((ast.add .identifier t.span owner).use owner id).modifyKind owner
    (.mapTagged fun d => { d with tag := d.tag <|> some id })

def enterTagText (ast : Ast) (owner : NodeId) (t : Tree) : Ast :=
  (ast.add .taggedString t.span owner).modifyKind owner
    (.mapTagged fun d => { d with string := some ast.size })

def enterPropertyType (ast : Ast) (owner : NodeId) (t : Tree) : Ast :=
  (ast.add .identifier t.span owner).modifyKind owner
    (.mapProperty fun p => { p with typeName := p.typeName <|> some ast.size })

def enterPropertyName (ast : Ast) (owner : NodeId) (t : Tree) : Ast :=
  (ast.add .identifier t.span owner).modifyKind owner
    (.mapProperty fun p => { p with name := p.name <|> some ast.size })

def enterAssignmentPath (ast : Ast) (owner : NodeId) (t : Tree) : Ast :=
  let segments := alternate t.children
  (ast.addAll .identifier (segments.map Tree.span) owner).modifyKind owner
    (.mapAssignment fun a => { a with path := ast.nextIds segments.length })

def enterCallableName (ast : Ast) (owner : NodeId) (t : Tree) : Ast :=
  if ((ast.kind? owner).bind NodeKind.function?).any fun f => f.name.isSome then
    ast
  else
    (ast.add .identifier t.span owner).modifyKind owner
      (.mapFunction fun f => { f with name := some ast.size })

/-- A parameter is an identifier, or a pattern named by its first identifier. -/
def parameterName? (t : Tree) : Option Tree :=
  if t.kind == some .identifier then some t else (childrenOfKind t .identifier).head?

def addParameters (ast : Ast) (owner : NodeId) (t : Tree) : List Parameter × Ast :=
  let list := ast.size
  let ast := ast.add .formalParameters t.span owner
  let names := t.namedChildren.filterMap parameterName?
  ((ast.nextIds names.length).map fun name => { name },
    ast.addAll .identifier (names.map Tree.span) list)

def setParameters (ast : Ast) (owner list : NodeId) (params : List Parameter) : Ast :=
  ast.modifyKind owner (.mapFunction fun f => { f with paramsNode := some list, params })

def enterParameters (ast : Ast) (owner : NodeId) (t : Tree) : Ast :=
  let (params, grown) := ast.addParameters owner t
  grown.setParameters owner ast.size params

/-- Pairs of neighbours; none at all when the number of items is odd. -/
def pairUp {α : Type} (items : List α) : List (α × α) :=
  if items.length % 2 = 0 then (alternate items).zip (alternate items.tail) else []

def typedPairs (t : Tree) : List (Tree × Tree) :=
  match childrenOfKind t .formalTypeParameter with
  | [] => pairUp t.namedChildren
  | params => params.filterMap fun p =>
    match p.child? 0, p.child? 1 with
    | some type, some name => some (type, name)
    | _, _ => none

def addTypedParameter (list : NodeId) (state : List Parameter × Ast) (pair : Tree × Tree) :
    List Parameter × Ast :=
  let (params, ast) := state
  (params ++ [{ typeName := some ast.size, name := ast.size + 1 }],
    (ast.add .identifier pair.1.span list).add .identifier pair.2.span list)

def enterTypedParameters (ast : Ast) (owner : NodeId) (t : Tree) : Ast :=
  let list := ast.size
  let ast := ast.add .formalParameters t.span owner
  let (params, ast) := (typedPairs t).foldl (addTypedParameter list) ([], ast)
  ast.setParameters owner list params

/-- The body's scope declares the parameters before anything in it is visited. -/
def enterCallableBody (ast : Ast) (owner : NodeId) (t : Tree) : Ast :=
  let id := ast.size
  let params := ((ast.kind? owner).bind NodeKind.function?).elim [] (·.params)
  ((ast.add .block t.span owner).declareAll id (params.map (·.name))).modifyKind owner
    (.mapFunction fun f => { f with body := some id })

def enterArrowParameters (ast : Ast) (owner : NodeId) (t : Tree) : Ast :=
  let (params, grown) := ast.addParameters owner t
  (grown.declareAll owner (params.map (·.name))).setParameters owner ast.size params

def enterArrowParameter (ast : Ast) (owner : NodeId) (t : Tree) : Ast :=
  let id := ast.size
  ((ast.add .identifier t.span owner).declare owner id).modifyKind owner
    (.mapFunction fun f => { f with params := f.params ++ [{ name := id }] })

def constructorOf? (ast : Ast) (statement : NodeId) : Option NodeId := do
  guard (ast.isKind statement (· == .expressionStatement))
  let block ← ast.parent? statement
  guard (ast.isKind block (· == .block))
  let ctor ← ast.parent? block
  guard (ast.isKind ctor fun | .callable .ctor _ => true | _ => false)
  return ctor

/-- Marks the call and, as a statement of a constructor, makes it the constructor's. -/
def enterSuperCall (ast : Ast) (owner statement : NodeId) : Ast :=
  let ast := ast.modifyKind owner fun
    | .call _ => .call true
    | k => k
  match ast.constructorOf? statement with
  | none => ast
  | some ctor =>
    ast.modifyKind ctor (.mapFunction fun f => { f with superCall := f.superCall <|> some owner })

def enter (rule : Rule) (owner : NodeId) (t : Tree) (ast : Ast) : Ast :=
  match rule with
  | .skip | .pass => ast
  | .leaf kind | .wrap kind => ast.add kind t.span owner
  | .importStatement => ast.enterImport owner t
  | .declaration | .value .component => ast.enterDeclaration owner t
  | .instance_ => ast.enterInstance owner t
  | .tagged => ast.add (.tagged {}) t.span owner
  | .property => ast.add (.property {}) t.span owner
  | .assignment => ast.add (.assignment {}) t.span owner
  | .idAssignment => ast.enterIdAssignment owner t
  | .member => ast.add .member t.span owner
  | .callable form => ast.add (.callable form {}) t.span owner
  | .arrow => ast.add (.callable .arrow {}) t.span owner
  | .call => ast.add (.call false) t.span owner
  | .newExpression => ast.add .newExpression t.span owner
  | .classDeclaration => ast.add .classDeclaration t.span owner
  | .variableList => ast.add (.variableList (keywordOf t)) t.span owner
  | .declarator => ast.add .declarator t.span owner
  | .declarationName outer => ast.enterDeclarationName owner outer t
  | .heritage => ast.enterHeritage owner t
  | .explicitId => ast.enterExplicitId owner t
  | .boundName => ast.enterBoundName owner t
  | .body => ast.add .body t.span owner
  | .typeSegment => ast.enterTypeSegment owner t
  | .argumentList => ast.add .arguments t.span owner
  | .tag => ast.enterTag owner t
  | .tagText => ast.enterTagText owner t
  | .propertyType => ast.enterPropertyType owner t
  | .propertyName => ast.enterPropertyName owner t
  | .assignmentPath => ast.enterAssignmentPath owner t
  | .value .expression => ast.add .bindableExpression t.span owner
  | .value .block => ast.add .block t.span owner
  | .callableName => ast.enterCallableName owner t
  | .parameters => ast.enterParameters owner t
  | .typedParameters => ast.enterTypedParameters owner t
  | .callableBody => ast.enterCallableBody owner t
  | .arrowParameters => ast.enterArrowParameters owner t
  | .arrowParameter => ast.enterArrowParameter owner t
  | .arrowBody => ast.add .block t.span owner
  | .superCall statement => ast.enterSuperCall owner statement
  | .declaredName => (ast.add .identifier t.span owner).declare owner ast.size
  | .reference => (ast.add .identifier t.span owner).use owner ast.size

end ComponentCompiler.Ast
