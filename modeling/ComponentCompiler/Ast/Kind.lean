import ComponentCompiler.Span

namespace ComponentCompiler

abbrev NodeId := Nat

/-- The names a node introduces and the references made under it, in the order they were found. -/
structure Scope where
  declarations : List NodeId := []
  used : List NodeId := []
  deriving Repr, DecidableEq, Inhabited

inductive ValueForm where
  | expression
  | block
  | component
  deriving Repr, DecidableEq, Inhabited

structure PropertyValue where
  form : ValueForm
  node : NodeId
  deriving Repr, DecidableEq, Inhabited

structure Members where
  properties : List NodeId := []
  assignments : List NodeId := []
  events : List NodeId := []
  listeners : List NodeId := []
  functions : List NodeId := []
  /-- The nested instances that are reached by their id. -/
  idComponents : List NodeId := []
  /-- The nested instances and tagged texts without an id. -/
  defaultSlot : List NodeId := []
  deriving Repr, DecidableEq, Inhabited

structure DeclarationData where
  name : Option NodeId := none
  /-- The segments of the base type. -/
  heritage : List NodeId := []
  id : Option NodeId := none
  body : Option NodeId := none
  ctor : Option NodeId := none
  members : Members := {}
  deriving Repr, DecidableEq, Inhabited

structure InstanceData where
  /-- The segments of the type. -/
  name : List NodeId := []
  id : Option NodeId := none
  /-- The name the instance is exported under. -/
  boundName : Option NodeId := none
  arguments : Option NodeId := none
  body : Option NodeId := none
  isRoot : Bool := false
  /-- The component that constructs this instance under its id. -/
  owner : Option NodeId := none
  members : Members := {}
  deriving Repr, DecidableEq, Inhabited

structure PropertyData where
  typeName : Option NodeId := none
  name : Option NodeId := none
  value : Option PropertyValue := none
  /-- The member expressions whose change changes the value. -/
  bindings : List NodeId := []
  deriving Repr, DecidableEq, Inhabited

structure AssignmentData where
  path : List NodeId := []
  value : Option PropertyValue := none
  bindings : List NodeId := []
  deriving Repr, DecidableEq, Inhabited

structure Parameter where
  typeName : Option NodeId := none
  name : NodeId
  deriving Repr, DecidableEq, Inhabited

structure FunctionData where
  name : Option NodeId := none
  params : List Parameter := []
  paramsNode : Option NodeId := none
  body : Option NodeId := none
  /-- The first call of the base constructor among a constructor's statements. -/
  superCall : Option NodeId := none
  deriving Repr, DecidableEq, Inhabited

structure ImportData where
  path : List NodeId := []
  /-- The name the module is imported under. -/
  localName : Option NodeId := none
  isRelative : Bool := false
  deriving Repr, DecidableEq, Inhabited

structure TaggedData where
  tag : Option NodeId := none
  string : Option NodeId := none
  deriving Repr, DecidableEq, Inhabited

inductive Keyword where
  | var
  | let_
  | const
  deriving Repr, DecidableEq, Inhabited

def Keyword.word : Keyword → String
  | var => "var"
  | let_ => "let"
  | const => "const"

inductive Callable where
  | event
  | listener
  | method
  | typedFunction
  | function
  | arrow
  | ctor
  deriving Repr, DecidableEq, Inhabited

inductive NodeKind where
  | program
  | scriptScope
  | importStatement (data : ImportData)
  | importPath
  | identifier
  | declaration (data : DeclarationData)
  | heritage
  | body
  | instance_ (data : InstanceData)
  | property (data : PropertyData)
  | assignment (data : AssignmentData)
  | bindableExpression
  | block
  | expressionStatement
  | member
  | subscript
  | call (isSuper : Bool)
  | arguments
  | newExpression
  | returnStatement
  | object
  | number
  | formalParameters
  | callable (form : Callable) (data : FunctionData)
  | classDeclaration
  | tagged (data : TaggedData)
  | taggedString
  | variableList (keyword : Keyword)
  | declarator
  deriving Repr, DecidableEq, Inhabited

def Callable.typeName : Callable → String
  | event => "EventDeclaration"
  | listener => "ListenerDeclaration"
  | method => "MethodDefinition"
  | typedFunction => "TypedFunctionDeclaration"
  | function => "FunctionDeclaration"
  | arrow => "ArrowFunction"
  | ctor => "ConstructorDefinition"

namespace NodeKind

def typeName : NodeKind → String
  | program => "Program"
  | scriptScope => "ScriptScope"
  | importStatement _ => "Import"
  | importPath => "ImportPath"
  | identifier => "Identifier"
  | declaration _ => "ComponentDeclaration"
  | heritage => "ComponentHeritage"
  | body => "ComponentBody"
  | instance_ _ => "ComponentInstance"
  | property _ => "PropertyDeclaration"
  | assignment _ => "PropertyAssignment"
  | bindableExpression => "BindableExpression"
  | block => "StatementBlock"
  | expressionStatement => "ExpressionStatement"
  | member => "MemberExpression"
  | subscript => "SubscriptExpression"
  | call _ => "CallExpression"
  | arguments => "Arguments"
  | newExpression => "NewExpression"
  | returnStatement => "ReturnStatement"
  | object => "Object"
  | number => "Number"
  | formalParameters => "FormalParameters"
  | callable form _ => form.typeName
  | classDeclaration => "ClassDeclaration"
  | tagged _ => "TaggedComponent"
  | taggedString => "TaggedString"
  | variableList _ => "VariableDeclaration"
  | declarator => "VariableDeclarator"

def bearsScope : NodeKind → Bool
  | program | scriptScope | declaration _ | instance_ _ | block | callable .arrow _
  | classDeclaration => true
  | _ => false

/-- The kinds past which a member expression does not look for the property it feeds. -/
def stopsBinding : NodeKind → Bool
  | member | call _ | callable .function _ | callable .arrow _ | classDeclaration => true
  | _ => false

def isProperty : NodeKind → Bool
  | property _ | assignment _ => true
  | _ => false

def members? : NodeKind → Option Members
  | declaration d => some d.members
  | instance_ i => some i.members
  | _ => none

def function? : NodeKind → Option FunctionData
  | callable _ f => some f
  | _ => none

def componentId? : NodeKind → Option NodeId
  | declaration d => d.id
  | instance_ i => i.id
  | _ => none

def mapDeclaration (f : DeclarationData → DeclarationData) : NodeKind → NodeKind
  | declaration d => declaration (f d)
  | k => k

def mapInstance (f : InstanceData → InstanceData) : NodeKind → NodeKind
  | instance_ i => instance_ (f i)
  | k => k

def mapMembers (f : Members → Members) : NodeKind → NodeKind
  | declaration d => declaration { d with members := f d.members }
  | instance_ i => instance_ { i with members := f i.members }
  | k => k

def mapProperty (f : PropertyData → PropertyData) : NodeKind → NodeKind
  | property p => property (f p)
  | k => k

def mapAssignment (f : AssignmentData → AssignmentData) : NodeKind → NodeKind
  | assignment a => assignment (f a)
  | k => k

def mapFunction (f : FunctionData → FunctionData) : NodeKind → NodeKind
  | callable form d => callable form (f d)
  | k => k

def mapTagged (f : TaggedData → TaggedData) : NodeKind → NodeKind
  | tagged t => tagged (f t)
  | k => k

def withId (id : NodeId) : NodeKind → NodeKind
  | declaration d => declaration { d with id := some id }
  | instance_ i => instance_ { i with id := some id }
  | k => k

def withBody (id : NodeId) : NodeKind → NodeKind
  | declaration d => declaration { d with body := some id }
  | instance_ i => instance_ { i with body := some id }
  | k => k

def withValue (value : PropertyValue) : NodeKind → NodeKind
  | property p => property { p with value := some value }
  | assignment a => assignment { a with value := some value }
  | k => k

def addBinding (id : NodeId) : NodeKind → NodeKind
  | property p => property { p with bindings := p.bindings ++ [id] }
  | assignment a => assignment { a with bindings := a.bindings ++ [id] }
  | k => k

end NodeKind

end ComponentCompiler
