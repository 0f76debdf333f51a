import ComponentCompiler.Script.Initializer
import ComponentCompiler.TaggedText

namespace ComponentCompiler.ScriptInput

def constructorStart (s : ScriptInput) (call : String) (depth : Nat) : String :=
  s.line depth call ++ s.line depth "this.__initialize()"

/-- The body of a constructor without its braces. A call of the base constructor among its
statements comes first and what stands behind the call follows; without one it is added. The body
is taken to start below `2 ^ 63`, so that there is a place behind its brace. -/
def constructorBody (s : ScriptInput) (convert : Conversion) (f : FunctionData) (depth : Nat) :
    String :=
  match f.superCall, f.body with
  | some call, some body =>
    s.constructorStart (s.text call) depth ++
      s.renderRange convert ⟨(s.ast.span call).stop, (s.ast.span body).stop - 1⟩
        (s.ast.children body) 0
  | none, some body =>
    s.constructorStart "super()" depth ++
      s.renderRange convert ⟨(s.ast.span body).start + 1, (s.ast.span body).stop - 1⟩
        (s.ast.children body) 0
  | _, none => s.constructorStart "super()" depth

def constructorText (s : ScriptInput) (convert : Conversion) (ctor : Option NodeId) (depth : Nat) :
    String :=
  match (ctor.bind s.ast.kind?).bind NodeKind.function? with
  | none =>
    s.line depth "constructor()\x7b" ++ s.constructorStart "super()" (depth + 1) ++
      s.line depth "\x7d" ++ "\n"
  | some f =>
    s.indent depth ++ "constructor" ++ f.paramsNode.elim "()" s.text ++ "\x7b\n" ++
      s.constructorBody convert f (depth + 1) ++ "\n" ++ s.line depth "\x7d" ++ "\n"

def methodText (s : ScriptInput) (convert : Conversion) (depth : Nat) (id : NodeId) : String :=
  match s.ast.kind? id with
  | some (.callable .method _) => s.indent depth ++ s.renderChildren convert id ++ "\n"
  | some (.callable .typedFunction f) =>
    s.indent depth ++ s.textOption f.name ++ "(" ++ s.paramNames f.params ++ ")" ++
      s.renderBody convert f ++ "\n\n"
  | _ => ""

def baseName (s : ScriptInput) (d : DeclarationData) : String :=
  if d.heritage.isEmpty then s.config.defaultBase else s.dotted d.heritage

def classText (s : ScriptInput) (convert : Conversion) (id : NodeId) (d : DeclarationData)
    (depth : Nat) : String :=
  s.indent depth ++ (if s.ast.parent? id = some Ast.rootId then "\nexport " else "") ++
    "class " ++ s.publicName (s.textOption d.name) ++ " extends " ++ s.baseName d ++ "\x7b\n\n" ++
    s.constructorText convert d.ctor (depth + 1) ++
    s.line (depth + 1) "__initialize()\x7b" ++
    s.declarationHead d.members d.id (depth + 2) ++
    s.initializerBody convert d.members d.body (depth + 2) ++
    s.line (depth + 1) "\x7d" ++ "\n" ++
    String.join (d.members.functions.map (s.methodText convert (depth + 1))) ++
    s.indent depth ++ "\x7d"

def functionParams (s : ScriptInput) (form : Callable) (f : FunctionData) : String :=
  let listed := "(" ++ s.paramNames f.params ++ ")"
  match form with
  | .method => f.paramsNode.elim listed s.text
  | _ => listed

def functionText (s : ScriptInput) (convert : Conversion) (depth : Nat) (id : NodeId) : String :=
  match s.ast.kind? id with
  | some (.callable form f) =>
    s.line depth ("this." ++ s.textOption f.name ++ " = function" ++ s.functionParams form f ++
      s.renderBody convert f)
  | _ => ""

def isBody (s : ScriptInput) (id : Option NodeId) : Bool :=
  id.any fun b => s.ast.isKind b (· == .body)

/-- An instance in the body of a component, or the value of a property there, has that component as
its parent. -/
def hasEnclosingParent (s : ScriptInput) (id : NodeId) : Bool :=
  let parent := s.ast.parent? id
  let grandparent := parent.bind s.ast.parent?
  s.isBody parent ||
    (grandparent.any (fun g => s.ast.isKind g NodeKind.isProperty) &&
      s.isBody (grandparent.bind s.ast.parent?))

/-- The object that an instance sets up: the one already constructed under its id, or a new one. -/
def instanceTarget (s : ScriptInput) (convert : Conversion) (i : InstanceData) : String :=
  match i.id, i.isRoot with
  | some id, false => s.text id
  | _, _ => "new " ++ s.dotted i.name ++ i.arguments.elim "()" (s.renderChildren convert)

def instanceText (s : ScriptInput) (convert : Conversion) (id : NodeId) (i : InstanceData)
    (depth : Nat) : String :=
  (if i.isRoot then
    i.boundName.elim "" fun name => "export let " ++ s.publicName (s.text name) ++ " = "
  else "") ++
    s.indent depth ++ "(function(parent)\x7b\n" ++
    s.line (depth + 1) "this.setParent(parent)" ++
    s.instanceHead i (depth + 1) ++
    s.initializerBody convert i.members i.body (depth + 1) ++
    String.join (i.members.functions.map (s.functionText convert (depth + 1))) ++
    s.line (depth + 1) "return this" ++
    s.indent depth ++ "\x7d.bind(" ++ s.instanceTarget convert i ++ ")(" ++
    (if s.hasEnclosingParent id then "this" else "null") ++ "))"

def taggedText (s : ScriptInput) (t : TaggedData) (depth : Nat) : String :=
  let content := TaggedText.escape (TaggedText.stripDelimiters (s.textOption t.string))
  s.indent depth ++ "(function(parent)\x7b\n" ++
    s.line (depth + 1) "this.setParent(parent)" ++
    s.line (depth + 1) "return this" ++
    s.indent depth ++ "\x7d.bind(new " ++ s.textOption t.tag ++ "(\"" ++ content ++ "\"))(this))"

end ComponentCompiler.ScriptInput
