import ComponentCompiler.Script.Component
import ComponentCompiler.Script.Imports

namespace ComponentCompiler.ScriptInput

def isComponentUse : NodeKind → Bool
  | .instance_ _ | .tagged _ => true
  | _ => false

def holdsComponent (s : ScriptInput) (id : NodeId) : Bool :=
  (s.ast.descendants id).any fun d => s.ast.isKind d isComponentUse

def variablesText (s : ScriptInput) (convert : Conversion) (id : NodeId) (keyword : Keyword) :
    String :=
  let declarators := (s.ast.children id).filter fun d => s.ast.isKind d (· == .declarator)
  let terminated := (Text.trimEnd (s.text id).toList).getLast? = some ';'
  String.join (declarators.map fun d =>
      "\n" ++ keyword.word ++ " " ++ s.renderChildren convert d) ++
    (if terminated then "; " else "\n")

def replacement? (s : ScriptInput) (convert : Conversion) (id : NodeId) (depth : Nat) :
    Option String :=
  match s.ast.kind? id with
  | some (.declaration d) => some (s.classText convert id d depth)
  | some (.instance_ i) => some (s.instanceText convert id i depth)
  | some (.tagged t) => some (s.taggedText t depth)
  | some (.variableList keyword) =>
    if s.holdsComponent id then some (s.variablesText convert id keyword) else none
  | _ => none

def isImport : NodeKind → Bool
  | .importStatement _ => true
  | _ => false

/-- The edits of one node, given those of the nodes below it. Import statements have edits of their
own. -/
def convertNode (s : ScriptInput) (convert : Conversion) : Conversion := fun id depth =>
  match s.replacement? convert id depth with
  | some text => [⟨s.ast.span id, text⟩]
  | none =>
    if s.ast.isKind id isImport then
      []
    else
      (s.ast.children id).flatMap fun child => convert child depth

/-- The conversion of trees of at most `levels` levels. -/
def convertWithin (s : ScriptInput) : Nat → Conversion
  | 0 => fun _ _ => []
  | levels + 1 => s.convertNode (s.convertWithin levels)

def convert (s : ScriptInput) : Conversion :=
  s.convertWithin (s.ast.size + 1)

def edits (s : ScriptInput) : List Edit :=
  Edit.sort (s.header?.toList.map (Edit.insertion 0) ++ s.importEdits ++ s.convert Ast.rootId 0)

def script (s : ScriptInput) : Except CompileError String :=
  Edit.apply s.source s.edits

end ComponentCompiler.ScriptInput
