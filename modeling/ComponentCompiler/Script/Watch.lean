import ComponentCompiler.Ast.Scoping
import ComponentCompiler.Script.Basic

namespace ComponentCompiler.ScriptInput

/-- The object and the property that a binding watches; none for a local name. -/
def watch? (s : ScriptInput) (owner binding : NodeId) : Option (String × String) :=
  if s.ast.isLocalBinding s.source binding owner then
    none
  else
    match s.ast.children binding with
    | receiver :: property :: _ => some (s.text receiver, s.text property)
    | _ => none

def watchList (s : ScriptInput) (owner : NodeId) (bindings : List NodeId) :
    List (String × String) :=
  (bindings.filterMap (s.watch? owner)).foldl
    (fun pairs pair => if pairs.contains pair then pairs else pairs ++ [pair]) []

def plainValue (s : ScriptInput) (convert : Conversion) (v : PropertyValue) (depth : Nat) :
    String :=
  match v.form with
  | .expression => s.renderChildren convert v.node
  | .block => "(function()" ++ s.renderChildren convert v.node ++ "())"
  | .component => s.renderNode convert v.node depth

def evaluator (s : ScriptInput) (convert : Conversion) (object : String) (v : PropertyValue)
    (depth : Nat) : String :=
  let bound := ".bind(" ++ object ++ ")"
  match v.form with
  | .expression => "function()\x7b return " ++ s.renderChildren convert v.node ++ "\x7d" ++ bound
  | .block => "function()" ++ s.renderChildren convert v.node ++ bound
  | .component => "function()\x7b return " ++ s.renderNode convert v.node depth ++ "\x7d" ++ bound

def watchedAssignment (s : ScriptInput) (convert : Conversion) (object name : String)
    (v : PropertyValue) (watches : List (String × String)) (depth : Nat) : String :=
  s.line depth (s.config.runtimeObject ++ ".assignPropertyExpression(" ++ object ++ ",") ++
    s.line (depth + 1) ("'" ++ name ++ "',") ++
    s.line (depth + 1) (s.evaluator convert object v depth ++ ",") ++
    s.line (depth + 1) "[" ++
    ",\n".intercalate (watches.map fun (source, property) =>
      "[ " ++ source ++ ", '" ++ property ++ "Changed' ]") ++ "\n" ++
    s.line (depth + 1) "]" ++
    s.line depth ")"

def assignment (s : ScriptInput) (convert : Conversion) (owner : NodeId) (bindings : List NodeId)
    (object name : String) (v : PropertyValue) (depth : Nat) : String :=
  match s.watchList owner bindings with
  | [] => s.line depth (object ++ "." ++ name ++ " = " ++ s.plainValue convert v depth)
  | watches => s.watchedAssignment convert object name v watches depth

def propertyText (s : ScriptInput) (convert : Conversion) (depth : Nat) (id : NodeId) : String :=
  match s.ast.kind? id with
  | some (.property p) =>
    p.value.elim "" fun v =>
      s.assignment convert id p.bindings "this" (s.textOption p.name) v depth
  | _ => ""

/-- The object is reached from `this` by all segments of the path but the last. -/
def assignmentText (s : ScriptInput) (convert : Conversion) (depth : Nat) (id : NodeId) : String :=
  match s.ast.kind? id with
  | some (.assignment a) =>
    match a.value, a.path.getLast? with
    | some v, some last =>
      let object := "this" ++ String.join (a.path.dropLast.map fun p => "." ++ s.text p)
      s.assignment convert id a.bindings object (s.text last) v depth
    | _, _ => ""
  | _ => ""

end ComponentCompiler.ScriptInput
