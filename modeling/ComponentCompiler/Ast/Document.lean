import ComponentCompiler.Ast.Basic
import ComponentCompiler.Json.Decode

namespace ComponentCompiler

open Json (natural naturals)

def idOrNull (id : Option NodeId) : Json :=
  .option .natural id

def Span.toJson (s : Span) : Json :=
  .record [("start_byte", .natural s.start), ("end_byte", .natural s.stop)]

def ValueForm.names : List (String × ValueForm) :=
  [("expression", .expression), ("block", .block), ("component", .component)]

def ValueForm.name : ValueForm → String
  | expression => "expression"
  | block => "block"
  | component => "component"

def PropertyValue.toJson (v : PropertyValue) : Json :=
  .record [("form", .text v.form.name), ("node", .natural v.node)]

def PropertyValue.ofJson? (aside : Bool) (value : Json) : Option PropertyValue := do
  let (name, content) ← value.tagged? aside (ValueForm.names.map (·.1)) "form" "node"
  return ⟨← ValueForm.names.lookup name, ← content.bind Json.size?⟩

def ids? (value : Json) : Option (List NodeId) :=
  Json.format.list Json.size? value

def optionalId? (fs : Fields Json) (name : String) : Option (Option NodeId) :=
  Json.format.optional fs name Json.size?

def Members.toJson (m : Members) : Json :=
  .record [
    ("properties", .naturals m.properties),
    ("assignments", .naturals m.assignments),
    ("events", .naturals m.events),
    ("listeners", .naturals m.listeners),
    ("functions", .naturals m.functions),
    ("id_components", .naturals m.idComponents),
    ("default_slot", .naturals m.defaultSlot)]

def Members.ofJson? (value : Json) : Option Members := do
  let fs ← value.fields? ["properties", "assignments", "events", "listeners", "functions",
    "id_components", "default_slot"]
  return {
    properties := ← fs.required "properties" ids?
    assignments := ← fs.required "assignments" ids?
    events := ← fs.required "events" ids?
    listeners := ← fs.required "listeners" ids?
    functions := ← fs.required "functions" ids?
    idComponents := ← fs.required "id_components" ids?
    defaultSlot := ← fs.required "default_slot" ids? }

def DeclarationData.toJson (d : DeclarationData) : Json :=
  .record [
    ("name", idOrNull d.name),
    ("heritage", .naturals d.heritage),
    ("id", idOrNull d.id),
    ("body", idOrNull d.body),
    ("constructor", idOrNull d.ctor),
    ("members", d.members.toJson)]

def DeclarationData.ofJson? (value : Json) : Option DeclarationData := do
  let fs ← value.fields? ["name", "heritage", "id", "body", "constructor", "members"]
  return {
    name := ← optionalId? fs "name"
    heritage := ← fs.required "heritage" ids?
    id := ← optionalId? fs "id"
    body := ← optionalId? fs "body"
    ctor := ← optionalId? fs "constructor"
    members := ← fs.required "members" Members.ofJson? }

def InstanceData.toJson (i : InstanceData) : Json :=
  .record [
    ("name", .naturals i.name),
    ("id", idOrNull i.id),
    ("instance_name", idOrNull i.boundName),
    ("arguments", idOrNull i.arguments),
    ("body", idOrNull i.body),
    ("is_root", .bool i.isRoot),
    ("owner", idOrNull i.owner),
    ("members", i.members.toJson)]

def InstanceData.ofJson? (value : Json) : Option InstanceData := do
  let fs ← value.fields? ["name", "id", "instance_name", "arguments", "body", "is_root", "owner",
    "members"]
  return {
    name := ← fs.required "name" ids?
    id := ← optionalId? fs "id"
    boundName := ← optionalId? fs "instance_name"
    arguments := ← optionalId? fs "arguments"
    body := ← optionalId? fs "body"
    isRoot := ← fs.required "is_root" Json.format.truth?
    owner := ← optionalId? fs "owner"
    members := ← fs.required "members" Members.ofJson? }

def PropertyData.toJson (p : PropertyData) : Json :=
  .record [
    ("type_name", idOrNull p.typeName),
    ("name", idOrNull p.name),
    ("value", .option PropertyValue.toJson p.value),
    ("bindings", .naturals p.bindings)]

def PropertyData.ofJson? (aside : Bool) (value : Json) : Option PropertyData := do
  let fs ← value.fields? ["type_name", "name", "value", "bindings"]
  return {
    typeName := ← optionalId? fs "type_name"
    name := ← optionalId? fs "name"
    value := ← Json.format.optional fs "value" (PropertyValue.ofJson? aside)
    bindings := ← fs.required "bindings" ids? }

def AssignmentData.toJson (a : AssignmentData) : Json :=
  .record [
    ("path", .naturals a.path),
    ("value", .option PropertyValue.toJson a.value),
    ("bindings", .naturals a.bindings)]

def AssignmentData.ofJson? (aside : Bool) (value : Json) : Option AssignmentData := do
  let fs ← value.fields? ["path", "value", "bindings"]
  return {
    path := ← fs.required "path" ids?
    value := ← Json.format.optional fs "value" (PropertyValue.ofJson? aside)
    bindings := ← fs.required "bindings" ids? }

def Parameter.toJson (p : Parameter) : Json :=
  .record [("type_name", idOrNull p.typeName), ("name", .natural p.name)]

def Parameter.ofJson? (value : Json) : Option Parameter := do
  let fs ← value.fields? ["type_name", "name"]
  return { typeName := ← optionalId? fs "type_name", name := ← fs.required "name" Json.size? }

def FunctionData.toJson (f : FunctionData) : Json :=
  .record [
    ("name", idOrNull f.name),
    ("params", .list (f.params.map Parameter.toJson)),
    ("params_node", idOrNull f.paramsNode),
    ("body", idOrNull f.body),
    ("super_call", idOrNull f.superCall)]

def FunctionData.ofJson? (value : Json) : Option FunctionData := do
  let fs ← value.fields? ["name", "params", "params_node", "body", "super_call"]
  return {
    name := ← optionalId? fs "name"
    params := ← fs.required "params" (Json.format.list Parameter.ofJson?)
    paramsNode := ← optionalId? fs "params_node"
    body := ← optionalId? fs "body"
    superCall := ← optionalId? fs "super_call" }

def ImportData.toJson (d : ImportData) : Json :=
  .record [
    ("path", .naturals d.path),
    ("alias", idOrNull d.localName),
    ("is_relative", .bool d.isRelative)]

def ImportData.ofJson? (value : Json) : Option ImportData := do
  let fs ← value.fields? ["path", "alias", "is_relative"]
  return {
    path := ← fs.required "path" ids?
    localName := ← optionalId? fs "alias"
    isRelative := ← fs.required "is_relative" Json.format.truth? }

def TaggedData.toJson (t : TaggedData) : Json :=
  .record [("tag", idOrNull t.tag), ("string", idOrNull t.string)]

def TaggedData.ofJson? (value : Json) : Option TaggedData := do
  let fs ← value.fields? ["tag", "string"]
  return { tag := ← optionalId? fs "tag", string := ← optionalId? fs "string" }

def Keyword.ofJson? (aside : Bool) (value : Json) : Option Keyword := do
  match ← value.name? aside with
  | "var" => some .var
  | "let" => some .let_
  | "const" => some .const
  | _ => none

def Callable.name : Callable → String
  | event => "event_declaration"
  | listener => "listener_declaration"
  | method => "method_definition"
  | typedFunction => "typed_function_declaration"
  | function => "function_declaration"
  | arrow => "arrow_function"
  | ctor => "constructor_definition"

def Callable.all : List Callable :=
  [event, listener, method, typedFunction, function, arrow, ctor]

namespace NodeKind

def plainNames : List (String × NodeKind) := [
  ("program", program),
  ("script_scope", scriptScope),
  ("import_path", importPath),
  ("identifier", identifier),
  ("component_heritage", heritage),
  ("component_body", body),
  ("bindable_expression", bindableExpression),
  ("statement_block", block),
  ("expression_statement", expressionStatement),
  ("member_expression", member),
  ("subscript_expression", subscript),
  ("arguments", arguments),
  ("new_expression", newExpression),
  ("return_statement", returnStatement),
  ("object", object),
  ("number", number),
  ("formal_parameters", formalParameters),
  ("class_declaration", classDeclaration),
  ("tagged_string", taggedString),
  ("variable_declarator", declarator)]

def document : NodeKind → String × Option Json
  | importStatement d => ("import", some d.toJson)
  | declaration d => ("component_declaration", some d.toJson)
  | instance_ i => ("component_instance", some i.toJson)
  | property p => ("property_declaration", some p.toJson)
  | assignment a => ("property_assignment", some a.toJson)
  | call isSuper => ("call_expression", some (.record [("is_super", .bool isSuper)]))
  | callable form f => (form.name, some f.toJson)
  | tagged t => ("tagged_component", some t.toJson)
  | variableList keyword => ("variable_declaration", some (.text keyword.word))
  | kind => (((plainNames.find? fun e => e.2 == kind).map (·.1)).getD "", none)

def toJson (kind : NodeKind) : Json :=
  let (name, content) := kind.document
  .record (("kind", .text name) :: content.elim [] fun data => [("data", data)])

/-- A kind that holds data, read from them. The data of a call have to be a record. -/
def ofData? (aside : Bool) (name : String) (data : Json) : Option NodeKind :=
  match name with
  | "import" => (ImportData.ofJson? data).map .importStatement
  | "component_declaration" => (DeclarationData.ofJson? data).map .declaration
  | "component_instance" => (InstanceData.ofJson? data).map .instance_
  | "property_declaration" => (PropertyData.ofJson? aside data).map .property
  | "property_assignment" => (AssignmentData.ofJson? aside data).map .assignment
  | "call_expression" => do
    guard data.isRecord
    let fs ← data.fields? ["is_super"]
    return .call (← fs.required "is_super" Json.format.truth?)
  | "tagged_component" => (TaggedData.ofJson? data).map .tagged
  | "variable_declaration" => (Keyword.ofJson? aside data).map .variableList
  | name =>
    match Callable.all.find? fun form => form.name == name with
    | some form => (FunctionData.ofJson? data).map (.callable form)
    | none => none

/-- A kind without data may be given null for them. -/
def ofJson? (value : Json) : Option NodeKind := do
  let (name, content) ← value.tagged? false [] "kind" "data"
  match plainNames.lookup name with
  | some kind => if content.all Json.format.isAbsent then some kind else none
  | none => content.bind (ofData? value.isRecord name)

end NodeKind

def Scope.toJson (s : Scope) : Json :=
  .record [("declarations", .naturals s.declarations), ("used_identifiers", .naturals s.used)]

def Node.toJson (n : Node) : Json :=
  .record ([
    ("kind", n.kind.toJson),
    ("span", n.span.toJson),
    ("parent", idOrNull n.parent),
    ("children", .naturals n.children)] ++ n.scope.elim [] fun s => [("scope", s.toJson)])

def Diagnostic.toJson : Diagnostic → Json
  | duplicateConstructor component ignored =>
    .record [
      ("diagnostic", .text "duplicate_constructor"),
      ("component", component.toJson),
      ("ignored", ignored.toJson)]

def Ast.toJson (ast : Ast) : Json :=
  .record [
    ("nodes", .list (ast.nodes.toList.map Node.toJson)),
    ("root", .natural Ast.rootId),
    ("exports", .naturals ast.exports),
    ("imports", .naturals ast.imports),
    ("diagnostics", .list (ast.diagnostics.map Diagnostic.toJson))]

end ComponentCompiler
