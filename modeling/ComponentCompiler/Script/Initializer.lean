import ComponentCompiler.Script.Watch

namespace ComponentCompiler.ScriptInput

def construction? (s : ScriptInput) (inst : NodeId) : Option (String × String) :=
  match s.ast.kind? inst with
  | some (.instance_ i) =>
    i.id.map fun id => (s.text id, "new " ++ s.dotted i.name ++ i.arguments.elim "()" s.text)
  | _ => none

def registerProperty (s : ScriptInput) (target : String) (depth : Nat) (id : NodeId) : String :=
  match s.ast.kind? id with
  | some (.property p) =>
    let name := s.textOption p.name
    s.line depth (s.config.runtimeObject ++ ".addProperty(" ++ target ++ ", '" ++ name ++
      "', \x7b type: \"" ++ s.textOption p.typeName ++ "\", notify: \"" ++ name ++
      "Changed\" \x7d)")
  | _ => ""

def registerProperties (s : ScriptInput) (m : Members) (target : String) (depth : Nat) : String :=
  String.join (m.properties.map (s.registerProperty target depth))

def idComponentProperties (s : ScriptInput) (m : Members) (depth : Nat) : String :=
  String.join (m.idComponents.map fun child =>
    match s.ast.kind? child with
    | some (.instance_ i) => i.id.elim "" fun id => s.registerProperties i.members (s.text id) depth
    | _ => "")

def registerId (s : ScriptInput) (depth : Nat) (id value : String) : String :=
  s.line depth ("var " ++ id ++ " = " ++ value) ++
    s.line depth ("this.ids[\"" ++ id ++ "\"] = " ++ id) ++ "\n"

def declarationHead (s : ScriptInput) (m : Members) (id : Option NodeId) (depth : Nat) : String :=
  (if id.isSome || !m.idComponents.isEmpty then
      s.line depth "this.ids = \x7b\x7d" ++ "\n"
    else "") ++
    id.elim "" (fun id => s.registerId depth (s.text id) "this") ++
    String.join (m.idComponents.map fun child =>
      (s.construction? child).elim "" fun (id, value) => s.registerId depth id value) ++
    s.idComponentProperties m depth ++
    s.registerProperties m "this" depth

/-- Ids and properties of an instance. The ones of a nested instance with an id are registered by
the component that constructs it. -/
def instanceHead (s : ScriptInput) (i : InstanceData) (depth : Nat) : String :=
  i.id.elim "" (fun id =>
    (if i.isRoot then s.line depth ("var " ++ s.text id ++ " = this") else "") ++
      s.line depth (s.config.runtimeObject ++ ".assignId(" ++ s.text id ++ ", \"" ++ s.text id ++
        "\")")) ++
    (if i.isRoot then
      String.join (i.members.idComponents.map fun child =>
        (s.construction? child).elim "" fun (id, value) =>
          s.line depth ("var " ++ id ++ " = " ++ value))
    else "") ++
    (if i.isRoot || i.id.isNone then s.registerProperties i.members "this" depth else "") ++
    (if i.isRoot then s.idComponentProperties i.members depth else "")

def eventText (s : ScriptInput) (depth : Nat) (id : NodeId) : String :=
  ((s.ast.kind? id).bind NodeKind.function?).elim "" fun f =>
    let params := f.params.map fun p =>
      "['" ++ s.textOption p.typeName ++ "','" ++ s.text p.name ++ "']"
    s.line depth (s.config.runtimeObject ++ ".addEvent(this, '" ++ s.textOption f.name ++ "', [" ++
      ",".intercalate params ++ "])")

def listenerText (s : ScriptInput) (convert : Conversion) (depth : Nat) (id : NodeId) : String :=
  ((s.ast.kind? id).bind NodeKind.function?).elim "" fun f =>
    s.line depth ("this.on('" ++ s.textOption f.name ++ "', function(" ++ s.paramNames f.params ++
      ")" ++ s.renderBody convert f ++ ".bind(this));")

def idComponentTexts (s : ScriptInput) (convert : Conversion) (body : Option NodeId) (depth : Nat) :
    String :=
  String.join ((body.elim [] s.ast.children).map fun child =>
    match s.ast.kind? child with
    | some (.instance_ { id := some _, isRoot := false, .. }) =>
      s.indent depth ++ s.renderNode convert child depth ++ "\n"
    | _ => "")

def defaultContent (s : ScriptInput) (convert : Conversion) (m : Members) (depth : Nat) : String :=
  if m.defaultSlot.isEmpty then
    ""
  else
    s.line depth (s.config.runtimeObject ++ ".assignDefaultProperty(this, [") ++
      ",\n".intercalate (m.defaultSlot.map fun c => s.renderNode convert c (depth + 1)) ++ "\n" ++
      s.line depth "]" ++
      s.line depth ")"

def initializerBody (s : ScriptInput) (convert : Conversion) (m : Members) (body : Option NodeId)
    (depth : Nat) : String :=
  String.join (m.events.map (s.eventText depth)) ++
    String.join (m.listeners.map (s.listenerText convert depth)) ++
    String.join (m.properties.map (s.propertyText convert depth)) ++
    String.join (m.assignments.map (s.assignmentText convert depth)) ++
    s.idComponentTexts convert body depth ++
    s.defaultContent convert m depth

end ComponentCompiler.ScriptInput
