namespace ComponentCompiler.Cst

inductive Kind where
  | error
  | importStatement | importPath | importAs | dot
  | identifier | propertyIdentifier | this
  | scriptScope
  | componentDeclaration | componentHeritage | componentIdentifier | componentBody
  | newComponent | componentInstance | newTagged | taggedString
  | propertyDeclaration | propertyAssignment | assignmentPath | idAssignment
  | memberExpression | subscriptExpression
  | eventDeclaration | listenerDeclaration | methodDefinition | typedFunction | function
  | arrowFunction | arrow | constructorDefinition
  | formalParameters | formalTypeParameters | formalTypeParameter
  | callExpression | super | arguments | newExpression | classDeclaration
  | variableDeclaration | variableDeclarator | equals | varWord | letWord | constWord
  | expressionStatement | statementBlock | returnStatement | object | number
  /-- No rule looks at these: their children count as children of the node around. -/
  | other
  deriving Repr, DecidableEq, Inhabited

namespace Kind

def names : List (String × Kind) := [
  ("ERROR", error),
  ("import_statement", importStatement), ("import_path", importPath), ("import_as", importAs),
  (".", dot),
  ("identifier", identifier), ("property_identifier", propertyIdentifier), ("this", this),
  ("js_scope", scriptScope),
  ("component_declaration", componentDeclaration), ("component_heritage", componentHeritage),
  ("component_identifier", componentIdentifier), ("component_body", componentBody),
  ("new_component_expression", newComponent), ("component_instance", componentInstance),
  ("new_tagged_component_expression", newTagged), ("tagged_type_string", taggedString),
  ("property_declaration", propertyDeclaration), ("property_assignment", propertyAssignment),
  ("property_assignment_lhs", assignmentPath), ("identifier_property_assignment", idAssignment),
  ("member_expression", memberExpression), ("subscript_expression", subscriptExpression),
  ("event_declaration", eventDeclaration), ("listener_declaration", listenerDeclaration),
  ("method_definition", methodDefinition), ("typed_function_declaration", typedFunction),
  ("function_declaration", function), ("function_expression", function), ("function", function),
  ("arrow_function", arrowFunction), ("=>", arrow),
  ("constructor_definition", constructorDefinition),
  ("formal_parameters", formalParameters), ("formal_type_parameters", formalTypeParameters),
  ("formal_type_parameter", formalTypeParameter),
  ("call_expression", callExpression), ("super", super), ("arguments", arguments),
  ("new_expression", newExpression), ("class_declaration", classDeclaration),
  ("variable_declaration", variableDeclaration), ("lexical_declaration", variableDeclaration),
  ("variable_declarator", variableDeclarator), ("=", equals),
  ("var", varWord), ("let", letWord), ("const", constWord),
  ("expression_statement", expressionStatement), ("statement_block", statementBlock),
  ("return_statement", returnStatement), ("object", object), ("number", number)]

def ofName (name : String) : Kind :=
  (names.lookup name).getD other

end Kind

end ComponentCompiler.Cst
