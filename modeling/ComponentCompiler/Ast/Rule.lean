import ComponentCompiler.Ast.Basic
import ComponentCompiler.Cst.Tree
import ComponentCompiler.Error

namespace ComponentCompiler.Ast

open Cst (Tree)

inductive Role where
  | plain
  /-- Part of a component declaration that stands under `outer`. -/
  | declarationPart (outer : NodeId)
  | instancePart
  | taggedPart
  | propertyPart
  /-- Slot `place` of a property assignment. -/
  | assignmentSlot (place : Nat)
  | callablePart
  /-- Part of an arrow function, before its arrow or behind it. -/
  | arrowPart (behind : Bool)
  /-- Part of a call that stands under `statement`. -/
  | callPart (statement : NodeId)
  | declarationList
  /-- Part of a declarator, before its equals sign or behind it. -/
  | declaratorPart (behind : Bool)
  | newPart
  deriving Repr, DecidableEq

def Role.next (role : Role) (t : Tree) : Role :=
  match role with
  | .assignmentSlot place => .assignmentSlot (place + 1)
  | .arrowPart behind => .arrowPart (behind || t.kind == some .arrow)
  | .declaratorPart behind => .declaratorPart (behind || t.kind == some .equals)
  | role => role

inductive Rule where
  | skip
  /-- The children stand for the node. -/
  | pass
  | leaf (kind : NodeKind)
  | wrap (kind : NodeKind)
  | importStatement
  | declaration
  | instance_
  | tagged
  | property
  | assignment
  | idAssignment
  | member
  | callable (form : Callable)
  | arrow
  | call
  | newExpression
  | classDeclaration
  | variableList
  | declarator
  | declarationName (outer : NodeId)
  | heritage
  | explicitId
  | boundName
  | body
  | typeSegment
  | argumentList
  | tag
  | tagText
  | propertyType
  | propertyName
  | assignmentPath
  | value (form : ValueForm)
  | callableName
  | parameters
  | typedParameters
  | callableBody
  | arrowParameters
  | arrowParameter
  | arrowBody
  | superCall (statement : NodeId)
  | declaredName
  | reference
  deriving Repr, DecidableEq

namespace Rule

def ofKind : Cst.Kind → Rule
  | .importStatement => importStatement
  | .identifier | .propertyIdentifier | .this => leaf .identifier
  | .scriptScope => wrap .scriptScope
  | .componentDeclaration => declaration
  | .componentBody => wrap .body
  | .newComponent => instance_
  | .newTagged => tagged
  | .taggedString => leaf .taggedString
  | .propertyDeclaration => property
  | .propertyAssignment => assignment
  | .idAssignment => idAssignment
  | .memberExpression => member
  | .subscriptExpression => wrap .subscript
  | .eventDeclaration => callable .event
  | .listenerDeclaration => callable .listener
  | .methodDefinition => callable .method
  | .typedFunction => callable .typedFunction
  | .function => callable .function
  | .arrowFunction => arrow
  | .constructorDefinition => callable .ctor
  | .callExpression => call
  | .arguments => wrap .arguments
  | .newExpression => newExpression
  | .classDeclaration => classDeclaration
  | .variableDeclaration => variableList
  | .expressionStatement => wrap .expressionStatement
  | .returnStatement => wrap .returnStatement
  | .object => wrap .object
  | .number => leaf .number
  | _ => pass

def ofValueKind : Cst.Kind → Rule
  | .expressionStatement => value .expression
  | .statementBlock => value .block
  | .componentDeclaration => value .component
  | _ => skip

def ofDeclarationPart (outer : NodeId) : Cst.Kind → Rule
  | .identifier => declarationName outer
  | .componentHeritage => heritage
  | .componentIdentifier => explicitId
  | .componentBody => body
  | _ => skip

def ofInstancePart : Cst.Kind → Rule
  | .identifier => typeSegment
  | .componentBody => body
  | .arguments => argumentList
  | .componentIdentifier => explicitId
  | .componentInstance => boundName
  | _ => skip

def ofTaggedPart : Cst.Kind → Rule
  | .identifier => tag
  | .taggedString => tagText
  | kind => ofKind kind

def ofPropertyPart : Cst.Kind → Rule
  | .identifier => propertyType
  | .propertyIdentifier => propertyName
  | kind => ofValueKind kind

def ofAssignmentSlot : Nat → Cst.Kind → Rule
  | 0, .assignmentPath => assignmentPath
  | 2, kind => ofValueKind kind
  | _, _ => skip

def ofCallablePart : Cst.Kind → Rule
  | .identifier | .propertyIdentifier => callableName
  | .formalParameters => parameters
  | .formalTypeParameters => typedParameters
  | .statementBlock => callableBody
  | _ => skip

def beforeArrow : Cst.Kind → Rule
  | .formalParameters => arrowParameters
  | .identifier => arrowParameter
  | _ => skip

def behindArrow : Cst.Kind → Rule
  | .arrow => skip
  | .statementBlock => arrowBody
  | kind => ofKind kind

def ofCallPart (statement : NodeId) : Cst.Kind → Rule
  | .arguments => argumentList
  | .super => superCall statement
  | kind => ofKind kind

def ofDeclarationList : Cst.Kind → Rule
  | .variableDeclarator => declarator
  | kind => ofKind kind

def ofDeclaratorPart (behind : Bool) : Cst.Kind → Rule
  | .identifier => if behind then reference else declaredName
  | .equals => skip
  | kind => ofKind kind

def ofNewPart : Cst.Kind → Rule
  | .identifier => reference
  | kind => ofKind kind

def ofRole : Role → Cst.Kind → Rule
  | .plain => ofKind
  | .declarationPart outer => ofDeclarationPart outer
  | .instancePart => ofInstancePart
  | .taggedPart => ofTaggedPart
  | .propertyPart => ofPropertyPart
  | .assignmentSlot place => ofAssignmentSlot place
  | .callablePart => ofCallablePart
  | .arrowPart false => beforeArrow
  | .arrowPart true => behindArrow
  | .callPart statement => ofCallPart statement
  | .declarationList => ofDeclarationList
  | .declaratorPart behind => ofDeclaratorPart behind
  | .newPart => ofNewPart

/-- The role of the node's children and the node they are built under, given the node around and
the new node. Nothing when they are not visited. -/
def inside (rule : Rule) (owner id : NodeId) : Option (Role × NodeId) :=
  match rule with
  | pass => some (.plain, owner)
  | wrap _ | member | classDeclaration | body | argumentList | value .expression | value .block
  | callableBody | arrowBody => some (.plain, id)
  | declaration | value .component => some (.declarationPart owner, id)
  | instance_ => some (.instancePart, id)
  | tagged => some (.taggedPart, id)
  | property => some (.propertyPart, id)
  | assignment => some (.assignmentSlot 0, id)
  | callable _ => some (.callablePart, id)
  | arrow => some (.arrowPart false, id)
  | call => some (.callPart owner, id)
  | newExpression => some (.newPart, id)
  | variableList => some (.declarationList, id)
  | declarator => some (.declaratorPart false, id)
  | _ => none

end Rule

end ComponentCompiler.Ast
