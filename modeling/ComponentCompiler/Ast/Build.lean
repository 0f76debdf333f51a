import ComponentCompiler.Ast.Enter
import ComponentCompiler.Ast.Leave

namespace ComponentCompiler.Ast

open Cst (Tree)

mutual

def visit (role : Role) (owner : NodeId) : Tree → Ast → Ast
  | .missing, ast => ast
  | .node head slots, ast =>
    let rule := Rule.ofRole role (Cst.Kind.ofName head.kind)
    let id := ast.size
    let entered := enter rule owner (.node head slots) ast
    let visited := match rule.inside owner id with
      | some (childRole, childOwner) => visitAll childRole childOwner slots entered
      | none => entered
    leave rule owner id visited

def visitAll (role : Role) (owner : NodeId) : List Tree → Ast → Ast
  | [], ast => ast
  | t :: rest, ast => visitAll (role.next t) owner rest (visit role owner t ast)

end

/-- The tree of a unit, unless an error node stands anywhere in its concrete tree. -/
def build (root : Tree) (unitName : String) : Except CompileError Ast :=
  match root.firstError? with
  | some head =>
    .error (.malformed ⟨head.point.row, head.point.column, head.span.start, unitName⟩)
  | none => .ok (visitAll .plain rootId root.slots (ofSpan root.span))

end ComponentCompiler.Ast
