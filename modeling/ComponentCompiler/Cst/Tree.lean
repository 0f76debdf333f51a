import ComponentCompiler.Cst.Kind
import ComponentCompiler.Span

namespace ComponentCompiler.Cst

structure Point where
  row : Nat := 0
  column : Nat := 0
  deriving Repr, DecidableEq, Inhabited

/-- What is known of a node besides its children. Tokens such as brackets are not `named`. -/
structure Head where
  kind : String
  span : Span
  point : Point := {}
  named : Bool := true
  deriving Repr, DecidableEq, Inhabited

inductive Tree where
  /-- A slot without a node, which keeps the places of the slots behind it. -/
  | missing
  | node (head : Head) (slots : List Tree)
  deriving Repr, Inhabited

namespace Tree

def head? : Tree → Option Head
  | missing => none
  | node head _ => some head

def slots : Tree → List Tree
  | missing => []
  | node _ slots => slots

def isPresent (t : Tree) : Bool :=
  t.head?.isSome

def kind : Tree → Option Kind
  | missing => none
  | node head _ => some (Kind.ofName head.kind)

def span : Tree → Span
  | missing => .empty
  | node head _ => head.span

def named : Tree → Bool
  | missing => false
  | node head _ => head.named

def children (t : Tree) : List Tree :=
  t.slots.filter isPresent

def namedChildren (t : Tree) : List Tree :=
  t.children.filter named

def child? (t : Tree) (i : Nat) : Option Tree :=
  match t.slots[i]? with
  | some (node head slots) => some (node head slots)
  | _ => none

def childOfKind? (t : Tree) (i : Nat) (k : Kind) : Option Tree :=
  (t.child? i).filter fun c => c.kind == some k

def isError (t : Tree) : Bool :=
  t.kind == some .error

mutual

/-- The first error node in document order. -/
def firstError? : Tree → Option Head
  | missing => none
  | node head slots =>
    if Kind.ofName head.kind = .error then some head else firstErrorIn? slots

def firstErrorIn? : List Tree → Option Head
  | [] => none
  | t :: rest =>
    match firstError? t with
    | some head => some head
    | none => firstErrorIn? rest

end

mutual

def walk (depth : Nat) : Tree → List (Nat × Tree)
  | missing => []
  | node head slots => (depth, node head slots) :: walkAll (depth + 1) slots

def walkAll (depth : Nat) : List Tree → List (Nat × Tree)
  | [] => []
  | t :: rest => walk depth t ++ walkAll depth rest

end

end Tree

end ComponentCompiler.Cst
