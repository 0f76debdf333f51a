import ComponentCompiler.Cst.Tree

namespace ComponentCompiler.Cst

structure Entry where
  head : Head
  children : List Nat := []
  deriving Repr, DecidableEq, Inhabited

structure Table where
  entries : Array Entry := #[]
  root : Nat := 0
  deriving Repr, DecidableEq, Inhabited

namespace Table

def treeAt? (t : Table) (depth i : Nat) : Option Tree :=
  match t.entries[i]?, depth with
  | none, _ => some .missing
  | some _, 0 => none
  | some e, depth + 1 => (e.children.mapM (t.treeAt? depth)).map (.node e.head)

/-- The tree of the whole table; none, if the table has a cycle. A path without repetition has no
more levels than the table has entries. A root outside the table is an empty program. -/
def tree? (t : Table) : Option Tree :=
  match t.entries[t.root]? with
  | none => some (.node { kind := "program", span := .empty } [])
  | some _ => t.treeAt? t.entries.size t.root

end Table

end ComponentCompiler.Cst
