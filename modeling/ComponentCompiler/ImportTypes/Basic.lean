import ComponentCompiler.Dictionary

namespace ComponentCompiler

structure ImportType where
  name : String
  /-- The alias that qualifies the symbol; empty for a plain name. -/
  qualifier : String
  /-- The path the symbol is loaded from, once it is known. -/
  resolvedPath : Option String := none
  deriving Repr, DecidableEq

def ImportType.written (t : ImportType) : String :=
  if t.qualifier = "" then t.name else t.qualifier ++ "." ++ t.name

structure ImportTypes where
  groups : Dictionary (Dictionary ImportType) := {}
  deriving Repr, DecidableEq

namespace ImportTypes

def group (t : ImportTypes) (qualifier : String) : Dictionary ImportType :=
  (t.groups.get? qualifier).getD {}

def get? (t : ImportTypes) (qualifier name : String) : Option ImportType :=
  (t.group qualifier).get? name

def put (t : ImportTypes) (qualifier name : String) (entry : ImportType) : ImportTypes :=
  ⟨t.groups.insert qualifier ((t.group qualifier).insert name entry)⟩

def add (t : ImportTypes) (qualifier name : String) : ImportTypes :=
  match t.get? qualifier name with
  | some _ => t
  | none => t.put qualifier name { name, qualifier }

/-- Records where a symbol is loaded from; nothing for a symbol that is not needed. -/
def resolve? (t : ImportTypes) (qualifier name path : String) : Option ImportTypes :=
  (t.get? qualifier name).map fun entry =>
    t.put qualifier name { entry with resolvedPath := some path }

def entries (t : ImportTypes) : List ImportType :=
  t.groups.values.flatMap Dictionary.values

def unresolved (t : ImportTypes) : List ImportType :=
  t.entries.filter fun e => e.resolvedPath.isNone

def hasQualifier (t : ImportTypes) (qualifier : String) : Bool :=
  !(t.group qualifier).isEmpty

def size (t : ImportTypes) : Nat :=
  t.entries.length

def isEmpty (t : ImportTypes) : Bool :=
  t.size == 0

def describe (t : ImportTypes) : String :=
  "\n".intercalate (t.groups.entries.map fun (qualifier, symbols) =>
    "Imports as '" ++ qualifier ++ "': " ++ " ".intercalate symbols.keys)

end ImportTypes

end ComponentCompiler
