namespace ComponentCompiler

inductive Json where
  | null
  | bool (value : Bool)
  /-- A number spelt with digits alone. -/
  | natural (value : Nat)
  /-- A number with a sign, a point or an exponent, as it is spelt. -/
  | number (spelling : String)
  | text (value : String)
  /-- A string in which a surrogate escape has no partner, or a record with such a field name: it
  can be skipped, not read. -/
  | unpaired
  | list (items : List Json)
  | record (fields : List (String × Json))
  deriving Repr, Inhabited

namespace Json

def texts (items : List String) : Json :=
  .list (items.map .text)

def naturals (items : List Nat) : Json :=
  .list (items.map .natural)

def option (encode : α → Json) : Option α → Json
  | some a => encode a
  | none => .null

end Json

end ComponentCompiler
