namespace ComponentCompiler

structure Fields (δ : Type) where
  entries : List (String × δ)
  /-- The record was given as a list, its fields told apart by their places. -/
  positional : Bool

/-- How the values of a data format are seen as texts, numbers, lists and records. -/
structure Format (δ : Type) where
  text? : δ → Option String
  /-- A natural number below `2 ^ 64`. -/
  size? : δ → Option Nat
  truth? : δ → Option Bool
  items? : δ → Option (List δ)
  /-- The fields among those named, in the order they are declared. -/
  fields? : List String → δ → Option (Fields δ)
  isAbsent : δ → Bool

def sizeLimit : Nat := 18446744073709551616

namespace Fields

variable {δ α : Type}

def get? (fs : Fields δ) (name : String) : Option δ :=
  (fs.entries.find? fun e => e.1 == name).map (·.2)

def required (fs : Fields δ) (name : String) (read : δ → Option α) : Option α :=
  (fs.get? name).bind read

def orElse (fs : Fields δ) (name : String) (read : δ → Option α) (default : α) : Option α :=
  match fs.get? name with
  | some d => read d
  | none => some default

def ofEntries? (names : List String) (entries : List (String × δ)) : Option (Fields δ) :=
  if names.all fun name => (entries.filter fun e => e.1 == name).length ≤ 1 then
    some ⟨entries, false⟩
  else
    none

def ofItems? (names : List String) (items : List δ) : Option (Fields δ) :=
  if items.length ≤ names.length then some ⟨names.zip items, true⟩ else none

end Fields

namespace Format

variable {δ α : Type}

def nullable (f : Format δ) (read : δ → Option α) (d : δ) : Option (Option α) :=
  if f.isAbsent d then some none else (read d).map some

/-- A field that may be absent or missing; a record given as a list has to hold it. -/
def optional (f : Format δ) (fs : Fields δ) (name : String) (read : δ → Option α) :
    Option (Option α) :=
  match fs.get? name with
  | some d => f.nullable read d
  | none => if fs.positional then none else some none

def list (f : Format δ) (read : δ → Option α) (d : δ) : Option (List α) :=
  (f.items? d).bind fun items => items.mapM read

end Format

end ComponentCompiler
