namespace ComponentCompiler

structure Dictionary (α : Type) where
  entries : List (String × α) := []
  deriving Repr, DecidableEq

namespace Dictionary

variable {α β : Type}

def get? (d : Dictionary α) (key : String) : Option α :=
  d.entries.lookup key

def contains (d : Dictionary α) (key : String) : Bool :=
  (d.get? key).isSome

def insertIn (key : String) (value : α) : List (String × α) → List (String × α)
  | [] => [(key, value)]
  | (k, v) :: rest =>
    if key < k then (key, value) :: (k, v) :: rest
    else if key = k then (key, value) :: rest
    else (k, v) :: insertIn key value rest

def insert (d : Dictionary α) (key : String) (value : α) : Dictionary α :=
  ⟨insertIn key value d.entries⟩

def erase (d : Dictionary α) (key : String) : Dictionary α :=
  ⟨d.entries.filter fun e => e.1 != key⟩

/-- The last of several values under one text counts. -/
def ofList (entries : List (String × α)) : Dictionary α :=
  entries.foldl (fun d e => d.insert e.1 e.2) {}

def keys (d : Dictionary α) : List String :=
  d.entries.map (·.1)

def values (d : Dictionary α) : List α :=
  d.entries.map (·.2)

def size (d : Dictionary α) : Nat :=
  d.entries.length

def isEmpty (d : Dictionary α) : Bool :=
  d.entries.isEmpty

theorem lookup_insertIn (key k : String) (value : α) (entries : List (String × α)) :
    (insertIn key value entries).lookup k = if k = key then some value else entries.lookup k := by
  induction entries with
  | nil => grind [insertIn]
  | cons e rest ih => grind [insertIn]

theorem get?_insert (d : Dictionary α) (key k : String) (value : α) :
    (d.insert key value).get? k = if k = key then some value else d.get? k :=
  lookup_insertIn key k value d.entries

theorem lookup_filter_ne {κ : Type} [DecidableEq κ] [BEq κ] [LawfulBEq κ] (key k : κ)
    (entries : List (κ × α)) :
    (entries.filter fun e => e.1 != key).lookup k =
      if k = key then none else entries.lookup k := by
  induction entries with
  | nil => simp
  | cons e rest ih => grind

theorem get?_erase (d : Dictionary α) (key k : String) :
    (d.erase key).get? k = if k = key then none else d.get? k :=
  lookup_filter_ne key k d.entries

end Dictionary

end ComponentCompiler
