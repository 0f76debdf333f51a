import ComponentCompiler.Decode
import ComponentCompiler.Json.Basic

namespace ComponentCompiler.Json

def format : Format Json where
  text?
    | text value => some value
    | _ => none
  size?
    | natural n => if n < sizeLimit then some n else none
    | _ => none
  truth?
    | bool b => some b
    | _ => none
  items?
    | list items => some items
    | _ => none
  fields? names
    | record entries => Fields.ofEntries? names entries
    | list items => Fields.ofItems? names items
    | _ => none
  isAbsent
    | null => true
    | _ => false

def fields? (names : List String) (value : Json) : Option (Fields Json) :=
  format.fields? names value

def size? (value : Json) : Option Nat :=
  format.size? value

def text? (value : Json) : Option String :=
  format.text? value

def isRecord : Json → Bool
  | record _ => true
  | _ => false

def name? (aside : Bool) : Json → Option String
  | text value => some value
  | record [(name, null)] => some name
  -- what stood before its name was set aside until the name was read, and is read more freely
  | record [(name, record [])] => if aside then some name else none
  | _ => none

def listedName? (aside : Bool) (names : List String) : Json → Option String
  | text value => some value
  | natural n => if aside then names[n]? else none
  | _ => none

/-- A choice with contents: the name under `tag`, the contents, if any, under `content`; or a list
of the two. -/
def tagged? (aside : Bool) (names : List String) (tag content : String) (value : Json) :
    Option (String × Option Json) :=
  match value with
  | list [name, body] => (listedName? aside names name).map fun n => (n, some body)
  | record _ => do
    let fs ← fields? [tag, content] value
    let name ← fs.required tag (name? aside)
    return (name, fs.get? content)
  | _ => none

def field? (value : Json) (name : String) : Option Json :=
  match value with
  | record entries => (entries.reverse.find? fun e => e.1 == name).map (·.2)
  | _ => none

end ComponentCompiler.Json
