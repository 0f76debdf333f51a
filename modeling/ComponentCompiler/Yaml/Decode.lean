import ComponentCompiler.Decode
import ComponentCompiler.Yaml.Node

namespace ComponentCompiler.Yaml

def digitValue? (base : Nat) (c : Char) : Option Nat :=
  (hexValue? c).filter (· < base)

def numeral? (base : Nat) (digits : List Char) : Option Nat :=
  if digits.isEmpty then none else
    (digits.mapM (digitValue? base)).map fun values => values.foldl (fun n d => base * n + d) 0

def decimal? (digits : List Char) : Option Nat :=
  if digits.length > 1 && digits.head? == some '0' then none else numeral? 10 digits

/-- A natural number in decimal or, behind `0x`, `0o` or `0b`, in another base. -/
def natural? (text : String) : Option Nat :=
  let digits := match text.toList with
    | '+' :: cs => cs
    | cs => cs
  match digits with
  | '0' :: 'x' :: cs => numeral? 16 cs
  | '0' :: 'o' :: cs => numeral? 8 cs
  | '0' :: 'b' :: cs => numeral? 2 cs
  | cs => decimal? cs

def isNull (text : String) : Bool :=
  ["", "~", "null", "Null", "NULL"].contains text

def isTrue (text : String) : Bool :=
  ["true", "True", "TRUE"].contains text

def isFalse (text : String) : Bool :=
  ["false", "False", "FALSE"].contains text

def text? : Yaml → Option String
  | scalar text _ => some text
  | _ => none

def format : Format Yaml where
  text? := text?
  size?
    | scalar text true => (natural? text).filter (· < sizeLimit)
    | _ => none
  truth?
    | scalar text true =>
      if isTrue text then some true else if isFalse text then some false else none
    | _ => none
  items?
    | sequence items => some items
    | scalar "" true => some []
    | _ => none
  fields? names
    | mapping entries => do
      let named ← entries.mapM fun e => (text? e.1).map fun key => (key, e.2)
      Fields.ofEntries? names named
    | scalar "" true => some ⟨[], false⟩
    | _ => none
  isAbsent
    | scalar text true => isNull text
    | _ => false

end ComponentCompiler.Yaml
