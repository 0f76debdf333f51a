import ComponentCompiler.Yaml.Token

namespace ComponentCompiler

inductive Yaml where
  | scalar (text : String) (plain : Bool)
  | sequence (items : List Yaml)
  | mapping (entries : List (Yaml × Yaml))
  deriving Repr, Inhabited

namespace Yaml

def empty : Yaml :=
  .scalar "" true

abbrev Reading (α : Type) := Option (α × List Token)

/-- Whether a node is left out before the next token, given the tokens that may follow one. -/
def isLeftOut (followers : List Token) (ts : List Token) : Bool :=
  ts.head?.any followers.contains

mutual

/-- A node. Block collections only stand where `block` allows, a sequence without indentation only
where `flat` allows. -/
def readNode (block flat : Bool) : Nat → List Token → Reading Yaml
  | 0, _ => none
  | fuel + 1, .entry :: ts => if flat then readFlatEntries fuel (.entry :: ts) else none
  | _ + 1, .scalar text plain :: ts => some (.scalar text plain, ts)
  | fuel + 1, .flowSequence :: ts => readFlowItems true fuel ts
  | fuel + 1, .flowMapping :: ts => readFlowEntries true fuel ts
  | fuel + 1, .blockSequence :: ts => if block then readBlockItems fuel ts else none
  | fuel + 1, .blockMapping :: ts => if block then readBlockEntries fuel ts else none
  | _ + 1, _ => none

def readBlockNode (flat : Bool) (followers : List Token) : Nat → List Token → Reading Yaml
  | 0, _ => none
  | fuel + 1, ts =>
    if isLeftOut followers ts then some (empty, ts) else readNode true flat fuel ts

def readFlowNode (followers : List Token) : Nat → List Token → Reading Yaml
  | 0, _ => none
  | fuel + 1, ts =>
    if isLeftOut followers ts then some (empty, ts) else readNode false false fuel ts

def readBlockItems : Nat → List Token → Reading Yaml
  | 0, _ => none
  | fuel + 1, .entry :: ts =>
    match readBlockNode false [.entry, .blockEnd] fuel ts with
    | none => none
    | some (item, ts) =>
      match readBlockItems fuel ts with
      | some (.sequence items, ts) => some (.sequence (item :: items), ts)
      | _ => none
  | _ + 1, .blockEnd :: ts => some (.sequence [], ts)
  | _ + 1, _ => none

def readFlatEntries : Nat → List Token → Reading Yaml
  | 0, _ => none
  | fuel + 1, .entry :: ts =>
    match readBlockNode false [.entry, .key, .value, .blockEnd] fuel ts with
    | none => none
    | some (item, ts) =>
      match readFlatEntries fuel ts with
      | some (.sequence items, ts) => some (.sequence (item :: items), ts)
      | _ => none
  | _ + 1, ts => some (.sequence [], ts)

def readBlockValue : Nat → List Token → Reading Yaml
  | 0, _ => none
  | fuel + 1, .value :: ts => readBlockNode true [.key, .value, .blockEnd] fuel ts
  | _ + 1, ts => some (empty, ts)

def readBlockEntries : Nat → List Token → Reading Yaml
  | 0, _ => none
  | fuel + 1, .key :: ts =>
    match readBlockNode true [.key, .value, .blockEnd] fuel ts with
    | none => none
    | some (key, ts) =>
      match readBlockValue fuel ts with
      | none => none
      | some (value, ts) =>
        match readBlockEntries fuel ts with
        | some (.mapping entries, ts) => some (.mapping ((key, value) :: entries), ts)
        | _ => none
  | _ + 1, .blockEnd :: ts => some (.mapping [], ts)
  | _ + 1, _ => none

def readFlowValue (followers : List Token) : Nat → List Token → Reading Yaml
  | 0, _ => none
  | fuel + 1, .value :: ts => readFlowNode followers fuel ts
  | _ + 1, ts => some (empty, ts)

/-- A single entry of a mapping as an item of a flow sequence. The token before which its key is
left out is passed with it. -/
def readFlowPair : Nat → List Token → Reading Yaml
  | 0, _ => none
  | fuel + 1, ts =>
    let key? := if isLeftOut [.value, .comma, .flowSequenceEnd] ts then
      some (empty, ts.tail)
    else
      readNode false false fuel ts
    match key? with
    | none => none
    | some (key, ts) =>
      match readFlowValue [.comma, .flowSequenceEnd] fuel ts with
      | none => none
      | some (value, ts) => some (.mapping [(key, value)], ts)

def readFlowItem : Nat → List Token → Reading Yaml
  | 0, _ => none
  | fuel + 1, .key :: ts => readFlowPair fuel ts
  | fuel + 1, ts => readNode false false fuel ts

/-- The rest of a flow sequence. Items behind the first follow a comma, and one comma may stand at
the end. -/
def readFlowItems (first : Bool) : Nat → List Token → Reading Yaml
  | 0, _ => none
  | _ + 1, .flowSequenceEnd :: ts => some (.sequence [], ts)
  | fuel + 1, ts =>
    match if first then some ts else afterComma? ts with
    | none => none
    | some (.flowSequenceEnd :: ts) => some (.sequence [], ts)
    | some ts =>
      match readFlowItem fuel ts with
      | none => none
      | some (item, ts) =>
        match readFlowItems false fuel ts with
        | some (.sequence items, ts) => some (.sequence (item :: items), ts)
        | _ => none

def afterComma? : List Token → Option (List Token)
  | .comma :: ts => some ts
  | _ => none

def readFlowEntry : Nat → List Token → Option ((Yaml × Yaml) × List Token)
  | 0, _ => none
  | fuel + 1, .key :: ts =>
    match readFlowNode [.value, .comma, .flowMappingEnd] fuel ts with
    | none => none
    | some (key, ts) =>
      match readFlowValue [.comma, .flowMappingEnd] fuel ts with
      | none => none
      | some (value, ts) => some ((key, value), ts)
  | fuel + 1, ts =>
    match readNode false false fuel ts with
    | none => none
    | some (key, ts) => some ((key, empty), ts)

def readFlowEntries (first : Bool) : Nat → List Token → Reading Yaml
  | 0, _ => none
  | _ + 1, .flowMappingEnd :: ts => some (.mapping [], ts)
  | fuel + 1, ts =>
    match if first then some ts else afterComma? ts with
    | none => none
    | some (.flowMappingEnd :: ts) => some (.mapping [], ts)
    | some ts =>
      match readFlowEntry fuel ts with
      | none => none
      | some (entry, ts) =>
        match readFlowEntries false fuel ts with
        | some (.mapping entries, ts) => some (.mapping (entry :: entries), ts)
        | _ => none

end

/-- The only document of a text; nothing is written of an empty one. A text with several documents
is refused. -/
def ofTokens? (ts : List Token) : Option Yaml :=
  let fuel := 4 * ts.length + 8
  let content? := match ts with
    | [] | [.documentStart] => some (empty, [])
    | .documentStart :: ts => readBlockNode false [.documentStart, .documentEnd] fuel ts
    | ts => readNode true false fuel ts
  match content? with
  | some (node, rest) => if rest.all (· == .documentEnd) then some node else none
  | none => none

def parse? (text : String) : Option Yaml :=
  (tokens? text).bind ofTokens?

end Yaml

end ComponentCompiler
