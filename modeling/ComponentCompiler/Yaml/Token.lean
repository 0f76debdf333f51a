import ComponentCompiler.Yaml.Scalar

namespace ComponentCompiler.Yaml

inductive Token where
  | scalar (text : String) (plain : Bool)
  | blockSequence
  | blockMapping
  | blockEnd
  | entry
  | key
  | value
  | flowSequence
  | flowSequenceEnd
  | flowMapping
  | flowMappingEnd
  | comma
  | documentStart
  | documentEnd
  deriving Repr, DecidableEq

structure KeyStart where
  /-- The number of tokens before it. -/
  token : Nat
  index : Nat
  line : Nat
  column : Nat
  /-- Nothing but a key can stand there. -/
  required : Bool

def keyLimit : Nat := 1024

structure Scanner where
  cursor : Cursor
  tokens : Array Token := #[]
  /-- The possible key of each open collection in flow style, innermost first, and that of the block
  around them. -/
  keys : List (Option KeyStart) := [none]
  /-- One more than the column of the block collection that is open; zero without one. -/
  margin : Nat := 0
  /-- The margins around. -/
  margins : List Nat := []
  keyAllowed : Bool := true

namespace Scanner

def inFlow (s : Scanner) : Bool :=
  s.keys.length > 1

def push (s : Scanner) (t : Token) : Scanner :=
  { s with tokens := s.tokens.push t }

def insertAt (s : Scanner) (place : Nat) (t : Token) : Scanner :=
  { s with tokens := s.tokens.insertIdxIfInBounds place t }

def advance (s : Scanner) (n : Nat) : Scanner :=
  { s with cursor := s.cursor.advance n }

/-- Passes blanks, comments, line breaks and a mark of byte order at the start of each line. A tab
does not count as a blank where a key may start. -/
def skipGaps : Nat → Scanner → Scanner
  | 0, s => s
  | fuel + 1, s =>
    let tabs := s.inFlow || !s.keyAllowed
    let c := s.cursor.passOrderMark.advanceWhile fun ch => ch == ' ' || (tabs && ch == '\t')
    let c := if c.peek? == some '#' then c.advanceWhile fun ch => !isBreak ch else c
    if c.peek?.any isBreak then
      skipGaps fuel { s with cursor := c.newLine, keyAllowed := s.keyAllowed || !s.inFlow }
    else
      { s with cursor := c }

/-- A key has to end on its line and within the limit. -/
def isStale (s : Scanner) (k : KeyStart) : Bool :=
  k.line < s.cursor.line || k.index + keyLimit < s.cursor.index

def dropStaleKeys (s : Scanner) : Option Scanner :=
  if s.keys.any fun k => k.any fun k => s.isStale k && k.required then
    none
  else
    some { s with keys := s.keys.map fun k => k.filter fun k => !s.isStale k }

def dropKey (s : Scanner) : Option Scanner :=
  match s.keys with
  | some k :: rest => if k.required then none else some { s with keys := none :: rest }
  | _ => some s

def saveKey (s : Scanner) : Option Scanner :=
  if s.keyAllowed then do
    let s ← s.dropKey
    let c := s.cursor
    let required := !s.inFlow && s.margin == c.column + 1
    return { s with
      keys := some ⟨s.tokens.size, c.index, c.line, c.column, required⟩ :: s.keys.tail }
  else
    some s

/-- Closes the block collections that stand further right than `margin` allows. -/
def unroll (margin : Nat) : List Nat → Scanner → Scanner
  | outer :: rest, s =>
    if margin < s.margin then
      unroll margin rest { s.push .blockEnd with margin := outer, margins := rest }
    else
      s
  | [], s => s

def closeBlocks (s : Scanner) (margin : Nat) : Scanner :=
  if s.inFlow then s else unroll margin s.margins s

/-- Opens a block collection at `column`, unless one is open there; its token goes to `place`. -/
def openBlock (s : Scanner) (column place : Nat) (t : Token) : Scanner :=
  if !s.inFlow && s.margin ≤ column then
    { s.insertAt place t with margin := column + 1, margins := s.margin :: s.margins }
  else
    s

def documentMark (s : Scanner) (t : Token) : Option Scanner := do
  let s ← (s.closeBlocks 0).dropKey
  return ({ s with keyAllowed := false }.push t).advance 3

def openFlow (s : Scanner) (t : Token) : Option Scanner := do
  let s ← s.saveKey
  return ({ s with keys := none :: s.keys, keyAllowed := true }.push t).advance 1

def closeFlow (s : Scanner) (t : Token) : Option Scanner := do
  let s ← s.dropKey
  let keys := match s.keys with
    | _ :: k :: rest => k :: rest
    | keys => keys
  return ({ s with keys, keyAllowed := false }.push t).advance 1

def comma (s : Scanner) : Option Scanner := do
  let s ← s.dropKey
  return ({ s with keyAllowed := true }.push .comma).advance 1

def blockMark? (s : Scanner) (collection : Token) : Option Scanner :=
  if s.inFlow then
    some s
  else if s.keyAllowed then
    some (s.openBlock s.cursor.column s.tokens.size collection)
  else
    none

def entry (s : Scanner) : Option Scanner := do
  let s ← (← s.blockMark? .blockSequence).dropKey
  return ({ s with keyAllowed := true }.push .entry).advance 1

def explicitKey (s : Scanner) : Option Scanner := do
  let s ← (← s.blockMark? .blockMapping).dropKey
  return ({ s with keyAllowed := !s.inFlow }.push .key).advance 1

def value (s : Scanner) : Option Scanner :=
  match s.keys with
  | some k :: rest =>
    let s := (s.insertAt k.token .key).openBlock k.column k.token .blockMapping
    some (({ s with keys := none :: rest, keyAllowed := false }.push .value).advance 1)
  | _ => do
    let s ← s.blockMark? .blockMapping
    return ({ s with keyAllowed := !s.inFlow }.push .value).advance 1

def quoted (fuel : Nat) (s : Scanner) (double : Bool) : Option Scanner := do
  let s ← s.saveKey
  let (text, cursor) ← scanQuoted double fuel [] (s.cursor.advance 1)
  return { s with cursor, keyAllowed := false }.push (.scalar (String.ofList text) false)

/-- Behind a plain scalar that ends its line a key may start. -/
def plain (fuel : Nat) (s : Scanner) : Option Scanner := do
  let s ← s.saveKey
  let p ← scanPlain s.inFlow s.margin fuel true [] {} s.cursor
  return { s with cursor := p.cursor, keyAllowed := p.gap.broken }.push
    (.scalar (String.ofList p.text) true)

def isIndicator (c : Char) : Bool :=
  isFlowIndicator c ||
    ['-', '?', ':', '#', '&', '*', '!', '|', '>', '\'', '"', '%', '@', '\x60'].contains c

def startsPlain (s : Scanner) (c : Char) : Bool :=
  let next := s.cursor.peekAt? 1
  !(isIndicator c || isGap (some c)) || (c == '-' && !next.any isSpace) ||
    ((c == '?' || c == ':') && !s.inFlow && !isGap next)

/-- The next token, which starts with `c`. The fuel exceeds the number of characters left. -/
def token (fuel : Nat) (s : Scanner) (c : Char) : Option Scanner :=
  let next := s.cursor.peekAt? 1
  if s.cursor.startsMark '-' then s.documentMark .documentStart
  else if s.cursor.startsMark '.' then s.documentMark .documentEnd
  else if c == '[' then s.openFlow .flowSequence
  else if c == '\x7b' then s.openFlow .flowMapping
  else if c == ']' then s.closeFlow .flowSequenceEnd
  else if c == '\x7d' then s.closeFlow .flowMappingEnd
  else if c == ',' then s.comma
  else if c == '-' && isGap next then s.entry
  else if c == '?' && (s.inFlow || isGap next) then s.explicitKey
  else if c == ':' && (s.inFlow || isGap next) then s.value
  else if c == '\'' then s.quoted fuel false
  else if c == '"' then s.quoted fuel true
  else if s.startsPlain c then s.plain fuel
  else none

def finish (s : Scanner) : Option (List Token) := do
  let s ← (s.closeBlocks 0).dropKey
  return s.tokens.toList

def run : Nat → Scanner → Option (List Token)
  | 0, _ => none
  | fuel + 1, s => do
    let s := s.skipGaps fuel
    let s ← s.dropStaleKeys
    let s := s.closeBlocks (s.cursor.column + 1)
    match s.cursor.peek? with
    | none => s.finish
    | some c => run fuel (← s.token fuel c)

end Scanner

def tokens? (text : String) : Option (List Token) :=
  let cs := text.toList
  if cs.all isAllowed then Scanner.run (cs.length + 2) { cursor := { rest := cs } } else none

end ComponentCompiler.Yaml
