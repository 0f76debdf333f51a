import ComponentCompiler.Json.Basic

namespace ComponentCompiler.Json

def digits (n : Nat) : List Char :=
  Nat.toDigits 10 n

def hexDigit (n : Nat) : Char :=
  if n < 10 then Char.ofNat (48 + n) else Char.ofNat (87 + n)

/-- Only the quote, the backslash and the controls below the space are escaped. -/
def escapeChar (c : Char) : List Char :=
  if c = '"' then ['\\', '"']
  else if c = '\\' then ['\\', '\\']
  else if c = '\n' then ['\\', 'n']
  else if c = '\r' then ['\\', 'r']
  else if c = '\t' then ['\\', 't']
  else if c = '\x08' then ['\\', 'b']
  else if c = '\x0c' then ['\\', 'f']
  else if c.toNat < 0x20 then
    ['\\', 'u', '0', '0', hexDigit (c.toNat / 16), hexDigit (c.toNat % 16)]
  else [c]

def quote (text : String) : List Char :=
  '"' :: text.toList.flatMap escapeChar ++ ['"']

def leaf : Json → List Char
  | null => "null".toList
  | bool true => "true".toList
  | bool false => "false".toList
  | natural n => digits n
  | number spelling => spelling.toList
  | text value => quote value
  | unpaired => "null".toList
  | list _ => []
  | record _ => []

mutual

def compactChars : Json → List Char
  | list items => '[' :: compactItems items ++ [']']
  | record fields => '\x7b' :: compactFields fields ++ ['\x7d']
  | value => leaf value

def compactItems : List Json → List Char
  | [] => []
  | [item] => compactChars item
  | item :: rest => compactChars item ++ ',' :: compactItems rest

def compactFields : List (String × Json) → List Char
  | [] => []
  | [(name, value)] => quote name ++ ':' :: compactChars value
  | (name, value) :: rest => quote name ++ ':' :: compactChars value ++ ',' :: compactFields rest

end

def newLine (depth : Nat) : List Char :=
  '\n' :: List.replicate (2 * depth) ' '

mutual

/-- `value` inside `depth` levels. An empty list or record stays on its line. -/
def prettyChars (depth : Nat) : Json → List Char
  | list [] => ['[', ']']
  | list items => '[' :: prettyItems (depth + 1) items ++ newLine depth ++ [']']
  | record [] => ['\x7b', '\x7d']
  | record fields => '\x7b' :: prettyFields (depth + 1) fields ++ newLine depth ++ ['\x7d']
  | value => leaf value

def prettyItems (depth : Nat) : List Json → List Char
  | [] => []
  | [item] => newLine depth ++ prettyChars depth item
  | item :: rest => newLine depth ++ prettyChars depth item ++ ',' :: prettyItems depth rest

def prettyFields (depth : Nat) : List (String × Json) → List Char
  | [] => []
  | [(name, value)] => newLine depth ++ quote name ++ ':' :: ' ' :: prettyChars depth value
  | (name, value) :: rest =>
    newLine depth ++ quote name ++ ':' :: ' ' :: prettyChars depth value ++
      ',' :: prettyFields depth rest

end

def compact (value : Json) : String :=
  String.ofList (compactChars value)

def pretty (value : Json) : String :=
  String.ofList (prettyChars 0 value)

end ComponentCompiler.Json
