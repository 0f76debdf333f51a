import ComponentCompiler.Json.Basic

namespace ComponentCompiler.Json

def isSpace (c : Char) : Bool :=
  c == ' ' || c == '\n' || c == '\t' || c == '\r'

def skipSpace (cs : List Char) : List Char :=
  cs.dropWhile isSpace

def hexValue? (c : Char) : Option Nat :=
  if '0' ≤ c ∧ c ≤ '9' then some (c.toNat - 48)
  else if 'a' ≤ c ∧ c ≤ 'f' then some (c.toNat - 87)
  else if 'A' ≤ c ∧ c ≤ 'F' then some (c.toNat - 55)
  else none

def hexQuad? (a b c d : Char) : Option Nat := do
  let a ← hexValue? a
  let b ← hexValue? b
  let c ← hexValue? c
  let d ← hexValue? d
  return ((a * 16 + b) * 16 + c) * 16 + d

def isLeadSurrogate (n : Nat) : Bool :=
  0xD800 ≤ n && n < 0xDC00

def isTrailSurrogate (n : Nat) : Bool :=
  0xDC00 ≤ n && n < 0xE000

def joinSurrogates (lead trail : Nat) : Char :=
  Char.ofNat (0x10000 + (lead - 0xD800) * 0x400 + (trail - 0xDC00))

def shortEscape? (c : Char) : Option Char :=
  if c = '"' then some '"'
  else if c = '\\' then some '\\'
  else if c = '/' then some '/'
  else if c = 'b' then some '\x08'
  else if c = 'f' then some '\x0c'
  else if c = 'n' then some '\n'
  else if c = 'r' then some '\r'
  else if c = 't' then some '\t'
  else none

/-- What a string's body reads as: its characters, and whether every surrogate escape in it has
its partner. -/
structure StringBody where
  chars : List Char
  paired : Bool
  deriving Repr

def prepend (cs : List Char) (paired : Bool) (p : StringBody × List Char) :
    StringBody × List Char :=
  (⟨cs ++ p.1.chars, paired && p.1.paired⟩, p.2)

/-- Reads a string from behind its opening quote. `lead` is the surrogate escape just read that
still waits for its partner. -/
def readString : Option Nat → List Char → Option (StringBody × List Char)
  | _, [] => none
  | lead, '"' :: rest => some (⟨[], lead.isNone⟩, rest)
  | lead, '\\' :: 'u' :: a :: b :: c :: d :: rest =>
    match hexQuad? a b c d, lead with
    | none, _ => none
    | some n, some m =>
      if isTrailSurrogate n then (readString none rest).map (prepend [joinSurrogates m n] true)
      else if isLeadSurrogate n then (readString (some n) rest).map (prepend [] false)
      else (readString none rest).map (prepend [Char.ofNat n] false)
    | some n, none =>
      if isTrailSurrogate n then (readString none rest).map (prepend [] false)
      else if isLeadSurrogate n then readString (some n) rest
      else (readString none rest).map (prepend [Char.ofNat n] true)
  | lead, '\\' :: c :: rest =>
    match shortEscape? c with
    | none => none
    | some e => (readString none rest).map (prepend [e] lead.isNone)
  | lead, c :: rest =>
    if c.toNat < 0x20 ∨ c = '\\' then none
    else (readString none rest).map (prepend [c] lead.isNone)

def StringBody.text? (body : StringBody) : Option String :=
  if body.paired then some (String.ofList body.chars) else none

def StringBody.value (body : StringBody) : Json :=
  body.text?.elim .unpaired .text

abbrev RecordBody := Option (List (String × Json))

def RecordBody.value (body : RecordBody) : Json :=
  body.elim .unpaired .record

def RecordBody.cons (name : StringBody) (value : Json) (rest : RecordBody) : RecordBody :=
  match name.text?, rest with
  | some name, some fields => some ((name, value) :: fields)
  | _, _ => none

def ofDigits (ds : List Char) : Nat :=
  ds.foldl (fun n c => n * 10 + (c.toNat - 48)) 0

def readDigits (cs : List Char) : Option (List Char × List Char) :=
  match cs.takeWhile Char.isDigit with
  | [] => none
  | ds => some (ds, cs.dropWhile Char.isDigit)

def readFraction : List Char → Option (List Char × List Char)
  | '.' :: rest => (readDigits rest).map fun (ds, rest) => ('.' :: ds, rest)
  | rest => some ([], rest)

def readExponent : List Char → Option (List Char × List Char)
  | c :: rest =>
    if c = 'e' ∨ c = 'E' then
      match rest with
      | s :: rest' =>
        if s = '+' ∨ s = '-' then (readDigits rest').map fun (ds, rest) => (c :: s :: ds, rest)
        else (readDigits rest).map fun (ds, rest) => (c :: ds, rest)
      | [] => none
    else some ([], c :: rest)
  | [] => some ([], [])

/-- The digits before a point: a lone zero, or digits that start with no zero. -/
def readWhole : List Char → Option (List Char × List Char)
  | '0' :: rest => some (['0'], rest)
  | rest => readDigits rest

def readUnsigned (sign : List Char) (cs : List Char) : Option (Json × List Char) := do
  let (whole, rest) ← readWhole cs
  let (fraction, rest) ← readFraction rest
  let (exponent, rest) ← readExponent rest
  if sign.isEmpty && fraction.isEmpty && exponent.isEmpty then
    return (.natural (ofDigits whole), rest)
  else
    return (.number (String.ofList (sign ++ whole ++ fraction ++ exponent)), rest)

def readNumber : List Char → Option (Json × List Char)
  | '-' :: rest => readUnsigned ['-'] rest
  | rest => readUnsigned [] rest

mutual

/-- Reads one value. Each call uses up one unit of fuel. -/
def readValue : Nat → List Char → Option (Json × List Char)
  | 0, _ => none
  | fuel + 1, cs =>
    match skipSpace cs with
    | '"' :: rest => (readString none rest).map fun (body, rest) => (body.value, rest)
    | '[' :: rest =>
      match skipSpace rest with
      | ']' :: rest => some (.list [], rest)
      | rest => (readItems fuel rest).map fun (items, rest) => (.list items, rest)
    | '\x7b' :: rest =>
      match skipSpace rest with
      | '\x7d' :: rest => some (.record [], rest)
      | rest => (readFields fuel rest).map fun (body, rest) => (body.value, rest)
    | 't' :: 'r' :: 'u' :: 'e' :: rest => some (.bool true, rest)
    | 'f' :: 'a' :: 'l' :: 's' :: 'e' :: rest => some (.bool false, rest)
    | 'n' :: 'u' :: 'l' :: 'l' :: rest => some (.null, rest)
    | rest => readNumber rest

def readItems : Nat → List Char → Option (List Json × List Char)
  | 0, _ => none
  | fuel + 1, cs =>
    match readValue fuel cs with
    | none => none
    | some (item, rest) =>
      match skipSpace rest with
      | ',' :: rest => (readItems fuel rest).map fun (items, rest) => (item :: items, rest)
      | ']' :: rest => some ([item], rest)
      | _ => none

def readFields : Nat → List Char → Option (RecordBody × List Char)
  | 0, _ => none
  | fuel + 1, cs =>
    match skipSpace cs with
    | '"' :: rest =>
      match readString none rest with
      | none => none
      | some (name, rest) =>
        match skipSpace rest with
        | ':' :: rest =>
          match readValue fuel rest with
          | none => none
          | some (value, rest) =>
            match skipSpace rest with
            | ',' :: rest =>
              (readFields fuel rest).map fun (body, rest) => (RecordBody.cons name value body, rest)
            | '\x7d' :: rest => some (RecordBody.cons name value (some []), rest)
            | _ => none
        | _ => none
    | _ => none

end

def parseChars (cs : List Char) : Option Json :=
  match readValue (2 * cs.length + 2) cs with
  | some (value, rest) => if (skipSpace rest).isEmpty then some value else none
  | none => none

def parse? (text : String) : Option Json :=
  parseChars text.toList

end ComponentCompiler.Json
