import ComponentCompiler.Yaml.Cursor

namespace ComponentCompiler.Yaml

structure Gap where
  spaces : List Char := []
  /-- A line was ended. -/
  broken : Bool := false
  /-- The first line break, unless it was escaped. -/
  first : Option Char := none
  later : List Char := []

namespace Gap

def addSpace (g : Gap) (c : Char) : Gap :=
  if g.broken then g else { g with spaces := g.spaces ++ [c] }

def addBreak (g : Gap) (c : Char) : Gap :=
  if g.broken then
    { g with later := g.later ++ [breakChar c] }
  else
    { broken := true, first := some (breakChar c) }

def folded (g : Gap) : List Char :=
  if g.broken then
    match g.first with
    | some '\n' => if g.later.isEmpty then [' '] else g.later
    | some c => c :: g.later
    | none => g.later
  else
    g.spaces

/-- Passes blanks and line breaks. A tab that indents a line to less than `margin` is refused. -/
def scan (margin : Nat) : Nat → Gap → Cursor → Option (Gap × Cursor)
  | 0, g, c => some (g, c)
  | fuel + 1, g, c =>
    match c.peek? with
    | none => some (g, c)
    | some ch =>
      if isSpace ch then
        if g.broken && ch == '\t' && c.column < margin then
          none
        else
          scan margin fuel (g.addSpace ch) (c.advance 1)
      else if isBreak ch then
        scan margin fuel (g.addBreak ch) c.newLine
      else
        some (g, c)

end Gap

def simpleEscapes : List (Char × Char) := [
  ('0', '\x00'), ('a', '\x07'), ('b', '\x08'), ('t', '\t'), ('\t', '\t'), ('n', '\n'),
  ('v', '\x0b'), ('f', '\x0c'), ('r', '\r'), ('e', '\x1b'), (' ', ' '), ('"', '"'), ('/', '/'),
  ('\\', '\\'), ('N', '\u0085'), ('_', '\u00a0'), ('L', '\u2028'), ('P', '\u2029')]

def hexValue? (c : Char) : Option Nat :=
  if c.isDigit then some (c.toNat - 48)
  else if 'a' ≤ c ∧ c ≤ 'f' then some (c.toNat - 87)
  else if 'A' ≤ c ∧ c ≤ 'F' then some (c.toNat - 55)
  else none

def codeLength? : Char → Option Nat
  | 'x' => some 2
  | 'u' => some 4
  | 'U' => some 8
  | _ => none

def codeChar? (digits : List Char) (width : Nat) : Option Char := do
  guard (digits.length = width)
  let values ← digits.mapM hexValue?
  let n := values.foldl (fun n d => 16 * n + d) 0
  guard (n < 0xD800 ∨ (0xDFFF < n ∧ n ≤ 0x10FFFF))
  return Char.ofNat n

def scanEscape (c : Cursor) : Option (Char × Cursor) := do
  let letter ← c.peekAt? 1
  match simpleEscapes.lookup letter with
  | some ch => return (ch, c.advance 2)
  | none =>
    let width ← codeLength? letter
    return (← codeChar? ((c.rest.drop 2).take width) width, c.advance (2 + width))

/-- The rest of a scalar inside double or single quotes, behind its opening quote. `done` holds the
characters before it, last first. -/
def scanQuoted (double : Bool) : Nat → List Char → Cursor → Option (List Char × Cursor)
  | 0, _, _ => none
  | fuel + 1, done, c =>
    if c.atDocumentMark then
      none
    else
      match c.peek? with
      | none => none
      | some ch =>
        if isSpace ch || isBreak ch then
          match Gap.scan 0 fuel {} c with
          | some (gap, c) => scanQuoted double fuel (gap.folded.reverse ++ done) c
          | none => none
        else if double then
          if ch == '"' then
            some (done.reverse, c.advance 1)
          else if ch == '\\' then
            if (c.peekAt? 1).any isBreak then
              match Gap.scan 0 fuel { broken := true } (c.advance 1).newLine with
              | some (gap, c) => scanQuoted double fuel (gap.folded.reverse ++ done) c
              | none => none
            else
              match scanEscape c with
              | some (ch, c) => scanQuoted double fuel (ch :: done) c
              | none => none
          else
            scanQuoted double fuel (ch :: done) (c.advance 1)
        else if ch == '\'' then
          if c.peekAt? 1 == some '\'' then
            scanQuoted double fuel ('\'' :: done) (c.advance 2)
          else
            some (done.reverse, c.advance 1)
        else
          scanQuoted double fuel (ch :: done) (c.advance 1)

def isFlowIndicator (c : Char) : Bool :=
  [',', '[', ']', '\x7b', '\x7d'].contains c

structure Plain where
  text : List Char
  gap : Gap
  cursor : Cursor

/-- The rest of a plain scalar. `fresh` tells that a gap, or nothing, stands before it; `done`
holds the characters before it, last first, and `gap` is kept back until the scalar goes on. -/
def scanPlain (inFlow : Bool) (margin : Nat) :
    Nat → Bool → List Char → Gap → Cursor → Option Plain
  | 0, _, _, _, _ => none
  | fuel + 1, fresh, done, gap, c =>
    if fresh && (c.atDocumentMark || c.peek? == some '#') then
      some ⟨done.reverse, gap, c⟩
    else
      match c.peek? with
      | none => some ⟨done.reverse, gap, c⟩
      | some ch =>
        if isSpace ch || isBreak ch then
          match Gap.scan margin fuel {} c with
          | none => none
          | some (gap, c) =>
            if !inFlow && c.column < margin then
              some ⟨done.reverse, gap, c⟩
            else
              scanPlain inFlow margin fuel true done gap c
        else if inFlow && ch == ':' &&
            (c.peekAt? 1).any (fun d => isFlowIndicator d || d == '?') then
          none
        else if (ch == ':' && isGap (c.peekAt? 1)) || (inFlow && isFlowIndicator ch) then
          some ⟨done.reverse, gap, c⟩
        else
          scanPlain inFlow margin fuel false (ch :: (gap.folded.reverse ++ done)) {} (c.advance 1)

end ComponentCompiler.Yaml
