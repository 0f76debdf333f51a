import ComponentCompiler.Text.Bytes

namespace ComponentCompiler.Yaml

def isAllowed (c : Char) : Bool :=
  let n := c.toNat
  n == 0x09 || n == 0x0A || n == 0x0D || (0x20 ≤ n && n ≤ 0x7E) || n == 0x85 ||
    (0xA0 ≤ n && n ≤ 0xFFFD) || 0x10000 ≤ n

def isBreak (c : Char) : Bool :=
  c == '\n' || c == '\r' || c == '\u0085' || c == '\u2028' || c == '\u2029'

def isSpace (c : Char) : Bool :=
  c == ' ' || c == '\t'

def isGap : Option Char → Bool
  | none => true
  | some c => isSpace c || isBreak c

def breakChar (c : Char) : Char :=
  if c == '\u2028' || c == '\u2029' then c else '\n'

structure Cursor where
  rest : List Char
  index : Nat := 0
  line : Nat := 0
  column : Nat := 0

namespace Cursor

def peek? (c : Cursor) : Option Char :=
  c.rest.head?

def peekAt? (c : Cursor) (n : Nat) : Option Char :=
  c.rest[n]?

def advance (c : Cursor) (n : Nat) : Cursor :=
  { c with
    rest := c.rest.drop n
    index := c.index + Text.byteLength (c.rest.take n)
    column := c.column + n }

def advanceWhile (c : Cursor) (p : Char → Bool) : Cursor :=
  c.advance (c.rest.takeWhile p).length

def newLine (c : Cursor) : Cursor :=
  let width := match c.rest with
    | '\r' :: '\n' :: _ => 2
    | _ => 1
  { rest := c.rest.drop width
    index := c.index + Text.byteLength (c.rest.take width)
    line := c.line + 1
    column := 0 }

/-- Passes a mark of byte order at the start of a line. It takes a column like any other
character. -/
def passOrderMark (c : Cursor) : Cursor :=
  if c.column == 0 && c.peek? == some '\ufeff' then c.advance 1 else c

/-- A line that starts with three of `mark` and nothing glued to them. -/
def startsMark (c : Cursor) (mark : Char) : Bool :=
  c.column == 0 && c.rest.take 3 == [mark, mark, mark] && isGap (c.peekAt? 3)

def atDocumentMark (c : Cursor) : Bool :=
  c.startsMark '-' || c.startsMark '.'

end Cursor

end ComponentCompiler.Yaml
