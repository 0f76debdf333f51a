import ComponentCompiler.Text.Blank

namespace ComponentCompiler.TaggedText

def flattenBreak (c : Char) : Char :=
  if c = '\r' ∨ c = '\n' ∨ c = '\t' then ' ' else c

/-- A run of spaces becomes one. After a backslash `s` is a space, any other character keeps the
backslash, and a backslash with nothing after it is dropped. A quote gets a backslash. -/
def escapeChars : List Char → List Char
  | [] => []
  | ' ' :: cs => if cs.head? = some ' ' then escapeChars cs else ' ' :: escapeChars cs
  | '\\' :: [] => []
  | '\\' :: 's' :: cs => ' ' :: escapeChars cs
  | '\\' :: c :: cs => '\\' :: c :: escapeChars cs
  | '"' :: cs => '\\' :: '"' :: escapeChars cs
  | c :: cs => c :: escapeChars cs

/-- Line breaks and tabs count as spaces, and white space at the end is dropped. -/
def escape (raw : String) : String :=
  String.ofList (escapeChars (Text.trimEnd (raw.toList.map flattenBreak)))

def stripDelimiters (raw : String) : String :=
  String.ofList raw.toList.tail.dropLast

end ComponentCompiler.TaggedText
