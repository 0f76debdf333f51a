import ComponentCompiler.Cst.Table
import ComponentCompiler.Text.Quoted

namespace ComponentCompiler.Cst

inductive Sketch where
  | leaf (kind text : String) (named : Bool)
  | node (kind : String) (parts : List Sketch)
  deriving Repr, Inhabited

def Sketch.token (text : String) : Sketch :=
  .leaf text text false

structure TokenNotFound where
  text : String
  start : Nat
  deriving Repr, DecidableEq

def TokenNotFound.message (e : TokenNotFound) : String :=
  "token " ++ Text.quoted e.text ++ s!" not found after byte {e.start}"

def isWordChar (c : Char) : Bool :=
  c.isAlphanum || c == '_' || c == '$'

/-- Whether `token`, standing between `before` and `after`, is not glued to a word. -/
def isFree (token : List Char) (before after : Option Char) : Bool :=
  !(token.head?.any isWordChar && before.any isWordChar) &&
    !(token.getLast?.any isWordChar && after.any isWordChar)

/-- The offset of the first free occurrence of `token`. The next occurrence is looked for behind
the one that was refused: `skip` characters are still to be passed. -/
def scanToken (token : List Char) : Nat → Option Char → Nat → List Char → Option Nat
  | skip, before, offset, [] =>
    if skip = 0 ∧ token.isEmpty ∧ isFree token before none then some offset else none
  | skip + 1, _, offset, c :: cs => scanToken token skip (some c) (offset + c.utf8Size) cs
  | 0, before, offset, c :: cs =>
    if token.isPrefixOf (c :: cs) then
      if isFree token before ((c :: cs).drop token.length).head? then
        some offset
      else
        scanToken token (token.length - 1) (some c) (offset + c.utf8Size) cs
    else
      scanToken token 0 (some c) (offset + c.utf8Size) cs

def findToken (source : String) (start : Nat) (token : String) : Option Nat := do
  let cs := source.toList
  let passed ← Text.takeBytes start cs
  let rest ← Text.dropBytes start cs
  scanToken token.toList 0 passed.getLast? start rest

def pointAt (source : String) (offset : Nat) : Point :=
  let before := ((Text.takeBytes offset source.toList).getD []).reverse
  { row := before.count '\n'
    column := Text.byteLength (before.takeWhile (· ≠ '\n')) }

structure Layout where
  cursor : Nat := 0
  entries : Array Entry := #[]

def Layout.push (l : Layout) (e : Entry) : Nat × Layout :=
  (l.entries.size, { l with entries := l.entries.push e })

namespace Sketch

/-- From the start of the first child to the end of the last; nothing wide without children. -/
def coverOf (l : Layout) (ids : List Nat) : Span :=
  ⟨(ids.head?.bind (l.entries[·]?)).elim l.cursor (·.head.span.start),
    (ids.getLast?.bind (l.entries[·]?)).elim l.cursor (·.head.span.stop)⟩

mutual

def place (source : String) : Sketch → Layout → Except TokenNotFound (Nat × Layout)
  | leaf kind text named, l =>
    match findToken source l.cursor text with
    | none => .error ⟨text, l.cursor⟩
    | some start =>
      let stop := start + Text.byteSize text
      .ok ({ l with cursor := stop }.push
        ⟨{ kind, span := ⟨start, stop⟩, point := pointAt source start, named }, []⟩)
  | node kind parts, l =>
    match placeAll source parts l with
    | .error e => .error e
    | .ok (ids, l) =>
      let span := coverOf l ids
      .ok (l.push ⟨{ kind, span, point := pointAt source span.start }, ids⟩)

def placeAll (source : String) : List Sketch → Layout → Except TokenNotFound (List Nat × Layout)
  | [], l => .ok ([], l)
  | s :: rest, l =>
    match place source s l with
    | .error e => .error e
    | .ok (id, l) =>
      match placeAll source rest l with
      | .error e => .error e
      | .ok (ids, l) => .ok (id :: ids, l)

end

/-- The table of a sketch, children before their parents. The root spans the whole source. -/
def layout (s : Sketch) (source : String) : Except TokenNotFound Table := do
  let (root, l) ← s.place source {}
  let whole := fun (e : Entry) =>
    { e with head := { e.head with span := ⟨0, Text.byteSize source⟩, point := {} } }
  return { entries := l.entries.modify root whole, root }

end Sketch

end ComponentCompiler.Cst
