import ComponentCompiler.Error

namespace ComponentCompiler

structure Edit where
  span : Span
  text : String
  deriving Repr, DecidableEq

namespace Edit

def insertion (place : Nat) (text : String) : Edit :=
  ⟨⟨place, place⟩, text⟩

def isInsertion (e : Edit) : Bool :=
  e.span.stop ≤ e.span.start

/-- By start, then by end: an insertion stands before a replacement that starts where it is. -/
def le (a b : Edit) : Bool :=
  a.span.start < b.span.start || (a.span.start == b.span.start && a.span.stop ≤ b.span.stop)

def sort (edits : List Edit) : List Edit :=
  edits.mergeSort le

/-- Refuses the first two neighbours of which the second starts before the first ends. -/
def check : List Edit → Except CompileError Unit
  | first :: second :: rest =>
    if second.span.start < first.span.stop then
      .error (.overlappingEdits first.span second.span)
    else
      check (second :: rest)
  | _ => .ok ()

/-- The source from `cursor` to `stop` with the edits applied in the order given; an edit that
starts before the cursor is passed over. -/
def spliceFrom (source : String) (stop : Nat) : Nat → List Edit → String
  | cursor, [] => Span.slice ⟨cursor, stop⟩ source
  | cursor, e :: rest =>
    if e.span.start < cursor then
      spliceFrom source stop cursor rest
    else
      Span.slice ⟨cursor, e.span.start⟩ source ++ e.text ++
        spliceFrom source stop e.span.stop rest

/-- The text of `range` with those edits applied that lie inside it. Its ends are taken to be below
`2 ^ 63`, as they are in any text that fits in memory: no buffer could be had for a longer range. -/
def splice (source : String) (range : Span) (edits : List Edit) : String :=
  spliceFrom source range.stop range.start (sort (edits.filter fun e => range.contains e.span))

def apply (source : String) (edits : List Edit) : Except CompileError String := do
  let sorted := sort edits
  check sorted
  return splice source ⟨0, Text.byteSize source⟩ sorted

end Edit

end ComponentCompiler
