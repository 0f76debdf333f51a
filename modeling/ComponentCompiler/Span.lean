import ComponentCompiler.Text.Bytes

namespace ComponentCompiler

/-- The bytes from `start` up to, not including, `stop`. A reversed span is empty. -/
structure Span where
  start : Nat
  stop : Nat
  deriving Repr, DecidableEq, Inhabited

namespace Span

def empty : Span := ⟨0, 0⟩

def byteLength (s : Span) : Nat :=
  s.stop - s.start

def contains (outer inner : Span) : Bool :=
  outer.start ≤ inner.start && inner.stop ≤ outer.stop

def merge (a b : Span) : Span :=
  ⟨min a.start b.start, max a.stop b.stop⟩

def slice (s : Span) (source : String) : String :=
  Text.sliceBytes s.start s.stop source

def render (s : Span) : String :=
  s!"[{s.start}, {s.stop}]"

end Span

end ComponentCompiler
