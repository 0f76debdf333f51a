import ComponentCompiler.Graph.Manifest

namespace ComponentCompiler

namespace Markup

/-- The characters that a text may not hold, with the entities they are written as. The ampersand
comes first, so that no entity is escaped again. -/
def entities : List (Char × String) :=
  [('&', "&amp;"), ('<', "&lt;"), ('>', "&gt;"), ('"', "&quot;"), ('\'', "&apos;")]

def replaceChar (old : Char) (new cs : List Char) : List Char :=
  cs.flatMap fun c => if c = old then new else [c]

def escapeChars (cs : List Char) : List Char :=
  entities.foldl (fun cs (c, entity) => replaceChar c entity.toList cs) cs

def escape (text : String) : String :=
  String.ofList (escapeChars text.toList)

end Markup

namespace ModuleGraph

def drawingHead : String :=
  "<?xml version=\"1.0\" encoding=\"UTF-8\"?>\n" ++
  "<graphml xmlns=\"http://graphml.graphdrawing.org/xmlns\"\n" ++
  "    xmlns:xsi=\"http://www.w3.org/2001/XMLSchema-instance\"\n" ++
  "    xsi:schemaLocation=\"http://graphml.graphdrawing.org/xmlns\n" ++
  "     http://graphml.graphdrawing.org/xmlns/1.0/graphml.xsd\">\n" ++
  "<key id=\"d0\" for=\"node\" attr.name=\"name\" attr.type=\"string\"/>\n" ++
  "<key id=\"d1\" for=\"node\" attr.name=\"module\" attr.type=\"string\"/>\n" ++
  "<key id=\"d2\" for=\"node\" attr.name=\"state\" attr.type=\"string\"/>\n" ++
  "<graph edgedefault=\"directed\">\n"

def nodeElement (g : ModuleGraph) (ordinal : Nat) (u : ModuleUnit) : String :=
  s!"<node id=\"n{ordinal}\">\n" ++
  "  <data key=\"d0\">" ++ Markup.escape u.name ++ "</data>\n" ++
  "  <data key=\"d1\">" ++ Markup.escape (g.importIdOf u.module) ++ "</data>\n" ++
  "  <data key=\"d2\">" ++ u.state.name ++ "</data>\n" ++
  "</node>\n"

def edgeElement (number : Nat) (e : Nat × Nat) : String :=
  let (source, target) := e
  s!"<edge id=\"e{number}\" source=\"n{source}\" target=\"n{target}\"/>\n"

def drawnUnit? (g : ModuleGraph) (entry : UnitId × ModuleUnit) : Option String :=
  (g.ordinal? entry.1).map fun ordinal => g.nodeElement ordinal entry.2

def drawnEdge? (g : ModuleGraph) (entry : (UnitId × UnitId) × Nat) : Option String :=
  (g.edgeRecord? entry.1).map (edgeElement entry.2)

/-- Nothing is drawn if a unit or an end of an edge has no number. -/
def drawing? (g : ModuleGraph) : Option String := do
  let nodes ← g.units.mapM g.drawnUnit?
  let edges ← g.sortedEdges.zipIdx.mapM g.drawnEdge?
  return drawingHead ++ String.join nodes ++ String.join edges ++ "</graph>\n</graphml>\n"

end ModuleGraph

end ComponentCompiler
