import ComponentCompiler.Config
import ComponentCompiler.Span

namespace ComponentCompiler

structure SyntaxFault where
  line : Nat
  column : Nat
  byteOffset : Nat
  unitName : String
  deriving Repr, DecidableEq

inductive CompileError where
  | malformed (fault : SyntaxFault)
  | overlappingEdits (first second : Span)
  | invalidConfig (fault : ConfigFault)
  /-- The text of a configuration is no document of the expected shape. -/
  | unreadableConfig
  /-- A configuration file cannot be read. -/
  | missingConfig
  deriving Repr, DecidableEq

def SyntaxFault.message (f : SyntaxFault) : String :=
  s!"syntax error in '{f.unitName}' at {f.line}:{f.column} (byte {f.byteOffset})"

namespace CompileError

def message : CompileError → String
  | malformed fault => fault.message
  | overlappingEdits first second =>
    s!"overlapping edits: [{first.start}, {first.stop}) and [{second.start}, {second.stop})"
  | invalidConfig fault => "invalid config: " ++ fault.message
  | unreadableConfig => ""
  | missingConfig => ""

end CompileError

def Config.validate (c : Config) : Except CompileError Unit :=
  match c.fault? with
  | some fault => .error (.invalidConfig fault)
  | none => .ok ()

end ComponentCompiler
