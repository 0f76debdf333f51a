import ComponentCompiler.Text.Split

namespace ComponentCompiler

structure Import where
  /-- The dotted id of a module. -/
  uri : String
  /-- The name the module is imported under; empty without one. -/
  localName : String := ""
  /-- The id counts from the package of the importing module. -/
  isRelative : Bool := false
  deriving Repr, DecidableEq

namespace ModulePath

def parts (id : String) : List String :=
  Text.split '.' id

def segments (id : String) : List String :=
  (parts id).filter (· ≠ "")

def package (id : String) : String :=
  (parts id).headD ""

def belowPackage (id : String) : List String :=
  ((parts id).drop 1).filter (· ≠ "")

def target (importer : String) (i : Import) : String :=
  if i.isRelative then ".".intercalate (package importer :: segments i.uri) else i.uri

def climb (importer : String) : List String :=
  match (belowPackage importer).length with
  | 0 => ["."]
  | depth + 1 => List.replicate (depth + 1) ".."

/-- The path of a file of module `target` as seen from module `importer`: by the module's id, or
up to the package and down again. -/
def filePath (importer target file : String) (isRelative : Bool) : String :=
  if isRelative then
    "/".intercalate (climb importer ++ belowPackage target ++ [file])
  else
    target ++ "/" ++ file

end ModulePath

end ComponentCompiler
