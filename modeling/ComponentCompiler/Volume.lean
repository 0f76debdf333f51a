import ComponentCompiler.Text.Bytes
import ComponentCompiler.Text.Split

namespace ComponentCompiler

abbrev Place := List String

structure Volume where
  files : List (Place × String) := []
  directories : List Place := []
  deriving Repr, DecidableEq

namespace Volume

def steps (path : String) : List String :=
  Text.split '/' path

def isAbsolute (path : String) : Bool :=
  path.toList.head? == some '/'

def join (base path : String) : String :=
  if base = "" || isAbsolute path then path
  else if base.toList.getLast? = some '/' then base ++ path
  else base ++ "/" ++ path

def stays (step : String) : Bool :=
  step = "" || step = "."

def isName (step : String) : Bool :=
  Text.byteSize step ≤ 255 && !step.toList.contains '\x00'

def isPath (path : String) : Bool :=
  Text.byteSize path ≤ 4095

def fileName (path : String) : String :=
  (((steps path).filter fun s => !stays s).getLast?).getD ""

/-- The steps before those at the end that stay. -/
def trimSteps (steps : List String) : List String :=
  (steps.reverse.dropWhile stays).reverse

def parent (path : String) : String :=
  match trimSteps (trimSteps (steps path)).dropLast with
  | [] => if isAbsolute path then "/" else ""
  | above => "/".intercalate above

def read? (v : Volume) (place : Place) : Option String :=
  v.files.lookup place

def isFile (v : Volume) (place : Place) : Bool :=
  (v.read? place).isSome

def top : Place :=
  ["/"]

/-- What stands above the place that relative paths start from counts as directories. -/
def isDirectory (v : Volume) (place : Place) : Bool :=
  place.all (· == "..") || place == top || v.directories.contains place

def up (place : Place) : Place :=
  if place = top then top
  else if place.all (· == "..") then place ++ [".."]
  else place.dropLast

def start (path : String) : Place :=
  if isAbsolute path then top else []

/-- Follows steps from a directory, every step but the last into a directory. -/
def walk (v : Volume) : Place → List String → Option Place
  | here, [] => some here
  | here, step :: rest =>
    if !v.isDirectory here then none
    else if stays step then v.walk here rest
    else if step = ".." then v.walk (up here) rest
    else if isName step then v.walk (here ++ [step]) rest
    else none

def locate? (v : Volume) (path : String) : Option Place :=
  if isPath path then v.walk (start path) (steps path) else none

def textAt? (v : Volume) (path : String) : Option String :=
  (v.locate? path).bind v.read?

def put (v : Volume) (place : Place) (text : String) : Volume :=
  { v with files := (place, text) :: v.files.filter fun f => f.1 != place }

def write? (v : Volume) (path text : String) : Option Volume :=
  (v.locate? path).bind fun place =>
    if v.isDirectory place || !v.isDirectory place.dropLast then none else some (v.put place text)

def makeDirectories (v : Volume) : Place → List String → Option Volume
  | _, [] => some v
  | here, step :: rest =>
    if stays step then v.makeDirectories here rest
    else if step = ".." then v.makeDirectories (up here) rest
    else
      let place := here ++ [step]
      if v.isFile place || !isName step then
        none
      else if v.isDirectory place then
        v.makeDirectories place rest
      else
        makeDirectories { v with directories := place :: v.directories } place rest

def hasDirectory (v : Volume) (path : String) : Bool :=
  (v.locate? path).any v.isDirectory

/-- Makes a directory and all directories above it. A directory that is named with a dot behind it
has to be there, only those above it are made. -/
def createDirAll? (v : Volume) (path : String) : Option Volume :=
  if !isPath path then
    none
  else if ((steps path).reverse.takeWhile stays).contains "." then
    (v.makeDirectories (start path) (steps (parent path))).filter fun v => v.hasDirectory path
  else
    v.makeDirectories (start path) (steps path)

def ofFiles? (files : List (String × String)) : Option Volume :=
  files.foldlM (fun v (path, text) => do (← v.createDirAll? (parent path)).write? path text) {}

end Volume

end ComponentCompiler
