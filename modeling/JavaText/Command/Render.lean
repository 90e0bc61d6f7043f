import JavaText.Json.Settings
import JavaText.Json.Tree

/-!
# Rendering one input

The text of an input is loaded as a compilation unit, printed with or without markup, and given an
output path. The configuration of a run has the options of the printer and the style of the markup.

The parts of a path stand between its slashes; empty parts and parts that are a single dot do not count.
The last part that counts is the name of the file, unless it is two dots.
-/

namespace JavaText.PathText

/-- The parts between the slashes, empty ones included. -/
def parts (path : String) : List (List Char) := path.toList.splitOn '/'

/-- Whether a part counts. -/
def counts (part : List Char) : Bool := part != [] && part != ['.']

/-- The name of the file, if the path ends in one. -/
def fileName? (path : String) : Option (List Char) :=
  match ((parts path).filter counts).getLast? with
  | none => none
  | some part => if part = ['.', '.'] then none else some part

/-- A file name up to its last dot. A dot at the very beginning does not divide it. -/
def cutExtension (name : List Char) : List Char :=
  match (name.reverse.dropWhile (· != '.')).drop 1 with
  | [] => name
  | before => before.reverse

/-- The name of the file without its extension. -/
def stem? (path : String) : Option String :=
  (fileName? path).map fun name => String.ofList (cutExtension name)

def isAbsolute (path : String) : Bool := path.toList.head? == some '/'

/-- A path below a directory. An absolute one stays as it is. -/
def join (dir path : String) : String :=
  if isAbsolute path || dir.isEmpty then path
  else if dir.toList.getLast? == some '/' then dir ++ path
  else dir ++ "/" ++ path

end JavaText.PathText

namespace JavaText

open Json (ReadError LoadError Mode Schema)

/-- What can go wrong in a run of the command. -/
inductive CommandError where
  | read (path : String)
  | write (path : String)
  | config (path : String) (e : LoadError)
  | tree (path : String) (e : LoadError)
  | print (path : String) (e : PrintError)
  /-- The end of a run in which some inputs failed. -/
  | failed (n total : Nat)
deriving DecidableEq, Repr

namespace CommandError

def message : CommandError → String
  | .read path => "cannot read " ++ path
  | .write path => "cannot write " ++ path
  | .config path _ => "invalid config file " ++ path
  | .tree path _ => path ++ " is not a serialized syntax tree"
  | .print path _ => "failed to print " ++ path
  | .failed n total => toString n ++ " of " ++ toString total ++ " inputs failed"

/-- The code under which the error is reported. -/
def code : CommandError → String
  | .read _ | .write _ => "jprint::io"
  | .config _ _ => "jprint::config"
  | .tree _ _ => "jprint::tree"
  | .print _ _ => "jprint::print"
  | .failed _ _ => "jprint::failed"

end CommandError

structure Config where
  printer : PrintOptions := {}
  markup : MarkupStyle := {}
deriving DecidableEq, Repr

namespace Config

inductive Part where
  | printer | markup

abbrev Part.Of : Part → Type
  | .printer => PrintOptions
  | .markup => MarkupStyle

def part (c : Config) : (p : Part) → p.Of
  | .printer => c.printer
  | .markup => c.markup

def schema : Schema Part.Of where
  name
    | .printer => "printer"
    | .markup => "markup"
  absent p := some (part {} p)
  short p := some (part {} p)

def readPart (m : Mode) (j : Json) : (p : Part) → Except ReadError p.Of
  | .printer => PrintOptions.read m j
  | .markup => MarkupStyle.read m j

def read (m : Mode) (j : Json) : Except ReadError Config :=
  (schema.read readPart [.printer, .markup] m j).map fun (printer, markup, ()) =>
    { printer, markup }

def toJson (c : Config) : Json :=
  .record [("printer", c.printer.toJson), ("markup", c.markup.toJson)]

end Config

/-- The form of the output. -/
inductive Flavor where
  | html
  | plain
deriving DecidableEq, Repr

def Flavor.extension : Flavor → String
  | .html => "html"
  | .plain => "java"

/-- Where the rendering of an input goes: a file of the directory, named after the input. -/
def outputPath (dir input : String) (flavor : Flavor) : String :=
  PathText.join dir ((PathText.stem? input).getD input ++ "." ++ flavor.extension)

structure Renderer where
  config : Config := {}
  flavor : Flavor := .html

namespace Renderer

def printer (r : Renderer) : Printer where
  options := r.config.printer
  decorator :=
    match r.flavor with
    | .html => r.config.markup.decorator
    | .plain => .plain

/-- Prints a unit; the path is for errors only. -/
def render (r : Renderer) (path : String) (unit : Tree .compilationUnit) :
    Except CommandError String :=
  (r.printer.print (.tree unit) r.printer.init).1.mapError (.print path)

/-- Loads the text of an input and prints it. -/
def renderText (r : Renderer) (path text : String) : Except CommandError String :=
  ((Json.load (Json.readChild (.only .compilationUnit)) text).mapError (.tree path)).bind
    fun unit => r.render path unit.sole

/-- Renders an input whose text is given, if it could be read. -/
def renderInput (r : Renderer) (path : String) : Option String → Except CommandError String
  | none => .error (.read path)
  | some text => r.renderText path text

end Renderer

/-- The configuration in a file whose text is given, if it could be read. -/
def Config.load (path : String) : Option String → Except CommandError Config
  | none => .error (.read path)
  | some text => (Json.load (Config.read .top) text).mapError (.config path)

end JavaText
