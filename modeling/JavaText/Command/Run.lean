import JavaText.Command.Arguments
import JavaText.Command.Render

/-!
# A run of the command

The configuration is loaded, all inputs are rendered, and then each rendering is
emitted, to the standard output or to a file. An input that fails does not hold up the others.

The run reaches files and output through a `Host`, so one definition serves the command itself and its
model over a folder held in memory.
-/

namespace JavaText

/-- What a run needs from its surroundings. -/
structure Host (m : Type → Type) where
  /-- The text of a file, if it can be read and is Unicode. -/
  read : String → m (Option String)
  /-- Makes sure that a directory is there; whether it is. -/
  makeDirectory : String → m Bool
  /-- Writes a file; whether it was written. -/
  write : String → String → m Bool
  /-- Writes to the standard output. -/
  print : String → m Unit
  report : CommandError → m Unit

/-- How a run ended. -/
inductive Exit where
  | success
  | failure
  | usage
deriving DecidableEq, Repr

def Exit.code : Exit → UInt32
  | .success => 0
  | .failure => 1
  | .usage => 2

/-- The answer to a question for the version. -/
def versionText : String := "jprint 0.1.0\n"

/-- The answer to a question for help. -/
def usageText : String :=
  "Usage: jprint [--config FILE] [--indent N] [--no-comments] [--plain] [--out-dir DIR] TREE...\n"

namespace Invocation

/-- The configuration with the settings of the command line in it. -/
def adjust (inv : Invocation) (c : Config) : Config :=
  let printer := match inv.indent with
    | some n => c.printer.withIndentWidth n
    | none => c.printer
  { c with printer := if inv.noComments then printer.withoutComments else printer }

def flavor (inv : Invocation) : Flavor := if inv.plain then .plain else .html

def renderer (inv : Invocation) (c : Config) : Renderer := ⟨inv.adjust c, inv.flavor⟩

end Invocation

namespace Host

variable {m : Type → Type} [Monad m]

def loadConfig (h : Host m) : Option String → m (Except CommandError Config)
  | none => return .ok {}
  | some path => return Config.load path (← h.read path)

def renderFile (h : Host m) (r : Renderer) (path : String) : m (Except CommandError String) :=
  return r.renderInput path (← h.read path)

def renderAll (h : Host m) (r : Renderer) (inputs : List String) :
    m (List (Except CommandError String)) :=
  inputs.mapM (h.renderFile r)

/-- Puts a rendering where it belongs. -/
def emit (h : Host m) (outDir : Option String) (flavor : Flavor) (input text : String) :
    m (Except CommandError Unit) := do
  match outDir with
  | none =>
    h.print text
    return .ok ()
  | some dir =>
    let path := outputPath dir input flavor
    if ← h.makeDirectory dir then
      if ← h.write path text then return .ok () else return .error (.write path)
    else return .error (.write path)

/-- Emits the renderings in order; how many inputs have failed. -/
def emitAll (h : Host m) (outDir : Option String) (flavor : Flavor) :
    List (String × Except CommandError String) → m Nat
  | [] => return 0
  | (input, result) :: rest => do
    let emitted ← match result with
      | .ok text => h.emit outDir flavor input text
      | .error e => pure (.error e)
    match emitted with
    | .ok () => h.emitAll outDir flavor rest
    | .error e =>
      h.report e
      return (← h.emitAll outDir flavor rest) + 1

def perform (h : Host m) (inv : Invocation) : m Exit := do
  match ← h.loadConfig inv.config with
  | .error e =>
    h.report e
    return .failure
  | .ok config =>
    let results ← h.renderAll (inv.renderer config) inv.inputs
    let failed ← h.emitAll inv.outDir inv.flavor (inv.inputs.zip results)
    if failed = 0 then return .success
    else
      h.report (.failed failed inv.inputs.length)
      return .failure

/-- The command with the given arguments. -/
def run (h : Host m) (args : List String) : m Exit := do
  match Invocation.ofArguments args with
  | .ok inv => h.perform inv
  | .error .version =>
    h.print versionText
    return .success
  | .error .help =>
    h.print usageText
    return .success
  | .error .usage => return .usage

end Host

end JavaText
