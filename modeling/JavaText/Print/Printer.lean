import JavaText.Layout.Node

/-!
# The printer

A pass prints one node and everything below it into an empty sink, with the index of that node's
parents; between passes text can be added directly, and then the index is empty. Wherever a node has a
role, a decorator acts in place of printing the node, and printing the node is one of the things that it
can do.

Every operation gives the state it leaves behind whether it succeeds or fails. In a session each call on
a printer leaves a step, its result and the state after it. A call that fails does not stop the calls
after it; only `fail` ends the list in which it stands.
-/

namespace JavaText

/-- Counters of the last pass. -/
structure Stats where
  /-- Nodes in the printed tree, comments not counted. -/
  nodes : Nat := 0
  /-- Orphan comments put back in place, also when comments are not printed. -/
  orphans : Nat := 0
deriving DecidableEq, Repr

/-- What a decorator can see of the printer. -/
structure View where
  options : PrintOptions
  stats : Stats
  depth : Nat
  /-- The text so far. -/
  text : String

/-- What a decorator does when it is asked about a node, one thing after the other. What comes next may
depend on what it sees, and on whether printing the node or a deeper part has failed; it may go on after
an error, and return that error, another one or none. -/
inductive Course where
  | finish (error? : Option PrintError)
  | write (t : String) (next : Course)
  | newline (next : Course)
  | look (next : View → Course)
  /-- Prints the decorated node. -/
  | node (next : Option PrintError → Course)
  /-- A part one level deeper. -/
  | indented (inside : Course) (next : Option PrintError → Course)

namespace Course

def done : Course := .finish none

def fail (e : PrintError) : Course := .finish (some e)

/-- Goes on if there was no error; an error is returned. -/
def onward (next : Course) : Option PrintError → Course
  | none => next
  | some e => .fail e

/-- Prints the decorated node, and goes on if that succeeds. -/
def print (next : Course) : Course := .node next.onward

end Course

/-- Chooses what to do in place of printing a node, by its role and the node itself. A decorator keeps
nothing from one node to the next. -/
abbrev Decorator := Role → Node → Course

/-- Prints every node as it is. -/
def Decorator.plain : Decorator := fun _ _ => .print .done

/-- A decorated node, and the state of the text when its turn came. -/
structure Decoration where
  role : Role
  node : Node
  depth : Nat
  /-- The size in bytes of the text so far. -/
  written : Nat

/-- What does not change while printing. -/
structure Printer where
  options : PrintOptions := {}
  decorator : Decorator := .plain

/-- What printing changes. -/
structure PrintState where
  sink : Sink
  parents : ParentIndex := .empty
  stats : Stats := {}
  /-- The decorated nodes so far, the last one first. -/
  decorations : List Decoration := []

/-- How an operation ended, and the state it left. -/
inductive Outcome where
  | done (s : PrintState)
  | failed (e : PrintError) (s : PrintState)

namespace Outcome

def state : Outcome → PrintState
  | .done s => s
  | .failed _ s => s

def error? : Outcome → Option PrintError
  | .done _ => none
  | .failed e _ => some e

/-- Closes a level. It is closed even after a failure, and that failure counts before a failure to
close it. -/
def closeLevel : Outcome → Outcome
  | .done s =>
    match s.sink.unindent? with
    | some sink => .done { s with sink }
    | none => .failed .indentUnderflow s
  | .failed e s => .failed e { s with sink := s.sink.unindent?.getD s.sink }

/-- Goes on if nothing has failed. -/
def andThen (o : Outcome) (f : PrintState → Outcome) : Outcome :=
  match o with
  | .done s => f s
  | .failed e s => .failed e s

end Outcome

namespace PrintState

def write (s : PrintState) (t : String) : PrintState := { s with sink := s.sink.write t }

def newline (s : PrintState) : PrintState := { s with sink := s.sink.newline }

def writeLine (s : PrintState) (t : String) : PrintState := (s.write t).newline

/-- Runs `f` one level deeper. -/
def indented (s : PrintState) (f : PrintState → Outcome) : Outcome :=
  (f { s with sink := s.sink.indent }).closeLevel

def view (s : PrintState) (options : PrintOptions) : View :=
  ⟨options, s.stats, s.sink.depth, s.sink.text⟩

def countOrphan (s : PrintState) : PrintState :=
  { s with stats := { s.stats with orphans := s.stats.orphans + 1 } }

/-- Notes that a node is about to be decorated. -/
def decorate (s : PrintState) (role : Role) (n : Node) : PrintState :=
  { s with
    decorations := ⟨role, n, s.sink.depth, s.sink.text.utf8ByteSize⟩ :: s.decorations }

end PrintState

/-- Follows a course; `node` prints the decorated node. -/
def Course.run (options : PrintOptions) (node : PrintState → Outcome) : Course → PrintState → Outcome
  | .finish none, s => .done s
  | .finish (some e), s => .failed e s
  | .write t next, s => next.run options node (s.write t)
  | .newline next, s => next.run options node s.newline
  | .look next, s => (next (s.view options)).run options node s
  | .node next, s =>
    let o := node s
    (next o.error?).run options node o.state
  | .indented inside next, s =>
    let o := s.indented (inside.run options node)
    (next o.error?).run options node o.state

namespace Printer

/-- A comment ends its line. -/
def printComment (p : Printer) (c : Comment) (s : PrintState) : PrintState :=
  if p.options.printComments then
    match c.kind with
    | .line => (s.write "//").writeLine c.lineText
    | .block => ((s.write "/*").write c.content).writeLine "*/"
    | .doc => ((s.write "/**").write c.content).writeLine "*/"
  else s

mutual

/-- Prints one item of a layout. -/
def run (p : Printer) : Doc → PrintState → Outcome
  | .write t, s => .done (s.write t)
  | .newline, s => .done s.newline
  | .comment orphan c, s => .done (p.printComment c (if orphan then s.countOrphan else s))
  | .indented ds, s => s.indented (runAll p ds)
  | .decorated role n ds, s =>
    (p.decorator role n).run p.options (runAll p ds) (s.decorate role n)
  | .abort e, s => .failed e s

/-- Prints a layout until an item fails. -/
def runAll (p : Printer) : List Doc → PrintState → Outcome
  | [], s => .done s
  | d :: ds, s => (run p d s).andThen (runAll p ds)

end

/-- A state with nothing printed. -/
def init (p : Printer) : PrintState :=
  { sink := { unit := p.options.indent, newLine := p.options.newLine } }

/-- Prints a node as it stands, within the current text and index. -/
def printNode (p : Printer) (n : Node) (s : PrintState) : Outcome :=
  p.runAll (n.layout s.parents []) s

/-- The pass itself: a new sink, the index of `root`, the layout of `root`. -/
def pass (p : Printer) (root : Node) (s : PrintState) : Outcome :=
  let s := { s with sink := p.init.sink }
  match ParentIndex.build root with
  | .error e => .failed e s
  | .ok parents =>
    (p.printNode root { s with parents, stats := { nodes := parents.size + 1 } }).andThen fun s =>
      if s.sink.depth = 0 then .done s else .failed (.unbalancedIndent s.sink.depth) s

/-- Prints `root` and everything below it. The text is handed out, and dropped if the pass failed;
either way nothing of it stays behind. -/
def print (p : Printer) (root : Node) (s : PrintState) : Except PrintError String × PrintState :=
  let o := p.pass root s
  let rest := { o.state with sink := o.state.sink.cleared, parents := .empty }
  match o with
  | .done s => (.ok s.sink.text, rest)
  | .failed e _ => (.error e, rest)

end Printer

/-- A compilation unit as plain text. -/
def Tree.text (unit : Tree .compilationUnit) (options : PrintOptions) :
    Except PrintError String :=
  let p : Printer := { options }
  (p.print (.tree unit) p.init).1

inductive Call where
  | print (n : Node)
  | printNode (n : Node)
  | comment (c : Comment)
  | write (t : String)
  | writeLine (t : String)
  | newline
  | indented (calls : List Call)
  /-- Asks for the options. -/
  | options
  | fail (e : PrintError)
  /-- Does nothing, as a step of its own. -/
  | skip

/-- What a call gives back. -/
inductive CallResult where
  | nothing
  | text (t : String)
  | options (o : PrintOptions)
  | error (e : PrintError)

structure Step where
  result : CallResult
  state : PrintState

/-- The steps so far, the last one first, and how the calls have ended. -/
structure Session where
  steps : List Step
  outcome : Outcome

namespace Session

/-- A further step, after which the session goes on. -/
def step (steps : List Step) (result : CallResult) (s : PrintState) : Session :=
  ⟨⟨result, s⟩ :: steps, .done s⟩

/-- A further step for an operation that may have failed. -/
def stepOf (steps : List Step) (o : Outcome) : Session :=
  step steps (match o.error? with | none => .nothing | some e => .error e) o.state

end Session

mutual

def Call.run (p : Printer) : Call → List Step → PrintState → Session
  | .print n, steps, s =>
    match p.print n s with
    | (.ok t, s) => .step steps (.text t) s
    | (.error e, s) => .step steps (.error e) s
  | .printNode n, steps, s => .stepOf steps (p.printNode n s)
  | .comment c, steps, s => .step steps .nothing (p.printComment c s)
  | .write t, steps, s => .step steps .nothing (s.write t)
  | .writeLine t, steps, s => .step steps .nothing (s.writeLine t)
  | .newline, steps, s => .step steps .nothing s.newline
  | .indented calls, steps, s =>
    let inner := Call.runAll p calls steps { s with sink := s.sink.indent }
    .stepOf inner.steps inner.outcome.closeLevel
  | .options, steps, s => .step steps (.options p.options) s
  | .fail e, steps, s => ⟨steps, .failed e s⟩
  | .skip, steps, s => .step steps .nothing s

/-- Makes calls until one of them is `fail`. -/
def Call.runAll (p : Printer) : List Call → List Step → PrintState → Session
  | [], steps, s => ⟨steps, .done s⟩
  | c :: cs, steps, s =>
    match Call.run p c steps s with
    | ⟨steps, .done s⟩ => Call.runAll p cs steps s
    | ended => ended

end

/-- A session from a new printer. -/
def Printer.session (p : Printer) (calls : List Call) : Session := Call.runAll p calls [] p.init

end JavaText
