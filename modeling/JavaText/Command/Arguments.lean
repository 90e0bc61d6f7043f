/-!
# The command line

Arguments are taken one after another, and the first one that is wrong, or that asks for the version or
for help, decides. Options may stand anywhere; after `--` everything is an input.
-/

namespace JavaText

/-- What a command line asks for. -/
structure Invocation where
  inputs : List String := []
  config : Option String := none
  /-- The number of blanks to indent by. -/
  indent : Option Nat := none
  noComments : Bool := false
  plain : Bool := false
  outDir : Option String := none
deriving DecidableEq, Repr

/-- Why there is nothing to run. -/
inductive Stop where
  /-- The command line is wrong. -/
  | usage
  | version
  | help
deriving DecidableEq, Repr

namespace Invocation

/-- An option with a value, or a switch. -/
inductive Opt where
  | config | indent | outDir
  | noComments | plain | version | help
deriving DecidableEq, Repr

namespace Opt

def takesValue : Opt → Bool
  | .config | .indent | .outDir => true
  | .noComments | .plain | .version | .help => false

def ofLong? : String → Option Opt
  | "config" => some .config
  | "indent" => some .indent
  | "out-dir" => some .outDir
  | "no-comments" => some .noComments
  | "plain" => some .plain
  | "version" => some .version
  | "help" => some .help
  | _ => none

def ofShort? : Char → Option Opt
  | 'c' => some .config
  | 'o' => some .outDir
  | 'V' => some .version
  | 'h' => some .help
  | _ => none

end Opt

/-- A count: decimal digits, perhaps after a plus sign, below 2 ^ 64. -/
def count? (s : String) : Option Nat :=
  let digits := match s.toList with
    | '+' :: cs => cs
    | cs => cs
  if digits.isEmpty || !digits.all Char.isDigit then none
  else
    let n := digits.foldl (fun n c => 10 * n + (c.toNat - '0'.toNat)) 0
    if n < UInt64.size then some n else none

/-- Sets the value of an option. No value is empty, and no option is given twice. -/
def setValue (inv : Invocation) (o : Opt) (v : String) : Except Stop Invocation :=
  if v.isEmpty then .error .usage
  else match o with
    | .config => if inv.config.isSome then .error .usage else .ok { inv with config := some v }
    | .outDir => if inv.outDir.isSome then .error .usage else .ok { inv with outDir := some v }
    | .indent =>
      match count? v with
      | some n => if inv.indent.isSome then .error .usage else .ok { inv with indent := some n }
      | none => .error .usage
    | _ => .error .usage

/-- Turns a switch on, once. -/
def switch (inv : Invocation) : Opt → Except Stop Invocation
  | .noComments => if inv.noComments then .error .usage else .ok { inv with noComments := true }
  | .plain => if inv.plain then .error .usage else .ok { inv with plain := true }
  | .version => .error .version
  | .help => .error .help
  | .config | .indent | .outDir => .error .usage

def addInput (inv : Invocation) (path : String) : Except Stop Invocation :=
  if path.isEmpty then .error .usage else .ok { inv with inputs := inv.inputs ++ [path] }

/-- What an argument is by itself. -/
inductive Arg where
  /-- Two dashes alone. -/
  | separator
  | input
  /-- An option, and the value in the same argument. -/
  | opt (o : Opt) (value : Option String)
  | unknown

/-- The text before the first equals sign, and the text after it if there is one. -/
def cutEquals (cs : List Char) : String × Option String :=
  match cs.dropWhile (· != '=') with
  | [] => (String.ofList cs, none)
  | _ :: value => (String.ofList (cs.takeWhile (· != '=')), some (String.ofList value))

/-- What an argument is, by its first characters. The value of a short option may follow it directly
or after an equals sign. -/
def Arg.ofText (s : String) : Arg :=
  match s.toList with
  | ['-', '-'] => .separator
  | '-' :: '-' :: cs =>
    let (name, value) := cutEquals cs
    match Opt.ofLong? name with
    | some o => .opt o value
    | none => .unknown
  | '-' :: c :: cs =>
    match Opt.ofShort? c with
    | none => .unknown
    | some o =>
      if !o.takesValue then .opt o none
      else match cs with
        | [] => .opt o none
        | '=' :: value => .opt o (some (String.ofList value))
        | value => .opt o (some (String.ofList value))
  | _ => .input

/-- Takes the arguments after two dashes. -/
def parseInputs (inv : Invocation) : List String → Except Stop Invocation
  | [] => .ok inv
  | a :: as => (inv.addInput a).bind fun inv => parseInputs inv as

/-- Takes the arguments; `pending` is an option whose value is still to come. -/
def parseAll (inv : Invocation) (pending : Option Opt) : List String → Except Stop Invocation
  | [] => if pending.isSome then .error .usage else .ok inv
  | a :: as =>
    match pending, Arg.ofText a with
    | some o, .input => (inv.setValue o a).bind fun inv => parseAll inv none as
    | some _, _ => .error .usage
    | none, .separator => parseInputs inv as
    | none, .input => (inv.addInput a).bind fun inv => parseAll inv none as
    | none, .unknown => .error .usage
    | none, .opt o value =>
      match o.takesValue, value with
      | true, some v => (inv.setValue o v).bind fun inv => parseAll inv none as
      | true, none => parseAll inv (some o) as
      | false, some _ => .error .usage
      | false, none => (inv.switch o).bind fun inv => parseAll inv none as

/-- Reads a command line. There has to be an input. -/
def ofArguments (args : List String) : Except Stop Invocation :=
  (parseAll {} none args).bind fun inv =>
    if inv.inputs.isEmpty then .error .usage else .ok inv

end Invocation

end JavaText
