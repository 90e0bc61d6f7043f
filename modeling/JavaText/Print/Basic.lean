import JavaText.Source.Basic

/-!
# What printing works with

The settings of a printer, the roles in which a node is offered to a decorator, what can go wrong while
a tree is printed, and the text under construction.
-/

namespace JavaText

/-- The settings of a printer. -/
structure PrintOptions where
  /-- Written once for each level of indentation. -/
  indent : String := "    "
  newLine : String := "\n"
  printComments : Bool := true
deriving DecidableEq, Repr

namespace PrintOptions

/-- Indents by `n` blanks. -/
def withIndentWidth (o : PrintOptions) (n : Nat) : PrintOptions :=
  { o with indent := "".pushn ' ' n }

def withoutComments (o : PrintOptions) : PrintOptions := { o with printComments := false }

end PrintOptions

/-- In which role a node is offered to a decorator. -/
inductive Role where
  /-- The name in a class or interface declaration. -/
  | classDeclaration
  /-- The name in a method declaration. -/
  | methodDeclaration
  /-- The name of the method in a call. -/
  | methodCallTarget
  /-- The name in a constructor declaration. -/
  | constructor
  /-- A class or interface type where a type is expected. -/
  | typeReference
  /-- The type of a new object. -/
  | newObjectType
  /-- An annotation. -/
  | annotationUse
  /-- A parameter of a method, constructor, lambda or catch clause. -/
  | parameter
deriving DecidableEq, Repr

namespace Role

def all : List Role :=
  [.classDeclaration, .methodDeclaration, .methodCallTarget, .constructor, .typeReference,
    .newObjectType, .annotationUse, .parameter]

def name : Role → String
  | .classDeclaration => "class-declaration"
  | .methodDeclaration => "method-declaration"
  | .methodCallTarget => "method-call-target"
  | .constructor => "constructor"
  | .typeReference => "type-reference"
  | .newObjectType => "new-object-type"
  | .annotationUse => "annotation-use"
  | .parameter => "parameter"

def ofName? (s : String) : Option Role := all.find? fun r => r.name == s

end Role

/-- What can go wrong. The first three say that the tree and the index of its parents do not fit
together, the other two that levels of indentation were not opened and closed in pairs. -/
inductive PrintError where
  /-- The node is not among the children of the parent recorded for it. -/
  | orphanedChild (name : String) (range : Range) (parent : String) (parentRange : Range)
  /-- The node was reached below two parents. -/
  | duplicateParent (name : String) (range : Range) (first second : String)
  /-- Something other than a comment stands among the comments before the node. -/
  | commentRun (name : String) (range : Range) (found : String) (foundAt childAt : Nat)
  /-- A level was closed when none was open. -/
  | indentUnderflow
  /-- Levels were still open when a pass ended. -/
  | unbalancedIndent (depth : Nat)
deriving DecidableEq, Repr

namespace PrintError

def message : PrintError → String
  | .orphanedChild name range parent parentRange =>
    name ++ " at " ++ range.text ++ " is not among the children of its parent " ++ parent ++ " at "
      ++ parentRange.text
  | .duplicateParent name range first second =>
    name ++ " at " ++ range.text ++ " is a child of both " ++ first ++ " and " ++ second
  | .commentRun name range found foundAt childAt =>
    "expected a comment at position " ++ toString foundAt ++ " before " ++ name ++ " at "
      ++ range.text ++ " (child position " ++ toString childAt ++ "), found " ++ found
  | .indentUnderflow => "unindent called at indentation depth 0"
  | .unbalancedIndent depth =>
    "indentation depth is " ++ toString depth ++ " at the end of the pass, expected 0"

/-- Whether the error is about the tree rather than about indentation. -/
def isTreeIntegrity : PrintError → Bool
  | .orphanedChild .. | .duplicateParent .. | .commentRun .. => true
  | .indentUnderflow | .unbalancedIndent _ => false

end PrintError

/-- The text under construction. Indentation is written late: a line gets it right before the first
text written on it, as deep as the depth is at that moment, and a line on which nothing is written
stays empty. -/
structure Sink where
  unit : String := "    "
  newLine : String := "\n"
  text : String := ""
  depth : Nat := 0
  /-- Nothing has been written on the current line. -/
  atStart : Bool := true
deriving DecidableEq, Repr

namespace Sink

/-- The indentation of a line begun now. -/
def margin (s : Sink) : String := String.join (List.replicate s.depth s.unit)

def write (s : Sink) (t : String) : Sink :=
  if s.atStart then { s with text := s.text ++ s.margin ++ t, atStart := false }
  else { s with text := s.text ++ t }

def newline (s : Sink) : Sink := { s with text := s.text ++ s.newLine, atStart := true }

def writeLine (s : Sink) (t : String) : Sink := (s.write t).newline

def indent (s : Sink) : Sink := { s with depth := s.depth + 1 }

/-- One level less, unless there is none. -/
def unindent? (s : Sink) : Option Sink :=
  match s.depth with
  | 0 => none
  | d + 1 => some { s with depth := d }

/-- The sink with nothing in it. -/
def cleared (s : Sink) : Sink := { s with text := "", depth := 0, atStart := true }

end Sink

end JavaText
