import JavaText.Layout.Basic

/-!
# The rules of layout

One rule for each kind of type, declaration, statement and expression.
-/

namespace JavaText.Layout.Rule

def name (qualifier : Option Layout) (identifier : String) (ending : List Doc) : List Doc :=
  (match qualifier with
    | none => []
    | some q => q.body ++ [.write "."]) ++ [.write identifier] ++ ending

/-- `@Name`, `@Name(value)` or `@Name(a = x, b = y)`. -/
def annotationExpr (name : Layout) (args : Arguments Layout Layout) : List Doc :=
  [.write "@"] ++ name.body ++
    match args with
    | .marker => []
    | .single value => [.write "("] ++ value.expr ++ [.write ")"]
    | .pairs ps => [.write "("] ++ Doc.separated ", " (ps.map body) ++ [.write ")"]

def memberValuePair (name value : Layout) : List Doc := name.body ++ [.write " = "] ++ value.expr

/-- `scope.@A Name<Args>`; empty arguments are the diamond. -/
def classType (scope : Option Layout) (annotations : List Layout) (name : Layout)
    (args : Option (List Layout)) : List Doc :=
  (match scope with
    | none => []
    | some s => s.body ++ [.write "."]) ++ Layout.annotations false annotations ++ name.body ++
    match args with
    | some [] => [.write "<>"]
    | _ => typeArguments args

def primitiveType (annotations : List Layout) (p : Primitive) : List Doc :=
  Layout.annotations true annotations ++ [.write p.spelling]

/-- The brackets of an array layer and of those inside it. -/
def arrayBrackets (component : Layout) (annotations : List Layout) : List Doc :=
  Layout.annotations true annotations ++ [.write "[]"] ++ component.brackets

def arrayType (component : Layout) (annotations : List Layout) : List Doc :=
  component.element ++ arrayBrackets component annotations

def voidType (annotations : List Layout) : List Doc :=
  Layout.annotations false annotations ++ [.write "void"]

def wildcardType (annotations : List Layout) (extendedType superType : Option Layout) : List Doc :=
  Layout.annotations false annotations ++ [.write "?"] ++
    (match extendedType with
      | none => []
      | some t => [.write " extends "] ++ t.type) ++
    match superType with
    | none => []
    | some t => [.write " super "] ++ t.type

def unionType (annotations elements : List Layout) : List Doc :=
  Layout.annotations true annotations ++ Doc.separated " | " (elements.map type)

def intersectionType (annotations elements : List Layout) : List Doc :=
  Layout.annotations false annotations ++ Doc.separated " & " (elements.map type)

def typeParameter (annotations : List Layout) (name : Layout) (bound : List Layout) : List Doc :=
  Layout.annotations false annotations ++ name.body ++
    if bound.isEmpty then [] else [.write " extends "] ++ typeReferences " & " bound

/-- Type parameters in angle brackets; nothing if there are none. -/
def typeParameters (ps : List Layout) : List Doc :=
  if ps.isEmpty then [] else [.write "<"] ++ Doc.separated ", " (ps.map body) ++ [.write ">"]

/-- Package, imports, a line break after them, and the types with an empty line between each two. -/
def compilationUnit (package : Option Layout) (imports types : List Layout) (ending : List Doc) :
    List Doc :=
  ((package.map body).getD []) ++ imports.flatMap led ++
    (if imports.isEmpty then [] else [.newline]) ++
    [Doc.newline].intercalate (types.map fun t => t.led ++ [.newline]) ++ ending

def packageDecl (annotations : List Layout) (name : Layout) (ending : List Doc) : List Doc :=
  Layout.annotations false annotations ++ [.write "package "] ++ name.body ++ Doc.line ";" ++
    [.newline] ++ ending

def importDecl (name : Layout) (isStatic isAsterisk : Bool) (ending : List Doc) : List Doc :=
  [.write "import "] ++ (if isStatic then [.write "static "] else []) ++ name.body ++
    (if isAsterisk then [.write ".*"] else []) ++ Doc.line ";" ++ ending

/-- ` keyword A, B`; nothing if there are no types. -/
def inheritance (keyword : String) (types : List Layout) : List Doc :=
  if types.isEmpty then [] else [.write keyword] ++ typeReferences ", " types

def classDecl (mods : Modifiers) (annotations : List Layout) (isInterface : Bool) (name : Layout)
    (params extended implemented ms : List Layout) (ending : List Doc) : List Doc :=
  annotationLines annotations ++ modifiers mods ++
    [.write (if isInterface then "interface " else "class ")] ++
    name.decorated .classDeclaration ++ typeParameters params ++
    inheritance " extends " extended ++ inheritance " implements " implemented ++
    Doc.line " \x7b" ++ [.indented (members ms ++ ending), .write "\x7d"]

/-- The constants of an enum in one line, then its members behind a semicolon. -/
def enumBody (constants ms : List Layout) : List Doc :=
  [.newline] ++ Doc.separated ", " (constants.map led) ++
    if ms.isEmpty then (if constants.isEmpty then [] else [.newline])
    else Doc.line ";" ++ members ms

def enumDecl (mods : Modifiers) (annotations : List Layout) (name : Layout)
    (implemented constants ms : List Layout) : List Doc :=
  annotationLines annotations ++ modifiers mods ++ [.write "enum "] ++ name.body ++
    inheritance " implements " implemented ++ Doc.line " \x7b" ++
    [.indented (enumBody constants ms), .write "\x7d"]

def enumConstant (annotations : List Layout) (name : Layout) (args ms : List Layout) : List Doc :=
  annotationLines annotations ++ name.body ++ (if args.isEmpty then [] else arguments args) ++
    if ms.isEmpty then [] else Doc.line " \x7b" ++ [.indented (members ms)] ++ Doc.line "\x7d"

def annotationDecl (mods : Modifiers) (annotations : List Layout) (name : Layout)
    (ms : List Layout) : List Doc :=
  annotationLines annotations ++ modifiers mods ++ [.write "@interface "] ++ name.body ++
    Doc.line " \x7b" ++ [.indented (members ms), .write "\x7d"]

def fieldDecl (mods : Modifiers) (annotations vars : List Layout) : List Doc :=
  annotationLines annotations ++ modifiers mods ++ declarators vars ++ [.write ";"]

/-- The name, the brackets of its type, and what it starts out as. The type inside the brackets
belongs to the declaration around it. -/
def variableDeclarator (type name : Layout) (initializer : Option Layout) : List Doc :=
  name.body ++ type.brackets ++
    match initializer with
    | none => []
    | some e => [.write " = "] ++ e.expr

/-- Type parameters with a blank behind them. -/
def leadingTypeParameters (params : List Layout) : List Doc :=
  if params.isEmpty then [] else typeParameters params ++ [.write " "]

/-- Parameters in parentheses, and what is thrown. -/
def signature (params thrown : List Layout) : List Doc :=
  [.write "("] ++ parameters params ++ [.write ")"] ++
    if thrown.isEmpty then [] else [.write " throws "] ++ Doc.separated ", " (thrown.map type)

def methodDecl (mods : Modifiers) (annotations : List Layout) (isDefault : Bool)
    (typeParams : List Layout) (type name : Layout) (params thrown : List Layout)
    (block : Option Layout) : List Doc :=
  annotationLines annotations ++ modifiers mods ++
    (if isDefault then [.write "default "] else []) ++ leadingTypeParameters typeParams ++
    type.type ++ [.write " "] ++ name.decorated .methodDeclaration ++ signature params thrown ++
    match block with
    | none => [.write ";"]
    | some b => [.write " "] ++ b.led

def constructorDecl (mods : Modifiers) (annotations typeParams : List Layout) (name : Layout)
    (params thrown : List Layout) (block : Layout) : List Doc :=
  annotationLines annotations ++ modifiers mods ++ leadingTypeParameters typeParams ++
    name.decorated .constructor ++ signature params thrown ++ [.write " "] ++ block.led

def initializerDecl (isStatic : Bool) (block : Layout) : List Doc :=
  (if isStatic then [.write "static "] else []) ++ block.led

def annotationMember (mods : Modifiers) (annotations : List Layout) (type name : Layout)
    (defaultValue : Option Layout) : List Doc :=
  annotationLines annotations ++ modifiers mods ++ type.type ++ [.write " "] ++ name.body ++
    [.write "()"] ++
    (match defaultValue with
      | none => []
      | some e => [.write " default "] ++ e.expr) ++ [.write ";"]

/-- A parameter without a type is only its name. -/
def parameter (mods : Modifiers) (annotations : List Layout) (type : Layout) (isVarArgs : Bool)
    (name : Layout) : List Doc :=
  Layout.annotations false annotations ++ modifiers mods ++ type.type ++
    (if isVarArgs then [.write "..."] else []) ++
    (if type.kind = .unknownType then [] else [.write " "]) ++ name.body

def assertStmt (check : Layout) (message : Option Layout) : List Doc :=
  [.write "assert "] ++ check.expr ++
    (match message with
      | none => []
      | some m => [.write " : "] ++ m.expr) ++ [.write ";"]

/-- A brace, each statement on its own line one level deeper, the orphans at the end, a brace. -/
def blockStmt (stmts : List Layout) (ending : List Doc) : List Doc :=
  Doc.line "\x7b" ++ [.indented (statements stmts)] ++ ending ++ [.write "\x7d"]

/-- A keyword and perhaps a label. -/
def jump (keyword : String) (label : Option String) : List Doc :=
  [.write keyword] ++
    (match label with
      | none => []
      | some l => [.write " ", .write l]) ++ [.write ";"]

def doStmt (body condition : Layout) : List Doc :=
  [.write "do "] ++ body.led ++ [.write " while ("] ++ condition.expr ++ [.write ");"]

/-- `this(…)`, `super(…)` or `scope.super(…)`; a scope is left out before `this`. -/
def constructorCallStmt (isThis : Bool) (scope : Option Layout) (typeArgs : Option (List Layout))
    (args : List Layout) : List Doc :=
  (if isThis then typeArguments typeArgs ++ [.write "this"]
    else
      (match scope with
        | none => []
        | some e => e.expr ++ [.write "."]) ++ typeArguments typeArgs ++ [.write "super"]) ++
    arguments args ++ [.write ";"]

def expressionStmt (e : Layout) : List Doc := e.expr ++ [.write ";"]

def foreachStmt (declared iterable body : Layout) : List Doc :=
  [.write "for ("] ++ declared.body ++ [.write " : "] ++ iterable.expr ++ [.write ") "] ++ body.led

def forStmt (initialization : List Layout) (compare : Option Layout) (update : List Layout)
    (body : Layout) : List Doc :=
  [.write "for ("] ++ Doc.separated ", " (initialization.map expr) ++ [.write "; "] ++
    ((compare.map expr).getD []) ++ [.write "; "] ++ Doc.separated ", " (update.map expr) ++
    [.write ") "] ++ body.led

/-- A branch that is no block goes on its own line one level deeper. `else` is followed by its
branch in the same line if that is a block or another `if`. -/
def ifStmt (condition thenStmt : Layout) (elseStmt : Option Layout) : List Doc :=
  let inline := thenStmt.kind = .blockStmt
  [.write "if ("] ++ condition.expr ++
    (if inline then [.write ") "] ++ thenStmt.led
      else Doc.line ")" ++ [.indented thenStmt.led]) ++
    match elseStmt with
    | none => []
    | some e =>
      (if inline then [.write " "] else [.newline]) ++
        if e.kind = .ifStmt ∨ e.kind = .blockStmt then [.write "else "] ++ e.led
        else Doc.line "else" ++ [.indented e.led]

def labeledStmt (label : String) (stmt : Layout) : List Doc :=
  [.write label, .write ": "] ++ stmt.led

def returnStmt (e : Option Layout) : List Doc :=
  [.write "return"] ++
    (match e with
      | none => []
      | some e => [.write " "] ++ e.expr) ++ [.write ";"]

def switchStmt (selector : Layout) (entries : List Layout) (ending : List Doc) : List Doc :=
  [.write "switch("] ++ selector.expr ++ Doc.line ") \x7b" ++
    [.indented (entries.flatMap led ++ ending), .write "\x7d"]

def switchEntry (label : Option Layout) (stmts : List Layout) (ending : List Doc) : List Doc :=
  (match label with
    | none => [.write "default:"]
    | some l => [.write "case "] ++ l.expr ++ [.write ":"]) ++
    [.newline, .indented (statements stmts ++ ending)]

def synchronizedStmt (e body : Layout) : List Doc :=
  [.write "synchronized ("] ++ e.expr ++ [.write ") "] ++ body.led

def throwStmt (e : Layout) : List Doc := [.write "throw "] ++ e.expr ++ [.write ";"]

/-- The resources of a `try`: the first in its line, each other on a line of its own. -/
def resources : List Layout → List Doc
  | [] => []
  | first :: rest =>
    [.write "("] ++ first.body ++
      (if rest.isEmpty then []
        else Doc.line ";" ++ [.indented ((Doc.line ";").intercalate (rest.map body))]) ++
      [.write ") "]

def tryStmt (rs : List Layout) (block : Layout) (catches : List Layout)
    (finallyBlock : Option Layout) : List Doc :=
  [.write "try "] ++ resources rs ++ block.led ++ catches.flatMap body ++
    match finallyBlock with
    | none => []
    | some b => [.write " finally "] ++ b.led

def catchClause (param block : Layout) : List Doc :=
  [.write " catch ("] ++ param.decorated .parameter ++ [.write ") "] ++ block.led

def whileStmt (condition body : Layout) : List Doc :=
  [.write "while ("] ++ condition.expr ++ [.write ") "] ++ body.led

def arrayAccess (name index : Layout) : List Doc :=
  name.expr ++ [.write "["] ++ index.expr ++ [.write "]"]

def arrayCreationLevel (annotations : List Layout) (dimension : Option Layout) : List Doc :=
  Layout.annotations true annotations ++ [.write "["] ++ ((dimension.map expr).getD []) ++
    [.write "]"]

/-- An empty pair of braces, or the values with a blank inside each brace. -/
def arrayInitializer (values : List Layout) : List Doc :=
  [.write "\x7b"] ++
    (if values.isEmpty then []
      else [.write " "] ++ Doc.separated ", " (values.map expr) ++ [.write " "]) ++
    [.write "\x7d"]

def arrayCreation (elementType : Layout) (levels : List Layout) (initializer : Option Layout) :
    List Doc :=
  [.write "new "] ++ elementType.type ++ levels.flatMap body ++
    match initializer with
    | none => []
    | some i => [.write " "] ++ i.body

/-- Two operands with a sign between them. -/
def operation (left : Layout) (sign : String) (right : Layout) : List Doc :=
  left.expr ++ [.write " ", .write sign, .write " "] ++ right.expr

def cast (type operand : Layout) : List Doc :=
  [.write "("] ++ type.type ++ [.write ") "] ++ operand.expr

def classLiteral (type : Layout) : List Doc := type.type ++ [.write ".class"]

def conditional (condition thenExpr elseExpr : Layout) : List Doc :=
  condition.expr ++ [.write " ? "] ++ thenExpr.expr ++ [.write " : "] ++ elseExpr.expr

def enclosed (inner : Option Layout) : List Doc :=
  [.write "("] ++ ((inner.map expr).getD []) ++ [.write ")"]

/-- The point stands there even without a scope. -/
def fieldAccess (scope : Option Layout) (field : Layout) : List Doc :=
  ((scope.map expr).getD []) ++ [.write "."] ++ field.body

def instanceOf (operand type : Layout) : List Doc :=
  operand.expr ++ [.write " instanceof "] ++ type.type

def quoted (quote value : String) : List Doc := [.write quote, .write value, .write quote]

/-- The scope of a call and its point. -/
def scopeDot (scope : Option Layout) : List Doc :=
  match scope with
  | none => []
  | some s => s.expr ++ [.write "."]

def methodCall (scope : Option Layout) (typeArgs : Option (List Layout)) (name : Layout)
    (args : List Layout) : List Doc :=
  scopeDot scope ++ typeArguments typeArgs ++ name.decorated .methodCallTarget ++ arguments args

/-- `scope.new <T> Type(args) { members }`. -/
def objectCreation (scope : Option Layout) (typeArgs : Option (List Layout)) (type : Layout)
    (args : List Layout) (members : Option (List Layout)) : List Doc :=
  scopeDot scope ++ [.write "new "] ++
    (match typeArgs with
      | none | some [] => []
      | some (t :: ts) => typeArguments (some (t :: ts)) ++ [.write " "]) ++
    type.decorated .newObjectType ++ arguments args ++
    match members with
    | none => []
    | some ms => Doc.line " \x7b" ++ [.indented (Layout.members ms), .write "\x7d"]

def unary (op : UnaryOp) (operand : Layout) : List Doc :=
  if op.isTrailing then operand.expr ++ [.write op.sign] else [.write op.sign] ++ operand.expr

/-- `(a, b) -> body`; a body that is only an expression is set without the statement around it. -/
def lambda (params : List Layout) (enclosing : Bool) (body : Layout) : List Doc :=
  (if enclosing then [.write "("] else []) ++ parameters params ++
    (if enclosing then [.write ")"] else []) ++ [.write " -> "] ++
    match body.bare with
    | some e => e
    | none => body.led

def methodReference (scope : Layout) (typeArgs : Option (List Layout)) (identifier : String) :
    List Doc :=
  scope.expr ++ [.write "::"] ++ typeArguments typeArgs ++ [.write identifier]

def variableDeclaration (mods : Modifiers) (annotations vars : List Layout) : List Doc :=
  Layout.annotations false annotations ++ modifiers mods ++ declarators vars

end JavaText.Layout.Rule
