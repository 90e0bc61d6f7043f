import JavaText.Layout.Rule

/-!
# The layout of a node

The layout of every node: the rule of each kind, the attached comment before it, and the fold that
carries the rules through a tree.
-/

namespace JavaText

namespace Layout

/-- The kinds that are set without the comment attached to them. -/
def hidesComment : Kind → Bool
  | .simpleName | .unknownType | .arrayCreationLevel => true
  | _ => false

def attached (k : Kind) (d : NodeData) : List Doc :=
  if hidesComment k then [] else (d.comment.map (Doc.comment false)).toList

/-- The rule of each kind. -/
def rule {k : Kind} (t : Tree k) (row : Row (Field.Of fun _ => Layout) k.fields) : List Doc :=
  let ending := fun (_ : Unit) => Doc.trailing (.tree t)
  match k, row with
  | .name, (qualifier, identifier, ()) => Rule.name qualifier identifier (ending ())
  | .simpleName, (identifier, ()) => [.write identifier]
  | .compilationUnit, (package, imports, types, ()) =>
    Rule.compilationUnit package imports types (ending ())
  | .packageDecl, (annotations, name, ()) => Rule.packageDecl annotations name (ending ())
  | .importDecl, (name, isStatic, isAsterisk, ()) =>
    Rule.importDecl name isStatic isAsterisk (ending ())
  | .classDecl, (mods, annotations, isInterface, name, params, extended, implemented, ms, ()) =>
    Rule.classDecl mods annotations isInterface name params extended implemented ms (ending ())
  | .enumDecl, (mods, annotations, name, implemented, constants, ms, ()) =>
    Rule.enumDecl mods annotations name implemented constants ms
  | .enumConstant, (annotations, name, args, ms, ()) => Rule.enumConstant annotations name args ms
  | .annotationDecl, (mods, annotations, name, ms, ()) =>
    Rule.annotationDecl mods annotations name ms
  | .fieldDecl, (mods, annotations, vars, ()) => Rule.fieldDecl mods annotations vars
  | .variableDeclarator, (type, name, initializer, ()) =>
    Rule.variableDeclarator type name initializer
  | .methodDecl, (mods, annotations, isDefault, tps, type, name, params, thrown, block, ()) =>
    Rule.methodDecl mods annotations isDefault tps type name params thrown block
  | .constructorDecl, (mods, annotations, tps, name, params, thrown, block, ()) =>
    Rule.constructorDecl mods annotations tps name params thrown block
  | .initializerDecl, (isStatic, block, ()) => Rule.initializerDecl isStatic block
  | .annotationMember, (mods, annotations, type, name, defaultValue, ()) =>
    Rule.annotationMember mods annotations type name defaultValue
  | .emptyMember, () => [.write ";"]
  | .parameter, (mods, annotations, type, isVarArgs, name, ()) =>
    Rule.parameter mods annotations type isVarArgs name
  | .typeParameter, (annotations, name, bound, ()) => Rule.typeParameter annotations name bound
  | .annotationExpr, (name, args, ()) => Rule.annotationExpr name args
  | .memberValuePair, (name, value, ()) => Rule.memberValuePair name value
  | .classType, (scope, annotations, name, args, ()) => Rule.classType scope annotations name args
  | .primitiveType, (annotations, p, ()) => Rule.primitiveType annotations p
  | .arrayType, (component, annotations, ()) => Rule.arrayType component annotations
  | .voidType, (annotations, ()) => Rule.voidType annotations
  | .wildcardType, (annotations, extendedType, superType, ()) =>
    Rule.wildcardType annotations extendedType superType
  | .unionType, (annotations, elements, ()) => Rule.unionType annotations elements
  | .intersectionType, (annotations, elements, ()) => Rule.intersectionType annotations elements
  | .unknownType, () => []
  | .assertStmt, (check, message, ()) => Rule.assertStmt check message
  | .blockStmt, (stmts, ()) => Rule.blockStmt stmts (ending ())
  | .breakStmt, (label, ()) => Rule.jump "break" label
  | .continueStmt, (label, ()) => Rule.jump "continue" label
  | .doStmt, (body, condition, ()) => Rule.doStmt body condition
  | .emptyStmt, () => [.write ";"]
  | .constructorCallStmt, (isThis, scope, typeArgs, args, ()) =>
    Rule.constructorCallStmt isThis scope typeArgs args
  | .expressionStmt, (e, ()) => Rule.expressionStmt e
  | .foreachStmt, (declared, iterable, body, ()) => Rule.foreachStmt declared iterable body
  | .forStmt, (initialization, compare, update, body, ()) =>
    Rule.forStmt initialization compare update body
  | .ifStmt, (condition, thenStmt, elseStmt, ()) => Rule.ifStmt condition thenStmt elseStmt
  | .labeledStmt, (label, stmt, ()) => Rule.labeledStmt label stmt
  | .localClassStmt, (declaration, ()) => declaration.body
  | .returnStmt, (e, ()) => Rule.returnStmt e
  | .switchStmt, (selector, entries, ()) => Rule.switchStmt selector entries (ending ())
  | .switchEntry, (label, stmts, ()) => Rule.switchEntry label stmts (ending ())
  | .synchronizedStmt, (e, body, ()) => Rule.synchronizedStmt e body
  | .throwStmt, (e, ()) => Rule.throwStmt e
  | .tryStmt, (resources, block, catches, finallyBlock, ()) =>
    Rule.tryStmt resources block catches finallyBlock
  | .catchClause, (param, block, ()) => Rule.catchClause param block
  | .whileStmt, (condition, body, ()) => Rule.whileStmt condition body
  | .arrayAccess, (name, index, ()) => Rule.arrayAccess name index
  | .arrayCreation, (elementType, levels, initializer, ()) =>
    Rule.arrayCreation elementType levels initializer
  | .arrayCreationLevel, (annotations, dimension, ()) =>
    Rule.arrayCreationLevel annotations dimension
  | .arrayInitializer, (values, ()) => Rule.arrayInitializer values
  | .assign, (target, op, value, ()) => Rule.operation target op.sign value
  | .binary, (left, op, right, ()) => Rule.operation left op.sign right
  | .cast, (type, operand, ()) => Rule.cast type operand
  | .classLiteral, (type, ()) => Rule.classLiteral type
  | .conditional, (condition, thenExpr, elseExpr, ()) =>
    Rule.conditional condition thenExpr elseExpr
  | .enclosed, (inner, ()) => Rule.enclosed inner
  | .fieldAccess, (scope, field, ()) => Rule.fieldAccess scope field
  | .instanceOf, (operand, type, ()) => Rule.instanceOf operand type
  | .charLiteral, (value, ()) => Rule.quoted "'" value
  | .doubleLiteral, (value, ()) => [.write value]
  | .integerLiteral, (value, ()) => [.write value]
  | .longLiteral, (value, ()) => [.write value]
  | .stringLiteral, (value, ()) => Rule.quoted "\"" value
  | .booleanLiteral, (value, ()) => [.write (if value then "true" else "false")]
  | .nullLiteral, () => [.write "null"]
  | .methodCall, (scope, typeArgs, name, args, ()) => Rule.methodCall scope typeArgs name args
  | .nameExpr, (name, ()) => name.body ++ ending ()
  | .objectCreation, (scope, typeArgs, type, args, ms, ()) =>
    Rule.objectCreation scope typeArgs type args ms
  | .thisExpr, (classExpr, ()) => Rule.scopeDot classExpr ++ [.write "this"]
  | .superExpr, (classExpr, ()) => Rule.scopeDot classExpr ++ [.write "super"]
  | .unary, (op, operand, ()) => Rule.unary op operand
  | .lambda, (params, enclosing, body, ()) => Rule.lambda params enclosing body
  | .methodReference, (scope, typeArgs, identifier, ()) =>
    Rule.methodReference scope typeArgs identifier
  | .typeExpr, (type, ()) => type.type
  | .variableDeclaration, (mods, annotations, vars, ()) =>
    Rule.variableDeclaration mods annotations vars

/-- The type inside the array layers, given the layout of the node as a type. -/
def elementOf {k : Kind} (row : Row (Field.Of fun _ => Layout) k.fields) (own : List Doc) :
    List Doc :=
  match k, row with
  | .arrayType, (component, _, ()) => component.element
  | .variableDeclarator, (type, _, _, ()) => type.element
  | _, _ => own

def bracketsOf {k : Kind} (row : Row (Field.Of fun _ => Layout) k.fields) : List Doc :=
  match k, row with
  | .arrayType, (component, annotations, ()) => Rule.arrayBrackets component annotations
  | .variableDeclarator, (type, _, _, ()) => type.brackets
  | _, _ => []

def bareOf {k : Kind} (row : Row (Field.Of fun _ => Layout) k.fields) : Option (List Doc) :=
  match k, row with
  | .expressionStmt, (e, ()) => some e.expr
  | _, _ => none

/-- The layout of a node in a tree whose parents are indexed by `ix`. -/
def ofNode (ix : ParentIndex) : Rule Layout := fun path k t row =>
  let body := attached k t.data ++ rule t row
  { tree := t
    before := if k.takesOrphans then Doc.leading ix path (.tree t) else []
    body
    element := elementOf row
      (if k = .classType then [.decorated .typeReference (.tree t) body] else body)
    brackets := bracketsOf row
    bare := bareOf row }

end Layout

/-- The layout of a tree whose root stands at `path`. -/
def Tree.layout (ix : ParentIndex) (path : Path) {k : Kind} (t : Tree k) : Layout :=
  t.fold (Layout.ofNode ix) path

/-- The layout of a node printed for itself. -/
def Node.layout (ix : ParentIndex) (path : Path) : Node → List Doc
  | .tree t => (t.layout ix path).alone
  | .entry .expr e => (e.tree.layout ix path).expr
  | .entry .member e => (e.tree.layout ix path).led
  | .entry .stmt e => (e.tree.layout ix path).led
  | .entry _ e => (e.tree.layout ix path).body
  | .comment c => [.comment false c]

end JavaText
