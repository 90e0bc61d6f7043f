import JavaText.Tree.Basic

/-!
# Trees built in code

Every function here gives a node without range and comments, and leaves out what is not among its
arguments; `Tree.spanning`, `Tree.commented` and `Tree.withOrphans` add the rest.
-/

namespace JavaText

/-- The tree in a place for several kinds. -/
def Tree.inside {c : Category} {k : Kind} (t : Tree k)
    (h : (Place.any c).admits k = true := by rfl) : Child (.any c) := ⟨h, t⟩

namespace Tree

variable {k : Kind}

/-- The tree with another range. -/
def spanning (t : Tree k) (r : Range) : Tree k := t.withData { t.data with range := r }

/-- The tree with a comment attached. -/
def commented (t : Tree k) (c : Comment) : Tree k := t.withData { t.data with comment := some c }

/-- The tree with further orphan comments. -/
def withOrphans (t : Tree k) (cs : List Comment) : Tree k :=
  t.withData { t.data with orphans := t.data.orphans ++ cs }

end Tree

namespace Build

/-! ### Names -/

def simpleName (s : String) : Tree .simpleName := .ofRow _ {} (s, ())

/-- The node for a simple name, as a child. -/
def ident (s : String) : Child (.only .simpleName) := (simpleName s).child

def qualified (qualifier : Option (Tree .name)) (s : String) : Tree .name :=
  .ofRow _ {} (qualifier.map Tree.child, s, ())

/-- The name with the given parts after the qualifier. -/
def nameFrom (qualifier : Option (Tree .name)) : List String → Tree .name
  | [] => qualifier.getD (qualified none "")
  | s :: ss => nameFrom (some (qualified qualifier s)) ss

/-- The name with the given dotted form. -/
def name (dotted : String) : Tree .name :=
  nameFrom none ((dotted.toList.splitOn '.').map String.ofList)

/-! ### Compilation units -/

def package (dotted : String) : Tree .packageDecl := .ofRow _ {} ([], (name dotted).child, ())

def importOf (dotted : String) (isStatic isAsterisk : Bool) : Tree .importDecl :=
  .ofRow _ {} ((name dotted).child, isStatic, isAsterisk, ())

def compilationUnit (pack : Option String) (imports : List (Child (.only .importDecl)))
    (types : List TypeDecl) : Tree .compilationUnit :=
  .ofRow _ {} (pack.map fun p => (package p).child, imports, types, ())

/-! ### Declarations -/

def classOrInterface (isInterface : Bool) (mods : Modifiers) (name : String)
    (members : List Member) : Tree .classDecl :=
  .ofRow _ {} (mods, [], isInterface, ident name, [], [], [], members, ())

def classDecl (mods : Modifiers) (name : String) (members : List Member) : Tree .classDecl :=
  classOrInterface false mods name members

def interface (mods : Modifiers) (name : String) (members : List Member) : Tree .classDecl :=
  classOrInterface true mods name members

def enumDecl (mods : Modifiers) (name : String) (entries : List (Child (.only .enumConstant)))
    (members : List Member) : Tree .enumDecl :=
  .ofRow _ {} (mods, [], ident name, [], entries, members, ())

def enumConstant (name : String) (arguments : List Expr) : Tree .enumConstant :=
  .ofRow _ {} ([], ident name, arguments, [], ())

def annotationDecl (mods : Modifiers) (name : String) (members : List Member) :
    Tree .annotationDecl :=
  .ofRow _ {} (mods, [], ident name, members, ())

def annotationMember (type : TypeNode) (name : String) (value : Option Expr) :
    Tree .annotationMember :=
  .ofRow _ {} (.empty, [], type, ident name, value, ())

def declarator (type : TypeNode) (name : String) (value : Option Expr) :
    Tree .variableDeclarator :=
  .ofRow _ {} (type, ident name, value, ())

def fieldWith (mods : Modifiers) (vars : List (Child (.only .variableDeclarator))) :
    Tree .fieldDecl :=
  .ofRow _ {} (mods, [], vars, ())

/-- A field for several names of one type, without values. -/
def field (mods : Modifiers) (type : TypeNode) (names : List String) : Tree .fieldDecl :=
  fieldWith mods (names.map fun n => (declarator type n none).child)

def method (mods : Modifiers) (type : TypeNode) (name : String)
    (params : List (Child (.only .parameter))) (body : Option (Child (.only .blockStmt))) :
    Tree .methodDecl :=
  .ofRow _ {} (mods, [], false, [], type, ident name, params, [], body, ())

def constructor (mods : Modifiers) (name : String) (params : List (Child (.only .parameter)))
    (body : Child (.only .blockStmt)) : Tree .constructorDecl :=
  .ofRow _ {} (mods, [], [], ident name, params, [], body, ())

def initializer (isStatic : Bool) (body : Child (.only .blockStmt)) : Tree .initializerDecl :=
  .ofRow _ {} (isStatic, body, ())

def parameter (type : TypeNode) (name : String) : Tree .parameter :=
  .ofRow _ {} (.empty, [], type, false, ident name, ())

def typeParameter (name : String) (bound : List (Child (.only .classType))) :
    Tree .typeParameter :=
  .ofRow _ {} ([], ident name, bound, ())

/-! ### Annotations -/

def annotationExpr (dotted : String) (arguments : Slot.arguments.Of Child) : Tree .annotationExpr :=
  .ofRow _ {} ((name dotted).child, arguments, ())

def markerAnnotation (dotted : String) : Tree .annotationExpr := annotationExpr dotted .marker

def singleAnnotation (dotted : String) (value : Expr) : Tree .annotationExpr :=
  annotationExpr dotted (.single value)

def pair (name : String) (value : Expr) : Tree .memberValuePair :=
  .ofRow _ {} (ident name, value, ())

def normalAnnotation (dotted : String) (pairs : List (String × Expr)) : Tree .annotationExpr :=
  annotationExpr dotted (.pairs (pairs.map fun (n, v) => (pair n v).child))

/-! ### Types -/

def classTypeWith (name : String) (arguments : Option (List TypeNode)) : Tree .classType :=
  .ofRow _ {} (none, [], ident name, arguments, ())

def classType (name : String) : Tree .classType := classTypeWith name none

def genericType (name : String) (arguments : List TypeNode) : Tree .classType :=
  classTypeWith name (some arguments)

def diamondType (name : String) : Tree .classType := genericType name []

def primitive (p : Primitive) : Tree .primitiveType := .ofRow _ {} ([], p, ())

/-- One array layer around a type. -/
def arrayOf (component : TypeNode) : Tree .arrayType := .ofRow _ {} (component, [], ())

/-- So many array layers around a type. -/
def arrayType (element : TypeNode) : Nat → TypeNode
  | 0 => element
  | n + 1 => (arrayOf (arrayType element n)).inside

def voidType : Tree .voidType := .ofRow _ {} ([], ())

def wildcard (extended super : Option TypeNode) : Tree .wildcardType :=
  .ofRow _ {} ([], extended, super, ())

def unionType (elements : List TypeNode) : Tree .unionType := .ofRow _ {} ([], elements, ())

def intersectionType (elements : List TypeNode) : Tree .intersectionType :=
  .ofRow _ {} ([], elements, ())

def unknownType : Tree .unknownType := .ofRow _ {} ()

/-! ### Expressions -/

def nameExpr (s : String) : Tree .nameExpr := .ofRow _ {} (ident s, ())

def integerLiteral (s : String) : Tree .integerLiteral := .ofRow _ {} (s, ())

def longLiteral (s : String) : Tree .longLiteral := .ofRow _ {} (s, ())

def doubleLiteral (s : String) : Tree .doubleLiteral := .ofRow _ {} (s, ())

/-- The quotes are not part of the text. -/
def charLiteral (s : String) : Tree .charLiteral := .ofRow _ {} (s, ())

/-- The quotes are not part of the text. -/
def stringLiteral (s : String) : Tree .stringLiteral := .ofRow _ {} (s, ())

def booleanLiteral (b : Bool) : Tree .booleanLiteral := .ofRow _ {} (b, ())

def nullLiteral : Tree .nullLiteral := .ofRow _ {} ()

def thisExpr : Tree .thisExpr := .ofRow _ {} (none, ())

def superExpr : Tree .superExpr := .ofRow _ {} (none, ())

def fieldAccess (scope : Expr) (field : String) : Tree .fieldAccess :=
  .ofRow _ {} (some scope, ident field, ())

def call (scope : Option Expr) (name : String) (arguments : List Expr) : Tree .methodCall :=
  .ofRow _ {} (scope, none, ident name, arguments, ())

def binary (left : Expr) (op : BinaryOp) (right : Expr) : Tree .binary :=
  .ofRow _ {} (left, op, right, ())

def assign (target : Expr) (op : AssignOp) (value : Expr) : Tree .assign :=
  .ofRow _ {} (target, op, value, ())

def unary (op : UnaryOp) (e : Expr) : Tree .unary := .ofRow _ {} (op, e, ())

def cast (type : TypeNode) (e : Expr) : Tree .cast := .ofRow _ {} (type, e, ())

def enclosed (e : Expr) : Tree .enclosed := .ofRow _ {} (some e, ())

def conditional (condition thenExpr elseExpr : Expr) : Tree .conditional :=
  .ofRow _ {} (condition, thenExpr, elseExpr, ())

def instanceOf (e : Expr) (type : TypeNode) : Tree .instanceOf := .ofRow _ {} (e, type, ())

def arrayAccess (array index : Expr) : Tree .arrayAccess := .ofRow _ {} (array, index, ())

def arrayInitializer (values : List Expr) : Tree .arrayInitializer := .ofRow _ {} (values, ())

def level (dimension : Option Expr) : Tree .arrayCreationLevel := .ofRow _ {} ([], dimension, ())

/-- A new array with one level for each dimension, given or not. -/
def newArray (element : TypeNode) (dimensions : List (Option Expr))
    (values : Option (Child (.only .arrayInitializer))) : Tree .arrayCreation :=
  .ofRow _ {} (element, dimensions.map fun d => (level d).child, values, ())

def newObject (type : Child (.only .classType)) (arguments : List Expr) : Tree .objectCreation :=
  .ofRow _ {} (none, none, type, arguments, none, ())

def lambda (params : List (Child (.only .parameter))) (enclosing : Bool) (body : Stmt) :
    Tree .lambda :=
  .ofRow _ {} (params, enclosing, body, ())

def methodReference (scope : Expr) (identifier : String) : Tree .methodReference :=
  .ofRow _ {} (scope, none, identifier, ())

def typeExpr (type : TypeNode) : Tree .typeExpr := .ofRow _ {} (type, ())

def classLiteral (type : TypeNode) : Tree .classLiteral := .ofRow _ {} (type, ())

def declarations (mods : Modifiers) (vars : List (Child (.only .variableDeclarator))) :
    Tree .variableDeclaration :=
  .ofRow _ {} (mods, [], vars, ())

/-- The declaration of one variable. -/
def localVariable (type : TypeNode) (name : String) (value : Option Expr) :
    Tree .variableDeclaration :=
  declarations .empty [(declarator type name value).child]

/-! ### Statements -/

def block (stmts : List Stmt) : Tree .blockStmt := .ofRow _ {} (stmts, ())

def exprStmt (e : Expr) : Tree .expressionStmt := .ofRow _ {} (e, ())

def returnStmt (e : Option Expr) : Tree .returnStmt := .ofRow _ {} (e, ())

def throwStmt (e : Expr) : Tree .throwStmt := .ofRow _ {} (e, ())

def breakStmt (label : Option String) : Tree .breakStmt := .ofRow _ {} (label, ())

def continueStmt (label : Option String) : Tree .continueStmt := .ofRow _ {} (label, ())

def emptyStmt : Tree .emptyStmt := .ofRow _ {} ()

def ifStmt (condition : Expr) (thenStmt : Stmt) (elseStmt : Option Stmt) : Tree .ifStmt :=
  .ofRow _ {} (condition, thenStmt, elseStmt, ())

def whileStmt (condition : Expr) (body : Stmt) : Tree .whileStmt :=
  .ofRow _ {} (condition, body, ())

def doStmt (body : Stmt) (condition : Expr) : Tree .doStmt := .ofRow _ {} (body, condition, ())

def forStmt (init : List Expr) (compare : Option Expr) (update : List Expr) (body : Stmt) :
    Tree .forStmt :=
  .ofRow _ {} (init, compare, update, body, ())

def foreachStmt (declared : Child (.only .variableDeclaration)) (iterable : Expr) (body : Stmt) :
    Tree .foreachStmt :=
  .ofRow _ {} (declared, iterable, body, ())

def labeledStmt (label : String) (stmt : Stmt) : Tree .labeledStmt :=
  .ofRow _ {} (label, stmt, ())

def switchStmt (selector : Expr) (entries : List (Child (.only .switchEntry))) :
    Tree .switchStmt :=
  .ofRow _ {} (selector, entries, ())

/-- Without a label it is the default entry. -/
def switchEntry (label : Option Expr) (stmts : List Stmt) : Tree .switchEntry :=
  .ofRow _ {} (label, stmts, ())

def synchronizedStmt (e : Expr) (body : Child (.only .blockStmt)) : Tree .synchronizedStmt :=
  .ofRow _ {} (e, body, ())

def assertStmt (check : Expr) (message : Option Expr) : Tree .assertStmt :=
  .ofRow _ {} (check, message, ())

def tryStmt (resources : List (Child (.only .variableDeclaration)))
    (body : Child (.only .blockStmt)) (clauses : List (Child (.only .catchClause)))
    (finallyBlock : Option (Child (.only .blockStmt))) : Tree .tryStmt :=
  .ofRow _ {} (resources, body, clauses, finallyBlock, ())

def catchClause (param : Child (.only .parameter)) (body : Child (.only .blockStmt)) :
    Tree .catchClause :=
  .ofRow _ {} (param, body, ())

def localClass (decl : Child (.only .classDecl)) : Tree .localClassStmt := .ofRow _ {} (decl, ())

/-- A call of another constructor, `this` or `super`. -/
def constructorCall (isThis : Bool) (arguments : List Expr) : Tree .constructorCallStmt :=
  .ofRow _ {} (isThis, none, none, arguments, ())

end Build

end JavaText
