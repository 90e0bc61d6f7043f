/-!
# Kinds of nodes and their places

The kinds of node a syntax tree is made of, and the places they may stand in. A place takes one kind
only, or any kind of a category; in a category the node has to say which kind it is, by its tag.
-/

namespace JavaText

inductive Kind where
  | name | simpleName
  | compilationUnit | packageDecl | importDecl
  | classDecl | enumDecl | enumConstant | annotationDecl
  | fieldDecl | variableDeclarator | methodDecl | constructorDecl | initializerDecl
  | annotationMember | emptyMember | parameter | typeParameter
  | annotationExpr | memberValuePair
  | classType | primitiveType | arrayType | voidType | wildcardType | unionType
  | intersectionType | unknownType
  | assertStmt | blockStmt | breakStmt | continueStmt | doStmt | emptyStmt | constructorCallStmt
  | expressionStmt | foreachStmt | forStmt | ifStmt | labeledStmt | localClassStmt | returnStmt
  | switchStmt | switchEntry | synchronizedStmt | throwStmt | tryStmt | catchClause | whileStmt
  | arrayAccess | arrayCreation | arrayCreationLevel | arrayInitializer | assign | binary | cast
  | classLiteral | conditional | enclosed | fieldAccess | instanceOf | charLiteral
  | doubleLiteral | integerLiteral | longLiteral | stringLiteral | booleanLiteral | nullLiteral
  | methodCall | nameExpr | objectCreation | thisExpr | superExpr | unary | lambda
  | methodReference | typeExpr | variableDeclaration
deriving DecidableEq, Repr

namespace Kind

/-- The name used in messages and listings. -/
def nodeName : Kind → String
  | .name => "Name"
  | .simpleName => "SimpleName"
  | .compilationUnit => "CompilationUnit"
  | .packageDecl => "PackageDeclaration"
  | .importDecl => "ImportDeclaration"
  | .classDecl => "ClassOrInterfaceDeclaration"
  | .enumDecl => "EnumDeclaration"
  | .enumConstant => "EnumConstantDeclaration"
  | .annotationDecl => "AnnotationDeclaration"
  | .fieldDecl => "FieldDeclaration"
  | .variableDeclarator => "VariableDeclarator"
  | .methodDecl => "MethodDeclaration"
  | .constructorDecl => "ConstructorDeclaration"
  | .initializerDecl => "InitializerDeclaration"
  | .annotationMember => "AnnotationMemberDeclaration"
  | .emptyMember => "EmptyMemberDeclaration"
  | .parameter => "Parameter"
  | .typeParameter => "TypeParameter"
  | .annotationExpr => "Annotation"
  | .memberValuePair => "MemberValuePair"
  | .classType => "ClassOrInterfaceType"
  | .primitiveType => "PrimitiveType"
  | .arrayType => "ArrayType"
  | .voidType => "VoidType"
  | .wildcardType => "WildcardType"
  | .unionType => "UnionType"
  | .intersectionType => "IntersectionType"
  | .unknownType => "UnknownType"
  | .assertStmt => "AssertStmt"
  | .blockStmt => "BlockStmt"
  | .breakStmt => "BreakStmt"
  | .continueStmt => "ContinueStmt"
  | .doStmt => "DoStmt"
  | .emptyStmt => "EmptyStmt"
  | .constructorCallStmt => "ExplicitConstructorInvocationStmt"
  | .expressionStmt => "ExpressionStmt"
  | .foreachStmt => "ForeachStmt"
  | .forStmt => "ForStmt"
  | .ifStmt => "IfStmt"
  | .labeledStmt => "LabeledStmt"
  | .localClassStmt => "LocalClassDeclarationStmt"
  | .returnStmt => "ReturnStmt"
  | .switchStmt => "SwitchStmt"
  | .switchEntry => "SwitchEntryStmt"
  | .synchronizedStmt => "SynchronizedStmt"
  | .throwStmt => "ThrowStmt"
  | .tryStmt => "TryStmt"
  | .catchClause => "CatchClause"
  | .whileStmt => "WhileStmt"
  | .arrayAccess => "ArrayAccessExpr"
  | .arrayCreation => "ArrayCreationExpr"
  | .arrayCreationLevel => "ArrayCreationLevel"
  | .arrayInitializer => "ArrayInitializerExpr"
  | .assign => "AssignExpr"
  | .binary => "BinaryExpr"
  | .cast => "CastExpr"
  | .classLiteral => "ClassExpr"
  | .conditional => "ConditionalExpr"
  | .enclosed => "EnclosedExpr"
  | .fieldAccess => "FieldAccessExpr"
  | .instanceOf => "InstanceOfExpr"
  | .charLiteral => "CharLiteralExpr"
  | .doubleLiteral => "DoubleLiteralExpr"
  | .integerLiteral => "IntegerLiteralExpr"
  | .longLiteral => "LongLiteralExpr"
  | .stringLiteral => "StringLiteralExpr"
  | .booleanLiteral => "BooleanLiteralExpr"
  | .nullLiteral => "NullLiteralExpr"
  | .methodCall => "MethodCallExpr"
  | .nameExpr => "NameExpr"
  | .objectCreation => "ObjectCreationExpr"
  | .thisExpr => "ThisExpr"
  | .superExpr => "SuperExpr"
  | .unary => "UnaryExpr"
  | .lambda => "LambdaExpr"
  | .methodReference => "MethodReferenceExpr"
  | .typeExpr => "TypeExpr"
  | .variableDeclaration => "VariableDeclarationExpr"

end Kind

/-- The places that take several kinds. -/
inductive Category where
  | typeDecl | member | type | stmt | expr
deriving DecidableEq, Repr

namespace Category

/-- The kinds of a category with their tags, in the order in which an error message names them. -/
def variants : Category → List (String × Kind)
  | .typeDecl => [("Class", .classDecl), ("Enum", .enumDecl), ("Annotation", .annotationDecl)]
  | .member =>
    [("Field", .fieldDecl), ("Method", .methodDecl), ("Constructor", .constructorDecl),
      ("Initializer", .initializerDecl), ("AnnotationMember", .annotationMember),
      ("Empty", .emptyMember), ("Class", .classDecl), ("Enum", .enumDecl),
      ("Annotation", .annotationDecl)]
  | .type =>
    [("ClassOrInterface", .classType), ("Primitive", .primitiveType), ("Array", .arrayType),
      ("Void", .voidType), ("Wildcard", .wildcardType), ("Union", .unionType),
      ("Intersection", .intersectionType), ("Unknown", .unknownType)]
  | .stmt =>
    [("Assert", .assertStmt), ("Block", .blockStmt), ("Break", .breakStmt),
      ("Continue", .continueStmt), ("Do", .doStmt), ("Empty", .emptyStmt),
      ("ExplicitConstructorInvocation", .constructorCallStmt), ("Expression", .expressionStmt),
      ("Foreach", .foreachStmt), ("For", .forStmt), ("If", .ifStmt), ("Labeled", .labeledStmt),
      ("LocalClass", .localClassStmt), ("Return", .returnStmt), ("Switch", .switchStmt),
      ("Synchronized", .synchronizedStmt), ("Throw", .throwStmt), ("Try", .tryStmt),
      ("While", .whileStmt)]
  | .expr =>
    [("ArrayAccess", .arrayAccess), ("ArrayCreation", .arrayCreation),
      ("ArrayInitializer", .arrayInitializer), ("Assign", .assign), ("Binary", .binary),
      ("Cast", .cast), ("ClassLiteral", .classLiteral), ("Conditional", .conditional),
      ("Enclosed", .enclosed), ("FieldAccess", .fieldAccess), ("InstanceOf", .instanceOf),
      ("CharLiteral", .charLiteral), ("DoubleLiteral", .doubleLiteral),
      ("IntegerLiteral", .integerLiteral), ("LongLiteral", .longLiteral),
      ("StringLiteral", .stringLiteral), ("BooleanLiteral", .booleanLiteral),
      ("NullLiteral", .nullLiteral), ("MethodCall", .methodCall), ("Name", .nameExpr),
      ("ObjectCreation", .objectCreation), ("This", .thisExpr), ("Super", .superExpr),
      ("Unary", .unary), ("Lambda", .lambda), ("MethodReference", .methodReference),
      ("TypeExpr", .typeExpr), ("VariableDeclaration", .variableDeclaration),
      ("Annotation", .annotationExpr)]

/-- The tag of a kind in the category. -/
def tag? (c : Category) (k : Kind) : Option String :=
  (c.variants.find? fun v => v.2 == k).map Prod.fst

end Category

/-- What a child position accepts. -/
inductive Place where
  | only (k : Kind)
  | any (c : Category)
deriving DecidableEq, Repr

/-- Whether a node of kind `k` may stand in the place. -/
def Place.admits : Place → Kind → Bool
  | .only k', k => k' == k
  | .any c, k => (c.tag? k).isSome

end JavaText
