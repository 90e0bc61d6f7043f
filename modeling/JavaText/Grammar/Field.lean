import JavaText.Grammar.Kind
import JavaText.Grammar.Word
import JavaText.Source.Basic

/-!
# The grammar

Which fields the nodes of each kind have, in order, and what each field holds. Reading, writing and
walking trees all follow this one table.
-/

namespace JavaText

/-- Contents of a field that has no nodes in it. -/
inductive Scalar where
  | text | optText | flag | modifiers | primitive | assignOp | binaryOp | unaryOp | data
deriving DecidableEq, Repr

abbrev Scalar.Carrier : Scalar → Type
  | .text => String
  | .optText => Option String
  | .flag => Bool
  | .modifiers => Modifiers
  | .primitive => Primitive
  | .assignOp => AssignOp
  | .binaryOp => BinaryOp
  | .unaryOp => UnaryOp
  | .data => NodeData

/-- What a field holds: a scalar, or nodes of a place. An annotation's arguments are nothing, one
expression or a list of pairs. -/
inductive Slot where
  | scalar (s : Scalar)
  | one (p : Place)
  | opt (p : Place)
  | many (p : Place)
  | optMany (p : Place)
  | arguments
deriving DecidableEq, Repr

/-- A field. One with a default may be left out of a written tree; its value is then the empty one
of its slot. -/
structure Field where
  name : String
  slot : Slot
  hasDefault : Bool := false
deriving DecidableEq, Repr

/-- The three forms of an annotation's arguments. -/
inductive Arguments (E P : Type) where
  | marker
  | single (value : E)
  | pairs (ps : List P)

/-- The type of a slot's contents when the node of a place `p` is given by a value of `X p`. -/
abbrev Slot.Of (X : Place → Type) : Slot → Type
  | .scalar s => s.Carrier
  | .one p => X p
  | .opt p => Option (X p)
  | .many p => List (X p)
  | .optMany p => Option (List (X p))
  | .arguments => Arguments (X (.any .expr)) (X (.only .memberValuePair))

abbrev Field.Of (X : Place → Type) (f : Field) : Type := f.slot.Of X

/-- The empty contents of a slot, if it has any: these stand for a field left out. -/
def Slot.empty? {X : Place → Type} : (s : Slot) → Option (s.Of X)
  | .scalar .text | .scalar .primitive | .scalar .assignOp | .scalar .binaryOp
  | .scalar .unaryOp | .one _ => none
  | .scalar .optText => some none
  | .scalar .flag => some false
  | .scalar .modifiers => some .empty
  | .scalar .data => some {}
  | .opt _ => some none
  | .many _ => some []
  | .optMany _ => some none
  | .arguments => some .marker

/-- Whether the slot may hold nothing, written as null or not at all. -/
def Slot.isOptional : Slot → Bool
  | .scalar .optText | .opt _ | .optMany _ => true
  | _ => false

namespace Field

/-- The field that every node has first. -/
abbrev data : Field := ⟨"data", .scalar .data, true⟩

abbrev annotations : Field := ⟨"annotations", .many (.only .annotationExpr), true⟩

abbrev modifiers : Field := ⟨"modifiers", .scalar .modifiers, true⟩

abbrev identifier : Field := ⟨"identifier", .scalar .text, false⟩

abbrev literal : Field := ⟨"value", .scalar .text, false⟩

abbrev label : Field := ⟨"label", .scalar .optText, false⟩

abbrev typeArguments : Field := ⟨"typeArguments", .optMany (.any .type), false⟩

abbrev flag (name : String) : Field := ⟨name, .scalar .flag, true⟩

abbrev one (name : String) (p : Place) : Field := ⟨name, .one p, false⟩

abbrev opt (name : String) (p : Place) : Field := ⟨name, .opt p, false⟩

/-- A list that may be left out when it is empty. -/
abbrev many (name : String) (p : Place) : Field := ⟨name, .many p, true⟩

/-- A list that is always written. -/
abbrev listed (name : String) (p : Place) : Field := ⟨name, .many p, false⟩

abbrev simple (name : String) : Field := one name (.only .simpleName)

abbrev expr (name : String) : Field := one name (.any .expr)

abbrev type (name : String) : Field := one name (.any .type)

abbrev stmt (name : String) : Field := one name (.any .stmt)

abbrev block (name : String) : Field := one name (.only .blockStmt)

abbrev optExpr (name : String) : Field := opt name (.any .expr)

abbrev exprs (name : String) : Field := many name (.any .expr)

abbrev members (name : String) : Field := many name (.any .member)

end Field

open JavaText.Field in
/-- The fields of each kind after `data`, in the order in which they are written. -/
def Kind.fields : Kind → List Field
  | .name => [opt "qualifier" (.only .name), identifier]
  | .simpleName => [identifier]
  | .compilationUnit =>
    [opt "package" (.only .packageDecl), many "imports" (.only .importDecl),
      many "types" (.any .typeDecl)]
  | .packageDecl => [annotations, one "name" (.only .name)]
  | .importDecl => [one "name" (.only .name), flag "isStatic", flag "isAsterisk"]
  | .classDecl =>
    [modifiers, annotations, flag "isInterface", simple "name",
      many "typeParameters" (.only .typeParameter), many "extends" (.only .classType),
      many "implements" (.only .classType), members "members"]
  | .enumDecl =>
    [modifiers, annotations, simple "name", many "implements" (.only .classType),
      many "entries" (.only .enumConstant), members "members"]
  | .enumConstant => [annotations, simple "name", exprs "arguments", members "classBody"]
  | .annotationDecl => [modifiers, annotations, simple "name", members "members"]
  | .fieldDecl => [modifiers, annotations, listed "variables" (.only .variableDeclarator)]
  | .variableDeclarator => [type "ty", simple "name", optExpr "initializer"]
  | .methodDecl =>
    [modifiers, annotations, flag "isDefault", many "typeParameters" (.only .typeParameter),
      type "ty", simple "name", many "parameters" (.only .parameter), many "thrown" (.any .type),
      opt "body" (.only .blockStmt)]
  | .constructorDecl =>
    [modifiers, annotations, many "typeParameters" (.only .typeParameter), simple "name",
      many "parameters" (.only .parameter), many "thrown" (.any .type), block "body"]
  | .initializerDecl => [flag "isStatic", block "body"]
  | .annotationMember =>
    [modifiers, annotations, type "ty", simple "name", optExpr "defaultValue"]
  | .emptyMember => []
  | .parameter => [modifiers, annotations, type "ty", flag "isVarArgs", simple "name"]
  | .typeParameter => [annotations, simple "name", many "typeBound" (.only .classType)]
  | .annotationExpr => [one "name" (.only .name), ⟨"arguments", .arguments, true⟩]
  | .memberValuePair => [simple "name", expr "value"]
  | .classType => [opt "scope" (.only .classType), annotations, simple "name", typeArguments]
  | .primitiveType => [annotations, ⟨"primitive", .scalar .primitive, false⟩]
  | .arrayType => [type "component", annotations]
  | .voidType => [annotations]
  | .wildcardType =>
    [annotations, opt "extendedType" (.any .type), opt "superType" (.any .type)]
  | .unionType => [annotations, listed "elements" (.any .type)]
  | .intersectionType => [annotations, listed "elements" (.any .type)]
  | .unknownType => []
  | .assertStmt => [expr "check", optExpr "message"]
  | .blockStmt => [many "statements" (.any .stmt)]
  | .breakStmt => [label]
  | .continueStmt => [label]
  | .doStmt => [stmt "body", expr "condition"]
  | .emptyStmt => []
  | .constructorCallStmt =>
    [flag "isThis", optExpr "expression", typeArguments, exprs "arguments"]
  | .expressionStmt => [expr "expression"]
  | .foreachStmt =>
    [one "variable" (.only .variableDeclaration), expr "iterable", stmt "body"]
  | .forStmt => [exprs "initialization", optExpr "compare", exprs "update", stmt "body"]
  | .ifStmt => [expr "condition", stmt "thenStmt", opt "elseStmt" (.any .stmt)]
  | .labeledStmt => [⟨"label", .scalar .text, false⟩, stmt "statement"]
  | .localClassStmt => [one "declaration" (.only .classDecl)]
  | .returnStmt => [optExpr "expression"]
  | .switchStmt => [expr "selector", many "entries" (.only .switchEntry)]
  | .switchEntry => [optExpr "label", many "statements" (.any .stmt)]
  | .synchronizedStmt => [expr "expression", block "body"]
  | .throwStmt => [expr "expression"]
  | .tryStmt =>
    [many "resources" (.only .variableDeclaration), block "tryBlock",
      many "catchClauses" (.only .catchClause), opt "finallyBlock" (.only .blockStmt)]
  | .catchClause => [one "parameter" (.only .parameter), block "body"]
  | .whileStmt => [expr "condition", stmt "body"]
  | .arrayAccess => [expr "name", expr "index"]
  | .arrayCreation =>
    [type "elementType", listed "levels" (.only .arrayCreationLevel),
      opt "initializer" (.only .arrayInitializer)]
  | .arrayCreationLevel => [annotations, optExpr "dimension"]
  | .arrayInitializer => [exprs "values"]
  | .assign => [expr "target", ⟨"operator", .scalar .assignOp, false⟩, expr "value"]
  | .binary => [expr "left", ⟨"operator", .scalar .binaryOp, false⟩, expr "right"]
  | .cast => [type "ty", expr "expression"]
  | .classLiteral => [type "ty"]
  | .conditional => [expr "condition", expr "thenExpr", expr "elseExpr"]
  | .enclosed => [optExpr "inner"]
  | .fieldAccess => [optExpr "scope", simple "field"]
  | .instanceOf => [expr "expression", type "ty"]
  | .charLiteral => [literal]
  | .doubleLiteral => [literal]
  | .integerLiteral => [literal]
  | .longLiteral => [literal]
  | .stringLiteral => [literal]
  | .booleanLiteral => [⟨"value", .scalar .flag, false⟩]
  | .nullLiteral => []
  | .methodCall => [optExpr "scope", typeArguments, simple "name", exprs "arguments"]
  | .nameExpr => [simple "name"]
  | .objectCreation =>
    [optExpr "scope", typeArguments, one "ty" (.only .classType), exprs "arguments",
      ⟨"anonymousClassBody", .optMany (.any .member), false⟩]
  | .thisExpr => [optExpr "classExpr"]
  | .superExpr => [optExpr "classExpr"]
  | .unary => [⟨"operator", .scalar .unaryOp, false⟩, expr "expression"]
  | .lambda => [many "parameters" (.only .parameter), flag "enclosingParameters", stmt "body"]
  | .methodReference => [expr "scope", typeArguments, identifier]
  | .typeExpr => [type "ty"]
  | .variableDeclaration =>
    [modifiers, annotations, listed "variables" (.only .variableDeclarator)]

end JavaText
