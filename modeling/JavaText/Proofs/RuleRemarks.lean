import JavaText.Layout.Node
import JavaText.Proofs.Runs

/-!
# The comments of every rule

A rule takes some parts of the layouts of its children and puts texts around them; for every rule the
comments that come out are listed here, in order, by the parts that they come from. A child is taken by
its body, or led by the orphans before it; only the type of a declared variable is taken in two parts,
the type inside its array layers and the brackets.
-/

namespace JavaText

/-- A comment that is set in a layout; `orphan` tells whether it is an orphan put back in place. -/
structure Remark where
  orphan : Bool
  comment : Comment
deriving DecidableEq, Repr

mutual

/-- The comments in an item of a layout, in order. -/
def Doc.remarks : Doc → List Remark
  | .comment orphan c => [⟨orphan, c⟩]
  | .indented ds => Doc.remarksAll ds
  | .decorated _ _ ds => Doc.remarksAll ds
  | .write _ | .newline | .abort _ => []

def Doc.remarksAll : List Doc → List Remark
  | [] => []
  | d :: ds => d.remarks ++ Doc.remarksAll ds

end

namespace Doc

@[simp] theorem remarksAll_nil : remarksAll [] = [] := rfl

@[simp] theorem remarksAll_cons (d : Doc) (ds : List Doc) :
    remarksAll (d :: ds) = d.remarks ++ remarksAll ds := rfl

@[simp] theorem remarksAll_append (ds es : List Doc) :
    remarksAll (ds ++ es) = remarksAll ds ++ remarksAll es := by
  induction ds with
  | nil => rfl
  | cons d ds ih => rw [List.cons_append, remarksAll_cons, remarksAll_cons, ih, List.append_assoc]

@[simp] theorem remarks_write (t : String) : (Doc.write t).remarks = [] := rfl

@[simp] theorem remarks_newline : Doc.newline.remarks = [] := rfl

@[simp] theorem remarks_comment (orphan : Bool) (c : Comment) :
    (Doc.comment orphan c).remarks = [⟨orphan, c⟩] := rfl

@[simp] theorem remarks_indented (ds : List Doc) : (Doc.indented ds).remarks = remarksAll ds := rfl

@[simp] theorem remarks_decorated (role : Role) (n : Node) (ds : List Doc) :
    (Doc.decorated role n ds).remarks = remarksAll ds := rfl

@[simp] theorem remarksAll_line (t : String) : remarksAll (line t) = [] := rfl

@[simp] theorem remarksAll_ite (c : Prop) [Decidable c] (ds es : List Doc) :
    remarksAll (if c then ds else es) = if c then remarksAll ds else remarksAll es := by
  split <;> rfl

theorem remarksAll_flatMap {X : Type} (xs : List X) (f : X → List Doc) :
    remarksAll (xs.flatMap f) = xs.flatMap fun x => remarksAll (f x) := by
  induction xs with
  | nil => rfl
  | cons x xs ih => rw [List.flatMap_cons, remarksAll_append, ih, List.flatMap_cons]

theorem remarksAll_intercalate {sep : List Doc} (hsep : remarksAll sep = [])
    (ds : List (List Doc)) :
    remarksAll (sep.intercalate ds) = ds.flatMap remarksAll := by
  induction ds with
  | nil => rfl
  | cons d ds ih =>
    cases ds with
    | nil => simp
    | cons e es =>
      rw [List.intercalate_cons_cons, remarksAll_append, remarksAll_append, hsep, ih,
        List.append_nil]
      rfl

theorem remarksAll_separated {X : Type} (sep : String) (xs : List X) (f : X → List Doc) :
    remarksAll (separated sep (xs.map f)) = xs.flatMap fun x => remarksAll (f x) := by
  rw [separated, remarksAll_intercalate rfl, List.flatMap_map]

theorem remarksAll_getD {X : Type} (x : Option X) (f : X → List Doc) :
    remarksAll ((x.map f).getD []) = x.toList.flatMap fun x => remarksAll (f x) := by
  cases x <;> simp

theorem remarksAll_orphans (cs : List Comment) :
    remarksAll (orphans cs) = cs.map (Remark.mk true) := by
  induction cs with
  | nil => rfl
  | cons c cs ih => exact congrArg (_ :: ·) ih

end Doc

namespace Layout

open Doc (remarksAll remarksAll_flatMap remarksAll_separated remarksAll_intercalate remarksAll_getD)

/-- The comments in the layout of a node by its own rule. -/
def remarks (l : Layout) : List Remark := remarksAll l.body

/-- The same with the orphans before the node. -/
def ledRemarks (l : Layout) : List Remark := remarksAll l.led

variable (l : Layout) (ls : List Layout)

@[simp] theorem remarksAll_body : remarksAll l.body = l.remarks := rfl

@[simp] theorem remarksAll_led : remarksAll l.led = l.ledRemarks := rfl

@[simp] theorem remarksAll_decorated (role : Role) : remarksAll (l.decorated role) = l.remarks := by
  simp [decorated]

@[simp] theorem remarksAll_type : remarksAll l.type = l.remarks := by
  simp [type]

@[simp] theorem remarksAll_expr : remarksAll l.expr = l.remarks := by
  simp [expr]

/-- Something that is left out for an empty list adds no comments then either way. -/
@[simp] theorem flatMap_unlessEmpty (f : Layout → List Remark) :
    (if ls = [] then [] else ls.flatMap f) = ls.flatMap f := by
  cases ls <;> simp

@[simp] theorem remarksAll_typeReferences (sep : String) :
    remarksAll (typeReferences sep ls) = ls.flatMap remarks := by
  simp [typeReferences, remarksAll_separated]

@[simp] theorem remarksAll_typeArguments (ls : Option (List Layout)) :
    remarksAll (typeArguments ls) = (ls.getD []).flatMap remarks := by
  rcases ls with - | ⟨- | ⟨l, ls⟩⟩
  · rfl
  · rfl
  · simp [typeArguments, -List.map_cons, remarksAll_separated]

@[simp] theorem remarksAll_annotationLines :
    remarksAll (annotationLines ls) = ls.flatMap remarks := by
  simp [annotationLines, remarksAll_flatMap]

@[simp] theorem remarksAll_annotations (gap : Bool) :
    remarksAll (annotations gap ls) = ls.flatMap remarks := by
  simp [annotations, remarksAll_flatMap]

@[simp] theorem remarksAll_modifiers (m : Modifiers) : remarksAll (modifiers m) = [] := by
  simp [modifiers]

@[simp] theorem remarksAll_arguments : remarksAll (arguments ls) = ls.flatMap remarks := by
  simp [arguments, remarksAll_separated]

@[simp] theorem remarksAll_parameters : remarksAll (parameters ls) = ls.flatMap remarks := by
  simp [parameters, remarksAll_separated]

@[simp] theorem remarksAll_members : remarksAll (members ls) = ls.flatMap ledRemarks := by
  simp [members, remarksAll_flatMap]

@[simp] theorem remarksAll_statements : remarksAll (statements ls) = ls.flatMap ledRemarks := by
  simp [statements, remarksAll_flatMap]

@[simp] theorem remarksAll_declarators :
    remarksAll (declarators ls) =
      (ls.head?.toList.flatMap fun l => remarksAll l.element) ++ ls.flatMap remarks := by
  simp [declarators, remarksAll_separated, remarksAll_getD]

namespace Rule

@[simp] theorem remarksAll_inheritance (keyword : String) :
    remarksAll (inheritance keyword ls) = ls.flatMap remarks := by
  simp [inheritance]

@[simp] theorem remarksAll_typeParameters :
    remarksAll (typeParameters ls) = ls.flatMap remarks := by
  simp [typeParameters, remarksAll_separated]

@[simp] theorem remarksAll_leadingTypeParameters :
    remarksAll (leadingTypeParameters ls) = ls.flatMap remarks := by
  simp [leadingTypeParameters]

@[simp] theorem remarksAll_signature (params thrown : List Layout) :
    remarksAll (signature params thrown) = params.flatMap remarks ++ thrown.flatMap remarks := by
  simp [signature, remarksAll_separated]

@[simp] theorem remarksAll_scopeDot (scope : Option Layout) :
    remarksAll (scopeDot scope) = scope.toList.flatMap remarks := by
  cases scope <;> simp [scopeDot]

variable (x y z : Layout) (o q : Option Layout) (as bs cs ds es : List Layout) (e : List Doc)

@[simp] theorem remarksAll_name (s : String) :
    remarksAll (name o s e) = o.toList.flatMap remarks ++ remarksAll e := by
  cases o <;> simp [name]

@[simp] theorem remarksAll_annotationExpr (args : Arguments Layout Layout) :
    remarksAll (annotationExpr x args) = x.remarks ++ args.toList.flatMap remarks := by
  cases args <;> simp [annotationExpr, remarksAll_separated, Arguments.toList]

@[simp] theorem remarksAll_memberValuePair :
    remarksAll (memberValuePair x y) = x.remarks ++ y.remarks := by
  simp [memberValuePair]

@[simp] theorem remarksAll_classType (args : Option (List Layout)) :
    remarksAll (classType o as x args) =
      o.toList.flatMap remarks ++ as.flatMap remarks ++ x.remarks ++
        (args.getD []).flatMap remarks := by
  unfold classType
  cases o <;> rcases args with - | ⟨- | ⟨a, args⟩⟩ <;> simp

@[simp] theorem remarksAll_primitiveType (p : Primitive) :
    remarksAll (primitiveType as p) = as.flatMap remarks := by
  simp [primitiveType]

@[simp] theorem remarksAll_arrayBrackets :
    remarksAll (arrayBrackets x as) = as.flatMap remarks ++ remarksAll x.brackets := by
  simp [arrayBrackets]

@[simp] theorem remarksAll_arrayType :
    remarksAll (arrayType x as) =
      remarksAll x.element ++ as.flatMap remarks ++ remarksAll x.brackets := by
  simp [arrayType, remarksAll_arrayBrackets]

@[simp] theorem remarksAll_voidType : remarksAll (voidType as) = as.flatMap remarks := by
  simp [voidType]

@[simp] theorem remarksAll_wildcardType :
    remarksAll (wildcardType as o q) =
      as.flatMap remarks ++ o.toList.flatMap remarks ++ q.toList.flatMap remarks := by
  cases o <;> cases q <;> simp [wildcardType]

@[simp] theorem remarksAll_unionType :
    remarksAll (unionType as bs) = as.flatMap remarks ++ bs.flatMap remarks := by
  simp [unionType, remarksAll_separated]

@[simp] theorem remarksAll_intersectionType :
    remarksAll (intersectionType as bs) = as.flatMap remarks ++ bs.flatMap remarks := by
  simp [intersectionType, remarksAll_separated]

@[simp] theorem remarksAll_typeParameter :
    remarksAll (typeParameter as x bs) = as.flatMap remarks ++ x.remarks ++ bs.flatMap remarks := by
  simp [typeParameter]

@[simp] theorem remarksAll_compilationUnit :
    remarksAll (compilationUnit o as bs e) =
      o.toList.flatMap remarks ++ as.flatMap ledRemarks ++ bs.flatMap ledRemarks ++
        remarksAll e := by
  have htypes : remarksAll ([Doc.newline].intercalate (bs.map fun t => t.led ++ [.newline])) =
      bs.flatMap ledRemarks := by
    rw [remarksAll_intercalate rfl, List.flatMap_map]
    simp
  simp [compilationUnit, htypes, remarksAll_getD, remarksAll_flatMap]

@[simp] theorem remarksAll_packageDecl :
    remarksAll (packageDecl as x e) = as.flatMap remarks ++ x.remarks ++ remarksAll e := by
  simp [packageDecl]

@[simp] theorem remarksAll_importDecl (isStatic isAsterisk : Bool) :
    remarksAll (importDecl x isStatic isAsterisk e) = x.remarks ++ remarksAll e := by
  cases isStatic <;> cases isAsterisk <;> simp [importDecl]

@[simp] theorem remarksAll_classDecl (m : Modifiers) (isInterface : Bool) :
    remarksAll (classDecl m as isInterface x bs cs ds es e) =
      as.flatMap remarks ++ x.remarks ++ bs.flatMap remarks ++ cs.flatMap remarks ++
        ds.flatMap remarks ++ es.flatMap ledRemarks ++ remarksAll e := by
  simp [classDecl]

@[simp] theorem remarksAll_enumBody :
    remarksAll (enumBody as bs) = as.flatMap ledRemarks ++ bs.flatMap ledRemarks := by
  simp [enumBody, remarksAll_separated]

@[simp] theorem remarksAll_enumDecl (m : Modifiers) :
    remarksAll (enumDecl m as x bs cs ds) =
      as.flatMap remarks ++ x.remarks ++ bs.flatMap remarks ++ cs.flatMap ledRemarks ++
        ds.flatMap ledRemarks := by
  simp [enumDecl, remarksAll_enumBody]

@[simp] theorem remarksAll_enumConstant :
    remarksAll (enumConstant as x bs cs) =
      as.flatMap remarks ++ x.remarks ++ bs.flatMap remarks ++ cs.flatMap ledRemarks := by
  simp [enumConstant]

@[simp] theorem remarksAll_annotationDecl (m : Modifiers) :
    remarksAll (annotationDecl m as x bs) =
      as.flatMap remarks ++ x.remarks ++ bs.flatMap ledRemarks := by
  simp [annotationDecl]

@[simp] theorem remarksAll_fieldDecl (m : Modifiers) :
    remarksAll (fieldDecl m as bs) = as.flatMap remarks ++ remarksAll (declarators bs) := by
  simp [fieldDecl]

@[simp] theorem remarksAll_variableDeclarator :
    remarksAll (variableDeclarator x y o) =
      y.remarks ++ remarksAll x.brackets ++ o.toList.flatMap remarks := by
  cases o <;> simp [variableDeclarator]

@[simp] theorem remarksAll_methodDecl (m : Modifiers) (isDefault : Bool) :
    remarksAll (methodDecl m as isDefault bs x y cs ds o) =
      as.flatMap remarks ++ bs.flatMap remarks ++ x.remarks ++ y.remarks ++ cs.flatMap remarks ++
        ds.flatMap remarks ++ o.toList.flatMap ledRemarks := by
  cases isDefault <;> cases o <;> simp [methodDecl]

@[simp] theorem remarksAll_constructorDecl (m : Modifiers) :
    remarksAll (constructorDecl m as bs x cs ds y) =
      as.flatMap remarks ++ bs.flatMap remarks ++ x.remarks ++ cs.flatMap remarks ++
        ds.flatMap remarks ++ y.ledRemarks := by
  simp [constructorDecl]

@[simp] theorem remarksAll_initializerDecl (isStatic : Bool) :
    remarksAll (initializerDecl isStatic x) = x.ledRemarks := by
  cases isStatic <;> simp [initializerDecl]

@[simp] theorem remarksAll_annotationMember (m : Modifiers) :
    remarksAll (annotationMember m as x y o) =
      as.flatMap remarks ++ x.remarks ++ y.remarks ++ o.toList.flatMap remarks := by
  cases o <;> simp [annotationMember]

@[simp] theorem remarksAll_parameter (m : Modifiers) (isVarArgs : Bool) :
    remarksAll (parameter m as x isVarArgs y) = as.flatMap remarks ++ x.remarks ++ y.remarks := by
  simp [parameter]

@[simp] theorem remarksAll_assertStmt :
    remarksAll (assertStmt x o) = x.remarks ++ o.toList.flatMap remarks := by
  cases o <;> simp [assertStmt]

@[simp] theorem remarksAll_blockStmt :
    remarksAll (blockStmt as e) = as.flatMap ledRemarks ++ remarksAll e := by
  simp [blockStmt]

@[simp] theorem remarksAll_jump (keyword : String) (label : Option String) :
    remarksAll (jump keyword label) = [] := by
  cases label <;> rfl

@[simp] theorem remarksAll_doStmt : remarksAll (doStmt x y) = x.ledRemarks ++ y.remarks := by
  simp [doStmt]

/-- Before `this` the scope is left out, with its comments. -/
@[simp] theorem remarksAll_constructorCallStmt (isThis : Bool) (args : Option (List Layout)) :
    remarksAll (constructorCallStmt isThis o args as) =
      (if isThis then [] else o.toList.flatMap remarks) ++ (args.getD []).flatMap remarks ++
        as.flatMap remarks := by
  cases isThis <;> cases o <;> simp [constructorCallStmt]

@[simp] theorem remarksAll_expressionStmt : remarksAll (expressionStmt x) = x.remarks := by
  simp [expressionStmt]

@[simp] theorem remarksAll_foreachStmt :
    remarksAll (foreachStmt x y z) = x.remarks ++ y.remarks ++ z.ledRemarks := by
  simp [foreachStmt]

@[simp] theorem remarksAll_forStmt :
    remarksAll (forStmt as o bs x) =
      as.flatMap remarks ++ o.toList.flatMap remarks ++ bs.flatMap remarks ++ x.ledRemarks := by
  simp [forStmt, remarksAll_separated, remarksAll_getD]

@[simp] theorem remarksAll_ifStmt :
    remarksAll (ifStmt x y o) = x.remarks ++ y.ledRemarks ++ o.toList.flatMap ledRemarks := by
  cases o <;> simp [ifStmt]

@[simp] theorem remarksAll_labeledStmt (label : String) :
    remarksAll (labeledStmt label x) = x.ledRemarks := by
  simp [labeledStmt]

@[simp] theorem remarksAll_returnStmt : remarksAll (returnStmt o) = o.toList.flatMap remarks := by
  cases o <;> simp [returnStmt]

@[simp] theorem remarksAll_switchStmt :
    remarksAll (switchStmt x as e) = x.remarks ++ as.flatMap ledRemarks ++ remarksAll e := by
  simp [switchStmt, remarksAll_flatMap]

@[simp] theorem remarksAll_switchEntry :
    remarksAll (switchEntry o as e) =
      o.toList.flatMap remarks ++ as.flatMap ledRemarks ++ remarksAll e := by
  cases o <;> simp [switchEntry]

@[simp] theorem remarksAll_synchronizedStmt :
    remarksAll (synchronizedStmt x y) = x.remarks ++ y.ledRemarks := by
  simp [synchronizedStmt]

@[simp] theorem remarksAll_throwStmt : remarksAll (throwStmt x) = x.remarks := by
  simp [throwStmt]

@[simp] theorem remarksAll_resources : remarksAll (resources as) = as.flatMap remarks := by
  cases as with
  | nil => rfl
  | cons a as =>
    have hrest : remarksAll ((Doc.line ";").intercalate (as.map body)) = as.flatMap remarks := by
      rw [remarksAll_intercalate rfl, List.flatMap_map]
      rfl
    simp [resources, hrest]

@[simp] theorem remarksAll_tryStmt :
    remarksAll (tryStmt as x bs o) =
      as.flatMap remarks ++ x.ledRemarks ++ bs.flatMap remarks ++ o.toList.flatMap ledRemarks := by
  cases o <;> simp [tryStmt, remarksAll_resources, remarksAll_flatMap]

@[simp] theorem remarksAll_catchClause :
    remarksAll (catchClause x y) = x.remarks ++ y.ledRemarks := by
  simp [catchClause]

@[simp] theorem remarksAll_whileStmt : remarksAll (whileStmt x y) = x.remarks ++ y.ledRemarks := by
  simp [whileStmt]

@[simp] theorem remarksAll_arrayAccess : remarksAll (arrayAccess x y) = x.remarks ++ y.remarks := by
  simp [arrayAccess]

@[simp] theorem remarksAll_arrayCreationLevel :
    remarksAll (arrayCreationLevel as o) = as.flatMap remarks ++ o.toList.flatMap remarks := by
  simp [arrayCreationLevel, remarksAll_getD]

@[simp] theorem remarksAll_arrayInitializer :
    remarksAll (arrayInitializer as) = as.flatMap remarks := by
  simp [arrayInitializer, remarksAll_separated]

@[simp] theorem remarksAll_arrayCreation :
    remarksAll (arrayCreation x as o) =
      x.remarks ++ as.flatMap remarks ++ o.toList.flatMap remarks := by
  cases o <;> simp [arrayCreation, remarksAll_flatMap]

@[simp] theorem remarksAll_operation (sign : String) :
    remarksAll (operation x sign y) = x.remarks ++ y.remarks := by
  simp [operation]

@[simp] theorem remarksAll_cast : remarksAll (cast x y) = x.remarks ++ y.remarks := by
  simp [cast]

@[simp] theorem remarksAll_classLiteral : remarksAll (classLiteral x) = x.remarks := by
  simp [classLiteral]

@[simp] theorem remarksAll_conditional :
    remarksAll (conditional x y z) = x.remarks ++ y.remarks ++ z.remarks := by
  simp [conditional]

@[simp] theorem remarksAll_enclosed : remarksAll (enclosed o) = o.toList.flatMap remarks := by
  simp [enclosed, remarksAll_getD]

@[simp] theorem remarksAll_fieldAccess :
    remarksAll (fieldAccess o x) = o.toList.flatMap remarks ++ x.remarks := by
  simp [fieldAccess, remarksAll_getD]

@[simp] theorem remarksAll_instanceOf : remarksAll (instanceOf x y) = x.remarks ++ y.remarks := by
  simp [instanceOf]

@[simp] theorem remarksAll_quoted (quote value : String) :
    remarksAll (quoted quote value) = [] := rfl

@[simp] theorem remarksAll_methodCall (args : Option (List Layout)) :
    remarksAll (methodCall o args x as) =
      o.toList.flatMap remarks ++ (args.getD []).flatMap remarks ++ x.remarks ++
        as.flatMap remarks := by
  simp [methodCall]

@[simp] theorem remarksAll_objectCreation (args ms : Option (List Layout)) :
    remarksAll (objectCreation o args x as ms) =
      o.toList.flatMap remarks ++ (args.getD []).flatMap remarks ++ x.remarks ++
        as.flatMap remarks ++ (ms.getD []).flatMap ledRemarks := by
  unfold objectCreation
  cases ms <;> rcases args with - | ⟨- | ⟨a, args⟩⟩ <;> simp

@[simp] theorem remarksAll_unary (op : UnaryOp) : remarksAll (unary op x) = x.remarks := by
  simp [unary]

/-- A body that is only an expression is set without its statement, and without the orphans before
that. -/
@[simp] theorem remarksAll_lambda (enclosing : Bool) :
    remarksAll (lambda as enclosing x) =
      as.flatMap remarks ++ (x.bare.map remarksAll).getD x.ledRemarks := by
  unfold lambda
  cases enclosing <;> cases x.bare <;> simp

@[simp] theorem remarksAll_methodReference (args : Option (List Layout)) (identifier : String) :
    remarksAll (methodReference x args identifier) =
      x.remarks ++ (args.getD []).flatMap remarks := by
  simp [methodReference]

@[simp] theorem remarksAll_variableDeclaration (m : Modifiers) :
    remarksAll (variableDeclaration m as bs) =
      as.flatMap remarks ++ remarksAll (declarators bs) := by
  simp [variableDeclaration]

end Rule

end Layout

/-! ### All rules at once -/

/-- The places whose nodes are set with the orphans before them. -/
@[simp] def Place.isLed : Place → Bool
  | .any .typeDecl | .any .member | .any .stmt | .only .blockStmt | .only .importDecl
  | .only .enumConstant | .only .switchEntry => true
  | _ => false

/-- The kinds whose rule sets the orphans behind the last child. -/
@[simp] def Kind.hasEnding : Kind → Bool
  | .name | .compilationUnit | .packageDecl | .importDecl | .classDecl | .blockStmt | .switchStmt
  | .switchEntry | .nameExpr => true
  | _ => false

/-- The kinds whose rule sets a child in two parts, or leaves out some of it. -/
def Kind.takesApart : Kind → Bool
  | .arrayType | .variableDeclarator | .fieldDecl | .variableDeclaration | .lambda
  | .constructorCallStmt => true
  | _ => false

/-- The comments that a child in the place brings along. -/
@[simp] def Layout.remarksIn (p : Place) : Layout → List Remark :=
  if p.isLed then ledRemarks else remarks

@[simp] def Slot.remarks : (s : Slot) → (s.Of fun _ => Layout) → List Remark
  | .scalar _, _ => []
  | .one p, l => l.remarksIn p
  | .opt p, l => l.toList.flatMap (Layout.remarksIn p)
  | .many p, ls => ls.flatMap (Layout.remarksIn p)
  | .optMany p, ls => (ls.getD []).flatMap (Layout.remarksIn p)
  | .arguments, a => a.toList.flatMap Layout.remarks

/-- The comments of all children, in order. -/
@[simp] def Row.remarks : (fs : List Field) → Row (Field.Of fun _ => Layout) fs → List Remark
  | [], _ => []
  | f :: fs, r => f.slot.remarks r.1 ++ remarks fs r.2

open Doc Layout in
/-- A rule that sets every child in one piece sets the comments of the children in the order of the
fields, and then, for some kinds, the orphans at the end. -/
theorem Layout.remarksAll_rule {k : Kind} (hk : k.takesApart = false) (t : Tree k)
    (row : Row (Field.Of fun _ => Layout) k.fields) :
    remarksAll (rule t row) = Row.remarks k.fields row ++
      if k.hasEnding then remarksAll (Doc.trailing (.tree t)) else [] := by
  cases k with
  | arrayType | variableDeclarator | fieldDecl | variableDeclaration | lambda
  | constructorCallStmt => cases hk
  | simpleName | emptyMember | unknownType | emptyStmt | doubleLiteral | integerLiteral | longLiteral
  | booleanLiteral | nullLiteral | charLiteral | stringLiteral => rfl
  | breakStmt | continueStmt => exact Rule.remarksAll_jump ..
  | name => exact (Rule.remarksAll_name ..).trans (by simp [Kind.fields])
  | compilationUnit => exact (Rule.remarksAll_compilationUnit ..).trans (by simp [Kind.fields])
  | packageDecl => exact (Rule.remarksAll_packageDecl ..).trans (by simp [Kind.fields])
  | importDecl => exact (Rule.remarksAll_importDecl ..).trans (by simp [Kind.fields])
  | classDecl => exact (Rule.remarksAll_classDecl ..).trans (by simp [Kind.fields])
  | enumDecl => exact (Rule.remarksAll_enumDecl ..).trans (by simp [Kind.fields])
  | enumConstant => exact (Rule.remarksAll_enumConstant ..).trans (by simp [Kind.fields])
  | annotationDecl => exact (Rule.remarksAll_annotationDecl ..).trans (by simp [Kind.fields])
  | methodDecl => exact (Rule.remarksAll_methodDecl ..).trans (by simp [Kind.fields])
  | constructorDecl => exact (Rule.remarksAll_constructorDecl ..).trans (by simp [Kind.fields])
  | initializerDecl => exact (Rule.remarksAll_initializerDecl ..).trans (by simp [Kind.fields])
  | annotationMember => exact (Rule.remarksAll_annotationMember ..).trans (by simp [Kind.fields])
  | parameter => exact (Rule.remarksAll_parameter ..).trans (by simp [Kind.fields])
  | typeParameter => exact (Rule.remarksAll_typeParameter ..).trans (by simp [Kind.fields])
  | annotationExpr => exact (Rule.remarksAll_annotationExpr ..).trans (by simp [Kind.fields])
  | memberValuePair => exact (Rule.remarksAll_memberValuePair ..).trans (by simp [Kind.fields])
  | classType => exact (Rule.remarksAll_classType ..).trans (by simp [Kind.fields])
  | primitiveType => exact (Rule.remarksAll_primitiveType ..).trans (by simp [Kind.fields])
  | voidType => exact (Rule.remarksAll_voidType ..).trans (by simp [Kind.fields])
  | wildcardType => exact (Rule.remarksAll_wildcardType ..).trans (by simp [Kind.fields])
  | unionType => exact (Rule.remarksAll_unionType ..).trans (by simp [Kind.fields])
  | intersectionType => exact (Rule.remarksAll_intersectionType ..).trans (by simp [Kind.fields])
  | assertStmt => exact (Rule.remarksAll_assertStmt ..).trans (by simp [Kind.fields])
  | blockStmt => exact (Rule.remarksAll_blockStmt ..).trans (by simp [Kind.fields])
  | doStmt => exact (Rule.remarksAll_doStmt ..).trans (by simp [Kind.fields])
  | expressionStmt => exact (Rule.remarksAll_expressionStmt ..).trans (by simp [Kind.fields])
  | foreachStmt => exact (Rule.remarksAll_foreachStmt ..).trans (by simp [Kind.fields])
  | forStmt => exact (Rule.remarksAll_forStmt ..).trans (by simp [Kind.fields])
  | ifStmt => exact (Rule.remarksAll_ifStmt ..).trans (by simp [Kind.fields])
  | labeledStmt => exact (Rule.remarksAll_labeledStmt ..).trans (by simp [Kind.fields])
  | localClassStmt => exact (remarksAll_body _).trans (by simp [Kind.fields])
  | returnStmt => exact (Rule.remarksAll_returnStmt ..).trans (by simp [Kind.fields])
  | switchStmt => exact (Rule.remarksAll_switchStmt ..).trans (by simp [Kind.fields])
  | switchEntry => exact (Rule.remarksAll_switchEntry ..).trans (by simp [Kind.fields])
  | synchronizedStmt => exact (Rule.remarksAll_synchronizedStmt ..).trans (by simp [Kind.fields])
  | throwStmt => exact (Rule.remarksAll_throwStmt ..).trans (by simp [Kind.fields])
  | tryStmt => exact (Rule.remarksAll_tryStmt ..).trans (by simp [Kind.fields])
  | catchClause => exact (Rule.remarksAll_catchClause ..).trans (by simp [Kind.fields])
  | whileStmt => exact (Rule.remarksAll_whileStmt ..).trans (by simp [Kind.fields])
  | arrayAccess => exact (Rule.remarksAll_arrayAccess ..).trans (by simp [Kind.fields])
  | arrayCreation => exact (Rule.remarksAll_arrayCreation ..).trans (by simp [Kind.fields])
  | arrayCreationLevel => exact (Rule.remarksAll_arrayCreationLevel ..).trans (by simp [Kind.fields])
  | arrayInitializer => exact (Rule.remarksAll_arrayInitializer ..).trans (by simp [Kind.fields])
  | assign => exact (Rule.remarksAll_operation ..).trans (by simp [Kind.fields])
  | binary => exact (Rule.remarksAll_operation ..).trans (by simp [Kind.fields])
  | cast => exact (Rule.remarksAll_cast ..).trans (by simp [Kind.fields])
  | classLiteral => exact (Rule.remarksAll_classLiteral ..).trans (by simp [Kind.fields])
  | conditional => exact (Rule.remarksAll_conditional ..).trans (by simp [Kind.fields])
  | enclosed => exact (Rule.remarksAll_enclosed ..).trans (by simp [Kind.fields])
  | fieldAccess => exact (Rule.remarksAll_fieldAccess ..).trans (by simp [Kind.fields])
  | instanceOf => exact (Rule.remarksAll_instanceOf ..).trans (by simp [Kind.fields])
  | methodCall => exact (Rule.remarksAll_methodCall ..).trans (by simp [Kind.fields])
  | nameExpr => exact (Doc.remarksAll_append ..).trans (by simp [Kind.fields])
  | objectCreation => exact (Rule.remarksAll_objectCreation ..).trans (by simp [Kind.fields])
  | thisExpr => exact (Doc.remarksAll_append ..).trans (by simp [Kind.fields])
  | superExpr => exact (Doc.remarksAll_append ..).trans (by simp [Kind.fields])
  | unary => exact (Rule.remarksAll_unary ..).trans (by simp [Kind.fields])
  | methodReference => exact (Rule.remarksAll_methodReference ..).trans (by simp [Kind.fields])
  | typeExpr => exact (remarksAll_type _).trans (by simp [Kind.fields])

end JavaText
