import JavaText.Layout.Node
import JavaText.Proofs.Brackets

/-!
# The brackets of every rule

A rule writes its brackets as parts of many texts, some of them under conditions; for every rule it is
shown here that the brackets it opens are closed by it, in the right order, if that is so for the parts
of the children that it sets and if the texts that it takes from the node have no brackets
(`Layout.closed_rule`).
-/

namespace JavaText

section
variable (comments : Bool)

/-- The nesting behind an item of a layout that is printed without a decorator. -/
def Doc.follow (d : Doc) (x : Nesting) : Nesting := (d.script .plain comments).foldl Nesting.follow x

def Doc.followAll (ds : List Doc) (x : Nesting) : Nesting :=
  (scriptAll .plain comments ds).foldl Nesting.follow x

/-- What the layout opens it closes, and it closes nothing else. -/
def Doc.Closed (ds : List Doc) : Prop := ∀ x, followAll comments ds x = x

end

namespace Doc

variable {comments : Bool} {ds es : List Doc}

@[simp] theorem followAll_nil (x : Nesting) : followAll comments [] x = x := rfl

@[simp] theorem followAll_cons (d : Doc) (ds : List Doc) (x : Nesting) :
    followAll comments (d :: ds) x = followAll comments ds (d.follow comments x) := by
  rw [followAll, scriptAll, List.foldl_append]
  rfl

@[simp] theorem followAll_append (ds es : List Doc) (x : Nesting) :
    followAll comments (ds ++ es) x = followAll comments es (followAll comments ds x) := by
  rw [followAll, scriptAll_append, List.foldl_append]
  rfl

/-- Texts are read character by character, so that those of the rules can be computed. -/
@[simp] theorem follow_write (t : String) (x : Nesting) :
    (Doc.write t).follow comments x = t.toList.foldl Nesting.step x := rfl

@[simp] theorem follow_newline (x : Nesting) : Doc.newline.follow comments x = x := rfl

@[simp] theorem follow_indented (ds : List Doc) (x : Nesting) :
    (Doc.indented ds).follow comments x = followAll comments ds x := by
  rw [follow, script, List.foldl_append, List.foldl_append]
  rfl

@[simp] theorem follow_decorated (role : Role) (n : Node) (ds : List Doc) (x : Nesting) :
    (Doc.decorated role n ds).follow comments x = followAll comments ds x := by
  rw [follow, script, List.foldl_append, List.foldl_append, List.foldl_append]
  rfl

@[simp] theorem followAll_line (t : String) (x : Nesting) :
    followAll comments (line t) x = t.toList.foldl Nesting.step x := rfl

@[simp] theorem Closed.eq (h : Closed comments ds) (x : Nesting) : followAll comments ds x = x := h x

@[simp] theorem closed_nil : Closed comments [] := fun _ => rfl

theorem Closed.append (hd : Closed comments ds) (he : Closed comments es) :
    Closed comments (ds ++ es) := by
  intro x
  rw [followAll_append, hd, he]

theorem closed_write {t : String} (ht : bracketFree t = true) : Closed comments [.write t] :=
  Nesting.read_bracketFree ht

theorem Closed.flatMap {X : Type} {xs : List X} {f : X → List Doc}
    (h : ∀ y ∈ xs, Closed comments (f y)) : Closed comments (xs.flatMap f) := by
  induction xs with
  | nil => exact closed_nil
  | cons y ys ih =>
    rw [List.forall_mem_cons] at h
    exact h.1.append (ih h.2)

theorem Closed.intercalate {sep : List Doc} (hsep : Closed comments sep) {dss : List (List Doc)}
    (h : ∀ ds ∈ dss, Closed comments ds) : Closed comments (sep.intercalate dss) := by
  induction dss with
  | nil => exact closed_nil
  | cons ds dss ih =>
    rw [List.forall_mem_cons] at h
    cases dss with
    | nil => simpa [List.intercalate] using h.1
    | cons es ess =>
      rw [List.intercalate_cons_cons]
      exact (h.1.append hsep).append (ih h.2)

end Doc

@[simp] theorem Nesting.foldl_bracketFree {t : String} (ht : bracketFree t = true) (x : Nesting) :
    t.toList.foldl step x = x := read_bracketFree ht x

theorem bracketFree_intercalate {sep : String} (hsep : bracketFree sep = true) {ts : List String}
    (h : ∀ t ∈ ts, bracketFree t = true) : bracketFree (sep.intercalate ts) = true := by
  unfold bracketFree at *
  rw [String.toList_intercalate]
  induction ts with
  | nil => rfl
  | cons t ts ih =>
    rw [List.forall_mem_cons] at h
    cases ts with
    | nil => simpa [List.intercalate] using h.1
    | cons u us =>
      have ih := ih h.2
      rw [List.map_cons] at ih ⊢
      rw [List.map_cons, List.intercalate_cons_cons, List.all_append, List.all_append, h.1, hsep, ih]
      rfl

@[simp] theorem Primitive.bracketFree_spelling (p : Primitive) : bracketFree p.spelling = true := by
  cases p <;> decide

@[simp] theorem AssignOp.bracketFree_sign (op : AssignOp) : bracketFree op.sign = true := by
  cases op <;> decide

@[simp] theorem BinaryOp.bracketFree_sign (op : BinaryOp) : bracketFree op.sign = true := by
  cases op <;> decide

@[simp] theorem UnaryOp.bracketFree_sign (op : UnaryOp) : bracketFree op.sign = true := by
  cases op <;> decide

theorem Modifiers.bracketFree_keyword {m : Modifiers} {t : String} (ht : t ∈ m.keywords) :
    bracketFree t = true := by
  have hall : (Modifiers.flags.all fun f => bracketFree f.keyword) = true := by decide
  obtain ⟨f, hf, rfl⟩ := List.mem_map.mp ht
  exact List.all_eq_true.mp hall f (List.mem_filter.mp hf).1

namespace Layout

section
variable (comments : Bool)

/-- Every part of the layout is closed. -/
structure Closed (l : Layout) : Prop where
  before : Doc.Closed comments l.before
  body : Doc.Closed comments l.body
  element : Doc.Closed comments l.element
  brackets : Doc.Closed comments l.brackets
  bare : ∀ e, l.bare = some e → Doc.Closed comments e

def AllClosed (ls : List Layout) : Prop := ∀ l ∈ ls, l.Closed comments

end

variable {comments : Bool} {l : Layout} {ls : List Layout}

@[simp] theorem allClosed_nil : AllClosed comments [] := fun _ hl => (List.not_mem_nil hl).elim

@[simp] theorem allClosed_cons :
    AllClosed comments (l :: ls) ↔ l.Closed comments ∧ AllClosed comments ls := List.forall_mem_cons

section
variable (h : l.Closed comments)
include h

@[simp] theorem closed_body : Doc.Closed comments l.body := h.body

@[simp] theorem closed_element : Doc.Closed comments l.element := h.element

@[simp] theorem closed_brackets : Doc.Closed comments l.brackets := h.brackets

@[simp] theorem closed_led : Doc.Closed comments l.led := h.before.append h.body

@[simp] theorem closed_decorated (role : Role) : Doc.Closed comments (l.decorated role) := by
  intro x
  simp [decorated, h]

@[simp] theorem closed_type : Doc.Closed comments l.type := by
  unfold type
  split <;> simp [h]

@[simp] theorem closed_expr : Doc.Closed comments l.expr := by
  unfold expr
  split <;> simp [h]

end

section
variable (h : AllClosed comments ls)
include h

theorem closed_separated {f : Layout → List Doc}
    (hf : ∀ l : Layout, l.Closed comments → Doc.Closed comments (f l)) {sep : String}
    (hsep : bracketFree sep = true) : Doc.Closed comments (Doc.separated sep (ls.map f)) := by
  refine Doc.Closed.intercalate (Doc.closed_write hsep) fun ds hds => ?_
  obtain ⟨l, hl, rfl⟩ := List.mem_map.mp hds
  exact hf l (h l hl)

@[simp] theorem closed_exprs : Doc.Closed comments (Doc.separated ", " (ls.map expr)) :=
  closed_separated h (fun _ hl => closed_expr hl) rfl

@[simp] theorem closed_types : Doc.Closed comments (Doc.separated ", " (ls.map type)) :=
  closed_separated h (fun _ hl => closed_type hl) rfl

@[simp] theorem closed_bodies : Doc.Closed comments (Doc.separated ", " (ls.map body)) :=
  closed_separated h (fun _ hl => closed_body hl) rfl

@[simp] theorem closed_leds : Doc.Closed comments (Doc.separated ", " (ls.map led)) :=
  closed_separated h (fun _ hl => closed_led hl) rfl

@[simp] theorem closed_flatMap_body : Doc.Closed comments (ls.flatMap body) :=
  Doc.Closed.flatMap fun l hl => closed_body (h l hl)

@[simp] theorem closed_flatMap_led : Doc.Closed comments (ls.flatMap led) :=
  Doc.Closed.flatMap fun l hl => closed_led (h l hl)

theorem closed_typeReferences {sep : String} (hsep : bracketFree sep = true) :
    Doc.Closed comments (typeReferences sep ls) :=
  closed_separated h (fun _ hl => closed_decorated hl _) hsep

@[simp] theorem closed_annotationLines : Doc.Closed comments (annotationLines ls) := by
  refine Doc.Closed.flatMap fun l hl x => ?_
  simp [h l hl]

@[simp] theorem closed_annotations (gap : Bool) : Doc.Closed comments (annotations gap ls) := by
  have hall : Doc.Closed comments (ls.flatMap fun l => l.decorated .annotationUse ++ [.write " "]) := by
    refine Doc.Closed.flatMap fun l hl x => ?_
    simp [h l hl, Nesting.step]
  intro x
  unfold annotations
  cases ls.isEmpty <;> cases gap <;> simp [hall, Nesting.step]

@[simp] theorem closed_arguments : Doc.Closed comments (arguments ls) := by
  intro x
  simp [arguments, h, Nesting.step]

@[simp] theorem closed_parameters : Doc.Closed comments (parameters ls) :=
  closed_separated h (fun _ hl => closed_decorated hl _) rfl

@[simp] theorem closed_members : Doc.Closed comments (members ls) := by
  refine Doc.Closed.flatMap fun l hl x => ?_
  simp [h l hl]

@[simp] theorem closed_statements : Doc.Closed comments (statements ls) := by
  refine Doc.Closed.flatMap fun l hl x => ?_
  simp [h l hl]

@[simp] theorem closed_declarators : Doc.Closed comments (declarators ls) := by
  intro x
  cases ls with
  | nil => simp [declarators, Doc.separated, List.intercalate, Nesting.step]
  | cons l ls =>
    have hl := (allClosed_cons.mp h).1
    simp [declarators, h, hl, Nesting.step, -List.map_cons]

end

@[simp] theorem closed_typeArguments {ls : Option (List Layout)} (h : AllClosed comments (ls.getD [])) :
    Doc.Closed comments (typeArguments ls) := by
  intro x
  rcases ls with - | ⟨- | ⟨l, ls⟩⟩
  · rfl
  · rfl
  · rw [Option.getD_some] at h
    simp [typeArguments, h, Nesting.step, -List.map_cons]

@[simp] theorem closed_modifiers (m : Modifiers) : Doc.Closed comments (modifiers m) := by
  have hwords : bracketFree (" ".intercalate m.keywords) = true :=
    bracketFree_intercalate rfl fun _ => m.bracketFree_keyword
  unfold modifiers
  split
  · exact Doc.closed_nil
  · exact (Doc.closed_write hwords).append (Doc.closed_write rfl)

@[simp] theorem closed_getD_expr {o : Option Layout} (h : AllClosed comments o.toList) :
    Doc.Closed comments ((o.map expr).getD []) := by
  cases o with
  | none => exact Doc.closed_nil
  | some l => exact closed_expr (allClosed_cons.mp h).1

namespace Rule

variable {x y z : Layout} {o q : Option Layout} {as bs cs ds es : List Layout}
  {os ps : Option (List Layout)} {e : List Doc}

theorem closed_name (ho : AllClosed comments o.toList) {t : String} (ht : bracketFree t = true)
    (he : Doc.Closed comments e) : Doc.Closed comments (name o t e) := by
  intro n
  cases o <;> simp_all [name, Nesting.step]

theorem closed_annotationExpr (hx : x.Closed comments) {args : Arguments Layout Layout}
    (hargs : AllClosed comments args.toList) : Doc.Closed comments (annotationExpr x args) := by
  intro n
  cases args with
  | marker => simp [annotationExpr, hx, Nesting.step]
  | single value =>
    have hvalue := (allClosed_cons.mp hargs).1
    simp [annotationExpr, hx, hvalue, Nesting.step]
  | pairs ps =>
    have hps : AllClosed comments ps := hargs
    simp [annotationExpr, hx, hps, Nesting.step]

theorem closed_memberValuePair (hx : x.Closed comments) (hy : y.Closed comments) :
    Doc.Closed comments (memberValuePair x y) := by
  intro n
  simp [memberValuePair, hx, hy, Nesting.step]

theorem closed_classType (ho : AllClosed comments o.toList) (has : AllClosed comments as)
    (hx : x.Closed comments) (hos : AllClosed comments (os.getD [])) :
    Doc.Closed comments (classType o as x os) := by
  intro n
  cases o <;> rcases os with - | ⟨- | ⟨l, ls⟩⟩ <;> simp_all [classType, Nesting.step]

theorem closed_primitiveType (has : AllClosed comments as) (p : Primitive) :
    Doc.Closed comments (primitiveType as p) := by
  intro n
  simp [primitiveType, has]

theorem closed_arrayBrackets (hx : x.Closed comments) (has : AllClosed comments as) :
    Doc.Closed comments (arrayBrackets x as) := by
  intro n
  simp [arrayBrackets, hx, has, Nesting.step]

theorem closed_arrayType (hx : x.Closed comments) (has : AllClosed comments as) :
    Doc.Closed comments (arrayType x as) := by
  intro n
  simp [arrayType, hx, closed_arrayBrackets hx has]

theorem closed_voidType (has : AllClosed comments as) : Doc.Closed comments (voidType as) := by
  intro n
  simp [voidType, has, Nesting.step]

theorem closed_wildcardType (has : AllClosed comments as) (ho : AllClosed comments o.toList)
    (hq : AllClosed comments q.toList) : Doc.Closed comments (wildcardType as o q) := by
  intro n
  cases o <;> cases q <;> simp_all [wildcardType, Nesting.step]

theorem closed_unionType (has : AllClosed comments as) (hbs : AllClosed comments bs) :
    Doc.Closed comments (unionType as bs) :=
  (closed_annotations has true).append (closed_separated hbs (fun _ hl => closed_type hl) rfl)

theorem closed_intersectionType (has : AllClosed comments as) (hbs : AllClosed comments bs) :
    Doc.Closed comments (intersectionType as bs) :=
  (closed_annotations has false).append (closed_separated hbs (fun _ hl => closed_type hl) rfl)

theorem closed_typeParameter (has : AllClosed comments as) (hx : x.Closed comments)
    (hbs : AllClosed comments bs) : Doc.Closed comments (typeParameter as x bs) := by
  have hbound : Doc.Closed comments (typeReferences " & " bs) := closed_typeReferences hbs rfl
  intro n
  unfold typeParameter
  cases bs.isEmpty <;> simp [has, hx, hbound, Nesting.step]

@[simp] theorem closed_typeParameters (has : AllClosed comments as) :
    Doc.Closed comments (typeParameters as) := by
  intro n
  unfold typeParameters
  cases as.isEmpty <;> simp [has, Nesting.step]

theorem closed_compilationUnit (ho : AllClosed comments o.toList) (has : AllClosed comments as)
    (hbs : AllClosed comments bs) (he : Doc.Closed comments e) :
    Doc.Closed comments (compilationUnit o as bs e) := by
  have htypes : Doc.Closed comments
      ([Doc.newline].intercalate (bs.map fun t => t.led ++ [.newline])) := by
    refine Doc.Closed.intercalate (fun _ => rfl) fun ds hds => ?_
    obtain ⟨l, hl, rfl⟩ := List.mem_map.mp hds
    exact (closed_led (hbs l hl)).append fun _ => rfl
  intro n
  unfold compilationUnit
  cases o <;> cases as.isEmpty <;> simp_all

theorem closed_packageDecl (has : AllClosed comments as) (hx : x.Closed comments)
    (he : Doc.Closed comments e) : Doc.Closed comments (packageDecl as x e) := by
  intro n
  simp [packageDecl, has, hx, he, Nesting.step]

theorem closed_importDecl (hx : x.Closed comments) (isStatic isAsterisk : Bool)
    (he : Doc.Closed comments e) : Doc.Closed comments (importDecl x isStatic isAsterisk e) := by
  intro n
  cases isStatic <;> cases isAsterisk <;> simp [importDecl, hx, he, Nesting.step]

theorem closed_inheritance {keyword : String} (hkeyword : bracketFree keyword = true)
    (has : AllClosed comments as) : Doc.Closed comments (inheritance keyword as) := by
  unfold inheritance
  split
  · exact Doc.closed_nil
  · exact (Doc.closed_write hkeyword).append (closed_typeReferences has rfl)

theorem closed_classDecl (m : Modifiers) (has : AllClosed comments as) (isInterface : Bool)
    (hx : x.Closed comments) (hbs : AllClosed comments bs) (hcs : AllClosed comments cs)
    (hds : AllClosed comments ds) (hes : AllClosed comments es) (he : Doc.Closed comments e) :
    Doc.Closed comments (classDecl m as isInterface x bs cs ds es e) := by
  have hextends : Doc.Closed comments (inheritance " extends " cs) := closed_inheritance rfl hcs
  have himplements : Doc.Closed comments (inheritance " implements " ds) := closed_inheritance rfl hds
  intro n
  cases isInterface <;>
    simp [classDecl, has, hx, hbs, hextends, himplements, hes, he, Nesting.step]

theorem closed_enumBody (has : AllClosed comments as) (hbs : AllClosed comments bs) :
    Doc.Closed comments (enumBody as bs) := by
  intro n
  unfold enumBody
  cases as.isEmpty <;> cases bs.isEmpty <;> simp [has, hbs, Nesting.step]

theorem closed_enumDecl (m : Modifiers) (has : AllClosed comments as) (hx : x.Closed comments)
    (hbs : AllClosed comments bs) (hcs : AllClosed comments cs) (hds : AllClosed comments ds) :
    Doc.Closed comments (enumDecl m as x bs cs ds) := by
  have himplements : Doc.Closed comments (inheritance " implements " bs) := closed_inheritance rfl hbs
  intro n
  simp [enumDecl, has, hx, himplements, closed_enumBody hcs hds, Nesting.step]

theorem closed_enumConstant (has : AllClosed comments as) (hx : x.Closed comments)
    (hbs : AllClosed comments bs) (hcs : AllClosed comments cs) :
    Doc.Closed comments (enumConstant as x bs cs) := by
  intro n
  unfold enumConstant
  cases bs.isEmpty <;> cases cs.isEmpty <;> simp [has, hx, hbs, hcs, Nesting.step]

theorem closed_annotationDecl (m : Modifiers) (has : AllClosed comments as) (hx : x.Closed comments)
    (hbs : AllClosed comments bs) : Doc.Closed comments (annotationDecl m as x bs) := by
  intro n
  simp [annotationDecl, has, hx, hbs, Nesting.step]

theorem closed_fieldDecl (m : Modifiers) (has : AllClosed comments as) (hbs : AllClosed comments bs) :
    Doc.Closed comments (fieldDecl m as bs) := by
  intro n
  simp [fieldDecl, has, hbs, Nesting.step]

theorem closed_variableDeclarator (hx : x.Closed comments) (hy : y.Closed comments)
    (ho : AllClosed comments o.toList) : Doc.Closed comments (variableDeclarator x y o) := by
  intro n
  cases o <;> simp_all [variableDeclarator, Nesting.step]

@[simp] theorem closed_leadingTypeParameters (has : AllClosed comments as) :
    Doc.Closed comments (leadingTypeParameters as) := by
  intro n
  unfold leadingTypeParameters
  cases as.isEmpty <;> simp [has, Nesting.step]

@[simp] theorem closed_signature (has : AllClosed comments as) (hbs : AllClosed comments bs) :
    Doc.Closed comments (signature as bs) := by
  intro n
  unfold signature
  cases bs.isEmpty <;> simp [has, hbs, Nesting.step]

theorem closed_methodDecl (m : Modifiers) (has : AllClosed comments as) (isDefault : Bool)
    (hbs : AllClosed comments bs) (hx : x.Closed comments) (hy : y.Closed comments)
    (hcs : AllClosed comments cs) (hds : AllClosed comments ds) (ho : AllClosed comments o.toList) :
    Doc.Closed comments (methodDecl m as isDefault bs x y cs ds o) := by
  intro n
  cases isDefault <;> cases o <;> simp_all [methodDecl, Nesting.step]

theorem closed_constructorDecl (m : Modifiers) (has : AllClosed comments as)
    (hbs : AllClosed comments bs) (hx : x.Closed comments) (hcs : AllClosed comments cs)
    (hds : AllClosed comments ds) (hy : y.Closed comments) :
    Doc.Closed comments (constructorDecl m as bs x cs ds y) := by
  intro n
  simp [constructorDecl, has, hbs, hx, hcs, hds, hy, Nesting.step]

theorem closed_initializerDecl (isStatic : Bool) (hx : x.Closed comments) :
    Doc.Closed comments (initializerDecl isStatic x) := by
  intro n
  cases isStatic <;> simp [initializerDecl, hx, Nesting.step]

theorem closed_annotationMember (m : Modifiers) (has : AllClosed comments as) (hx : x.Closed comments)
    (hy : y.Closed comments) (ho : AllClosed comments o.toList) :
    Doc.Closed comments (annotationMember m as x y o) := by
  intro n
  cases o <;> simp_all [annotationMember, Nesting.step]

theorem closed_parameter (m : Modifiers) (has : AllClosed comments as) (hx : x.Closed comments)
    (isVarArgs : Bool) (hy : y.Closed comments) :
    Doc.Closed comments (parameter m as x isVarArgs y) := by
  intro n
  unfold parameter
  by_cases hk : x.kind = .unknownType <;> cases isVarArgs <;> simp [has, hx, hy, hk, Nesting.step]

theorem closed_assertStmt (hx : x.Closed comments) (ho : AllClosed comments o.toList) :
    Doc.Closed comments (assertStmt x o) := by
  intro n
  cases o <;> simp_all [assertStmt, Nesting.step]

theorem closed_blockStmt (has : AllClosed comments as) (he : Doc.Closed comments e) :
    Doc.Closed comments (blockStmt as e) := by
  intro n
  simp [blockStmt, has, he, Nesting.step]

theorem closed_jump {keyword : String} (hkeyword : bracketFree keyword = true) {label : Option String}
    (hlabel : ∀ t ∈ label, bracketFree t = true) : Doc.Closed comments (jump keyword label) := by
  intro n
  cases label <;> simp_all [jump, Nesting.step]

theorem closed_doStmt (hx : x.Closed comments) (hy : y.Closed comments) :
    Doc.Closed comments (doStmt x y) := by
  intro n
  simp [doStmt, hx, hy, Nesting.step]

theorem closed_constructorCallStmt (isThis : Bool) (ho : AllClosed comments o.toList)
    (hos : AllClosed comments (os.getD [])) (has : AllClosed comments as) :
    Doc.Closed comments (constructorCallStmt isThis o os as) := by
  intro n
  cases isThis <;> cases o <;> simp_all [constructorCallStmt, Nesting.step]

theorem closed_expressionStmt (hx : x.Closed comments) : Doc.Closed comments (expressionStmt x) := by
  intro n
  simp [expressionStmt, hx, Nesting.step]

theorem closed_foreachStmt (hx : x.Closed comments) (hy : y.Closed comments) (hz : z.Closed comments) :
    Doc.Closed comments (foreachStmt x y z) := by
  intro n
  simp [foreachStmt, hx, hy, hz, Nesting.step]

theorem closed_forStmt (has : AllClosed comments as) (ho : AllClosed comments o.toList)
    (hbs : AllClosed comments bs) (hx : x.Closed comments) :
    Doc.Closed comments (forStmt as o bs x) := by
  intro n
  simp [forStmt, has, ho, hbs, hx, Nesting.step]

theorem closed_ifStmt (hx : x.Closed comments) (hy : y.Closed comments)
    (ho : AllClosed comments o.toList) : Doc.Closed comments (ifStmt x y o) := by
  intro n
  by_cases hblock : y.kind = .blockStmt
  all_goals
    cases o with
    | none => simp [ifStmt, hx, hy, hblock, Nesting.step]
    | some l =>
      have hl := (allClosed_cons.mp ho).1
      by_cases hinline : l.kind = .ifStmt ∨ l.kind = .blockStmt
      · simp [ifStmt, hx, hy, hl, hblock, hinline, Nesting.step]
      · simp [ifStmt, hx, hy, hl, hblock, hinline, Nesting.step]

theorem closed_labeledStmt {label : String} (hlabel : bracketFree label = true)
    (hx : x.Closed comments) : Doc.Closed comments (labeledStmt label x) := by
  intro n
  simp [labeledStmt, hlabel, hx, Nesting.step]

theorem closed_returnStmt (ho : AllClosed comments o.toList) :
    Doc.Closed comments (returnStmt o) := by
  intro n
  cases o <;> simp_all [returnStmt, Nesting.step]

theorem closed_switchStmt (hx : x.Closed comments) (has : AllClosed comments as)
    (he : Doc.Closed comments e) : Doc.Closed comments (switchStmt x as e) := by
  intro n
  simp [switchStmt, hx, has, he, Nesting.step]

theorem closed_switchEntry (ho : AllClosed comments o.toList) (has : AllClosed comments as)
    (he : Doc.Closed comments e) : Doc.Closed comments (switchEntry o as e) := by
  intro n
  cases o <;> simp_all [switchEntry, Nesting.step]

theorem closed_synchronizedStmt (hx : x.Closed comments) (hy : y.Closed comments) :
    Doc.Closed comments (synchronizedStmt x y) := by
  intro n
  simp [synchronizedStmt, hx, hy, Nesting.step]

theorem closed_throwStmt (hx : x.Closed comments) : Doc.Closed comments (throwStmt x) := by
  intro n
  simp [throwStmt, hx, Nesting.step]

theorem closed_resources (has : AllClosed comments as) : Doc.Closed comments (resources as) := by
  cases as with
  | nil => exact Doc.closed_nil
  | cons a as =>
    rw [allClosed_cons] at has
    have hrest : Doc.Closed comments ((Doc.line ";").intercalate (as.map body)) := by
      refine Doc.Closed.intercalate (fun _ => rfl) fun ds hds => ?_
      obtain ⟨l, hl, rfl⟩ := List.mem_map.mp hds
      exact (has.2 l hl).body
    intro n
    by_cases hone : as = []
    · simp [resources, has, hone, Nesting.step]
    · simp [resources, has, hrest, hone, Nesting.step]

theorem closed_tryStmt (has : AllClosed comments as) (hx : x.Closed comments)
    (hbs : AllClosed comments bs) (ho : AllClosed comments o.toList) :
    Doc.Closed comments (tryStmt as x bs o) := by
  intro n
  cases o <;> simp_all [tryStmt, closed_resources has, Nesting.step]

theorem closed_catchClause (hx : x.Closed comments) (hy : y.Closed comments) :
    Doc.Closed comments (catchClause x y) := by
  intro n
  simp [catchClause, hx, hy, Nesting.step]

theorem closed_whileStmt (hx : x.Closed comments) (hy : y.Closed comments) :
    Doc.Closed comments (whileStmt x y) := by
  intro n
  simp [whileStmt, hx, hy, Nesting.step]

theorem closed_arrayAccess (hx : x.Closed comments) (hy : y.Closed comments) :
    Doc.Closed comments (arrayAccess x y) := by
  intro n
  simp [arrayAccess, hx, hy, Nesting.step]

theorem closed_arrayCreationLevel (has : AllClosed comments as) (ho : AllClosed comments o.toList) :
    Doc.Closed comments (arrayCreationLevel as o) := by
  intro n
  simp [arrayCreationLevel, has, ho, Nesting.step]

theorem closed_arrayInitializer (has : AllClosed comments as) :
    Doc.Closed comments (arrayInitializer as) := by
  intro n
  unfold arrayInitializer
  cases as.isEmpty <;> simp [has, Nesting.step]

theorem closed_arrayCreation (hx : x.Closed comments) (has : AllClosed comments as)
    (ho : AllClosed comments o.toList) : Doc.Closed comments (arrayCreation x as o) := by
  intro n
  cases o <;> simp_all [arrayCreation, Nesting.step]

theorem closed_operation (hx : x.Closed comments) {sign : String} (hsign : bracketFree sign = true)
    (hy : y.Closed comments) : Doc.Closed comments (operation x sign y) := by
  intro n
  simp [operation, hx, hsign, hy, Nesting.step]

theorem closed_cast (hx : x.Closed comments) (hy : y.Closed comments) :
    Doc.Closed comments (cast x y) := by
  intro n
  simp [cast, hx, hy, Nesting.step]

theorem closed_classLiteral (hx : x.Closed comments) : Doc.Closed comments (classLiteral x) := by
  intro n
  simp [classLiteral, hx, Nesting.step]

theorem closed_conditional (hx : x.Closed comments) (hy : y.Closed comments) (hz : z.Closed comments) :
    Doc.Closed comments (conditional x y z) := by
  intro n
  simp [conditional, hx, hy, hz, Nesting.step]

theorem closed_enclosed (ho : AllClosed comments o.toList) : Doc.Closed comments (enclosed o) := by
  intro n
  simp [enclosed, ho, Nesting.step]

theorem closed_fieldAccess (ho : AllClosed comments o.toList) (hx : x.Closed comments) :
    Doc.Closed comments (fieldAccess o x) := by
  intro n
  simp [fieldAccess, ho, hx, Nesting.step]

theorem closed_instanceOf (hx : x.Closed comments) (hy : y.Closed comments) :
    Doc.Closed comments (instanceOf x y) := by
  intro n
  simp [instanceOf, hx, hy, Nesting.step]

theorem closed_quoted {quote value : String} (hquote : bracketFree quote = true)
    (hvalue : bracketFree value = true) : Doc.Closed comments (quoted quote value) := by
  intro n
  simp [quoted, hquote, hvalue]

@[simp] theorem closed_scopeDot (ho : AllClosed comments o.toList) :
    Doc.Closed comments (scopeDot o) := by
  intro n
  cases o <;> simp_all [scopeDot, Nesting.step]

theorem closed_methodCall (ho : AllClosed comments o.toList) (hos : AllClosed comments (os.getD []))
    (hx : x.Closed comments) (has : AllClosed comments as) :
    Doc.Closed comments (methodCall o os x as) := by
  intro n
  simp [methodCall, ho, hos, hx, has]

theorem closed_objectCreation (ho : AllClosed comments o.toList)
    (hos : AllClosed comments (os.getD [])) (hx : x.Closed comments) (has : AllClosed comments as)
    (hps : AllClosed comments (ps.getD [])) : Doc.Closed comments (objectCreation o os x as ps) := by
  intro n
  cases ps <;> rcases os with - | ⟨- | ⟨l, ls⟩⟩ <;> simp_all [objectCreation, Nesting.step]

theorem closed_unary (op : UnaryOp) (hx : x.Closed comments) : Doc.Closed comments (unary op x) := by
  intro n
  unfold unary
  cases op.isTrailing <;> simp [hx]

theorem closed_lambda (has : AllClosed comments as) (enclosing : Bool) (hx : x.Closed comments) :
    Doc.Closed comments (lambda as enclosing x) := by
  intro n
  cases hbare : x.bare with
  | none => cases enclosing <;> simp [lambda, has, hx, hbare, Nesting.step]
  | some e =>
    have he := hx.bare e hbare
    cases enclosing <;> simp [lambda, has, he, hbare, Nesting.step]

theorem closed_methodReference (hx : x.Closed comments) (hos : AllClosed comments (os.getD []))
    {t : String} (ht : bracketFree t = true) : Doc.Closed comments (methodReference x os t) := by
  intro n
  simp [methodReference, hx, hos, ht, Nesting.step]

theorem closed_variableDeclaration (m : Modifiers) (has : AllClosed comments as)
    (hbs : AllClosed comments bs) : Doc.Closed comments (variableDeclaration m as bs) := by
  intro n
  simp [variableDeclaration, has, hbs]

end Rule

end Layout

/-! ### All rules -/

section
variable (comments : Bool)

/-- The texts in the slot have no brackets, and the layouts in it are closed. -/
def Slot.Closed : (s : Slot) → (s.Of fun _ => Layout) → Prop
  | .scalar .text, t => bracketFree t = true
  | .scalar .optText, o => ∀ t ∈ o, bracketFree t = true
  | .scalar _, _ => True
  | .one _, l => l.Closed comments
  | .opt _, o => Layout.AllClosed comments o.toList
  | .many _, ls => Layout.AllClosed comments ls
  | .optMany _, ls => Layout.AllClosed comments (ls.getD [])
  | .arguments, a => Layout.AllClosed comments a.toList

def Row.Closed : (fs : List Field) → Row (Field.Of fun _ => Layout) fs → Prop
  | [], _ => True
  | f :: fs, r => f.slot.Closed comments r.1 ∧ Closed fs r.2

end

namespace Layout

variable {comments : Bool}

/-- The rule of a kind closes what it opens. -/
theorem closed_rule {k : Kind} {t : Tree k} {row : Row (Field.Of fun _ => Layout) k.fields}
    (h : Row.Closed comments k.fields row) (hend : Doc.Closed comments (Doc.trailing (.tree t))) :
    Doc.Closed comments (rule t row) := by
  cases k with
  | name => exact Rule.closed_name h.1 h.2.1 hend
  | simpleName => exact Doc.closed_write h.1
  | compilationUnit => exact Rule.closed_compilationUnit h.1 h.2.1 h.2.2.1 hend
  | packageDecl => exact Rule.closed_packageDecl h.1 h.2.1 hend
  | importDecl => exact Rule.closed_importDecl h.1 _ _ hend
  | classDecl =>
    obtain ⟨-, has, -, hn, hps, hxs, his, hms, -⟩ := h
    exact Rule.closed_classDecl _ has _ hn hps hxs his hms hend
  | enumDecl =>
    obtain ⟨-, has, hn, his, hcs, hms, -⟩ := h
    exact Rule.closed_enumDecl _ has hn his hcs hms
  | enumConstant => exact Rule.closed_enumConstant h.1 h.2.1 h.2.2.1 h.2.2.2.1
  | annotationDecl => exact Rule.closed_annotationDecl _ h.2.1 h.2.2.1 h.2.2.2.1
  | fieldDecl => exact Rule.closed_fieldDecl _ h.2.1 h.2.2.1
  | variableDeclarator => exact Rule.closed_variableDeclarator h.1 h.2.1 h.2.2.1
  | methodDecl =>
    obtain ⟨-, has, -, htps, ht, hn, hps, hts, hb, -⟩ := h
    exact Rule.closed_methodDecl _ has _ htps ht hn hps hts hb
  | constructorDecl =>
    obtain ⟨-, has, htps, hn, hps, hts, hb, -⟩ := h
    exact Rule.closed_constructorDecl _ has htps hn hps hts hb
  | initializerDecl => exact Rule.closed_initializerDecl _ h.2.1
  | annotationMember =>
    obtain ⟨-, has, ht, hn, hd, -⟩ := h
    exact Rule.closed_annotationMember _ has ht hn hd
  | emptyMember => exact Doc.closed_write rfl
  | parameter =>
    obtain ⟨-, has, ht, -, hn, -⟩ := h
    exact Rule.closed_parameter _ has ht _ hn
  | typeParameter => exact Rule.closed_typeParameter h.1 h.2.1 h.2.2.1
  | annotationExpr => exact Rule.closed_annotationExpr h.1 h.2.1
  | memberValuePair => exact Rule.closed_memberValuePair h.1 h.2.1
  | classType => exact Rule.closed_classType h.1 h.2.1 h.2.2.1 h.2.2.2.1
  | primitiveType => exact Rule.closed_primitiveType h.1 _
  | arrayType => exact Rule.closed_arrayType h.1 h.2.1
  | voidType => exact Rule.closed_voidType h.1
  | wildcardType => exact Rule.closed_wildcardType h.1 h.2.1 h.2.2.1
  | unionType => exact Rule.closed_unionType h.1 h.2.1
  | intersectionType => exact Rule.closed_intersectionType h.1 h.2.1
  | unknownType => exact Doc.closed_nil
  | assertStmt => exact Rule.closed_assertStmt h.1 h.2.1
  | blockStmt => exact Rule.closed_blockStmt h.1 hend
  | breakStmt => exact Rule.closed_jump rfl h.1
  | continueStmt => exact Rule.closed_jump rfl h.1
  | doStmt => exact Rule.closed_doStmt h.1 h.2.1
  | emptyStmt => exact Doc.closed_write rfl
  | constructorCallStmt => exact Rule.closed_constructorCallStmt _ h.2.1 h.2.2.1 h.2.2.2.1
  | expressionStmt => exact Rule.closed_expressionStmt h.1
  | foreachStmt => exact Rule.closed_foreachStmt h.1 h.2.1 h.2.2.1
  | forStmt => exact Rule.closed_forStmt h.1 h.2.1 h.2.2.1 h.2.2.2.1
  | ifStmt => exact Rule.closed_ifStmt h.1 h.2.1 h.2.2.1
  | labeledStmt => exact Rule.closed_labeledStmt h.1 h.2.1
  | localClassStmt => exact closed_body h.1
  | returnStmt => exact Rule.closed_returnStmt h.1
  | switchStmt => exact Rule.closed_switchStmt h.1 h.2.1 hend
  | switchEntry => exact Rule.closed_switchEntry h.1 h.2.1 hend
  | synchronizedStmt => exact Rule.closed_synchronizedStmt h.1 h.2.1
  | throwStmt => exact Rule.closed_throwStmt h.1
  | tryStmt => exact Rule.closed_tryStmt h.1 h.2.1 h.2.2.1 h.2.2.2.1
  | catchClause => exact Rule.closed_catchClause h.1 h.2.1
  | whileStmt => exact Rule.closed_whileStmt h.1 h.2.1
  | arrayAccess => exact Rule.closed_arrayAccess h.1 h.2.1
  | arrayCreation => exact Rule.closed_arrayCreation h.1 h.2.1 h.2.2.1
  | arrayCreationLevel => exact Rule.closed_arrayCreationLevel h.1 h.2.1
  | arrayInitializer => exact Rule.closed_arrayInitializer h.1
  | assign => exact Rule.closed_operation h.1 (AssignOp.bracketFree_sign _) h.2.2.1
  | binary => exact Rule.closed_operation h.1 (BinaryOp.bracketFree_sign _) h.2.2.1
  | cast => exact Rule.closed_cast h.1 h.2.1
  | classLiteral => exact Rule.closed_classLiteral h.1
  | conditional => exact Rule.closed_conditional h.1 h.2.1 h.2.2.1
  | enclosed => exact Rule.closed_enclosed h.1
  | fieldAccess => exact Rule.closed_fieldAccess h.1 h.2.1
  | instanceOf => exact Rule.closed_instanceOf h.1 h.2.1
  | charLiteral | stringLiteral => exact Rule.closed_quoted rfl h.1
  | doubleLiteral | integerLiteral | longLiteral => exact Doc.closed_write h.1
  | booleanLiteral =>
    obtain ⟨value, -⟩ := row
    cases value <;> exact Doc.closed_write rfl
  | nullLiteral => exact Doc.closed_write rfl
  | methodCall => exact Rule.closed_methodCall h.1 h.2.1 h.2.2.1 h.2.2.2.1
  | nameExpr => exact (closed_body h.1).append hend
  | objectCreation =>
    obtain ⟨hs, hts, ht, has, hms, -⟩ := h
    exact Rule.closed_objectCreation hs hts ht has hms
  | thisExpr | superExpr => exact (Rule.closed_scopeDot h.1).append (Doc.closed_write rfl)
  | unary => exact Rule.closed_unary _ h.2.1
  | lambda => exact Rule.closed_lambda h.1 _ h.2.2.1
  | methodReference => exact Rule.closed_methodReference h.1 h.2.1 h.2.2.1
  | typeExpr => exact closed_type h.1
  | variableDeclaration => exact Rule.closed_variableDeclaration _ h.2.1 h.2.2.1

section
variable {k : Kind} {row : Row (Field.Of fun _ => Layout) k.fields} (h : Row.Closed comments k.fields row)
include h

theorem closed_elementOf {own : List Doc} (hown : Doc.Closed comments own) :
    Doc.Closed comments (elementOf row own) := by
  cases k with
  | arrayType | variableDeclarator => exact closed_element h.1
  | _ => exact hown

theorem closed_bracketsOf : Doc.Closed comments (bracketsOf row) := by
  cases k with
  | arrayType => exact Rule.closed_arrayBrackets h.1 h.2.1
  | variableDeclarator => exact closed_brackets h.1
  | _ => exact Doc.closed_nil

theorem closed_bareOf {e : List Doc} (he : bareOf row = some e) : Doc.Closed comments e := by
  cases k with
  | expressionStmt =>
    obtain rfl := Option.some.inj he
    exact closed_expr h.1
  | _ => cases he

/-- A node with closed children and closed comments has a closed layout. -/
theorem closed_ofNode {t : Tree k} {ix : ParentIndex} {path : Path}
    (hattached : Doc.Closed comments (attached k t.data))
    (hend : Doc.Closed comments (Doc.trailing (.tree t)))
    (hbefore : Doc.Closed comments (Doc.leading ix path (.tree t))) :
    (ofNode ix path t row).Closed comments := by
  have hbody := hattached.append (closed_rule h hend)
  refine ⟨?_, hbody, closed_elementOf h ?_, closed_bracketsOf h, fun e he => closed_bareOf h he⟩
  · unfold ofNode
    dsimp only
    split
    · exact hbefore
    · exact Doc.closed_nil
  · split
    · intro x
      simp [hbody]
    · exact hbody

end

end Layout

end JavaText
