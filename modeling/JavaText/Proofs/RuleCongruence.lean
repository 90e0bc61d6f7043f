import JavaText.Layout.Node
import JavaText.Proofs.Congruence
import JavaText.Proofs.Runs

/-!
# Every rule keeps every congruence

What a rule does depends on the shape of the node and on its scalars alone, so layouts related for the
children are related for the node (`Layout.ofNode_rel`), and by induction for whole trees
(`Tree.layout_rel`).
-/

namespace JavaText

variable {D : Layout → Layout → Prop} {R : List Doc → List Doc → Prop}

namespace Layout.Rule

open Doc (Congruence)

variable (h : Congruence D R) {p₁ p₂ p₃ p₄ p₅ p₆ : Place}
include h

theorem name_rel {q q' : Option Layout} {s s' : String} {e e' : List Doc}
    (hq : Option.Rel (Rel D R p₁) q q') (hs : s = s') (he : R e e') :
    R (name q s e) (name q' s' e') := by
  subst hs
  refine h.append (h.append ?_ (h.write _)) he
  cases hq with
  | none => exact h.nil
  | some hq => exact h.append hq.body (h.write _)

theorem annotationExpr_rel {n n' : Layout} {a a' : Arguments Layout Layout} (hn : Rel D R p₁ n n')
    (ha : Arguments.Rel (Rel D R p₂) (Rel D R p₃) a a') :
    R (annotationExpr n a) (annotationExpr n' a') := by
  refine h.append (h.append (h.write _) hn.body) ?_
  cases ha with
  | marker => exact h.nil
  | single hv => exact h.append (h.append (h.write _) (hv.expr h)) (h.write _)
  | pairs hps =>
    exact h.append (h.append (h.write _) (h.separated _ hps fun _ _ hp => hp.body)) (h.write _)

theorem memberValuePair_rel {n n' v v' : Layout} (hn : Rel D R p₁ n n') (hv : Rel D R p₂ v v') :
    R (memberValuePair n v) (memberValuePair n' v') :=
  h.append (h.append hn.body (h.write _)) (hv.expr h)

theorem classType_rel {s s' : Option Layout} {as as' : List Layout} {n n' : Layout}
    {ts ts' : Option (List Layout)} (hs : Option.Rel (Rel D R p₁) s s')
    (has : List.Forall₂ (Rel D R (.only .annotationExpr)) as as') (hn : Rel D R p₂ n n')
    (hts : Option.Rel (List.Forall₂ (Rel D R p₃)) ts ts') :
    R (classType s as n ts) (classType s' as' n' ts') := by
  refine h.append (h.append (h.append ?_ (annotations_rel h has _)) hn.body) ?_
  · cases hs with
    | none => exact h.nil
    | some hs => exact h.append hs.body (h.write _)
  · cases hts with
    | none => exact h.nil
    | some hts =>
      cases hts with
      | nil => exact h.write _
      | cons ht hts => exact typeArguments_rel h (.some (.cons ht hts))

theorem primitiveType_rel {as as' : List Layout} {p p' : Primitive}
    (has : List.Forall₂ (Rel D R (.only .annotationExpr)) as as') (hp : p = p') :
    R (primitiveType as p) (primitiveType as' p') := by
  subst hp
  exact h.append (annotations_rel h has _) (h.write _)

theorem arrayBrackets_rel {c c' : Layout} {as as' : List Layout} (hc : Rel D R p₁ c c')
    (has : List.Forall₂ (Rel D R (.only .annotationExpr)) as as') :
    R (arrayBrackets c as) (arrayBrackets c' as') :=
  h.append (h.append (annotations_rel h has _) (h.write _)) hc.brackets

theorem arrayType_rel {c c' : Layout} {as as' : List Layout} (hc : Rel D R p₁ c c')
    (has : List.Forall₂ (Rel D R (.only .annotationExpr)) as as') :
    R (arrayType c as) (arrayType c' as') :=
  h.append hc.element (arrayBrackets_rel h hc has)

theorem voidType_rel {as as' : List Layout}
    (has : List.Forall₂ (Rel D R (.only .annotationExpr)) as as') :
    R (voidType as) (voidType as') := h.append (annotations_rel h has _) (h.write _)

theorem wildcardType_rel {as as' : List Layout} {e e' s s' : Option Layout}
    (has : List.Forall₂ (Rel D R (.only .annotationExpr)) as as')
    (he : Option.Rel (Rel D R p₁) e e') (hs : Option.Rel (Rel D R p₂) s s') :
    R (wildcardType as e s) (wildcardType as' e' s') := by
  refine h.append (h.append (h.append (annotations_rel h has _) (h.write _)) ?_) ?_
  · cases he with
    | none => exact h.nil
    | some he => exact h.append (h.write _) (he.type h)
  · cases hs with
    | none => exact h.nil
    | some hs => exact h.append (h.write _) (hs.type h)

theorem unionType_rel {as as' es es' : List Layout}
    (has : List.Forall₂ (Rel D R (.only .annotationExpr)) as as')
    (hes : List.Forall₂ (Rel D R p₁) es es') : R (unionType as es) (unionType as' es') :=
  h.append (annotations_rel h has _) (h.separated _ hes fun _ _ he => he.type h)

theorem intersectionType_rel {as as' es es' : List Layout}
    (has : List.Forall₂ (Rel D R (.only .annotationExpr)) as as')
    (hes : List.Forall₂ (Rel D R p₁) es es') :
    R (intersectionType as es) (intersectionType as' es') :=
  h.append (annotations_rel h has _) (h.separated _ hes fun _ _ he => he.type h)

theorem typeParameter_rel {as as' bs bs' : List Layout} {n n' : Layout}
    (has : List.Forall₂ (Rel D R (.only .annotationExpr)) as as') (hn : Rel D R p₁ n n')
    (hbs : List.Forall₂ (Rel D R (.only .classType)) bs bs') :
    R (typeParameter as n bs) (typeParameter as' n' bs') :=
  h.append (h.append (annotations_rel h has _) hn.body)
    (h.unlessEmpty hbs (h.append (h.write _) (typeReferences_rel h hbs _)))

theorem typeParameters_rel {ps ps' : List Layout} (hps : List.Forall₂ (Rel D R p₁) ps ps') :
    R (typeParameters ps) (typeParameters ps') :=
  h.unlessEmpty hps
    (h.append (h.append (h.write _) (h.separated _ hps fun _ _ hp => hp.body)) (h.write _))

theorem compilationUnit_rel {p p' : Option Layout} {is is' ts ts' : List Layout} {e e' : List Doc}
    (hp : Option.Rel (Rel D R p₁) p p') (his : List.Forall₂ (Rel D R p₂) is is')
    (hts : List.Forall₂ (Rel D R p₃) ts ts') (he : R e e') :
    R (compilationUnit p is ts e) (compilationUnit p' is' ts' e') := by
  refine h.append (h.append (h.append (h.append (h.getD hp fun _ _ hp => hp.body)
    (h.flatMap his fun _ _ hi => hi.led h)) (h.unlessEmpty his h.newline)) ?_) he
  refine h.intercalate h.newline (List.forall₂_map_left_iff.mpr (List.forall₂_map_right_iff.mpr ?_))
  exact hts.imp fun _ _ ht => h.append (ht.led h) h.newline

theorem packageDecl_rel {as as' : List Layout} {n n' : Layout} {e e' : List Doc}
    (has : List.Forall₂ (Rel D R (.only .annotationExpr)) as as') (hn : Rel D R p₁ n n')
    (he : R e e') : R (packageDecl as n e) (packageDecl as' n' e') :=
  h.append (h.append (h.append (h.append (h.append (annotations_rel h has _) (h.write _)) hn.body)
    (h.line _)) h.newline) he

theorem importDecl_rel {n n' : Layout} {s s' a a' : Bool} {e e' : List Doc} (hn : Rel D R p₁ n n')
    (hs : s = s') (ha : a = a') (he : R e e') :
    R (importDecl n s a e) (importDecl n' s' a' e') := by
  subst hs ha
  exact h.append (h.append (h.append (h.append (h.append (h.write _)
    (Doc.rel_ite _ (h.write _) h.nil)) hn.body) (Doc.rel_ite _ (h.write _) h.nil)) (h.line _)) he

theorem inheritance_rel (keyword : String) {ts ts' : List Layout}
    (hts : List.Forall₂ (Rel D R (.only .classType)) ts ts') :
    R (inheritance keyword ts) (inheritance keyword ts') :=
  h.unlessEmpty hts (h.append (h.write _) (typeReferences_rel h hts _))

theorem classDecl_rel {m m' : Modifiers} {as as' ps ps' xs xs' is is' ms ms' : List Layout}
    {b b' : Bool} {n n' : Layout} {e e' : List Doc} (hm : m = m')
    (has : List.Forall₂ (Rel D R (.only .annotationExpr)) as as') (hb : b = b')
    (hn : Rel D R (.only .simpleName) n n') (hps : List.Forall₂ (Rel D R p₁) ps ps')
    (hxs : List.Forall₂ (Rel D R (.only .classType)) xs xs')
    (his : List.Forall₂ (Rel D R (.only .classType)) is is')
    (hms : List.Forall₂ (Rel D R p₂) ms ms') (he : R e e') :
    R (classDecl m as b n ps xs is ms e) (classDecl m' as' b' n' ps' xs' is' ms' e') := by
  subst hm hb
  have hhead := h.append (h.append (h.append (h.append (h.append (h.append
    (annotationLines_rel h has) (modifiers_rel h m)) (h.write (if b then "interface " else "class ")))
    (hn.decorated h rfl .classDeclaration)) (typeParameters_rel h hps))
    (inheritance_rel h " extends " hxs)) (inheritance_rel h " implements " his)
  have hbody := h.lineDeeper " \x7b" hhead (h.append (members_rel h hms) he)
  simpa [classDecl] using h.append hbody (h.write "\x7d")

theorem enumBody_rel {cs cs' ms ms' : List Layout} (hcs : List.Forall₂ (Rel D R p₁) cs cs')
    (hms : List.Forall₂ (Rel D R p₂) ms ms') : R (enumBody cs ms) (enumBody cs' ms') := by
  refine h.append (h.append h.newline (h.separated _ hcs fun _ _ hc => hc.led h)) ?_
  cases hms with
  | nil => exact h.unlessEmpty hcs h.newline
  | cons hm hms => exact h.append (h.line _) (members_rel h (.cons hm hms))

theorem enumDecl_rel {m m' : Modifiers} {as as' is is' cs cs' ms ms' : List Layout} {n n' : Layout}
    (hm : m = m') (has : List.Forall₂ (Rel D R (.only .annotationExpr)) as as')
    (hn : Rel D R p₁ n n') (his : List.Forall₂ (Rel D R (.only .classType)) is is')
    (hcs : List.Forall₂ (Rel D R p₂) cs cs') (hms : List.Forall₂ (Rel D R p₃) ms ms') :
    R (enumDecl m as n is cs ms) (enumDecl m' as' n' is' cs' ms') := by
  subst hm
  have hhead := h.append (h.append (h.append (h.append (annotationLines_rel h has)
    (modifiers_rel h m)) (h.write "enum ")) hn.body) (inheritance_rel h " implements " his)
  have hbody := h.lineDeeper " \x7b" hhead (enumBody_rel h hcs hms)
  simpa [enumDecl] using h.append hbody (h.write "\x7d")

theorem enumConstant_rel {as as' xs xs' ms ms' : List Layout} {n n' : Layout}
    (has : List.Forall₂ (Rel D R (.only .annotationExpr)) as as') (hn : Rel D R p₁ n n')
    (hxs : List.Forall₂ (Rel D R p₂) xs xs') (hms : List.Forall₂ (Rel D R p₃) ms ms') :
    R (enumConstant as n xs ms) (enumConstant as' n' xs' ms') := by
  refine h.append (h.append (h.append (annotationLines_rel h has) hn.body)
    (h.unlessEmpty hxs (arguments_rel h hxs))) (h.unlessEmpty hms ?_)
  exact h.append (h.lineDeeper " \x7b" h.nil (members_rel h hms)) (h.line _)

theorem annotationDecl_rel {m m' : Modifiers} {as as' ms ms' : List Layout} {n n' : Layout}
    (hm : m = m') (has : List.Forall₂ (Rel D R (.only .annotationExpr)) as as')
    (hn : Rel D R p₁ n n') (hms : List.Forall₂ (Rel D R p₂) ms ms') :
    R (annotationDecl m as n ms) (annotationDecl m' as' n' ms') := by
  subst hm
  have hhead := h.append (h.append (h.append (annotationLines_rel h has) (modifiers_rel h m))
    (h.write "@interface ")) hn.body
  have hbody := h.lineDeeper " \x7b" hhead (members_rel h hms)
  simpa [annotationDecl] using h.append hbody (h.write "\x7d")

theorem fieldDecl_rel {m m' : Modifiers} {as as' vs vs' : List Layout} (hm : m = m')
    (has : List.Forall₂ (Rel D R (.only .annotationExpr)) as as')
    (hvs : List.Forall₂ (Rel D R p₁) vs vs') : R (fieldDecl m as vs) (fieldDecl m' as' vs') := by
  subst hm
  exact h.append (h.append (h.append (annotationLines_rel h has) (modifiers_rel h m))
    (declarators_rel h hvs)) (h.write _)

theorem variableDeclarator_rel {t t' n n' : Layout} {i i' : Option Layout} (ht : Rel D R p₁ t t')
    (hn : Rel D R p₂ n n') (hi : Option.Rel (Rel D R p₃) i i') :
    R (variableDeclarator t n i) (variableDeclarator t' n' i') := by
  refine h.append (h.append hn.body ht.brackets) ?_
  cases hi with
  | none => exact h.nil
  | some hi => exact h.append (h.write _) (hi.expr h)

theorem leadingTypeParameters_rel {ps ps' : List Layout} (hps : List.Forall₂ (Rel D R p₁) ps ps') :
    R (leadingTypeParameters ps) (leadingTypeParameters ps') :=
  h.unlessEmpty hps (h.append (typeParameters_rel h hps) (h.write _))

theorem signature_rel {ps ps' ts ts' : List Layout}
    (hps : List.Forall₂ (Rel D R (.only .parameter)) ps ps')
    (hts : List.Forall₂ (Rel D R p₁) ts ts') : R (signature ps ts) (signature ps' ts') :=
  h.append (h.append (h.append (h.write _) (parameters_rel h hps)) (h.write _))
    (h.unlessEmpty hts (h.append (h.write _) (h.separated _ hts fun _ _ ht => ht.type h)))

theorem methodDecl_rel {m m' : Modifiers} {as as' tps tps' ps ps' ts ts' : List Layout}
    {d d' : Bool} {t t' n n' : Layout} {b b' : Option Layout} (hm : m = m')
    (has : List.Forall₂ (Rel D R (.only .annotationExpr)) as as') (hd : d = d')
    (htps : List.Forall₂ (Rel D R p₁) tps tps') (ht : Rel D R p₂ t t')
    (hn : Rel D R (.only .simpleName) n n') (hps : List.Forall₂ (Rel D R (.only .parameter)) ps ps')
    (hts : List.Forall₂ (Rel D R p₃) ts ts') (hb : Option.Rel (Rel D R p₄) b b') :
    R (methodDecl m as d tps t n ps ts b) (methodDecl m' as' d' tps' t' n' ps' ts' b') := by
  subst hm hd
  refine h.append (h.append (h.append (h.append (h.append (h.append (h.append (h.append
    (annotationLines_rel h has) (modifiers_rel h m)) (Doc.rel_ite _ (h.write _) h.nil))
    (leadingTypeParameters_rel h htps)) (ht.type h)) (h.write _)) (hn.decorated h rfl _))
    (signature_rel h hps hts)) ?_
  cases hb with
  | none => exact h.write _
  | some hb => exact h.append (h.write _) (hb.led h)

theorem constructorDecl_rel {m m' : Modifiers} {as as' tps tps' ps ps' ts ts' : List Layout}
    {n n' b b' : Layout} (hm : m = m') (has : List.Forall₂ (Rel D R (.only .annotationExpr)) as as')
    (htps : List.Forall₂ (Rel D R p₁) tps tps') (hn : Rel D R (.only .simpleName) n n')
    (hps : List.Forall₂ (Rel D R (.only .parameter)) ps ps')
    (hts : List.Forall₂ (Rel D R p₂) ts ts') (hb : Rel D R p₃ b b') :
    R (constructorDecl m as tps n ps ts b) (constructorDecl m' as' tps' n' ps' ts' b') := by
  subst hm
  exact h.append (h.append (h.append (h.append (h.append (h.append (annotationLines_rel h has)
    (modifiers_rel h m)) (leadingTypeParameters_rel h htps)) (hn.decorated h rfl _))
    (signature_rel h hps hts)) (h.write _)) (hb.led h)

theorem initializerDecl_rel {s s' : Bool} {b b' : Layout} (hs : s = s') (hb : Rel D R p₁ b b') :
    R (initializerDecl s b) (initializerDecl s' b') := by
  subst hs
  exact h.append (Doc.rel_ite _ (h.write _) h.nil) (hb.led h)

theorem annotationMember_rel {m m' : Modifiers} {as as' : List Layout} {t t' n n' : Layout}
    {d d' : Option Layout} (hm : m = m')
    (has : List.Forall₂ (Rel D R (.only .annotationExpr)) as as') (ht : Rel D R p₁ t t')
    (hn : Rel D R p₂ n n') (hd : Option.Rel (Rel D R p₃) d d') :
    R (annotationMember m as t n d) (annotationMember m' as' t' n' d') := by
  subst hm
  refine h.append (h.append (h.append (h.append (h.append (h.append (h.append
    (annotationLines_rel h has) (modifiers_rel h m)) (ht.type h)) (h.write _)) hn.body)
    (h.write _)) ?_) (h.write _)
  cases hd with
  | none => exact h.nil
  | some hd => exact h.append (h.write _) (hd.expr h)

theorem parameter_rel {m m' : Modifiers} {as as' : List Layout} {t t' n n' : Layout} {v v' : Bool}
    (hm : m = m') (has : List.Forall₂ (Rel D R (.only .annotationExpr)) as as')
    (ht : Rel D R p₁ t t') (hv : v = v') (hn : Rel D R p₂ n n') :
    R (parameter m as t v n) (parameter m' as' t' v' n') := by
  subst hm hv
  unfold parameter
  rw [ht.kind]
  exact h.append (h.append (h.append (h.append (h.append (annotations_rel h has _)
    (modifiers_rel h m)) (ht.type h)) (Doc.rel_ite _ (h.write _) h.nil))
    (Doc.rel_ite _ h.nil (h.write _))) hn.body

theorem assertStmt_rel {c c' : Layout} {m m' : Option Layout} (hc : Rel D R p₁ c c')
    (hm : Option.Rel (Rel D R p₂) m m') : R (assertStmt c m) (assertStmt c' m') := by
  refine h.append (h.append (h.append (h.write _) (hc.expr h)) ?_) (h.write _)
  cases hm with
  | none => exact h.nil
  | some hm => exact h.append (h.write _) (hm.expr h)

theorem blockStmt_rel {ss ss' : List Layout} {e e' : List Doc}
    (hss : List.Forall₂ (Rel D R p₁) ss ss') (he : R e e') :
    R (blockStmt ss e) (blockStmt ss' e') :=
  h.append (h.append (h.lineDeeper "\x7b" h.nil (statements_rel h hss)) he) (h.write _)

theorem jump_rel (keyword : String) {l l' : Option String} (hl : l = l') :
    R (jump keyword l) (jump keyword l') := by
  subst hl
  refine h.append (h.append (h.write _) ?_) (h.write _)
  cases l with
  | none => exact h.nil
  | some l => exact h.append (h.write _) (h.write _)

theorem doStmt_rel {b b' c c' : Layout} (hb : Rel D R p₁ b b') (hc : Rel D R p₂ c c') :
    R (doStmt b c) (doStmt b' c') :=
  h.append (h.append (h.append (h.append (h.write _) (hb.led h)) (h.write _)) (hc.expr h)) (h.write _)

theorem constructorCallStmt_rel {b b' : Bool} {s s' : Option Layout} {ts ts' : Option (List Layout)}
    {as as' : List Layout} (hb : b = b') (hs : Option.Rel (Rel D R p₁) s s')
    (hts : Option.Rel (List.Forall₂ (Rel D R p₂)) ts ts') (has : List.Forall₂ (Rel D R p₃) as as') :
    R (constructorCallStmt b s ts as) (constructorCallStmt b' s' ts' as') := by
  subst hb
  refine h.append (h.append (Doc.rel_ite _ (h.append (typeArguments_rel h hts) (h.write _))
    (h.append (h.append ?_ (typeArguments_rel h hts)) (h.write _))) (arguments_rel h has)) (h.write _)
  cases hs with
  | none => exact h.nil
  | some hs => exact h.append (hs.expr h) (h.write _)

theorem expressionStmt_rel {e e' : Layout} (he : Rel D R p₁ e e') :
    R (expressionStmt e) (expressionStmt e') := h.append (he.expr h) (h.write _)

theorem foreachStmt_rel {d d' i i' b b' : Layout} (hd : Rel D R p₁ d d') (hi : Rel D R p₂ i i')
    (hb : Rel D R p₃ b b') : R (foreachStmt d i b) (foreachStmt d' i' b') :=
  h.append (h.append (h.append (h.append (h.append (h.write _) hd.body) (h.write _)) (hi.expr h))
    (h.write _)) (hb.led h)

theorem forStmt_rel {is is' us us' : List Layout} {c c' : Option Layout} {b b' : Layout}
    (his : List.Forall₂ (Rel D R p₁) is is') (hc : Option.Rel (Rel D R p₂) c c')
    (hus : List.Forall₂ (Rel D R p₃) us us') (hb : Rel D R p₄ b b') :
    R (forStmt is c us b) (forStmt is' c' us' b') :=
  h.append (h.append (h.append (h.append (h.append (h.append (h.append (h.write _)
    (h.separated _ his fun _ _ hi => hi.expr h)) (h.write _)) (h.getD hc fun _ _ hc => hc.expr h))
    (h.write _)) (h.separated _ hus fun _ _ hu => hu.expr h)) (h.write _)) (hb.led h)

/-- A branch on lines of its own, one level deeper, behind a text that ends its line. -/
theorem ownLines_rel {l l' : Layout} (t : String) (hl : Rel D R p₁ l l') :
    R (Doc.line t ++ [.indented l.led]) (Doc.line t ++ [.indented l'.led]) :=
  h.lineDeeper t h.nil (hl.led h)

theorem ifStmt_rel {c c' t t' : Layout} {e e' : Option Layout} (hc : Rel D R p₁ c c')
    (ht : Rel D R p₂ t t') (he : Option.Rel (Rel D R p₃) e e') :
    R (ifStmt c t e) (ifStmt c' t' e') := by
  unfold ifStmt
  rw [ht.kind]
  refine h.append (h.append (h.append (h.write _) (hc.expr h))
    (Doc.rel_ite _ (h.append (h.write _) (ht.led h)) (ownLines_rel h _ ht))) ?_
  cases he with
  | none => exact h.nil
  | some he =>
    simp only [he.kind]
    exact h.append (Doc.rel_ite _ (h.write _) h.newline)
      (Doc.rel_ite _ (h.append (h.write _) (he.led h)) (ownLines_rel h _ he))

theorem labeledStmt_rel {l l' : String} {s s' : Layout} (hl : l = l') (hs : Rel D R p₁ s s') :
    R (labeledStmt l s) (labeledStmt l' s') := by
  subst hl
  exact h.append (h.append (h.write _) (h.write _)) (hs.led h)

theorem returnStmt_rel {e e' : Option Layout} (he : Option.Rel (Rel D R p₁) e e') :
    R (returnStmt e) (returnStmt e') := by
  refine h.append (h.append (h.write _) ?_) (h.write _)
  cases he with
  | none => exact h.nil
  | some he => exact h.append (h.write _) (he.expr h)

theorem switchStmt_rel {s s' : Layout} {es es' : List Layout} {e e' : List Doc}
    (hs : Rel D R p₁ s s') (hes : List.Forall₂ (Rel D R p₂) es es') (he : R e e') :
    R (switchStmt s es e) (switchStmt s' es' e') := by
  have hbody := h.lineDeeper ") \x7b" (h.append (h.write "switch(") (hs.expr h))
    (h.append (h.flatMap hes fun _ _ hl => hl.led h) he)
  simpa [switchStmt] using h.append hbody (h.write "\x7d")

theorem switchEntry_rel {l l' : Option Layout} {ss ss' : List Layout} {e e' : List Doc}
    (hl : Option.Rel (Rel D R p₁) l l') (hss : List.Forall₂ (Rel D R p₂) ss ss') (he : R e e') :
    R (switchEntry l ss e) (switchEntry l' ss' e') := by
  refine h.append ?_ (h.deeper (h.append (statements_rel h hss) he))
  cases hl with
  | none => exact h.write _
  | some hl => exact h.append (h.append (h.write _) (hl.expr h)) (h.write _)

theorem synchronizedStmt_rel {e e' b b' : Layout} (he : Rel D R p₁ e e') (hb : Rel D R p₂ b b') :
    R (synchronizedStmt e b) (synchronizedStmt e' b') :=
  h.append (h.append (h.append (h.write _) (he.expr h)) (h.write _)) (hb.led h)

theorem throwStmt_rel {e e' : Layout} (he : Rel D R p₁ e e') : R (throwStmt e) (throwStmt e') :=
  h.append (h.append (h.write _) (he.expr h)) (h.write _)

theorem resources_rel {rs rs' : List Layout} (hrs : List.Forall₂ (Rel D R p₁) rs rs') :
    R (resources rs) (resources rs') := by
  cases hrs with
  | nil => exact h.nil
  | cons hr hrs =>
    refine h.append (h.append (h.append (h.write _) hr.body) (h.unlessEmpty hrs ?_)) (h.write _)
    refine h.lineDeeper ";" h.nil (h.intercalate (h.line _) ?_)
    exact List.forall₂_map_left_iff.mpr (List.forall₂_map_right_iff.mpr (hrs.imp fun _ _ hr => hr.body))

theorem tryStmt_rel {rs rs' cs cs' : List Layout} {b b' : Layout} {f f' : Option Layout}
    (hrs : List.Forall₂ (Rel D R p₁) rs rs') (hb : Rel D R p₂ b b')
    (hcs : List.Forall₂ (Rel D R p₃) cs cs') (hf : Option.Rel (Rel D R p₄) f f') :
    R (tryStmt rs b cs f) (tryStmt rs' b' cs' f') := by
  refine h.append (h.append (h.append (h.append (h.write _) (resources_rel h hrs)) (hb.led h))
    (h.flatMap hcs fun _ _ hc => hc.body)) ?_
  cases hf with
  | none => exact h.nil
  | some hf => exact h.append (h.write _) (hf.led h)

theorem catchClause_rel {p p' b b' : Layout} (hp : Rel D R (.only .parameter) p p')
    (hb : Rel D R p₁ b b') : R (catchClause p b) (catchClause p' b') :=
  h.append (h.append (h.append (h.write _) (hp.decorated h rfl _)) (h.write _)) (hb.led h)

theorem whileStmt_rel {c c' b b' : Layout} (hc : Rel D R p₁ c c') (hb : Rel D R p₂ b b') :
    R (whileStmt c b) (whileStmt c' b') :=
  h.append (h.append (h.append (h.write _) (hc.expr h)) (h.write _)) (hb.led h)

theorem arrayAccess_rel {n n' i i' : Layout} (hn : Rel D R p₁ n n') (hi : Rel D R p₂ i i') :
    R (arrayAccess n i) (arrayAccess n' i') :=
  h.append (h.append (h.append (hn.expr h) (h.write _)) (hi.expr h)) (h.write _)

theorem arrayCreationLevel_rel {as as' : List Layout} {d d' : Option Layout}
    (has : List.Forall₂ (Rel D R (.only .annotationExpr)) as as')
    (hd : Option.Rel (Rel D R p₁) d d') : R (arrayCreationLevel as d) (arrayCreationLevel as' d') :=
  h.append (h.append (h.append (annotations_rel h has _) (h.write _))
    (h.getD hd fun _ _ hd => hd.expr h)) (h.write _)

theorem arrayInitializer_rel {vs vs' : List Layout} (hvs : List.Forall₂ (Rel D R p₁) vs vs') :
    R (arrayInitializer vs) (arrayInitializer vs') :=
  h.append (h.append (h.write _) (h.unlessEmpty hvs (h.append (h.append (h.write _)
    (h.separated _ hvs fun _ _ hv => hv.expr h)) (h.write _)))) (h.write _)

theorem arrayCreation_rel {t t' : Layout} {ls ls' : List Layout} {i i' : Option Layout}
    (ht : Rel D R p₁ t t') (hls : List.Forall₂ (Rel D R p₂) ls ls')
    (hi : Option.Rel (Rel D R p₃) i i') : R (arrayCreation t ls i) (arrayCreation t' ls' i') := by
  refine h.append (h.append (h.append (h.write _) (ht.type h))
    (h.flatMap hls fun _ _ hl => hl.body)) ?_
  cases hi with
  | none => exact h.nil
  | some hi => exact h.append (h.write _) hi.body

theorem operation_rel {l l' r r' : Layout} {s s' : String} (hl : Rel D R p₁ l l') (hs : s = s')
    (hr : Rel D R p₂ r r') : R (operation l s r) (operation l' s' r') :=
  h.append (h.append (hl.expr h) (h.append (h.write _) (h.append (h.text hs) (h.write _))))
    (hr.expr h)

theorem cast_rel {t t' e e' : Layout} (ht : Rel D R p₁ t t') (he : Rel D R p₂ e e') :
    R (cast t e) (cast t' e') :=
  h.append (h.append (h.append (h.write _) (ht.type h)) (h.write _)) (he.expr h)

theorem classLiteral_rel {t t' : Layout} (ht : Rel D R p₁ t t') :
    R (classLiteral t) (classLiteral t') := h.append (ht.type h) (h.write _)

theorem conditional_rel {c c' t t' e e' : Layout} (hc : Rel D R p₁ c c') (ht : Rel D R p₂ t t')
    (he : Rel D R p₃ e e') : R (conditional c t e) (conditional c' t' e') :=
  h.append (h.append (h.append (h.append (hc.expr h) (h.write _)) (ht.expr h)) (h.write _)) (he.expr h)

theorem enclosed_rel {i i' : Option Layout} (hi : Option.Rel (Rel D R p₁) i i') :
    R (enclosed i) (enclosed i') :=
  h.append (h.append (h.write _) (h.getD hi fun _ _ hi => hi.expr h)) (h.write _)

theorem fieldAccess_rel {s s' : Option Layout} {f f' : Layout} (hs : Option.Rel (Rel D R p₁) s s')
    (hf : Rel D R p₂ f f') : R (fieldAccess s f) (fieldAccess s' f') :=
  h.append (h.append (h.getD hs fun _ _ hs => hs.expr h) (h.write _)) hf.body

theorem instanceOf_rel {e e' t t' : Layout} (he : Rel D R p₁ e e') (ht : Rel D R p₂ t t') :
    R (instanceOf e t) (instanceOf e' t') := h.append (h.append (he.expr h) (h.write _)) (ht.type h)

theorem quoted_rel (quote : String) {v v' : String} (hv : v = v') :
    R (quoted quote v) (quoted quote v') :=
  h.append (h.write _) (h.append (h.text hv) (h.write _))

theorem scopeDot_rel {s s' : Option Layout} (hs : Option.Rel (Rel D R p₁) s s') :
    R (scopeDot s) (scopeDot s') := by
  cases hs with
  | none => exact h.nil
  | some hs => exact h.append (hs.expr h) (h.write _)

theorem methodCall_rel {s s' : Option Layout} {ts ts' : Option (List Layout)} {n n' : Layout}
    {as as' : List Layout} (hs : Option.Rel (Rel D R p₁) s s')
    (hts : Option.Rel (List.Forall₂ (Rel D R p₂)) ts ts') (hn : Rel D R (.only .simpleName) n n')
    (has : List.Forall₂ (Rel D R p₃) as as') :
    R (methodCall s ts n as) (methodCall s' ts' n' as') :=
  h.append (h.append (h.append (scopeDot_rel h hs) (typeArguments_rel h hts)) (hn.decorated h rfl _))
    (arguments_rel h has)

theorem objectCreation_rel {s s' : Option Layout} {ts ts' ms ms' : Option (List Layout)}
    {t t' : Layout} {as as' : List Layout} (hs : Option.Rel (Rel D R p₁) s s')
    (hts : Option.Rel (List.Forall₂ (Rel D R p₂)) ts ts') (ht : Rel D R (.only .classType) t t')
    (has : List.Forall₂ (Rel D R p₃) as as') (hms : Option.Rel (List.Forall₂ (Rel D R p₄)) ms ms') :
    R (objectCreation s ts t as ms) (objectCreation s' ts' t' as' ms') := by
  refine h.append (h.append (h.append (h.append (h.append (scopeDot_rel h hs) (h.write _)) ?_)
    (ht.decorated h rfl _)) (arguments_rel h has)) ?_
  · cases hts with
    | none => exact h.nil
    | some hts =>
      cases hts with
      | nil => exact h.nil
      | cons ht hts => exact h.append (typeArguments_rel h (.some (.cons ht hts))) (h.write _)
  · cases hms with
    | none => exact h.nil
    | some hms =>
      have hbody := h.lineDeeper " \x7b" h.nil (members_rel h hms)
      simpa using h.append hbody (h.write "\x7d")

theorem unary_rel {o o' : UnaryOp} {e e' : Layout} (ho : o = o') (he : Rel D R p₁ e e') :
    R (unary o e) (unary o' e') := by
  subst ho
  exact Doc.rel_ite _ (h.append (he.expr h) (h.write _)) (h.append (h.write _) (he.expr h))

theorem lambda_rel {ps ps' : List Layout} {c c' : Bool} {b b' : Layout}
    (hps : List.Forall₂ (Rel D R (.only .parameter)) ps ps') (hc : c = c') (hb : Rel D R p₁ b b') :
    R (lambda ps c b) (lambda ps' c' b') := by
  subst hc
  unfold lambda
  refine h.append (h.append (h.append (h.append (Doc.rel_ite _ (h.write _) h.nil)
    (parameters_rel h hps)) (Doc.rel_ite _ (h.write _) h.nil)) (h.write _)) ?_
  have hbare := hb.bare
  generalize b.bare = e at hbare ⊢
  generalize b'.bare = e' at hbare ⊢
  cases hbare with
  | none => exact hb.led h
  | some he => exact he

theorem methodReference_rel {s s' : Layout} {ts ts' : Option (List Layout)} {i i' : String}
    (hs : Rel D R p₁ s s') (hts : Option.Rel (List.Forall₂ (Rel D R p₂)) ts ts') (hi : i = i') :
    R (methodReference s ts i) (methodReference s' ts' i') := by
  subst hi
  exact h.append (h.append (h.append (hs.expr h) (h.write _)) (typeArguments_rel h hts)) (h.write _)

theorem variableDeclaration_rel {m m' : Modifiers} {as as' vs vs' : List Layout} (hm : m = m')
    (has : List.Forall₂ (Rel D R (.only .annotationExpr)) as as')
    (hvs : List.Forall₂ (Rel D R p₁) vs vs') :
    R (variableDeclaration m as vs) (variableDeclaration m' as' vs') := by
  subst hm
  exact h.append (h.append (annotations_rel h has _) (modifiers_rel h m)) (declarators_rel h hvs)

end Layout.Rule

/-! ### All rules -/

namespace Layout

open Doc (Congruence)

/-- The rule of a kind keeps a congruence. The orphans at the end are the only part of a layout that a
rule takes from elsewhere than from the row. -/
theorem rule_rel (h : Congruence D R) {k : Kind} {t t' : Tree k}
    {row row' : Row (Field.Of fun _ => Layout) k.fields}
    (hrow : Row.Rel (Rel D R) k.fields row row')
    (hend : R (Doc.trailing (.tree t)) (Doc.trailing (.tree t'))) :
    R (rule t row) (rule t' row') := by
  cases k with
  | name => exact Rule.name_rel h hrow.1 hrow.2.1 hend
  | simpleName => exact h.text hrow.1
  | compilationUnit => exact Rule.compilationUnit_rel h hrow.1 hrow.2.1 hrow.2.2.1 hend
  | packageDecl => exact Rule.packageDecl_rel h hrow.1 hrow.2.1 hend
  | importDecl => exact Rule.importDecl_rel h hrow.1 hrow.2.1 hrow.2.2.1 hend
  | classDecl =>
    obtain ⟨hm, has, hb, hn, hps, hxs, his, hms, -⟩ := hrow
    exact Rule.classDecl_rel h hm has hb hn hps hxs his hms hend
  | enumDecl =>
    obtain ⟨hm, has, hn, his, hcs, hms, -⟩ := hrow
    exact Rule.enumDecl_rel h hm has hn his hcs hms
  | enumConstant => exact Rule.enumConstant_rel h hrow.1 hrow.2.1 hrow.2.2.1 hrow.2.2.2.1
  | annotationDecl => exact Rule.annotationDecl_rel h hrow.1 hrow.2.1 hrow.2.2.1 hrow.2.2.2.1
  | fieldDecl => exact Rule.fieldDecl_rel h hrow.1 hrow.2.1 hrow.2.2.1
  | variableDeclarator => exact Rule.variableDeclarator_rel h hrow.1 hrow.2.1 hrow.2.2.1
  | methodDecl =>
    obtain ⟨hm, has, hd, htps, ht, hn, hps, hts, hb, -⟩ := hrow
    exact Rule.methodDecl_rel h hm has hd htps ht hn hps hts hb
  | constructorDecl =>
    obtain ⟨hm, has, htps, hn, hps, hts, hb, -⟩ := hrow
    exact Rule.constructorDecl_rel h hm has htps hn hps hts hb
  | initializerDecl => exact Rule.initializerDecl_rel h hrow.1 hrow.2.1
  | annotationMember =>
    obtain ⟨hm, has, ht, hn, hd, -⟩ := hrow
    exact Rule.annotationMember_rel h hm has ht hn hd
  | emptyMember => exact h.write _
  | parameter =>
    obtain ⟨hm, has, ht, hv, hn, -⟩ := hrow
    exact Rule.parameter_rel h hm has ht hv hn
  | typeParameter => exact Rule.typeParameter_rel h hrow.1 hrow.2.1 hrow.2.2.1
  | annotationExpr => exact Rule.annotationExpr_rel h hrow.1 hrow.2.1
  | memberValuePair => exact Rule.memberValuePair_rel h hrow.1 hrow.2.1
  | classType => exact Rule.classType_rel h hrow.1 hrow.2.1 hrow.2.2.1 hrow.2.2.2.1
  | primitiveType => exact Rule.primitiveType_rel h hrow.1 hrow.2.1
  | arrayType => exact Rule.arrayType_rel h hrow.1 hrow.2.1
  | voidType => exact Rule.voidType_rel h hrow.1
  | wildcardType => exact Rule.wildcardType_rel h hrow.1 hrow.2.1 hrow.2.2.1
  | unionType => exact Rule.unionType_rel h hrow.1 hrow.2.1
  | intersectionType => exact Rule.intersectionType_rel h hrow.1 hrow.2.1
  | unknownType => exact h.nil
  | assertStmt => exact Rule.assertStmt_rel h hrow.1 hrow.2.1
  | blockStmt => exact Rule.blockStmt_rel h hrow.1 hend
  | breakStmt => exact Rule.jump_rel h _ hrow.1
  | continueStmt => exact Rule.jump_rel h _ hrow.1
  | doStmt => exact Rule.doStmt_rel h hrow.1 hrow.2.1
  | emptyStmt => exact h.write _
  | constructorCallStmt =>
    exact Rule.constructorCallStmt_rel h hrow.1 hrow.2.1 hrow.2.2.1 hrow.2.2.2.1
  | expressionStmt => exact Rule.expressionStmt_rel h hrow.1
  | foreachStmt => exact Rule.foreachStmt_rel h hrow.1 hrow.2.1 hrow.2.2.1
  | forStmt => exact Rule.forStmt_rel h hrow.1 hrow.2.1 hrow.2.2.1 hrow.2.2.2.1
  | ifStmt => exact Rule.ifStmt_rel h hrow.1 hrow.2.1 hrow.2.2.1
  | labeledStmt => exact Rule.labeledStmt_rel h hrow.1 hrow.2.1
  | localClassStmt => exact hrow.1.body
  | returnStmt => exact Rule.returnStmt_rel h hrow.1
  | switchStmt => exact Rule.switchStmt_rel h hrow.1 hrow.2.1 hend
  | switchEntry => exact Rule.switchEntry_rel h hrow.1 hrow.2.1 hend
  | synchronizedStmt => exact Rule.synchronizedStmt_rel h hrow.1 hrow.2.1
  | throwStmt => exact Rule.throwStmt_rel h hrow.1
  | tryStmt => exact Rule.tryStmt_rel h hrow.1 hrow.2.1 hrow.2.2.1 hrow.2.2.2.1
  | catchClause => exact Rule.catchClause_rel h hrow.1 hrow.2.1
  | whileStmt => exact Rule.whileStmt_rel h hrow.1 hrow.2.1
  | arrayAccess => exact Rule.arrayAccess_rel h hrow.1 hrow.2.1
  | arrayCreation => exact Rule.arrayCreation_rel h hrow.1 hrow.2.1 hrow.2.2.1
  | arrayCreationLevel => exact Rule.arrayCreationLevel_rel h hrow.1 hrow.2.1
  | arrayInitializer => exact Rule.arrayInitializer_rel h hrow.1
  | assign => exact Rule.operation_rel h hrow.1 (congrArg AssignOp.sign hrow.2.1) hrow.2.2.1
  | binary => exact Rule.operation_rel h hrow.1 (congrArg BinaryOp.sign hrow.2.1) hrow.2.2.1
  | cast => exact Rule.cast_rel h hrow.1 hrow.2.1
  | classLiteral => exact Rule.classLiteral_rel h hrow.1
  | conditional => exact Rule.conditional_rel h hrow.1 hrow.2.1 hrow.2.2.1
  | enclosed => exact Rule.enclosed_rel h hrow.1
  | fieldAccess => exact Rule.fieldAccess_rel h hrow.1 hrow.2.1
  | instanceOf => exact Rule.instanceOf_rel h hrow.1 hrow.2.1
  | charLiteral => exact Rule.quoted_rel h _ hrow.1
  | doubleLiteral => exact h.text hrow.1
  | integerLiteral => exact h.text hrow.1
  | longLiteral => exact h.text hrow.1
  | stringLiteral => exact Rule.quoted_rel h _ hrow.1
  | booleanLiteral => exact h.text (congrArg (fun b : Bool => if b then "true" else "false") hrow.1)
  | nullLiteral => exact h.write _
  | methodCall => exact Rule.methodCall_rel h hrow.1 hrow.2.1 hrow.2.2.1 hrow.2.2.2.1
  | nameExpr => exact h.append hrow.1.body hend
  | objectCreation =>
    obtain ⟨hs, hts, ht, has, hms, -⟩ := hrow
    exact Rule.objectCreation_rel h hs hts ht has hms
  | thisExpr => exact h.append (Rule.scopeDot_rel h hrow.1) (h.write _)
  | superExpr => exact h.append (Rule.scopeDot_rel h hrow.1) (h.write _)
  | unary => exact Rule.unary_rel h hrow.1 hrow.2.1
  | lambda => exact Rule.lambda_rel h hrow.1 hrow.2.1 hrow.2.2.1
  | methodReference => exact Rule.methodReference_rel h hrow.1 hrow.2.1 hrow.2.2.1
  | typeExpr => exact hrow.1.type h
  | variableDeclaration => exact Rule.variableDeclaration_rel h hrow.1 hrow.2.1 hrow.2.2.1

section
variable (h : Congruence D R) {k : Kind} {row row' : Row (Field.Of fun _ => Layout) k.fields}
  (hrow : Row.Rel (Rel D R) k.fields row row')

include hrow

theorem elementOf_rel {own own' : List Doc} (hown : R own own') :
    R (elementOf row own) (elementOf row' own') := by
  cases k with
  | arrayType => exact hrow.1.element
  | variableDeclarator => exact hrow.1.element
  | _ => exact hown

include h

theorem bracketsOf_rel : R (bracketsOf row) (bracketsOf row') := by
  cases k with
  | arrayType => exact Rule.arrayBrackets_rel h hrow.1 hrow.2.1
  | variableDeclarator => exact hrow.1.brackets
  | _ => exact h.nil

theorem bareOf_rel : Option.Rel R (bareOf row) (bareOf row') := by
  cases k with
  | expressionStmt => exact .some (hrow.1.expr h)
  | _ => exact .none

/-- Two nodes of one kind with related comments and related children have related layouts. -/
theorem ofNode_rel {t t' : Tree k} {ix ix' : ParentIndex} {p p' : Path} {pl : Place}
    (hk : pl.admits k = true) (hwhole : D (ofNode ix p t row) (ofNode ix' p' t' row'))
    (hattached : R (attached k t.data) (attached k t'.data))
    (hend : R (Doc.trailing (.tree t)) (Doc.trailing (.tree t')))
    (hbefore : R (Doc.leading ix p (.tree t)) (Doc.leading ix' p' (.tree t'))) :
    Rel D R pl (ofNode ix p t row) (ofNode ix' p' t' row') := by
  have hbody := h.append hattached (rule_rel h hrow hend)
  refine ⟨hk, rfl, hwhole, ?_, hbody, ?_, bracketsOf_rel h hrow, bareOf_rel h hrow⟩
  · exact Doc.rel_ite _ hbefore h.nil
  · refine elementOf_rel hrow ?_
    split
    · next hclass =>
      subst hclass
      exact h.decorated .typeReference rfl hwhole hbody
    · exact hbody

end

end Layout

open Layout in
/-- The layouts of one tree under two indices, or at two places, are related if the orphans looked up
before its nodes are. -/
theorem Tree.layout_rel (h : Doc.Congruence D R)
    (hcomment : ∀ orphan c, R [.comment orphan c] [.comment orphan c]) {ix ix' : ParentIndex}
    {p q : Path} {k : Kind} (t : Tree k)
    (hbefore : ∀ r u, AnyTree.at? ⟨k, t⟩ r = some u →
      R (Doc.leading ix (p ++ r) u.node) (Doc.leading ix' (q ++ r) u.node))
    (hwhole : ∀ r u, AnyTree.at? ⟨k, t⟩ r = some u →
      Row.Rel (Rel D R) u.1.fields (u.2.fields.fold (ofNode ix) (p ++ r) 0)
        (u.2.fields.fold (ofNode ix') (q ++ r) 0) →
      D (u.2.layout ix (p ++ r)) (u.2.layout ix' (q ++ r))) :
    Layout.Rel D R (.only k) (t.layout ix p) (t.layout ix' q) := by
  have horphans : ∀ cs, R (Doc.orphans cs) (Doc.orphans cs) := by
    intro cs
    induction cs with
    | nil => exact h.nil
    | cons c cs ih => exact h.append (hcomment true c) ih
  refine t.fold_rel p q (fun r u hu hrow pl hk => ?_) _ (beq_self_eq_true k)
  have hD := hwhole r u hu hrow
  simp only [Tree.layout, Tree.fold_eq] at hD ⊢
  refine ofNode_rel h hrow hk hD ?_ ?_ (hbefore r u hu)
  · unfold attached
    refine Doc.rel_ite _ h.nil ?_
    cases u.2.data.comment with
    | none => exact h.nil
    | some c => exact hcomment false c
  · rw [Doc.trailing_eq]
    exact horphans _

end JavaText
