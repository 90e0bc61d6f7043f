import JavaText.Proofs.PlainText
import JavaText.Proofs.Subpasses

/-!
# Array types

A type is its element type inside array layers. In a type position the brackets follow the element type;
where a variable is declared they follow the name. Without a decorator both places show the same two
texts, that of the element type and that of the brackets (`TypeNode.printed_alike`).
-/

namespace JavaText

theorem Kind.admits_arrayType : (Place.any .type).admits .arrayType = true := rfl

theorem Kind.admits_primitiveType : (Place.any .type).admits .primitiveType = true := rfl

theorem Kind.leadsItself_of_type {k : Kind} (h : (Place.any .type).admits k = true) :
    k.leadsItself = false := by
  revert h
  cases k <;> decide

def Tree.layerAnnotations (l : Tree .arrayType) : List (Child (.only .annotationExpr)) := l.row.2.1

theorem Tree.layerAnnotations_ofRow (d : NodeData) (c : TypeNode)
    (as : List (Child (.only .annotationExpr))) :
    (ofRow .arrayType d (c, as, ())).layerAnnotations = as :=
  congrArg (·.2.1) (row_ofRow .arrayType d (c, as, ()))

namespace TypeNode

def array (d : NodeData) (as : List (Child (.only .annotationExpr))) (c : TypeNode) : TypeNode :=
  ⟨Kind.admits_arrayType, .ofRow .arrayType d (c, as, ())⟩

/-- The layer put around another type. -/
def wrap (l : Tree .arrayType) (c : TypeNode) : TypeNode := array l.data l.layerAnnotations c

/-- A type is an array layer around a type, or no array. -/
theorem layer_induction {P : TypeNode → Prop} (array : ∀ d as c, P c → P (array d as c))
    (other : ∀ t : TypeNode, t.kind ≠ .arrayType → P t) (t : TypeNode) : P t := by
  have hany : ∀ {k : Kind} (t : Tree k) (h : (Place.any .type).admits k = true), P ⟨h, t⟩ := by
    intro k t
    induction t using Tree.of_trees with
    | step t ih =>
      intro h
      rename_i k
      by_cases hk : k = .arrayType
      · subst hk
        rw [← t.ofRow_row] at ih ⊢
        revert ih
        obtain ⟨c, as, -⟩ := t.row
        intro ih
        exact array t.data as c (ih ⟨_, c.tree⟩ List.mem_cons_self c.admitted)
      · exact other ⟨h, t⟩ hk
  exact hany t.tree t.admitted

theorem layersRule_other {k : Kind} (hk : k ≠ .arrayType) (path : Path) (t : Tree k)
    (row : Row (Field.Of fun _ => List (Tree .arrayType)) k.fields) :
    Tree.layersRule path t row = [] := by
  cases k with
  | arrayType => exact absurd rfl hk
  | _ => rfl

theorem elementRule_other {k : Kind} (h : (Place.any .type).admits k = true) (hk : k ≠ .arrayType)
    (path : Path) (t : Tree k) (row : Row (Field.Of fun _ => Option TypeNode) k.fields) :
    Tree.elementRule path t row = some ⟨h, t⟩ := by
  cases k with
  | arrayType => exact absurd rfl hk
  | _ => first | rfl | exact absurd h (by decide)

theorem fold_layersRule (t : TypeNode) (path : Path) : t.tree.fold Tree.layersRule path = t.layers := by
  have hpaths : ∀ path path', t.tree.fold Tree.layersRule path = t.tree.fold Tree.layersRule path' := by
    induction t using layer_induction with
    | array d as c ih =>
      intro path path'
      exact congrArg (Tree.ofRow .arrayType d (c, as, ()) :: ·) (ih (path ++ [0]) (path' ++ [0]))
    | other t ht =>
      intro path path'
      rw [Tree.fold_eq, Tree.fold_eq, layersRule_other ht, layersRule_other ht]
  exact hpaths path []

theorem fold_elementRule (t : TypeNode) (path : Path) :
    t.tree.fold Tree.elementRule path = some t.element := by
  have hsome : ∃ e, ∀ path, t.tree.fold Tree.elementRule path = some e := by
    induction t using layer_induction with
    | array d as c ih =>
      obtain ⟨e, he⟩ := ih
      exact ⟨e, fun path => he (path ++ [0])⟩
    | other t ht => exact ⟨t, fun path => by rw [Tree.fold_eq, elementRule_other t.admitted ht]⟩
  obtain ⟨e, he⟩ := hsome
  rw [element, he, he, Option.getD_some]

theorem layers_array (d : NodeData) (as : List (Child (.only .annotationExpr))) (c : TypeNode) :
    (array d as c).layers = .ofRow .arrayType d (c, as, ()) :: c.layers :=
  congrArg (Tree.ofRow .arrayType d (c, as, ()) :: ·) (c.fold_layersRule [0])

theorem element_array (d : NodeData) (as : List (Child (.only .annotationExpr))) (c : TypeNode) :
    (array d as c).element = c.element := by
  have hfold : (array d as c).tree.fold Tree.elementRule [] = some c.element := c.fold_elementRule [0]
  rw [element, hfold, Option.getD_some]

theorem layers_other {t : TypeNode} (h : t.kind ≠ .arrayType) : t.layers = [] := by
  rw [layers, Tree.fold_eq, layersRule_other h]

theorem element_other {t : TypeNode} (h : t.kind ≠ .arrayType) : t.element = t := by
  rw [element, Tree.fold_eq, elementRule_other t.admitted h, Option.getD_some]

theorem element_kind_ne (t : TypeNode) : t.element.kind ≠ .arrayType := by
  induction t using layer_induction with
  | array d as c ih => rwa [element_array]
  | other t ht => rwa [element_other ht]

/-- A type is its element inside its layers. -/
theorem foldr_wrap_layers (t : TypeNode) : t.layers.foldr wrap t.element = t := by
  induction t using layer_induction with
  | array d as c ih =>
    rw [layers_array, element_array, List.foldr_cons, ih, wrap, Tree.layerAnnotations_ofRow]
    rfl
  | other t ht => rw [layers_other ht, element_other ht, List.foldr_nil]

theorem layout_other {t : TypeNode} (h : t.kind ≠ .arrayType) (ix : ParentIndex) (path : Path) :
    (t.tree.layout ix path).element = (t.tree.layout ix path).type ∧
      (t.tree.layout ix path).brackets = [] := by
  obtain ⟨hadmits, t⟩ := t
  rename_i k
  rw [Tree.layout, Tree.fold_eq]
  cases k with
  | arrayType => exact absurd rfl h
  | variableDeclarator => exact absurd hadmits (by decide)
  | _ => exact ⟨rfl, rfl⟩

/-- A type in a type position shows the element and then the brackets. -/
theorem type_eq {t : TypeNode} (h : t.kind = .arrayType → t.tree.data.comment = none)
    (ix : ParentIndex) (path : Path) : (t.tree.layout ix path).type =
      (t.tree.layout ix path).element ++ (t.tree.layout ix path).brackets := by
  by_cases hk : t.kind = .arrayType
  · revert h
    induction t using layer_induction with
    | array d as c _ =>
      intro h
      have hbody : ((array d as c).tree.layout ix path).type =
          (d.comment.map (Doc.comment false)).toList ++ (((array d as c).tree.layout ix path).element ++
            ((array d as c).tree.layout ix path).brackets) := rfl
      have hnone : d.comment = none := h rfl
      rw [hbody, hnone]
      rfl
    | other t ht => exact absurd hk ht
  · obtain ⟨helement, hbrackets⟩ := layout_other hk ix path
    rw [helement, hbrackets, List.append_nil]

end TypeNode

namespace Printer

variable {p : Printer}

/-- What a pass over the node gives. -/
def textOf (p : Printer) (n : Node) : String := (p.print n p.init).1.toOption.getD ""

theorem Adds.textOf_eq {root : Node} {ix : ParentIndex} {t : String}
    (hix : ParentIndex.build root = .ok ix) (h : p.Adds (root.layout ix []) t) : p.textOf root = t := by
  rw [textOf, h.print hix]
  rfl

/-- Without a decorator every pass gives a text. -/
theorem print_textOf (hp : p.decorator = .plain) (root : Node) (s : PrintState) :
    (p.print root s).1 = .ok (p.textOf root) := by
  obtain ⟨ix, hix, -⟩ := ParentIndex.build_ok root
  obtain ⟨t, ht⟩ := (Node.laid_any hix).adds hp
  rw [ht.textOf_eq hix, ht.print hix]

/-- A node whose own rule sets no orphans before it has one text, in a pass of its own and in its place
within a larger tree. -/
theorem adds_textOf (hp : p.decorator = .plain) {ix : ParentIndex} {root u : AnyTree} (hix : ix.Of root)
    {r : Path} (hu : root.at? r = some u) (hk : u.1.leadsItself = false) :
    p.Adds (u.2.layout ix r).body (p.textOf u.node) := by
  obtain ⟨own, hbuild, hown⟩ := ParentIndex.build_tree u.2
  obtain ⟨t, ht⟩ := (Node.laid_any hbuild).adds hp
  have hlayout := AnyTree.layout_at hix hown hu
  rw [hk, if_neg Bool.false_ne_true, List.nil_append, AnyTree.node, Node.layout_tree hk] at hlayout
  rw [AnyTree.node, ht.textOf_eq hbuild, hlayout]
  exact ht

/-- Annotations in a line, with blanks around them. -/
def inlineText (p : Printer) (as : List (Child (.only .annotationExpr))) : String :=
  if as.isEmpty then "" else " " ++ String.join (as.map fun a => p.textOf (.tree a.tree) ++ " ")

/-- The brackets of an array layer behind the annotations of the layer. -/
def layerText (p : Printer) (l : Tree .arrayType) : String := p.inlineText l.layerAnnotations ++ "[]"

end Printer

theorem Forest.trees_ofList {pl : Place} (cs : List (Child pl)) :
    (ofList cs).trees = cs.map fun c => ⟨_, c.tree⟩ := by
  induction cs with
  | nil => rfl
  | cons c cs ih => rw [ofList, trees, ih, List.map_cons]

theorem Forest.fold_ofList {X : Type} (rule : Rule X) (path : Path) {pl : Place} (cs : List (Child pl))
    (i : Nat) :
    (ofList cs).fold rule path i = (cs.zipIdx i).map fun c => c.1.tree.fold rule (path ++ [c.2]) := by
  rw [fold_eq, trees_ofList, List.zipIdx_map, List.map_map]
  rfl

theorem TypeNode.at?_layer {root : AnyTree} {r : Path} {d : NodeData}
    {as : List (Child (.only .annotationExpr))} {c : TypeNode}
    (h : root.at? r = some ⟨_, (array d as c).tree⟩) :
    root.at? (r ++ [0]) = some ⟨_, c.tree⟩ ∧
      ∀ a ∈ as.zipIdx 1, root.at? (r ++ [a.2]) = some ⟨_, a.1.tree⟩ := by
  have htrees : (array d as c).tree.trees = ⟨_, c.tree⟩ :: as.map fun a => ⟨_, a.tree⟩ := by
    rw [← Forest.trees_ofList, ← List.append_nil (Forest.trees _)]
    rfl
  refine ⟨AnyTree.at?_concat.mpr ⟨_, h, by rw [htrees]; rfl⟩, ?_⟩
  rintro ⟨a, i⟩ ha
  obtain ⟨hi, ha⟩ := List.mk_mem_zipIdx_iff_le_and_getElem?_sub.mp ha
  obtain ⟨j, rfl⟩ := Nat.exists_eq_add_of_le' hi
  refine AnyTree.at?_concat.mpr ⟨_, h, ?_⟩
  rw [htrees, List.getElem?_cons_succ, List.getElem?_map]
  rw [Nat.add_sub_cancel] at ha
  rw [ha]
  rfl

theorem Printer.adds_annotations {p : Printer} (hp : p.decorator = .plain) {ix : ParentIndex}
    {root : AnyTree} (hix : ix.Of root) {r : Path} {as : List (Child (.only .annotationExpr))} {i : Nat}
    (h : ∀ a ∈ as.zipIdx i, root.at? (r ++ [a.2]) = some ⟨_, a.1.tree⟩) :
    p.Adds (Layout.annotations true ((Forest.ofList as).fold (Layout.ofNode ix) r i)) (p.inlineText as) := by
  have hone : ∀ a ∈ as.zipIdx i, p.Adds
      ((a.1.tree.layout ix (r ++ [a.2])).decorated .annotationUse ++ [.write " "])
      (p.textOf (.tree a.1.tree) ++ " ") := by
    intro a ha
    -- an annotation is printed with its own rule only, so it has the text of a pass of its own
    have hkind : a.1.kind.leadsItself = false := eq_of_beq a.1.admitted ▸ rfl
    have hbody := adds_textOf hp hix (h a ha) hkind
    exact (hbody.decorated hp .annotationUse _).append (.write " ")
  have hjoin : (as.zipIdx i).map (fun a => p.textOf (.tree a.1.tree) ++ " ") =
      as.map fun a => p.textOf (.tree a.tree) ++ " " := by
    conv_rhs => rw [← List.zipIdx_map_fst i as, List.map_map]
    rfl
  have hall := Adds.flatMap hone
  rw [hjoin] at hall
  rw [Forest.fold_ofList]
  cases as with
  | nil => exact .nil
  | cons a as =>
    rw [Layout.annotations, List.flatMap_map]
    exact (Adds.write " ").append hall

theorem TypeNode.adds_parts {p : Printer} (hp : p.decorator = .plain) {ix : ParentIndex}
    {root : AnyTree} (hix : ix.Of root) (t : TypeNode) {r : Path} (ht : root.at? r = some ⟨_, t.tree⟩) :
    p.Adds (t.tree.layout ix r).element (p.textOf (.tree t.element.tree)) ∧
      p.Adds (t.tree.layout ix r).brackets (String.join (t.layers.map p.layerText)) := by
  induction t using layer_induction generalizing r with
  | array d as c ih =>
    obtain ⟨hcomponent, hannotations⟩ := at?_layer ht
    obtain ⟨helement, hbrackets⟩ := ih hcomponent
    rw [element_array, layers_array, List.map_cons, String.join_cons]
    refine ⟨helement, ?_⟩
    rw [Printer.layerText, Tree.layerAnnotations_ofRow]
    exact ((Printer.adds_annotations hp hix hannotations).append (.write "[]")).append hbrackets
  | other t hk =>
    obtain ⟨helement, hbrackets⟩ := layout_other hk ix r
    have hbody := Printer.adds_textOf hp hix ht (Kind.leadsItself_of_type t.admitted)
    rw [element_other hk, layers_other hk, helement, hbrackets]
    refine ⟨?_, .nil⟩
    unfold Layout.type
    split
    · exact hbody.decorated hp _ _
    · exact hbody

namespace TypeNode

/-- The type as an expression; nothing is attached to the expression. -/
def expression (t : TypeNode) (d : NodeData) : Tree .typeExpr :=
  .ofRow .typeExpr { d with comment := none } (t, ())

/-- The declaration of one variable of the type, with the name and nothing else; nothing is attached to
the declaration or the variable. -/
def declaration (t : TypeNode) (name : Tree .simpleName) (d d' : NodeData) : Tree .variableDeclaration :=
  let declared : Tree .variableDeclarator :=
    .ofRow .variableDeclarator { d' with comment := none } (t, name.child, none, ())
  .ofRow .variableDeclaration { d with comment := none } (.empty, [], [declared.child], ())

variable {p : Printer} {t : TypeNode}

theorem print_expression (hp : p.decorator = .plain)
    (h : t.kind = .arrayType → t.tree.data.comment = none) (d : NodeData) (s : PrintState) :
    (p.print (.tree (t.expression d)) s).1 =
      .ok (p.textOf (.tree t.element.tree) ++ String.join (t.layers.map p.layerText)) := by
  obtain ⟨ix, hix, hof⟩ := ParentIndex.build_tree (t.expression d)
  obtain ⟨helement, hbrackets⟩ := t.adds_parts hp hof (r := [0]) rfl
  refine Printer.Adds.print hix ?_ s
  have hlayout : (Node.tree (t.expression d)).layout ix [] = (t.tree.layout ix [0]).type := rfl
  rw [hlayout, type_eq h]
  exact helement.append hbrackets

theorem print_declaration (hp : p.decorator = .plain) (name : Tree .simpleName) (d d' : NodeData)
    (s : PrintState) :
    (p.print (.tree (t.declaration name d d')) s).1 =
      .ok (p.textOf (.tree t.element.tree) ++ " " ++ name.identifier ++
        String.join (t.layers.map p.layerText)) := by
  obtain ⟨ix, hix, hof⟩ := ParentIndex.build_tree (t.declaration name d d')
  obtain ⟨helement, hbrackets⟩ := t.adds_parts hp hof (r := [0, 0]) rfl
  have hname : (name.layout ix [0, 1]).body = [.write name.identifier] := by
    rw [← name.ofRow_row]
    rfl
  refine Printer.Adds.print hix ?_ s
  have hlayout : (Node.tree (t.declaration name d d')).layout ix [] =
      (t.tree.layout ix [0, 0]).element ++ [.write " "] ++
        ((name.layout ix [0, 1]).body ++ (t.tree.layout ix [0, 0]).brackets ++ [] ++ []) := rfl
  rw [hlayout, hname, List.append_nil, List.append_nil, ← List.append_assoc]
  exact ((helement.append (.write " ")).append (.write _)).append hbrackets

/-- A type in a type position and a variable declared with it show the same texts: the element type `E`,
and the brackets `B` of the array layers, the outermost layer first, each behind the annotations of the
layer. -/
theorem printed_alike (options : PrintOptions) {t : TypeNode} (ht : t.tree.data.comment = none)
    (name : Tree .simpleName) (d d' d'' : NodeData) (s : PrintState) :
    let p : Printer := ⟨options, .plain⟩
    t.element.kind ≠ .arrayType ∧ t.layers.foldr wrap t.element = t ∧
      ∃ E B, B = String.join (t.layers.map p.layerText) ∧
        (p.print (.tree t.element.tree) s).1 = .ok E ∧
        (p.print (.tree (t.element.expression d)) s).1 = .ok E ∧
        (p.print (.tree (t.expression d)) s).1 = .ok (E ++ B) ∧
        (p.print (.tree (t.declaration name d' d'')) s).1 = .ok (E ++ " " ++ name.identifier ++ B) := by
  intro p
  have hkind := t.element_kind_ne
  have hinner := print_expression (p := p) rfl (fun h => absurd h hkind) d s
  rw [element_other hkind, layers_other hkind, List.map_nil, String.join_nil, String.append_empty] at hinner
  refine ⟨hkind, t.foldr_wrap_layers, p.textOf (.tree t.element.tree), _, rfl, ?_, hinner,
    print_expression rfl (fun _ => ht) d s, print_declaration rfl name d' d'' s⟩
  exact Printer.print_textOf rfl _ s

/-- Two layers around a type, one annotated and one with a comment. -/
def remarkedArray : TypeNode :=
  let inner := array { comment := some { kind := .line, content := "c" } } []
    ⟨Kind.admits_primitiveType, Build.primitive .int⟩
  array {} [(Build.markerAnnotation "A").child] inner

theorem printed_alike_remarkedArray :
    let p : Printer := {}
    let name := Build.simpleName "xs"
    remarkedArray.tree.data.comment = none ∧
      (p.print (.tree (remarkedArray.expression {})) p.init).1 = .ok "int @A [][]" ∧
      (p.print (.tree (remarkedArray.declaration name {} {})) p.init).1 = .ok "int xs @A [][]" := by
  intro p name
  have hcomment : remarkedArray.tree.data.comment = none := rfl
  obtain ⟨-, -, E, B, hB, hE, -, hexpression, hdeclaration⟩ :=
    printed_alike {} hcomment name {} {} {} p.init
  obtain rfl : "int" = E := by
    have helement : (p.print (.tree remarkedArray.element.tree) p.init).1 = .ok "int" := by decide +kernel
    exact Except.ok.inj (helement.symm.trans hE)
  obtain rfl : " @A [][]" = B := by
    rw [hB]
    decide +kernel
  exact ⟨hcomment, hexpression, hdeclaration⟩

end TypeNode

end JavaText
