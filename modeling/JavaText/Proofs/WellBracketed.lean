import JavaText.Proofs.Parents
import JavaText.Proofs.RuleBrackets
import JavaText.Tree.Build

/-!
# Printed text is well bracketed

If no string in a tree has brackets, every layout in it is closed, rule by rule from the leaves to the
root (`Tree.closed_layout`). So the text that is printed for it is properly nested, with comments or
without (`Printer.print_bracketed`).
-/

namespace JavaText

/-- The contents of the comments in the data. -/
def NodeData.contents (d : NodeData) : List String :=
  (d.comment.toList ++ d.orphans).map Comment.content

def Scalar.texts : (s : Scalar) → s.Carrier → List String
  | .text, t => [t]
  | .optText, t => t.toList
  | .data, d => d.contents
  | .flag, _ | .modifiers, _ | .primitive, _ | .assignOp, _ | .binaryOp, _ | .unaryOp, _ => []

mutual

/-- The strings that occur anywhere in the tree: those that its fields hold, identifiers and labels and
the values of literals, and the contents of its comments. -/
def Tree.texts : {k : Kind} → Tree k → List String
  | _, .node d fs => d.contents ++ Fields.texts fs

def Fields.texts : {fs : List Field} → Fields fs → List String
  | _, .nil => []
  | _, .cons v vs => Value.texts v ++ Fields.texts vs

def Value.texts : {s : Slot} → Value s → List String
  | _, .scalar (s := s) v => s.texts v
  | _, .one _ t => Tree.texts t
  | _, .absent => []
  | _, .present _ t => Tree.texts t
  | _, .many ts => Forest.texts ts
  | _, .unlisted => []
  | _, .listed ts => Forest.texts ts
  | _, .marker => []
  | _, .single _ t => Tree.texts t
  | _, .pairs ts => Forest.texts ts

def Forest.texts : {p : Place} → Forest p → List String
  | _, .nil => []
  | _, .cons _ t ts => Tree.texts t ++ Forest.texts ts

end

def Node.texts : Node → List String
  | .tree t => t.texts
  | .entry _ e => e.tree.texts
  | .comment c => [c.content]

theorem Forest.texts_of_trees {p : Place} (ts : Forest p) {c : AnyTree} (hc : c ∈ ts.trees) :
    c.2.texts ⊆ ts.texts := by
  cases ts with
  | nil => cases hc
  | cons h t ts =>
    rw [texts]
    rcases List.mem_cons.mp hc with rfl | hc
    · exact List.subset_append_left _ _
    · exact List.Subset.trans (texts_of_trees ts hc) (List.subset_append_right _ _)

theorem Value.texts_of_trees {s : Slot} (v : Value s) {c : AnyTree} (hc : c ∈ v.trees) :
    c.2.texts ⊆ v.texts := by
  cases v with
  | many ts | listed ts | pairs ts => exact ts.texts_of_trees hc
  | one | present | single =>
    obtain rfl := List.mem_singleton.mp hc
    exact List.Subset.refl _
  | scalar | absent | unlisted | marker => cases hc

theorem Fields.texts_of_trees {fs : List Field} (vs : Fields fs) {c : AnyTree} (hc : c ∈ vs.trees) :
    c.2.texts ⊆ vs.texts := by
  cases vs with
  | nil => cases hc
  | cons v vs =>
    rw [texts]
    rcases List.mem_append.mp hc with hc | hc
    · exact List.Subset.trans (v.texts_of_trees hc) (List.subset_append_left _ _)
    · exact List.Subset.trans (texts_of_trees vs hc) (List.subset_append_right _ _)

theorem Tree.texts_eq {k : Kind} (t : Tree k) : t.texts = t.data.contents ++ t.fields.texts := by
  cases t with
  | node d fs => rfl

theorem AnyTree.texts_of_at? {t u : AnyTree} {r : Path} (h : t.at? r = some u) :
    u.2.texts ⊆ t.2.texts := by
  induction r generalizing t with
  | nil =>
    obtain rfl := Option.some.inj h
    exact List.Subset.refl _
  | cons i r ih =>
    obtain ⟨c, hc, hu⟩ := Option.bind_eq_some_iff.mp h
    have hsub := t.2.fields.texts_of_trees (List.mem_of_getElem? hc)
    rw [t.2.texts_eq]
    exact List.Subset.trans (ih hu) (List.Subset.trans hsub (List.subset_append_right _ _))

section
variable {comments : Bool}

theorem Comment.bracketFree_lineText {c : Comment} (h : bracketFree c.content = true) :
    bracketFree c.lineText = true := by
  unfold bracketFree lineText at *
  rw [String.toList_map, List.all_map, List.all_eq_true]
  intro ch hch
  rw [Function.comp_apply]
  split
  · rfl
  · exact List.all_eq_true.mp h ch hch

theorem Doc.closed_comment (orphan : Bool) {c : Comment} (h : bracketFree c.content = true) :
    Closed comments [.comment orphan c] := by
  have hops : ∀ x, c.ops.foldl Nesting.follow x = x := by
    intro x
    unfold Comment.ops
    cases c.kind <;>
      simp [Nesting.follow, Nesting.read, Nesting.step, h, Comment.bracketFree_lineText h]
  intro x
  rw [followAll, scriptAll_singleton, script, List.foldl_cons]
  cases comments with
  | false => rfl
  | true => exact hops x

theorem Doc.closed_orphans {cs : List Comment} (h : ∀ c ∈ cs, bracketFree c.content = true) :
    Closed comments (orphans cs) := by
  induction cs with
  | nil => exact closed_nil
  | cons c cs ih =>
    rw [List.forall_mem_cons] at h
    exact (closed_comment true h.1).append (ih h.2)

theorem Layout.closed_attached (k : Kind) {d : NodeData} (h : ∀ t ∈ d.contents, bracketFree t = true) :
    Doc.Closed comments (attached k d) := by
  unfold attached
  split
  · exact Doc.closed_nil
  · cases hc : d.comment with
    | none => exact Doc.closed_nil
    | some c => exact Doc.closed_comment false (h _ (by simp [NodeData.contents, hc]))

theorem Node.mem_orphans_of_before {n : Node} {i : Nat} (hi : i < n.children.length) {c : Comment}
    (hc : c ∈ n.orphansBefore i) : c ∈ n.orphans := by
  refine n.orphans_perm_runs.mem_iff.mpr (List.mem_append_left _ ?_)
  exact List.mem_flatMap.mpr ⟨i, List.mem_range.mpr hi, hc⟩

theorem Node.mem_orphans_of_atEnd {n : Node} {c : Comment} (hc : c ∈ n.orphansAtEnd) : c ∈ n.orphans :=
  n.orphans_perm_runs.mem_iff.mpr (List.mem_append_right _ hc)

theorem Tree.bracketFree_orphan {k : Kind} {t : Tree k} (h : ∀ s ∈ t.texts, bracketFree s = true)
    {c : Comment} (hc : c ∈ (Node.tree t).orphans) : bracketFree c.content = true := by
  refine h _ ?_
  rw [t.texts_eq]
  exact List.mem_append_left _ (List.mem_map_of_mem (List.mem_append_right _ hc))

theorem Layout.allClosed_of_forall₂ {ls : List Layout}
    (h : List.Forall₂ (fun l _ => l.Closed comments) ls ls) : AllClosed comments ls :=
  fun l hl => List.forall₂_same.mp h l hl

theorem Value.closed_fold {rule : Rule Layout} {path : Path} {s : Slot} (v : Value s) (i : Nat)
    (htexts : ∀ t ∈ v.texts, bracketFree t = true)
    (h : s.Rel (fun _ l _ => l.Closed comments) (v.fold rule path i) (v.fold rule path i)) :
    s.Closed comments (v.fold rule path i) := by
  cases v with
  | @scalar s v =>
    cases s with
    | text => exact htexts _ (List.mem_singleton_self _)
    | optText => exact fun t ht => htexts t (Option.mem_toList.mpr ht)
    | flag | modifiers | primitive | assignOp | binaryOp | unaryOp | data => trivial
  | one => exact h
  | absent | unlisted | marker => exact Layout.allClosed_nil
  | present =>
    cases h with
    | some h => exact Layout.allClosed_cons.mpr ⟨h, Layout.allClosed_nil⟩
  | many => exact Layout.allClosed_of_forall₂ h
  | listed =>
    cases h with
    | some h => exact Layout.allClosed_of_forall₂ h
  | single =>
    cases h with
    | single h => exact Layout.allClosed_cons.mpr ⟨h, Layout.allClosed_nil⟩
  | pairs =>
    cases h with
    | pairs h => exact Layout.allClosed_of_forall₂ h

theorem Fields.closed_fold {rule : Rule Layout} {path : Path} {fs : List Field} (vs : Fields fs) (i : Nat)
    (htexts : ∀ t ∈ vs.texts, bracketFree t = true)
    (h : Row.Rel (fun _ l _ => l.Closed comments) fs (vs.fold rule path i) (vs.fold rule path i)) :
    Row.Closed comments fs (vs.fold rule path i) := by
  cases vs with
  | nil => trivial
  | cons v vs =>
    rw [texts, List.forall_mem_append] at htexts
    exact ⟨v.closed_fold i htexts.1 h.1, closed_fold vs _ htexts.2 h.2⟩

/-- A tree without brackets in its strings has a closed layout, if the orphans looked up before its
nodes have none. -/
theorem Tree.closed_layout {ix : ParentIndex} {k : Kind} (t : Tree k)
    (htexts : ∀ s ∈ t.texts, bracketFree s = true)
    (hbefore : ∀ r u, AnyTree.at? ⟨k, t⟩ r = some u → Doc.Closed comments (Doc.leading ix r u.node)) :
    (t.layout ix []).Closed comments := by
  refine t.fold_rel (R := fun _ l _ => l.Closed comments) (f := Layout.ofNode ix)
    (g := Layout.ofNode ix) [] [] (fun r u hu hrow _ _ => ?_) (.only k) (beq_self_eq_true k)
  have hu' : ∀ s ∈ u.2.texts, bracketFree s = true := fun s hs => htexts s (AnyTree.texts_of_at? hu hs)
  have hfields : ∀ s ∈ u.2.fields.texts, bracketFree s = true := by
    intro s hs
    rw [u.2.texts_eq] at hu'
    exact hu' s (List.mem_append_right _ hs)
  have hcontents : ∀ s ∈ u.2.data.contents, bracketFree s = true := by
    intro s hs
    rw [u.2.texts_eq] at hu'
    exact hu' s (List.mem_append_left _ hs)
  rw [u.2.fold_eq]
  refine Layout.closed_ofNode (u.2.fields.closed_fold 0 hfields hrow)
    (Layout.closed_attached _ hcontents) ?_ (hbefore r u hu)
  rw [Doc.trailing_eq]
  exact Doc.closed_orphans fun c hc => Tree.bracketFree_orphan hu' (Node.mem_orphans_of_atEnd hc)

/-- The orphans looked up in a tree without brackets in its strings have none. -/
theorem ParentIndex.Of.closed_leading {ix : ParentIndex} {t : AnyTree} (h : ix.Of t)
    (htexts : ∀ s ∈ t.2.texts, bracketFree s = true) {r : Path} {u : AnyTree} (hu : t.at? r = some u) :
    Doc.Closed comments (Doc.leading ix r u.node) := by
  rcases List.eq_nil_or_concat r with rfl | ⟨r, i, rfl⟩
  · rw [h.leading_root]
    exact Doc.closed_nil
  · rw [List.concat_eq_append] at hu ⊢
    obtain ⟨v, hv, hc⟩ := AnyTree.at?_concat.mp hu
    rw [h.leading_child hv hc]
    have hi : i < v.node.children.length := by
      rw [AnyTree.node, Node.children_tree, List.length_map]
      exact (List.getElem?_eq_some_iff.mp hc).1
    refine Doc.closed_orphans fun c hc => ?_
    exact Tree.bracketFree_orphan (fun s hs => htexts s (AnyTree.texts_of_at? hv hs))
      (Node.mem_orphans_of_before hi hc)

theorem Node.closed_layout {root : Node} (htexts : ∀ t ∈ root.texts, bracketFree t = true)
    {ix : ParentIndex} (hix : ParentIndex.build root = .ok ix) :
    Doc.Closed comments (root.layout ix []) := by
  cases root with
  | tree t =>
    obtain ⟨ix₁, hix₁, hof⟩ := ParentIndex.build_tree t
    obtain rfl : ix₁ = ix := by simpa [hix₁] using hix
    have hclosed : (t.layout ix₁ []).Closed comments :=
      t.closed_layout htexts fun r u hu => hof.closed_leading (t := ⟨_, t⟩) htexts hu
    rw [layout, Layout.alone]
    split
    · exact Layout.closed_led hclosed
    · exact hclosed.body
  | entry c e =>
    obtain ⟨ix₁, hix₁, hnone⟩ := @ParentIndex.build_childless (.entry c e) rfl
    obtain rfl : ix₁ = ix := by simpa [hix₁] using hix
    have hclosed : (e.tree.layout ix₁ []).Closed comments := e.tree.closed_layout htexts fun r u _ => by
      rw [ParentIndex.leading_eq_nil hnone]
      exact Doc.closed_nil
    cases c with
    | expr => exact Layout.closed_expr hclosed
    | member | stmt => exact Layout.closed_led hclosed
    | typeDecl | type => exact hclosed.body
  | comment c => exact Doc.closed_comment false (htexts _ (List.mem_singleton_self _))

end

/-- If neither the strings in a node nor the indentation and the line end have brackets, the text that is
printed for it without a decorator is properly nested in round, square and curly brackets. -/
theorem Printer.print_bracketed (options : PrintOptions) (root : Node)
    (htexts : ∀ t ∈ root.texts, bracketFree t = true) (hindent : bracketFree options.indent = true)
    (hline : bracketFree options.newLine = true) (s : PrintState) :
    ∃ text, (print ⟨options, .plain⟩ root s).1 = .ok text ∧ Bracketed text.toList := by
  let p : Printer := ⟨options, .plain⟩
  obtain ⟨ix, hix, -⟩ := ParentIndex.build_ok root
  refine ⟨_, p.print_eq_script Wrapper.plain_decorator.symm hix s, ?_⟩
  have hread := Sink.read_foldl (s := p.init.sink) hindent hline
    (Doc.scriptAll .plain options.printComments (root.layout ix [])) (some [])
  have hclosed : Doc.Closed options.printComments (root.layout ix []) := Node.closed_layout htexts hix
  exact bracketed_iff.mpr (hread.trans (hclosed (some [])))

/-- A method that takes and gives arrays, with a comment in its block. -/
def Tree.arrayMethod : Tree .methodDecl :=
  let array : TypeNode := Build.arrayType (Build.primitive .int).inside 2
  let call : Expr := (Build.call none "g" [(Build.integerLiteral "1").inside]).inside
  let block := (Build.block [(Build.exprStmt call).inside]).withOrphans
    [{ kind := .block, content := "c", range := ⟨1, 4⟩ }]
  Build.method .empty array "f" [(Build.parameter array "a").child] (some block.child)

theorem Printer.print_bracketed_arrayMethod :
    (∀ t ∈ (Node.tree Tree.arrayMethod).texts, bracketFree t = true) ∧ bracketFree "  " = true ∧
      bracketFree "\n" = true ∧
      ∃ text, (print ⟨{ indent := "  " }, .plain⟩ (.tree Tree.arrayMethod) (init {})).1 = .ok text ∧
        Bracketed text.toList := by
  have htexts : ∀ t ∈ (Node.tree Tree.arrayMethod).texts, bracketFree t = true :=
    List.all_eq_true.mp (by decide)
  exact ⟨htexts, rfl, rfl, Printer.print_bracketed { indent := "  " } _ htexts rfl rfl _⟩

end JavaText
