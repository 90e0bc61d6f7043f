import Mathlib.Algebra.Order.BigOperators.Group.List
import Mathlib.Data.List.Perm.Subperm
import JavaText.Proofs.RuleRemarks
import JavaText.Proofs.Traversal
import JavaText.Proofs.UnitOrphans

/-!
# No comment is printed twice

A fixed comment is counted: in what a layout sets, and among the comments of the tree. An orphan stands
in one run of its node, and a run is set at one place only, before a child or at the end; so the count
in the layout of a node is bounded by what its children may bring along and what the node has itself
(`Layout.ofNode_within`). Over a whole tree the bound is the count among its comments, and the comments
handed out by a pass are among those of the tree (`Printer.comments_subperm`).
-/

namespace JavaText

open Doc (remarksAll)

/-- The comment attached to the node and its orphans. -/
def Node.ownRemarks (n : Node) : List Remark :=
  n.attached?.toList.map (Remark.mk false) ++ n.orphans.map (Remark.mk true)

/-- The comments of all nodes of a tree. -/
def Tree.remarks {k : Kind} (t : Tree k) : List Remark :=
  (t.visits [] none).flatMap fun v => v.node.ownRemarks

/-- The comments of the tree that is printed for a node, or the comment that is. -/
def Node.remarks : Node → List Remark
  | .tree t => t.remarks
  | .entry _ e => e.tree.remarks
  | .comment c => [⟨false, c⟩]

theorem Tree.flatMap_visits {X : Type} (f : Node → List X) {k : Kind} (t : Tree k) (path : Path)
    (parent : Option Node) :
    ((t.visits path parent).flatMap fun v => f v.node) =
      (t.visits [] none).flatMap fun v => f v.node := by
  induction t using Tree.of_trees generalizing path parent with
  | step t ih =>
    rw [visits_eq, visits_eq [] none, List.flatMap_cons, List.flatMap_cons, List.flatMap_assoc,
      List.flatMap_assoc]
    refine congrArg (_ ++ ·) (List.flatMap_congr fun c hc => ?_)
    have hmem := List.fst_mem_of_mem_zipIdx hc
    exact (ih c.1 hmem _ _).trans (ih c.1 hmem _ _).symm

theorem Tree.remarks_eq {k : Kind} (t : Tree k) :
    t.remarks = (Node.tree t).ownRemarks ++ t.trees.flatMap fun c => c.2.remarks := by
  have hchildren : (t.trees.zipIdx.map Prod.fst).flatMap (fun c => c.2.remarks) =
      t.trees.flatMap fun c => c.2.remarks := by rw [List.zipIdx_map_fst]
  rw [remarks, visits_eq, List.flatMap_cons, List.flatMap_assoc, ← hchildren, List.flatMap_map]
  refine congrArg (_ ++ ·) (List.flatMap_congr fun c _ => ?_)
  exact flatMap_visits Node.ownRemarks c.1.2 _ _

/-- The orphans of a node are those before its children and those at the end. -/
theorem Node.count_orphans (n : Node) (x : Remark) :
    (n.orphans.map (Remark.mk true)).count x =
      ((List.range n.children.length).map fun i =>
        ((n.orphansBefore i).map (Remark.mk true)).count x).sum +
      (n.orphansAtEnd.map (Remark.mk true)).count x := by
  have hperm := n.orphans_perm_runs.map (Remark.mk true)
  rw [hperm.count_eq, List.map_append, List.count_append, List.map_flatMap, List.count_flatMap]
  rfl

/-- However the rule of the parent sets the child in this place, the comment `x` comes at most `n`
times. -/
structure Layout.Within (x : Remark) (p : Place) (l : Layout) (n : Nat) : Prop where
  led : l.ledRemarks.count x ≤ n
  parts : (remarksAll l.element).count x + (remarksAll l.brackets).count x ≤ n
  bare : ∀ ds, l.bare = some ds → (remarksAll ds).count x ≤ n
  declared : p = .only .variableDeclarator →
    (remarksAll l.element).count x + l.remarks.count x ≤ n

namespace Layout.Within

variable {x : Remark} {p : Place} {l : Layout} {n : Nat}

theorem body (h : l.Within x p n) : l.remarks.count x ≤ n := by
  have hled := h.led
  rw [ledRemarks, Layout.led, Doc.remarksAll_append, List.count_append] at hled
  exact Nat.le_of_add_left_le hled

theorem remarksIn (h : l.Within x p n) (q : Place) : (l.remarksIn q).count x ≤ n := by
  unfold Layout.remarksIn
  split
  · exact h.led
  · exact h.body

theorem flatMap {f : Layout → List Remark} (hf : ∀ l n, l.Within x p n → (f l).count x ≤ n)
    {ls : List Layout} {ns : List Nat} (h : List.Forall₂ (Within x p) ls ns) :
    (ls.flatMap f).count x ≤ ns.sum := by
  induction h with
  | nil => exact Nat.le_refl 0
  | cons h _ ih =>
    rw [List.flatMap_cons, List.count_append, List.sum_cons]
    exact Nat.add_le_add (hf _ _ h) ih

theorem bodies {ls : List Layout} {ns : List Nat} (h : List.Forall₂ (Within x p) ls ns) :
    (ls.flatMap remarks).count x ≤ ns.sum := flatMap (fun _ _ h => h.body) h

theorem option {f : Layout → List Remark} (hf : ∀ l n, l.Within x p n → (f l).count x ≤ n)
    {o : Option Layout} {m : Option Nat} (h : Option.Rel (Within x p) o m) :
    (o.toList.flatMap f).count x ≤ m.toList.sum := by
  cases h with
  | none => exact Nat.le_refl 0
  | some h => simpa using hf _ _ h

theorem optionList {f : Layout → List Remark} (hf : ∀ l n, l.Within x p n → (f l).count x ≤ n)
    {o : Option (List Layout)} {m : Option (List Nat)}
    (h : Option.Rel (List.Forall₂ (Within x p)) o m) :
    ((o.getD []).flatMap f).count x ≤ (m.getD []).sum := by
  cases h with
  | none => exact Nat.le_refl 0
  | some h => exact flatMap hf h

/-- The shared type comes from the first variable, which is set without it. -/
theorem declarators {ls : List Layout} {ns : List Nat}
    (h : List.Forall₂ (Within x (.only .variableDeclarator)) ls ns) :
    (remarksAll (declarators ls)).count x ≤ ns.sum := by
  rw [remarksAll_declarators]
  cases h with
  | nil => exact Nat.le_refl 0
  | cons h hs =>
    have hfirst := h.declared rfl
    have hrest := bodies hs
    simp only [List.head?_cons, Option.toList_some, List.flatMap_cons, List.flatMap_nil,
      List.append_nil, List.count_append, List.sum_cons]
    omega

/-! The rules that set a child in two parts, or leave out some of it. -/

section
variable {q : Place} {as : List Layout} {ns : List Nat} (has : List.Forall₂ (Within x q) as ns)
include has

theorem arrayType (h : l.Within x p n) :
    (remarksAll (Rule.arrayType l as)).count x ≤ n + ns.sum := by
  have hparts := h.parts
  have hannotations := bodies has
  rw [Rule.remarksAll_arrayType, List.count_append, List.count_append]
  omega

theorem fieldDecl (m : Modifiers) {ls : List Layout} {ms : List Nat}
    (h : List.Forall₂ (Within x (.only .variableDeclarator)) ls ms) :
    (remarksAll (Rule.fieldDecl m as ls)).count x ≤ ns.sum + ms.sum := by
  rw [Rule.remarksAll_fieldDecl, List.count_append]
  exact Nat.add_le_add (bodies has) (declarators h)

theorem variableDeclaration (m : Modifiers) {ls : List Layout} {ms : List Nat}
    (h : List.Forall₂ (Within x (.only .variableDeclarator)) ls ms) :
    (remarksAll (Rule.variableDeclaration m as ls)).count x ≤ ns.sum + ms.sum := by
  rw [Rule.remarksAll_variableDeclaration, List.count_append]
  exact Nat.add_le_add (bodies has) (declarators h)

theorem lambda (enclosing : Bool) (h : l.Within x p n) :
    (remarksAll (Rule.lambda as enclosing l)).count x ≤ ns.sum + n := by
  have hbody : ((l.bare.map remarksAll).getD l.ledRemarks).count x ≤ n := by
    cases hbare : l.bare with
    | none => exact h.led
    | some ds => exact h.bare ds hbare
  rw [Rule.remarksAll_lambda, List.count_append]
  exact Nat.add_le_add (bodies has) hbody

theorem constructorCallStmt (isThis : Bool) {scope : Option Layout} {m : Option Nat} {pl : Place}
    (hscope : Option.Rel (Within x p) scope m) {args : Option (List Layout)}
    {o : Option (List Nat)} (hargs : Option.Rel (List.Forall₂ (Within x pl)) args o) :
    (remarksAll (Rule.constructorCallStmt isThis scope args as)).count x ≤
      m.toList.sum + (o.getD []).sum + ns.sum := by
  have hkept := option (fun _ _ h => h.body) hscope
  have htypes := optionList (fun _ _ h => h.body) hargs
  have hvalues := bodies has
  rw [Rule.remarksAll_constructorCallStmt, List.count_append, List.count_append]
  cases isThis with
  | false => exact Nat.add_le_add (Nat.add_le_add hkept htypes) hvalues
  | true => exact Nat.add_le_add (Nat.add_le_add (Nat.zero_le _) htypes) hvalues

end

theorem variableDeclarator (h : l.Within x p n) {name : Layout} {q : Place} {m : Nat}
    (hname : name.Within x q m) {value : Option Layout} {pl : Place} {o : Option Nat}
    (hvalue : Option.Rel (Within x pl) value o) :
    (remarksAll l.element).count x +
        (remarksAll (Rule.variableDeclarator l name value)).count x ≤ n + m + o.toList.sum := by
  have hparts := h.parts
  have hname := hname.body
  have hvalue := option (fun _ _ h => h.body) hvalue
  rw [Rule.remarksAll_variableDeclarator, List.count_append, List.count_append]
  omega

end Layout.Within

open Layout (Within) in
theorem Slot.count_remarks_le {x : Remark} {s : Slot} {v : s.Of fun _ => Layout}
    {w : s.Of fun _ => Nat} (h : s.Rel (Within x) v w) :
    (s.remarks v).count x ≤ (s.toList w).sum := by
  have hplace : ∀ p l n, Within x p l n → (l.remarksIn p).count x ≤ n := fun p _ _ h => h.remarksIn p
  cases s with
  | scalar => exact Nat.le_refl 0
  | one p => exact (hplace p _ _ h).trans (Nat.le_of_eq (List.sum_singleton).symm)
  | opt p => exact Within.option (hplace p) h
  | many p => exact Within.flatMap (hplace p) h
  | optMany p => exact Within.optionList (hplace p) h
  | arguments =>
    cases h with
    | marker => exact Nat.le_refl 0
    | single h => simpa [Arguments.toList, toList] using Within.body h
    | pairs h => exact Within.bodies h

theorem Row.count_remarks_le {x : Remark} : (fs : List Field) →
    (r : Row (Field.Of fun _ => Layout) fs) → (ns : Row (Field.Of fun _ => Nat) fs) →
    Row.Rel (Layout.Within x) fs r ns → (Row.remarks fs r).count x ≤ (Row.toList fs ns).sum
  | [], _, _, _ => Nat.le_refl 0
  | f :: fs, (v, vs), (w, ws), h => by
    rw [remarks, toList, List.count_append, List.sum_append]
    exact Nat.add_le_add (Slot.count_remarks_le h.1) (count_remarks_le fs vs ws h.2)

namespace Layout

/-- The rules that set a child in two parts, or leave out some of it. -/
theorem count_rule_takesApart {x : Remark} {k : Kind} (hk : k.takesApart = true) (t : Tree k)
    {row : Row (Field.Of fun _ => Layout) k.fields} {ns : Row (Field.Of fun _ => Nat) k.fields}
    (h : Row.Rel (Within x) k.fields row ns) :
    (remarksAll (rule t row)).count x ≤ (Row.toList k.fields ns).sum := by
  cases k with
  | arrayType => exact (Within.arrayType h.2.1 h.1).trans (by simp [Kind.fields])
  | variableDeclarator =>
    exact (Nat.le_of_add_left_le (h.1.variableDeclarator h.2.1 h.2.2.1)).trans
      (by simp [Kind.fields, Nat.add_assoc])
  | fieldDecl => exact (Within.fieldDecl h.2.1 _ h.2.2.1).trans (by simp [Kind.fields])
  | variableDeclaration =>
    exact (Within.variableDeclaration h.2.1 _ h.2.2.1).trans (by simp [Kind.fields])
  | lambda => exact (Within.lambda h.1 _ h.2.2.1).trans (by simp [Kind.fields])
  | constructorCallStmt =>
    exact (Within.constructorCallStmt h.2.2.2.1 _ h.2.1 h.2.2.1).trans
      (by simp [Kind.fields, Nat.add_assoc])
  | _ => cases hk

/-- A rule sets the comment as often as its children bring it along, and as it is among the orphans at
the end. -/
theorem count_rule_le {x : Remark} {k : Kind} (t : Tree k)
    {row : Row (Field.Of fun _ => Layout) k.fields} {ns : Row (Field.Of fun _ => Nat) k.fields}
    (h : Row.Rel (Within x) k.fields row ns) :
    (remarksAll (rule t row)).count x ≤
      (Row.toList k.fields ns).sum + (remarksAll (Doc.trailing (.tree t))).count x := by
  cases hk : k.takesApart with
  | false =>
    have hrow := Row.count_remarks_le _ _ _ h
    rw [remarksAll_rule hk, List.count_append]
    split
    · exact Nat.add_le_add_right hrow _
    · exact Nat.le_add_right_of_le hrow
  | true => exact Nat.le_add_right_of_le (count_rule_takesApart hk t h)

/-- The type in a declaration and its brackets, if they are not the node's own layout. -/
theorem count_parts_le {x : Remark} {k : Kind} {row : Row (Field.Of fun _ => Layout) k.fields}
    {ns : Row (Field.Of fun _ => Nat) k.fields} (h : Row.Rel (Within x) k.fields row ns)
    (own : List Doc) :
    elementOf row own = own ∧ bracketsOf row = [] ∨
      (remarksAll (elementOf row own)).count x + (remarksAll (bracketsOf row)).count x ≤
        (Row.toList k.fields ns).sum := by
  cases k with
  | arrayType =>
    refine .inr (Nat.le_trans (Nat.le_of_eq ?_) ((Within.arrayType h.2.1 h.1).trans ?_))
    · rw [Rule.remarksAll_arrayType, List.append_assoc, List.count_append]
      exact congrArg (fun bs => _ + List.count x bs) (Rule.remarksAll_arrayBrackets ..)
    · simp [Kind.fields]
  | variableDeclarator => exact .inr (h.1.parts.trans (by simp [Kind.fields]))
  | _ => exact .inl ⟨rfl, rfl⟩

theorem count_bare_le {x : Remark} {k : Kind} {row : Row (Field.Of fun _ => Layout) k.fields}
    {ns : Row (Field.Of fun _ => Nat) k.fields} (h : Row.Rel (Within x) k.fields row ns)
    {ds : List Doc} (hds : bareOf row = some ds) :
    (remarksAll ds).count x ≤ (Row.toList k.fields ns).sum := by
  cases k with
  | expressionStmt =>
    obtain rfl := Option.some.inj hds
    rw [remarksAll_expr]
    exact h.1.body.trans (by simp [Kind.fields])
  | _ => cases hds

theorem count_declared_le {x : Remark} (t : Tree .variableDeclarator)
    {row : Row (Field.Of fun _ => Layout) Kind.variableDeclarator.fields}
    {ns : Row (Field.Of fun _ => Nat) Kind.variableDeclarator.fields}
    (h : Row.Rel (Within x) Kind.variableDeclarator.fields row ns) (own : List Doc) :
    (remarksAll (elementOf row own)).count x + (remarksAll (rule t row)).count x ≤
      (Row.toList Kind.variableDeclarator.fields ns).sum :=
  (h.1.variableDeclarator h.2.1 h.2.2.1).trans (by simp [Kind.fields, Nat.add_assoc])

/-- The step: what a node may bring along to its parent are the orphans before it, the comment attached
to it, what its children bring along, and its orphans at the end. -/
theorem ofNode_within {x : Remark} {ix : ParentIndex} {path : Path} {k : Kind} (t : Tree k)
    {row : Row (Field.Of fun _ => Layout) k.fields} {ns : Row (Field.Of fun _ => Nat) k.fields}
    (h : Row.Rel (Within x) k.fields row ns) {n : Nat}
    (hn : (remarksAll (Doc.leading ix path (.tree t))).count x +
        (remarksAll (attached k t.data)).count x + (Row.toList k.fields ns).sum +
        (remarksAll (Doc.trailing (.tree t))).count x ≤ n)
    {p : Place} (hp : p.admits k = true) : (ofNode ix path t row).Within x p n := by
  have hrule := count_rule_le t h
  have hbody : (ofNode ix path t row).remarks.count x =
      (remarksAll (attached k t.data)).count x + (remarksAll (rule t row)).count x := by
    rw [remarks, ofNode, Doc.remarksAll_append, List.count_append]
  constructor
  · have hbefore : (remarksAll (ofNode ix path t row).before).count x ≤
        (remarksAll (Doc.leading ix path (.tree t))).count x := by
      rw [ofNode]
      split
      · exact Nat.le_refl _
      · exact Nat.zero_le _
    rw [ledRemarks, led, Doc.remarksAll_append, List.count_append, remarksAll_body, hbody]
    omega
  · let own := if k = .classType
      then [Doc.decorated .typeReference (.tree t) (ofNode ix path t row).body]
      else (ofNode ix path t row).body
    have hown : (remarksAll own).count x = (ofNode ix path t row).remarks.count x := by
      simp only [own]
      split <;> simp
    rcases count_parts_le h own with ⟨helement, hbrackets⟩ | hparts
    · show (remarksAll (elementOf row own)).count x + (remarksAll (bracketsOf row)).count x ≤ n
      rw [helement, hbrackets, hown, hbody]
      simp only [Doc.remarksAll_nil, List.count_nil]
      omega
    · exact hparts.trans (by omega)
  · intro ds hds
    have hbare := count_bare_le h hds
    omega
  · rintro rfl
    obtain rfl : Kind.variableDeclarator = k := eq_of_beq hp
    have hdeclared := count_declared_le t h (ofNode ix path t row).body
    have helement : (ofNode ix path t row).element = elementOf row (ofNode ix path t row).body := rfl
    rw [hbody, helement]
    omega

end Layout

/-- The comment attached to a node is set at most once. -/
theorem Layout.count_attached_le (x : Remark) (k : Kind) (d : NodeData) :
    (remarksAll (attached k d)).count x ≤
      (d.comment.toList.map (Remark.mk false)).count x := by
  unfold attached
  split
  · exact Nat.zero_le _
  · cases d.comment <;> simp

section
variable (x : Remark) (ix : ParentIndex)

/-- Before a child of `t`, which stands at `path`, no orphans are set but those in the run before it. -/
def ParentIndex.Sparing (path : Path) {k : Kind} (t : Tree k) : Prop :=
  ∀ i c, t.trees[i]? = some c →
    (remarksAll (Doc.leading ix (path ++ [i]) c.node)).count x ≤
      (((Node.tree t).orphansBefore i).map (Remark.mk true)).count x

/-- How often the comment may be set for a node: before it, and among the comments of the tree. -/
def Tree.allowance : Rule Nat := fun path _ t _ =>
  (remarksAll (Doc.leading ix path (.tree t))).count x + t.remarks.count x

variable {x ix}

theorem Tree.sum_allowance {k : Kind} {t : Tree k} {path : Path} (h : ix.Sparing x path t) :
    (Row.toList k.fields (t.fields.fold (allowance x ix) path 0)).sum ≤
      ((List.range t.trees.length).map fun i =>
        (((Node.tree t).orphansBefore i).map (Remark.mk true)).count x).sum +
      (t.trees.flatMap fun c => c.2.remarks).count x := by
  have hfold : ∀ c : AnyTree × Nat, AnyTree.fold (allowance x ix) path c =
      (remarksAll (Doc.leading ix (path ++ [c.2]) c.1.node)).count x + c.1.2.remarks.count x :=
    fun c => fold_eq ..
  have hbefore : (t.trees.zipIdx.map fun c =>
        (remarksAll (Doc.leading ix (path ++ [c.2]) c.1.node)).count x).sum ≤
      ((t.trees.zipIdx.map Prod.snd).map fun i =>
        (((Node.tree t).orphansBefore i).map (Remark.mk true)).count x).sum := by
    rw [List.map_map]
    exact List.sum_le_sum fun c hc => h c.2 c.1 (List.mem_zipIdx_iff_getElem?.mp hc)
  have hbelow : (t.trees.zipIdx.map fun c => c.1.2.remarks.count x).sum =
      (t.trees.flatMap fun c => c.2.remarks).count x := by
    rw [List.count_flatMap]
    conv_rhs => rw [← List.zipIdx_map_fst 0 t.trees, List.map_map]
    rfl
  rw [List.zipIdx_map_snd, ← List.range_eq_range'] at hbefore
  rw [Fields.toList_fold, ← Tree.trees, List.map_congr_left fun c _ => hfold c, List.sum_map_add,
    hbelow]
  exact Nat.add_le_add_right hbefore _

/-- A node keeps within its allowance if its children keep within theirs. -/
theorem Tree.allowance_ge {k : Kind} {t : Tree k} {path : Path} (h : ix.Sparing x path t) :
    (remarksAll (Doc.leading ix path (.tree t))).count x +
        (remarksAll (Layout.attached k t.data)).count x +
        (Row.toList k.fields (t.fields.fold (allowance x ix) path 0)).sum +
        (remarksAll (Doc.trailing (.tree t))).count x ≤ t.fold (allowance x ix) path := by
  have hattached := Layout.count_attached_le x k t.data
  have hchildren := sum_allowance h
  have horphans := (Node.tree t).count_orphans x
  rw [Node.children_tree, List.length_map] at horphans
  have hremarks : t.remarks.count x = (t.data.comment.toList.map (Remark.mk false)).count x +
      ((Node.tree t).orphans.map (Remark.mk true)).count x +
      (t.trees.flatMap fun c => c.2.remarks).count x := by
    rw [remarks_eq, List.count_append, Node.ownRemarks, List.count_append]
    rfl
  rw [fold_eq, allowance, Doc.trailing_eq, Doc.remarksAll_orphans, hremarks]
  omega

/-- In the layout of a tree no comment comes more often than it may. -/
theorem Tree.layout_within {k : Kind} (t : Tree k)
    (h : ∀ r u, AnyTree.at? ⟨k, t⟩ r = some u → ix.Sparing x r u.2) :
    (t.layout ix []).Within x (.only k) (t.fold (allowance x ix) []) := by
  refine t.fold_rel [] [] (fun r u hu hrow pl hpl => ?_) (.only k) (beq_self_eq_true k)
  rw [List.nil_append] at hrow ⊢
  rw [u.2.fold_eq (Layout.ofNode ix)]
  exact Layout.ofNode_within u.2 hrow (allowance_ge (h r u hu)) hpl

end

/-- The layout that is printed for a node sets comments of the tree, each at most once. -/
theorem Node.layout_subperm {root : Node} {ix : ParentIndex} (hix : ParentIndex.build root = .ok ix) :
    (remarksAll (root.layout ix [])).Subperm root.remarks := by
  rw [List.subperm_ext_iff]
  intro x _
  cases root with
  | tree t =>
    obtain ⟨ix', hix', hof⟩ := ParentIndex.build_tree t
    obtain rfl : ix' = ix := by simpa [hix'] using hix
    have hwithin := t.layout_within (x := x) fun r u hu i c hc => by
      rw [hof.leading_child hu hc, Doc.remarksAll_orphans]
      exact Nat.le_refl _
    rw [t.fold_eq, Tree.allowance, hof.leading_root, Doc.remarksAll_nil, List.count_nil,
      Nat.zero_add] at hwithin
    rw [layout, Layout.alone]
    split
    · exact hwithin.led
    · exact hwithin.body
  | entry c e =>
    obtain ⟨ix', hix', hnone⟩ := @ParentIndex.build_childless (.entry c e) rfl
    obtain rfl : ix' = ix := by simpa [hix'] using hix
    have hleading := ParentIndex.leading_eq_nil hnone
    have hwithin := e.tree.layout_within (x := x) fun r u _ i c _ => by
      rw [hleading]
      exact Nat.zero_le _
    rw [e.tree.fold_eq, Tree.allowance, hleading, Doc.remarksAll_nil, List.count_nil,
      Nat.zero_add] at hwithin
    cases c with
    | expr =>
      rw [layout, Layout.remarksAll_expr]
      exact hwithin.body
    | member | stmt => exact hwithin.led
    | typeDecl | type => exact hwithin.body
  | comment c => exact Nat.le_refl _

namespace Op

def remark? : Op → Option Remark
  | .comment orphan c => some ⟨orphan, c⟩
  | .write .. | .newline | .indent | .unindent | .decorate .. => none

/-- The comments that are handed over for printing, in order. -/
def handed (ops : List Op) : List Remark := ops.filterMap remark?

theorem handed_append (ops ops' : List Op) : handed (ops ++ ops') = handed ops ++ handed ops' :=
  List.filterMap_append

theorem handed_writes (own : Bool) (ts : List String) : handed (ts.map (.write own)) = [] := by
  simp [handed, remark?]

theorem length_shown (ops : List Op) : (shown ops).length = (handed ops).countP Remark.orphan := by
  induction ops with
  | nil => rfl
  | cons op ops ih =>
    cases op with
    | comment orphan c =>
      cases orphan with
      | false => exact ih
      | true =>
        have hcons : handed (.comment true c :: ops) = ⟨true, c⟩ :: handed ops := rfl
        rw [hcons, List.countP_cons_of_pos rfl, ← ih]
        rfl
    | write | newline | indent | unindent | decorate => exact ih

end Op

theorem Comment.handed_ops (c : Comment) : Op.handed c.ops = [] := by
  unfold Comment.ops
  cases c.kind <;> rfl

section
variable (w : Wrapper) (comments : Bool)

mutual

/-- What a script hands over are the comments of the layout, printed or not. -/
theorem Doc.handed_script (d : Doc) : Op.handed (d.script w comments) = d.remarks := by
  cases d with
  | write | newline | abort => rfl
  | comment orphan c =>
    have hops : Op.handed (if comments then c.ops else []) = [] := by
      split
      · exact c.handed_ops
      · rfl
    exact congrArg (_ :: ·) hops
  | indented ds =>
    rw [Doc.script, Op.handed_append, Op.handed_append, Doc.handed_scriptAll ds]
    exact List.append_nil _
  | decorated role n ds =>
    rw [Doc.script, Op.handed_append, Op.handed_append, Op.handed_append, Op.handed_writes,
      Op.handed_writes, Doc.handed_scriptAll ds]
    exact List.append_nil _

theorem Doc.handed_scriptAll (ds : List Doc) : Op.handed (scriptAll w comments ds) = remarksAll ds := by
  cases ds with
  | nil => rfl
  | cons d ds =>
    rw [scriptAll, Op.handed_append, Doc.handed_script d, Doc.handed_scriptAll ds,
      Doc.remarksAll_cons]

end

end

/-- The statistics of a pass count the orphans among the comments of the layout. -/
theorem Printer.print_orphans (p : Printer) {w : Wrapper} (hw : p.decorator = w.decorator)
    {root : Node} {ix : ParentIndex} (hix : ParentIndex.build root = .ok ix) (s : PrintState) :
    (p.print root s).2.stats.orphans = (remarksAll (root.layout ix [])).countP Remark.orphan := by
  have hcount := PrintState.orphans_foldl
    (Doc.scriptAll w p.options.printComments (root.layout ix [])) (p.passStart ix s)
  rw [Op.length_shown, Doc.handed_scriptAll] at hcount
  rw [print_stats, p.pass_eq_script hw hix]
  exact hcount.trans (Nat.zero_add _)

/-- The comments that a pass hands over for printing, recorded as it happens, are comments of the tree,
and none is handed over more often than the tree has it. Those of them that are orphans are counted in
the statistics, and there are as many whether comments are printed or not. This is so without a
decorator, under markup, and under whatever else only writes texts around nodes. -/
theorem Printer.comments_subperm (options : PrintOptions) (w : Wrapper) (root : Node)
    (s : PrintState) :
    let p : Printer := ⟨options, w.decorator⟩
    let handed := Op.handed (p.recordPass .ops root s).notes
    (p.recordPass .ops root s).outcome = p.pass root s ∧
    handed.Subperm root.remarks ∧
    (p.print root s).2.stats.orphans = handed.countP Remark.orphan ∧
    (∀ printComments, (print ⟨{ options with printComments }, w.decorator⟩ root s).2.stats.orphans =
      (p.print root s).2.stats.orphans) ∧
    Wrapper.plain.decorator = .plain ∧
    ∀ style : MarkupStyle, style.wrapper.decorator = style.decorator := by
  intro p handed
  obtain ⟨ix, hix, -⟩ := ParentIndex.build_ok root
  have hhanded : handed = remarksAll (root.layout ix []) := by
    rw [← Doc.handed_scriptAll w options.printComments, ← p.ops_recordPass rfl hix s]
  have horphans := p.print_orphans rfl hix s
  refine ⟨p.outcome_recordPass .ops root s, ?_, ?_, fun printComments => ?_, Wrapper.plain_decorator,
    MarkupStyle.wrapper_decorator⟩
  · rw [hhanded]
    exact Node.layout_subperm hix
  · rw [hhanded, horphans]
  · rw [horphans, print_orphans _ rfl hix]

end JavaText
