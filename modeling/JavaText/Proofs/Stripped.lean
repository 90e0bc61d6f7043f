import JavaText.Proofs.Conduct
import JavaText.Proofs.OtherData
import JavaText.Proofs.Script
import JavaText.Proofs.UnitOrphans

/-!
# Trees without comments

To print a tree with comments off is to print the tree that has none: the rules find the same children
in the same order, and where they look for comments there are none to print, for the one reason or for
the other. The two layouts are compared by what their scripts do to the text (`Doc.SameText`); a wrapper
must not look at comments for its texts to be the same, and markup does not
(`MarkupStyle.ignoresComments`).
-/

namespace JavaText

mutual

/-- The tree without the comments attached to its nodes and without their orphans. -/
def Tree.strip : {k : Kind} → Tree k → Tree k
  | _, .node d fs => .node d.bare (Fields.strip fs)

def Fields.strip : {fs : List Field} → Fields fs → Fields fs
  | _, .nil => .nil
  | _, .cons v vs => .cons (Value.strip v) (Fields.strip vs)

def Value.strip : {s : Slot} → Value s → Value s
  | _, .scalar v => .scalar v
  | _, .one h t => .one h (Tree.strip t)
  | _, .absent => .absent
  | _, .present h t => .present h (Tree.strip t)
  | _, .many ts => .many (Forest.strip ts)
  | _, .unlisted => .unlisted
  | _, .listed ts => .listed (Forest.strip ts)
  | _, .marker => .marker
  | _, .single h t => .single h (Tree.strip t)
  | _, .pairs ts => .pairs (Forest.strip ts)

def Forest.strip : {p : Place} → Forest p → Forest p
  | _, .nil => .nil
  | _, .cons h t ts => .cons h (Tree.strip t) (Forest.strip ts)

end

def AnyTree.strip (t : AnyTree) : AnyTree := ⟨t.1, t.2.strip⟩

/-- The node without comments. Nothing is left of a comment. -/
def Node.strip? : Node → Option Node
  | .tree t => some (.tree t.strip)
  | .entry c e => some (.entry c ⟨e.admitted, e.tree.strip⟩)
  | .comment _ => none

theorem Tree.data_strip {k : Kind} (t : Tree k) : t.strip.data = t.data.bare := by
  cases t with
  | node d fs => rfl

mutual

/-- A stripped tree is the tree with bare data. -/
theorem Tree.strip_eq : {k : Kind} → (t : Tree k) → t.strip = t.mapData fun _ d => d.bare
  | _, .node d fs => by rw [Tree.strip, Tree.mapData, Fields.strip_eq fs 0]

theorem Fields.strip_eq : {fs : List Field} → (vs : Fields fs) → (i : Nat) →
    vs.strip = vs.mapData (fun _ d => d.bare) i
  | _, .nil, _ => rfl
  | _, .cons v vs, i => by rw [Fields.strip, Fields.mapData, Value.strip_eq v i, Fields.strip_eq vs]

theorem Value.strip_eq : {s : Slot} → (v : Value s) → (i : Nat) →
    v.strip = v.mapData (fun _ d => d.bare) i
  | _, .one h t, _ => congrArg (Value.one h) (Tree.strip_eq t)
  | _, .present h t, _ => congrArg (Value.present h) (Tree.strip_eq t)
  | _, .many ts, i => congrArg Value.many (Forest.strip_eq ts i)
  | _, .listed ts, i => congrArg Value.listed (Forest.strip_eq ts i)
  | _, .single h t, _ => congrArg (Value.single h) (Tree.strip_eq t)
  | _, .pairs ts, i => congrArg Value.pairs (Forest.strip_eq ts i)
  | _, .scalar _, _ | _, .absent, _ | _, .unlisted, _ | _, .marker, _ => rfl

theorem Forest.strip_eq : {p : Place} → (ts : Forest p) → (i : Nat) →
    ts.strip = ts.mapData (fun _ d => d.bare) i
  | _, .nil, _ => rfl
  | _, .cons _ t ts, i => by rw [Forest.strip, Forest.mapData, Tree.strip_eq t, Forest.strip_eq ts]

end

theorem AnyTree.strip_eq (t : AnyTree) : t.strip = t.mapData fun _ d => d.bare :=
  congrArg (Sigma.mk t.1) t.2.strip_eq

theorem Tree.trees_strip {k : Kind} (t : Tree k) : t.strip.trees = t.trees.map AnyTree.strip := by
  have hchild : ∀ c ∈ t.trees.zipIdx, AnyTree.mapChild (fun _ d => d.bare) c = c.1.strip :=
    fun c _ => c.1.strip_eq.symm
  have hfst : (t.trees.zipIdx.map Prod.fst).map AnyTree.strip = t.trees.map AnyTree.strip := by
    rw [List.zipIdx_map_fst]
  rw [t.strip_eq, trees_mapData, List.map_congr_left hchild, ← hfst, List.map_map]
  rfl

theorem AnyTree.at?_strip (t : AnyTree) (r : Path) : t.strip.at? r = (t.at? r).map strip := by
  rw [t.strip_eq, at?_mapData, funext strip_eq]

/-- Stripping keeps the number of nodes. -/
theorem Tree.length_visits_strip {k : Kind} (t : Tree k) (path : Path) (parent parent' : Option Node) :
    (t.strip.visits path parent').length = (t.visits path parent).length := by
  rw [t.strip_eq]
  exact (t.visits_mapData _ path parent parent').length_eq.symm

/-- A rule as it sees the nodes of a stripped tree. -/
def Tree.strippedRule {X : Type} (rule : Rule X) : Rule X := fun path _ t row => rule path t.strip row

/-- To fold a stripped tree is to fold the tree by a rule that strips each node. -/
theorem Tree.fold_strip {X : Type} (rule : Rule X) {k : Kind} (t : Tree k) (path : Path) :
    t.strip.fold rule path = t.fold (strippedRule rule) path := by
  have hrule : strippedRule rule = mappedRule (fun _ d => d.bare) rule := by
    funext path k t row
    rw [strippedRule, mappedRule, t.strip_eq]
  rw [t.strip_eq, hrule]
  exact t.fold_mapData (fun _ d => d.bare) rule path

theorem Node.orphans_strip {k : Kind} (t : Tree k) : (Node.tree t.strip).orphans = [] := by
  cases t with
  | node d fs => rfl

theorem Node.orphansAtEnd_strip {k : Kind} (t : Tree k) : (Node.tree t.strip).orphansAtEnd = [] :=
  orphansAtEnd_eq_nil _ (orphans_strip t)

theorem Node.orphansBefore_strip {k : Kind} (t : Tree k) {i : Nat} (hi : i < t.trees.length) :
    (Node.tree t.strip).orphansBefore i = [] := by
  have h := (Node.tree t.strip).orphans_perm_runs
  rw [orphans_strip] at h
  have hruns := List.flatMap_eq_nil_iff.mp (List.append_eq_nil_iff.mp h.nil_eq.symm).1
  refine hruns i (List.mem_range.mpr ?_)
  rwa [children_tree, List.length_map, Tree.trees_strip, List.length_map]

/-- In a stripped tree nothing is set before any node. -/
theorem ParentIndex.Of.leading_strip {ix : ParentIndex} {t : AnyTree} (h : ix.Of t.strip) {r : Path}
    {u : AnyTree} (hu : t.at? r = some u) : Doc.leading ix r u.strip.node = [] := by
  rcases List.eq_nil_or_concat r with rfl | ⟨r, i, rfl⟩
  · exact h.leading_root _
  · rw [List.concat_eq_append] at hu ⊢
    obtain ⟨v, hv, hc⟩ := AnyTree.at?_concat.mp hu
    have hv' : t.strip.at? r = some v.strip := by rw [AnyTree.at?_strip, hv, Option.map_some]
    have hc' : v.strip.2.trees[i]? = some u.strip := by
      have htrees : v.strip.2.trees = v.2.trees.map AnyTree.strip := v.2.trees_strip
      rw [htrees, List.getElem?_map, hc, Option.map_some]
    rw [h.leading_child hv' hc']
    have hrun : v.strip.node.orphansBefore i = [] :=
      Node.orphansBefore_strip v.2 (List.getElem?_eq_some_iff.mp hc).1
    rw [hrun]
    rfl

/-- The operation does something to the text. -/
def Op.isText : Op → Bool
  | .write .. | .newline | .indent | .unindent => true
  | .comment .. | .decorate .. => false

theorem Sink.foldl_isText (ops : List Op) (s : Sink) :
    (ops.filter Op.isText).foldl perform s = ops.foldl perform s := by
  induction ops generalizing s with
  | nil => rfl
  | cons op ops ih =>
    cases op with
    | write | newline | indent | unindent => exact ih _
    | comment | decorate => exact ih s

/-- The texts of the wrapper do not depend on comments. -/
structure Wrapper.IgnoresComments (w : Wrapper) : Prop where
  opening : ∀ role {k : Kind} (t : Tree k), w.opening role (.tree t.strip) = w.opening role (.tree t)
  closing : ∀ role {k : Kind} (t : Tree k), w.closing role (.tree t.strip) = w.closing role (.tree t)

theorem Wrapper.ignoresComments_plain : plain.IgnoresComments := ⟨fun _ _ _ => rfl, fun _ _ _ => rfl⟩

theorem MarkupStyle.ignoresComments (style : MarkupStyle) : style.wrapper.IgnoresComments := by
  constructor
  · intro role k t
    simp only [wrapper, t.strip_eq, style.isBare_mapData _ role t]
  · intro role k t
    simp only [wrapper, t.strip_eq, style.isBare_mapData _ role t]

section
variable (w : Wrapper)

/-- With comments off the first layout does to the text what the second does with comments on. -/
def Doc.SameText (ds ds' : List Doc) : Prop :=
  (scriptAll w false ds).filter Op.isText = (scriptAll w true ds').filter Op.isText

/-- The second layout is that of the stripped node. -/
def Layout.OfStripped (l l' : Layout) : Prop := (⟨_, l'.tree⟩ : AnyTree) = ⟨_, l.tree.strip⟩

variable {w}

theorem Doc.SameText.orphans (cs : List Comment) : SameText w (orphans cs) [] := by
  induction cs with
  | nil => rfl
  | cons c cs ih => exact ih

theorem Doc.SameText.attached (k : Kind) (d : NodeData) :
    SameText w (Layout.attached k d) (Layout.attached k d.bare) := by
  unfold Layout.attached
  refine Doc.rel_ite _ rfl ?_
  cases d.comment <;> rfl

theorem Doc.SameText.congruence (hw : w.IgnoresComments) :
    Doc.Congruence Layout.OfStripped (SameText w) where
  nil := rfl
  append {a a' b b'} ha hb := by
    unfold SameText at ha hb ⊢
    rw [scriptAll_append, scriptAll_append, List.filter_append, List.filter_append, ha, hb]
  write t := rfl
  newline := rfl
  deeper {a a'} ha := by
    unfold SameText at ha ⊢
    simp only [scriptAll_deeper, List.filter_append, ha]
  decorated {l l'} role _ hl hbody := by
    have hnode : Node.tree l'.tree = .tree l.tree.strip := congrArg AnyTree.node hl
    unfold SameText Layout.decorated at *
    rw [scriptAll_singleton, scriptAll_singleton, script, script, hnode, hw.opening, hw.closing]
    simp only [List.filter_append, hbody]
    rfl

theorem Tree.layout_strip (hw : w.IgnoresComments) {ix ix' : ParentIndex} {k : Kind} (t : Tree k)
    (hbefore : ∀ r u, AnyTree.at? ⟨k, t⟩ r = some u → ∃ cs, Doc.leading ix r u.node = Doc.orphans cs)
    (hnone : ∀ r u, AnyTree.at? ⟨k, t⟩ r = some u → Doc.leading ix' r u.strip.node = []) :
    Layout.Rel Layout.OfStripped (Doc.SameText w) (.only k) (t.layout ix []) (t.strip.layout ix' []) := by
  rw [layout, layout, fold_strip]
  refine t.fold_rel [] [] (fun r u hu hrow pl hk => ?_) _ (beq_self_eq_true k)
  rw [List.nil_append, u.2.fold_eq, u.2.fold_eq]
  obtain ⟨cs, hcs⟩ := hbefore r u hu
  refine Layout.ofNode_rel (Doc.SameText.congruence hw) hrow hk rfl ?_ ?_ ?_
  · rw [u.2.data_strip]
    exact .attached ..
  · rw [Doc.trailing_eq, Doc.trailing_eq, Node.orphansAtEnd_strip]
    exact .orphans _
  · have hnone' : Doc.leading ix' r (.tree u.2.strip) = [] := hnone r u hu
    have hcs' : Doc.leading ix r (.tree u.2) = Doc.orphans cs := hcs
    rw [hnone', hcs']
    exact .orphans cs

end

theorem Node.length_walk_strip? {root bare : Node} (h : root.strip? = some bare) :
    bare.walk.length = root.walk.length := by
  cases root with
  | tree t =>
    obtain rfl := Option.some.inj h
    exact t.length_visits_strip [] none none
  | entry c e =>
    obtain rfl := Option.some.inj h
    rfl
  | comment c => cases h

theorem Node.sameText_strip? {w : Wrapper} (hw : w.IgnoresComments) {root bare : Node}
    (h : root.strip? = some bare) {ix ix' : ParentIndex} (hix : ParentIndex.build root = .ok ix)
    (hix' : ParentIndex.build bare = .ok ix') :
    Doc.SameText w (root.layout ix []) (bare.layout ix' []) := by
  have hcongr := Doc.SameText.congruence hw
  cases root with
  | tree t =>
    obtain rfl := Option.some.inj h
    obtain ⟨ix₁, hix₁, hof⟩ := ParentIndex.build_tree t
    obtain rfl : ix₁ = ix := by simpa [hix₁] using hix
    obtain ⟨ix₂, hix₂, hof'⟩ := ParentIndex.build_tree t.strip
    obtain rfl : ix₂ = ix' := by simpa [hix₂] using hix'
    have hrel := t.layout_strip hw (fun r u hu => hof.leading hu u.node)
      fun r u hu => ParentIndex.Of.leading_strip (t := ⟨_, t⟩) hof' hu
    exact hrel.alone hcongr
  | entry c e =>
    obtain rfl := Option.some.inj h
    obtain ⟨ix₁, hix₁, hnone⟩ := @ParentIndex.build_childless (.entry c e) rfl
    obtain rfl : ix₁ = ix := by simpa [hix₁] using hix
    obtain ⟨ix₂, hix₂, hnone'⟩ :=
      @ParentIndex.build_childless (.entry c ⟨e.admitted, e.tree.strip⟩) rfl
    obtain rfl : ix₂ = ix' := by simpa [hix₂] using hix'
    have hrel := e.tree.layout_strip hw
      (fun r u _ => ⟨[], ParentIndex.leading_eq_nil hnone r u.node⟩)
      fun r u _ => ParentIndex.leading_eq_nil hnone' r u.strip.node
    cases c with
    | expr => exact hrel.expr hcongr
    | member | stmt => exact hrel.led hcongr
    | typeDecl | type => exact hrel.body
  | comment c => cases h

/-- A pass with comments off prints what a pass with comments on prints for the node without comments,
and counts as many nodes: without a decorator and under markup of any style. Of a root that is itself a
comment nothing is printed with comments off. -/
theorem Printer.print_stripped (indent newLine : String) (style : Option MarkupStyle) (root : Node)
    (s s' : PrintState) :
    let decorator := style.elim .plain MarkupStyle.decorator
    let off : Printer := ⟨{ indent, newLine, printComments := false }, decorator⟩
    let on : Printer := ⟨{ indent, newLine, printComments := true }, decorator⟩
    (∃ bare text, root.strip? = some bare ∧ (off.print root s).1 = .ok text ∧
      (on.print bare s').1 = .ok text ∧
      (off.print root s).2.stats.nodes = (on.print bare s').2.stats.nodes) ∨
    (∃ c, root = .comment c) ∧ root.strip? = none ∧ (off.print root s).1 = .ok "" := by
  intro decorator off on
  obtain ⟨w, hw, hignores⟩ : ∃ w : Wrapper, decorator = w.decorator ∧ w.IgnoresComments := by
    cases style with
    | none => exact ⟨.plain, Wrapper.plain_decorator.symm, Wrapper.ignoresComments_plain⟩
    | some style => exact ⟨style.wrapper, style.wrapper_decorator.symm, style.ignoresComments⟩
  obtain ⟨ix, hix, -⟩ := ParentIndex.build_ok root
  have hoff := off.print_eq_script hw hix s
  cases hbare : root.strip? with
  | none =>
    obtain ⟨c, rfl⟩ : ∃ c, root = .comment c := by
      cases root with
      | tree | entry => cases hbare
      | comment c => exact ⟨c, rfl⟩
    exact .inr ⟨⟨c, rfl⟩, rfl, hoff⟩
  | some bare =>
    obtain ⟨ix', hix', -⟩ := ParentIndex.build_ok bare
    have hon := on.print_eq_script hw hix' s'
    have hsame : Doc.SameText w (root.layout ix []) (bare.layout ix' []) :=
      Node.sameText_strip? hignores hbare hix hix'
    have hsink := Sink.foldl_isText (Doc.scriptAll w true (bare.layout ix' [])) on.init.sink
    rw [← hsame, Sink.foldl_isText] at hsink
    refine .inl ⟨bare, _, rfl, hoff, ?_, ?_⟩
    · exact hon.trans (congrArg (fun sink : Sink => Except.ok sink.text) hsink.symm)
    · rw [off.print_nodes, on.print_nodes, Node.length_walk_strip? hbare]

end JavaText
