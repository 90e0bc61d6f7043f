import JavaText.Proofs.Lines
import JavaText.Proofs.Passes

/-!
# A node within a larger pass

While a node is laid out, the index is asked only about the nodes below it, and about those the index of
the larger tree says what the node's own index says. So the two layouts of a node differ in the orphans
before the node itself, which only its parent knows (`Node.layout_visit`).
-/

namespace JavaText

theorem Slot.eq_of_rel {X : Type} {s : Slot} {v w : s.Of fun _ => X}
    (h : s.Rel (fun _ => Eq) v w) : v = w := by
  have hlist : ∀ {xs ys : List X}, List.Forall₂ Eq xs ys → xs = ys := fun h =>
    List.forall₂_eq_eq_eq ▸ h
  cases s with
  | scalar | one => exact h
  | opt =>
    cases h with
    | none => rfl
    | some h => rw [h]
  | many => exact hlist h
  | optMany =>
    cases h with
    | none => rfl
    | some h => rw [hlist h]
  | arguments =>
    cases h with
    | marker => rfl
    | single h => rw [h]
    | pairs h => rw [hlist h]

theorem Row.eq_of_rel {X : Type} {fs : List Field} {r r' : Row (Field.Of fun _ => X) fs}
    (h : Row.Rel (fun _ => Eq) fs r r') : r = r' := by
  induction fs with
  | nil => rfl
  | cons f fs ih => exact Prod.ext (Slot.eq_of_rel h.1) (ih h.2)

/-- A tree has one layout under two indices that say the same about every node of it. -/
theorem Tree.layout_congr {ix ix' : ParentIndex} {p q : Path} {k : Kind} (t : Tree k)
    (h : ∀ r u, AnyTree.at? ⟨k, t⟩ r = some u →
      Doc.leading ix (p ++ r) u.node = Doc.leading ix' (q ++ r) u.node) :
    t.layout ix p = t.layout ix' q := by
  refine t.fold_rel (R := fun _ => Eq) p q (fun r u hu hrow _ _ => ?_) (.only k) (beq_self_eq_true k)
  have hleading : Doc.leading ix (p ++ r) (.tree u.2) = Doc.leading ix' (q ++ r) (.tree u.2) := h r u hu
  rw [Tree.fold_eq, Tree.fold_eq, Row.eq_of_rel hrow, Layout.ofNode, Layout.ofNode, hleading]

/-- Below a place in a tree, the index of the tree says what the index of the place says. -/
theorem ParentIndex.Of.leading_below {ix own : ParentIndex} {t u w : AnyTree} (h : ix.Of t)
    (hown : own.Of u) {path r : Path} {i : Nat} (hu : t.at? path = some u)
    (hw : u.at? (r ++ [i]) = some w) (n : Node) :
    Doc.leading ix (path ++ (r ++ [i])) n = Doc.leading own (r ++ [i]) n := by
  obtain ⟨v, hv, hw⟩ := AnyTree.at?_concat.mp hw
  rw [← List.append_assoc, h.leading_child (AnyTree.at?_append hu hv) hw n, hown.leading_child hv hw n]

theorem Kind.takesOrphans_of_leadsItself {k : Kind} (h : k.leadsItself = true) :
    k.takesOrphans = true := by
  simp only [leadsItself, Bool.or_eq_true, Bool.and_eq_true] at h
  rcases h with (h | h) | ⟨h, -⟩
  · simp [takesOrphans, h]
  · simp [takesOrphans, h]
  · simp [takesOrphans, h]

/-- The layout of a node within a larger tree is its own layout behind the orphans before the node. -/
theorem AnyTree.layout_at {ix own : ParentIndex} {t u : AnyTree} (h : ix.Of t) (hown : own.Of u)
    {path : Path} (hu : t.at? path = some u) :
    u.node.layout ix path =
      (if u.1.leadsItself then Doc.leading ix path u.node else []) ++ u.node.layout own [] := by
  have hrow : u.2.fields.fold (Layout.ofNode ix) path 0 = u.2.fields.fold (Layout.ofNode own) [] 0 := by
    refine Row.eq_of_rel (Fields.fold_rel u.2.fields 0 fun c hc _ _ => ?_)
    have hi : u.2.trees[c.2]? = some c.1 := List.mem_zipIdx_iff_getElem?.mp hc
    refine c.1.2.layout_congr fun r w hw => ?_
    -- The place is a child's, reached through the child `c`.
    have hplace : u.at? (c.2 :: r) = some w := AnyTree.at?_cons hi hw
    obtain ⟨r', i, hr⟩ := (List.eq_nil_or_concat (c.2 :: r)).resolve_left (List.cons_ne_nil _ _)
    rw [List.concat_eq_append] at hr
    rw [List.append_assoc, List.nil_append, List.singleton_append, hr]
    exact h.leading_below hown hu (hr ▸ hplace) w.node
  have hwithin : u.2.layout ix path =
      Layout.ofNode ix path u.2 (u.2.fields.fold (Layout.ofNode own) [] 0) := by
    rw [Tree.layout, Tree.fold_eq, hrow]
  have halone : u.2.layout own [] =
      Layout.ofNode own [] u.2 (u.2.fields.fold (Layout.ofNode own) [] 0) := by
    rw [Tree.layout, Tree.fold_eq]
  rw [AnyTree.node, Node.layout, Node.layout, hwithin, halone, Layout.alone, Layout.alone, Layout.led,
    Layout.led, Layout.ofNode, Layout.ofNode, hown.leading_root]
  by_cases hk : u.1.leadsItself = true
  · simp [hk, Kind.takesOrphans_of_leadsItself hk]
  · simp [hk]

/-- Whether the node's own rule sets the orphans before the node. -/
def Node.leadsItself : Node → Bool
  | .tree (k := k) _ => k.leadsItself
  | .entry .member _ | .entry .stmt _ => true
  | .entry _ _ | .comment _ => false

theorem ParentIndex.of_build {k : Kind} {t : Tree k} {ix : ParentIndex} (h : build (.tree t) = .ok ix) :
    ix.Of ⟨k, t⟩ := by
  obtain ⟨ix', hix', hof⟩ := build_tree t
  rwa [Except.ok.inj (hix'.symm.trans h)] at hof

theorem Node.layout_visit {root : Node} {ix own : ParentIndex} (hix : ParentIndex.build root = .ok ix)
    {v : Visit} (hv : v ∈ root.walk) (hown : ParentIndex.build v.node = .ok own) :
    v.node.layout ix v.path =
      (if v.node.leadsItself then Doc.leading ix v.path v.node else []) ++ v.node.layout own [] := by
  have hchildless (h : root.walk = [⟨[], none, root⟩]) : v.node.layout ix v.path =
      (if v.node.leadsItself then Doc.leading ix v.path v.node else []) ++ v.node.layout own [] := by
    rw [h, List.mem_singleton] at hv
    rw [hv] at hown ⊢
    obtain rfl : ix = own := Except.ok.inj (hix.symm.trans hown)
    obtain ⟨ix', hix', hnone⟩ := ParentIndex.build_childless h
    obtain rfl : ix' = ix := Except.ok.inj (hix'.symm.trans hix)
    rw [ParentIndex.leading_eq_nil hnone, ite_self, List.nil_append]
  cases root with
  | tree t =>
    obtain ⟨r, u, hpath, hu, hnode⟩ := t.at?_of_mem_visits [] none hv
    rw [hnode] at hown ⊢
    rw [hpath, List.nil_append]
    exact AnyTree.layout_at (ParentIndex.of_build hix) (ParentIndex.of_build hown) hu
  | entry | comment => exact hchildless rfl

/-- The state with another index. -/
def PrintState.withParents (ix : ParentIndex) (s : PrintState) : PrintState := { s with parents := ix }

/-- The index is looked at before printing, when the layout is made. -/
theorem PrintState.unseen_withParents (ix : ParentIndex) : Unseen (withParents ix) :=
  ⟨fun _ => rfl, fun _ => rfl, fun _ _ => rfl, fun _ => rfl, fun _ _ _ => rfl⟩

namespace Printer

variable (p : Printer)

/-- Prints the orphans between the node and its previous sibling. -/
def printOrphansBefore (path : Path) (n : Node) (s : PrintState) : Outcome :=
  p.runAll (Doc.leading s.parents path n) s

/-- A node of an indexed tree is printed in its place as it is printed with its own index, after the
orphans before it if its own rule sets them. All but the index is the same afterwards: text and levels,
counters, what the decorator was asked, and the error if there is one. -/
theorem printAt_visit (root : Node) :
    ∃ ix, ParentIndex.build root = .ok ix ∧
      ∀ v ∈ root.walk, ∃ own, ParentIndex.build v.node = .ok own ∧ ∀ s : PrintState,
        let within := p.printAt v.path v.node { s with parents := ix }
        let before :=
          if v.node.leadsItself then p.printOrphansBefore v.path v.node { s with parents := ix }
          else .done { s with parents := ix }
        let alone := before.andThen fun s => p.printNode v.node { s with parents := own }
        within.error? = alone.error? ∧ within.state = { alone.state with parents := ix } := by
  obtain ⟨ix, hix, -⟩ := ParentIndex.build_ok root
  refine ⟨ix, hix, fun v hv => ?_⟩
  obtain ⟨own, hown, -⟩ := ParentIndex.build_ok v.node
  refine ⟨own, hown, fun s => ?_⟩
  intro within before alone
  let leading := if v.node.leadsItself then Doc.leading ix v.path v.node else []
  have hwithin : within =
      ((p.runAll leading s).andThen (p.runAll (v.node.layout own []))).map (.withParents ix) := by
    rw [← runAll_append, ← Node.layout_visit hix hv hown, ← (PrintState.unseen_withParents ix).runAll]
    rfl
  have hbefore : before = (p.runAll leading s).map (.withParents ix) := by
    rw [← (PrintState.unseen_withParents ix).runAll]
    by_cases hleads : v.node.leadsItself = true
    · simp only [before, leading, hleads, if_true]
      rfl
    · simp only [before, leading, hleads]
      rfl
  simp only [alone, hwithin, hbefore]
  cases p.runAll leading s with
  | failed e s' => exact ⟨rfl, rfl⟩
  | done s' =>
    have halone : (Outcome.done (.withParents ix s')).andThen
        (fun s => p.printNode v.node { s with parents := own }) =
          (p.runAll (v.node.layout own []) s').map (.withParents own) :=
      (PrintState.unseen_withParents own).runAll p _ s'
    rw [Outcome.map, halone, Outcome.error?_map, Outcome.error?_map, Outcome.state_map,
      Outcome.state_map]
    exact ⟨rfl, rfl⟩

theorem printAt_visit_commentedBlock :
    ∃ ix own v, ParentIndex.build (.tree Tree.commentedBlock) = .ok ix ∧
      v ∈ (Node.tree Tree.commentedBlock).walk ∧ v.path = [0] ∧ v.node.leadsItself = true ∧
      ParentIndex.build v.node = .ok own ∧
      ∀ style : MarkupStyle, let p : Printer := ⟨{}, style.decorator⟩
        (p.printAt [0] v.node { p.init with parents := ix }).state.sink =
          ((p.printOrphansBefore [0] v.node { p.init with parents := ix }).andThen fun s =>
            p.printNode v.node { s with parents := own }).state.sink := by
  have hv := Tree.commentedBlock.mem_visits [] [] none (i := 0) rfl rfl
  obtain ⟨ix, hix, -⟩ := ParentIndex.build_ok (.tree Tree.commentedBlock)
  refine ⟨ix, _, _, hix, hv, rfl, rfl, rfl, fun style => ?_⟩
  obtain ⟨ix', hix', hvisits⟩ := printAt_visit ⟨{}, style.decorator⟩ (.tree Tree.commentedBlock)
  obtain rfl : ix' = ix := Except.ok.inj (hix'.symm.trans hix)
  obtain ⟨own, hown, hruns⟩ := hvisits _ hv
  have hsink := congrArg PrintState.sink (hruns (Printer.init ⟨{}, style.decorator⟩)).2
  cases hown
  exact hsink

end Printer

end JavaText
