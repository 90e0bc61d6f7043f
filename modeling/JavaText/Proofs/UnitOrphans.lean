import Mathlib.Data.List.Perm.Basic
import JavaText.Proofs.Bodies
import JavaText.Proofs.Script

/-!
# The orphans of a compilation unit

An import or a type is set with the orphans before it, and the rule of the unit adds those at the end;
the package is set alone. So the pass over a unit prints each of its orphans once, whatever starts
where, except those that come right before the package (`Printer.print_unit_orphans`).
-/

namespace JavaText

def Op.orphan? : Op → Option Comment
  | .comment true c => some c
  | .comment false _ | .write .. | .newline | .indent | .unindent | .decorate .. => none

/-- The orphans that are printed, in order. -/
def Op.shown (ops : List Op) : List Comment := ops.filterMap Op.orphan?

theorem Op.shown_append (ops ops' : List Op) : shown (ops ++ ops') = shown ops ++ shown ops' :=
  List.filterMap_append

/-- They are what the statistics count. -/
theorem PrintState.orphans_foldl (ops : List Op) (s : PrintState) :
    (ops.foldl perform s).stats.orphans = s.stats.orphans + (Op.shown ops).length := by
  induction ops generalizing s with
  | nil => rfl
  | cons op ops ih =>
    rw [List.foldl_cons, ih]
    cases op with
    | comment orphan c =>
      cases orphan with
      | false => rfl
      | true =>
        have hshown : Op.shown (.comment true c :: ops) = c :: Op.shown ops := rfl
        rw [hshown, List.length_cons, ← Nat.add_assoc, Nat.add_right_comm]
        rfl
    | write | newline | indent | unindent | decorate => rfl

theorem Comment.shown_ops (c : Comment) : Op.shown c.ops = [] := by
  unfold Comment.ops
  cases c.kind <;> rfl

section
variable (w : Wrapper)

/-- The orphans printed for a layout. -/
def Doc.shown (ds : List Doc) : List Comment := Op.shown (scriptAll w true ds)

namespace Doc

theorem shown_append (ds es : List Doc) : shown w (ds ++ es) = shown w ds ++ shown w es := by
  rw [shown, scriptAll_append, Op.shown_append, shown, shown]

theorem shown_comment (orphan : Bool) (c : Comment) :
    shown w [.comment orphan c] = if orphan then [c] else [] := by
  have hscript : scriptAll w true [.comment orphan c] = [.comment orphan c] ++ c.ops :=
    List.append_nil _
  rw [shown, hscript, Op.shown_append, c.shown_ops, List.append_nil]
  cases orphan <;> rfl

theorem shown_orphans (cs : List Comment) : shown w (orphans cs) = cs := by
  induction cs with
  | nil => rfl
  | cons c cs ih =>
    have hcons : orphans (c :: cs) = [.comment true c] ++ orphans cs := rfl
    rw [hcons, shown_append, shown_comment, ih]
    rfl

theorem shown_attached (k : Kind) (d : NodeData) : shown w (Layout.attached k d) = [] := by
  unfold Layout.attached
  split
  · rfl
  · cases d.comment with
    | none => rfl
    | some c => exact shown_comment w false c

theorem shown_flatMap {X : Type} (xs : List X) (f : X → List Doc) :
    shown w (xs.flatMap f) = xs.flatMap fun x => shown w (f x) := by
  induction xs with
  | nil => rfl
  | cons x xs ih => rw [List.flatMap_cons, shown_append, ih, List.flatMap_cons]

theorem shown_intercalate {sep : List Doc} (hsep : shown w sep = []) (xs : List (List Doc)) :
    shown w (sep.intercalate xs) = xs.flatMap (shown w) := by
  induction xs with
  | nil => rfl
  | cons x xs ih =>
    cases xs with
    | nil => simp
    | cons y ys =>
      rw [List.intercalate_cons_cons, shown_append, shown_append, hsep, ih, List.append_nil]
      rfl

end Doc

/-- For children set with the orphans before them, these and what is printed for the children. -/
theorem Layout.IsChild.shown_led {n : Node} {item : Nat → List Doc} {es : List Entry}
    {ls : List Layout} (h : List.Forall₂ (IsChild n item) es ls) :
    (ls.flatMap fun l => Doc.shown w l.led) =
      (es.filterMap Entry.number?).flatMap fun i => n.orphansBefore i ++ Doc.shown w (item i) := by
  induction h with
  | nil => rfl
  | @cons e l es ls he _ ih =>
    obtain ⟨i, c, rfl, hbefore, hbody⟩ := he
    have hnumber : (Entry.child i c :: es).filterMap Entry.number? =
        i :: es.filterMap Entry.number? := rfl
    rw [List.flatMap_cons, ih, hnumber, List.flatMap_cons, Layout.led, Doc.shown_append, hbefore,
      hbody, Doc.shown_orphans]

end

theorem Forest.number?_entries {pl : Place} (ts : Forest pl) (i : Nat) :
    ((ts.trees.zipIdx i).map fun c => Entry.child c.2 c.1.node).filterMap Entry.number? =
      List.range' i ts.trees.length := by
  have hnumber : (fun c : AnyTree × Nat => Entry.number? (.child c.2 c.1.node)) = fun c => some c.2 :=
    rfl
  rw [List.filterMap_map]
  simp only [Function.comp_def, hnumber, List.filterMap_eq_map']
  exact List.zipIdx_map_snd ..

theorem Kind.takesOrphans_of_typeDecl {k : Kind} (h : (Place.any .typeDecl).admits k = true) :
    k.takesOrphans = true := by
  have hall : ∀ v ∈ Category.typeDecl.variants, v.2.takesOrphans = true := by decide
  simp only [Place.admits, Category.tag?, Option.isSome_map, List.find?_isSome] at h
  obtain ⟨v, hv, hk⟩ := h
  exact eq_of_beq hk ▸ hall v hv

/-- The orphans of the unit that come right before its package. -/
def Tree.orphansBeforePackage (t : Tree .compilationUnit) : List Comment :=
  match t.row with
  | (some _, _) => (Node.tree t).orphansBefore 0
  | (none, _) => []

theorem Layout.Rule.shown_compilationUnit (w : Wrapper) (pack : Option Layout)
    (imports types : List Layout) (ending : List Doc) :
    Doc.shown w (compilationUnit pack imports types ending) =
      Doc.shown w ((pack.map body).getD []) ++ (imports.flatMap fun l => Doc.shown w l.led) ++
        (types.flatMap fun l => Doc.shown w l.led) ++ Doc.shown w ending := by
  have hbreak : Doc.shown w (if imports.isEmpty then [] else [.newline]) = [] := by
    split <;> rfl
  have htype : ∀ l : Layout, Doc.shown w (l.led ++ [.newline]) = Doc.shown w l.led := fun l => by
    rw [Doc.shown_append]
    exact List.append_nil _
  rw [compilationUnit, Doc.shown_append, Doc.shown_append, Doc.shown_append, Doc.shown_append,
    Doc.shown_flatMap, hbreak, List.append_nil, Doc.shown_intercalate w rfl, List.flatMap_map]
  simp only [htype]

/-- What is printed for a unit: what its package prints, then the orphans before each other child with
what the child prints, then the orphans at the end. -/
theorem Tree.shown_unit (w : Wrapper) (t : Tree .compilationUnit) {ix : ParentIndex}
    (hix : ix.Of ⟨_, t⟩) :
    ∃ p m : Nat, t.trees.length = p + m ∧
      t.orphansBeforePackage = (List.range p).flatMap (Node.tree t).orphansBefore ∧
      Doc.shown w (t.layout ix []).body =
        ((List.range p).flatMap fun i => Doc.shown w (t.childBody ix [] i)) ++
        ((List.range' p m).flatMap fun i =>
          (Node.tree t).orphansBefore i ++ Doc.shown w (t.childBody ix [] i)) ++
        (Node.tree t).orphansAtEnd := by
  match t with
  | .node d (.cons pack (.cons (.many is) (.cons (.many ts) .nil))) =>
    generalize ht : (Tree.node d (.cons pack (.cons (.many is) (.cons (.many ts) .nil))) :
      Tree .compilationUnit) = t at hix ⊢
    have htrees : t.trees = pack.trees ++ is.trees ++ ts.trees := by
      rw [← ht]
      simp [Tree.trees, Tree.fields, Fields.trees, Value.trees]
    have hrule : (t.layout ix []).body = Layout.attached .compilationUnit t.data ++
        Layout.Rule.compilationUnit (pack.fold (Layout.ofNode ix) [] 0)
          (is.fold (Layout.ofNode ix) [] (0 + pack.size))
          (ts.fold (Layout.ofNode ix) [] (0 + pack.size + is.size)) (Doc.trailing (.tree t)) := by
      rw [← ht]
      rfl
    -- The package is set without the orphans before it.
    have hpack : t.orphansBeforePackage =
          (List.range pack.trees.length).flatMap (Node.tree t).orphansBefore ∧
        Doc.shown w (((pack.fold (Layout.ofNode ix) [] 0).map Layout.body).getD []) =
          (List.range pack.trees.length).flatMap fun i => Doc.shown w (t.childBody ix [] i) := by
      rw [← ht]
      cases pack with
      | absent => exact ⟨rfl, rfl⟩
      | present hk pkg => exact ⟨(List.append_nil _).symm, (List.append_nil _).symm⟩
    have himports := hix.isChild (AnyTree.at?_nil _) htrees
      (fun c hc => by rw [← eq_of_beq (is.admits_of_mem c hc)]; rfl)
      (show 0 + pack.size = pack.trees.length by rw [Nat.zero_add, Value.size_eq])
    have htypes := hix.isChild (AnyTree.at?_nil _) (htrees.trans (List.append_nil _).symm)
      (fun c hc => Kind.takesOrphans_of_typeDecl (ts.admits_of_mem c hc))
      (show 0 + pack.size + is.size = (pack.trees ++ is.trees).length by
        rw [Nat.zero_add, Value.size_eq, Forest.size_eq, List.length_append])
    refine ⟨pack.trees.length, is.trees.length + ts.trees.length, ?_, hpack.1, ?_⟩
    · rw [htrees, List.length_append, List.length_append, Nat.add_assoc]
    · rw [hrule, Doc.shown_append, Doc.shown_attached, List.nil_append,
        Layout.Rule.shown_compilationUnit, hpack.2, Layout.IsChild.shown_led w himports,
        Layout.IsChild.shown_led w htypes, Forest.number?_entries, Forest.number?_entries,
        Doc.trailing_eq, Doc.shown_orphans, Nat.zero_add, Value.size_eq, Forest.size_eq,
        List.append_assoc _ (List.flatMap _ _) (List.flatMap _ _), ← List.flatMap_append,
        List.range'_append_1]

theorem Tree.layout_kind (ix : ParentIndex) (p : Path) {k : Kind} (t : Tree k) :
    (t.layout ix p).kind = k := by
  rw [layout, fold_eq]
  rfl

/-- Sorting the parts: of the children `A` only what they print is there, of the children `B` also the
orphans before them. -/
theorem perm_of_parts {A B : List Nat} {before below : Nat → List Comment} {ending : List Comment} :
    ((A.flatMap below ++ (B.flatMap fun i => before i ++ below i) ++ ending) ++
        A.flatMap before).Perm
      ((A ++ B).flatMap before ++ ending ++ (A ++ B).flatMap below) := by
  have hB := List.flatMap_append_perm B before below
  rw [List.perm_iff_count]
  intro c
  simp only [List.flatMap_append, List.count_append, ← hB.count_eq]
  omega

/-- What is printed for a unit and the orphans before its package are its orphans and what is printed
for its children. -/
theorem Tree.shown_perm (w : Wrapper) (t : Tree .compilationUnit) {ix : ParentIndex}
    (hix : ix.Of ⟨_, t⟩) :
    (Doc.shown w (t.layout ix []).body ++ t.orphansBeforePackage).Perm
      (t.data.orphans ++
        (List.range t.trees.length).flatMap fun i => Doc.shown w (t.childBody ix [] i)) := by
  obtain ⟨m, k, hlength, hdropped, hshown⟩ := t.shown_unit w hix
  have hrange : List.range t.trees.length = List.range m ++ List.range' m k := by
    rw [hlength, List.range_eq_range', List.range_eq_range', ← List.range'_append_1, Nat.zero_add]
  have horphans := (Node.tree t).orphans_perm_runs
  rw [Node.children_tree, List.length_map, hrange] at horphans
  rw [hshown, hdropped]
  refine perm_of_parts.trans ?_
  rw [← hrange] at horphans ⊢
  exact horphans.symm.append_right _

/-- The pass over a compilation unit, with comments and any texts written around nodes. What it prints
of orphans, together with the unit's orphans right before its package, is the unit's orphans and what
is printed for its children. So each orphan of the unit is printed once exactly if none comes right
before the package. -/
theorem Printer.print_unit_orphans (t : Tree .compilationUnit) (w : Wrapper)
    (indent newLine : String) (s : PrintState) :
    ∃ ix, ParentIndex.build (.tree t) = .ok ix ∧
      let p : Printer := ⟨{ indent, newLine, printComments := true }, w.decorator⟩
      let ops := Doc.scriptAll w true ((Node.tree t).layout ix [])
      let below := (List.range t.trees.length).flatMap fun i => Doc.shown w (t.childBody ix [] i)
      p.pass (.tree t) s = .done (ops.foldl PrintState.perform (p.passStart ix s)) ∧
      (p.print (.tree t) s).2.stats.orphans = (Op.shown ops).length ∧
      (Op.shown ops ++ t.orphansBeforePackage).Perm (t.data.orphans ++ below) ∧
      ((Op.shown ops).Perm (t.data.orphans ++ below) ↔ t.orphansBeforePackage = []) := by
  obtain ⟨ix, hix, hof⟩ := ParentIndex.build_tree t
  refine ⟨ix, hix, ?_⟩
  intro p ops below
  have hpass : p.pass (.tree t) s = _ := p.pass_eq_script rfl hix s
  have hlayout : (Node.tree t).layout ix [] = (t.layout ix []).body := by
    rw [Node.layout, Layout.alone, t.layout_kind]
    rfl
  have hops : Op.shown ops = Doc.shown w (t.layout ix []).body := by rw [Doc.shown, ← hlayout]
  have hperm : (Op.shown ops ++ t.orphansBeforePackage).Perm (t.data.orphans ++ below) := by
    rw [hops]
    exact t.shown_perm w hof
  refine ⟨hpass, ?_, hperm, ?_⟩
  · rw [p.print_stats, hpass]
    exact (PrintState.orphans_foldl ops _).trans (Nat.zero_add _)
  · constructor
    · intro hall
      have hlength := hperm.length_eq
      rw [List.length_append, hall.length_eq] at hlength
      exact List.length_eq_zero_iff.mp (by omega)
    · intro hnone
      rwa [hnone, List.append_nil] at hperm

/-- The package `p` with a comment before it. -/
def Tree.commentedPackage : Tree .compilationUnit :=
  .ofRow _ { orphans := [{ kind := .line, content := "c", range := ⟨0, 3⟩ }] }
    (some ((Build.package "p").spanning ⟨5, 10⟩).child, [], [], ())

/-- Here the one orphan of the unit is not printed. -/
theorem Printer.print_unit_commentedPackage :
    ∃ ix, ParentIndex.build (.tree Tree.commentedPackage) = .ok ix ∧
      Tree.commentedPackage.data.orphans = Tree.commentedPackage.orphansBeforePackage ∧
      Tree.commentedPackage.data.orphans.length = 1 ∧
      Op.shown (Doc.scriptAll .plain true ((Node.tree Tree.commentedPackage).layout ix [])) = [] :=
  ⟨_, rfl, rfl, rfl, rfl⟩

end JavaText
