import JavaText.Proofs.Traversal
import JavaText.Tree.Build

/-!
# Bodies in source order

Nobody walks the merged list of a node when its body is printed: each statement or member looks up the
orphans before it, and the rule of the node adds those at the end. If the children of the node start in
order, these looked-up runs add up to one walk over the merged list, from the last child of the header
on. `Op.Emits` says of a stretch of a recorded pass that it prints the entries of such a list, and
`ParentIndex.Of.script_body` finds this stretch between the header of the node and its closing brace.
-/

namespace JavaText

/-- Whether the entry is one of the first `h` children. -/
def Entry.isHeader (h : Nat) : Entry → Bool
  | .child i _ => i < h
  | .orphan _ => false

namespace Node

variable (n : Node)

/-- The merged list behind the last of the first `h` children. -/
def bodyEntries (h : Nat) : List Entry := n.merged.rtakeWhile fun e => !e.isHeader h

/-- The children start in order. -/
def Ordered : Prop := n.childEntries.Pairwise fun e f => e.pos ≤ f.pos

theorem getElem?_childEntries (i : Nat) : n.childEntries[i]? = n.children[i]?.map (.child i) := by
  simp [childEntries, Function.comp_def]

theorem isHeader_led {h : Nat} {e f : Entry} (he : e ∈ n.childEntries.drop h) (hf : f ∈ n.led e) :
    f.isHeader h = false := by
  obtain ⟨i, hi⟩ := List.mem_iff_getElem?.mp he
  rw [List.getElem?_drop, getElem?_childEntries, Option.map_eq_some_iff] at hi
  obtain ⟨c, -, rfl⟩ := hi
  rcases List.mem_append.mp hf with hf | hf
  · obtain ⟨o, -, rfl⟩ := List.mem_map.mp hf
    rfl
  · rw [List.mem_singleton.mp hf]
    simp [Entry.isHeader]

/-- The children before a body end with one of them. -/
theorem rtakeWhile_header {h : Nat} (hh : h ≤ n.children.length) :
    ((n.childEntries.take h).flatMap n.led).rtakeWhile (fun e => !e.isHeader h) = [] := by
  cases h with
  | zero => rfl
  | succ h =>
    have hget : n.childEntries[h]? = some (.child h n.children[h]) := by
      rw [getElem?_childEntries, List.getElem?_eq_getElem hh]
      rfl
    rw [List.take_add_one, hget, List.flatMap_append, Option.toList_some, List.flatMap_singleton, led,
      ← List.append_assoc, List.rtakeWhile_concat_neg]
    simp [Entry.isHeader]

theorem bodyEntries_eq (hordered : n.Ordered) {h : Nat} (hh : h ≤ n.children.length) :
    n.bodyEntries h =
      (n.childEntries.drop h).flatMap n.led ++ n.orphansAtEnd.map .orphan := by
  have hsplit : n.merged = (n.childEntries.take h).flatMap n.led ++
      ((n.childEntries.drop h).flatMap n.led ++ n.orphansAtEnd.map .orphan) := by
    rw [n.merged_eq_of_sorted hordered, ← List.append_assoc, ← List.flatMap_append,
      List.take_append_drop]
  have hbody : ∀ e ∈ (n.childEntries.drop h).flatMap n.led ++ n.orphansAtEnd.map .orphan,
      (!e.isHeader h) = true := by
    intro e he
    rcases List.mem_append.mp he with he | he
    · obtain ⟨f, hf, he⟩ := List.mem_flatMap.mp he
      rw [n.isHeader_led hf he]
      rfl
    · obtain ⟨c, -, rfl⟩ := List.mem_map.mp he
      rfl
  have hheader := n.rtakeWhile_header hh
  rw [List.rtakeWhile, List.reverse_eq_nil_iff] at hheader
  rw [bodyEntries, hsplit, List.rtakeWhile, List.reverse_append, List.takeWhile_append_of_pos
    fun e he => hbody e (List.mem_reverse.mp he), hheader, List.append_nil, List.reverse_reverse]

end Node

/-- The operations print the entries in this order, with nothing but line breaks and ends of levels
between them: an orphan as such, child number `i` as its layout `item i`. -/
inductive Op.Emits (item : Nat → List Doc) : List Entry → List Op → Prop
  | nil : Emits item [] []
  | newline {es : List Entry} {ops : List Op} (h : Emits item es ops) : Emits item es (.newline :: ops)
  | unindent {es : List Entry} {ops : List Op} (h : Emits item es ops) :
    Emits item es (.unindent :: ops)
  | orphan {es : List Entry} {ops : List Op} (c : Comment) (h : Emits item es ops) :
    Emits item (.orphan c :: es) (.comment true c :: (c.ops ++ ops))
  | child {es : List Entry} {ops : List Op} (i : Nat) (n : Node) (h : Emits item es ops) :
    Emits item (.child i n :: es) (Doc.scriptAll .plain true (item i) ++ ops)

/-- The layout prints the entries. -/
abbrev Doc.Emits (item : Nat → List Doc) (es : List Entry) (ds : List Doc) : Prop :=
  Op.Emits item es (Doc.scriptAll .plain true ds)

theorem Op.Emits.append {item : Nat → List Doc} {es fs : List Entry} {ops ops' : List Op}
    (h : Emits item es ops) (h' : Emits item fs ops') : Emits item (es ++ fs) (ops ++ ops') := by
  induction h with
  | nil => exact h'
  | newline _ ih => exact .newline ih
  | unindent _ ih => exact .unindent ih
  | @orphan es ops c _ ih =>
    rw [List.cons_append, List.cons_append, List.append_assoc]
    exact .orphan c ih
  | child i n _ ih =>
    rw [List.append_assoc]
    exact .child i n ih

namespace Doc.Emits

variable {item : Nat → List Doc} {es fs : List Entry} {ds ds' : List Doc}

theorem append (h : Emits item es ds) (h' : Emits item fs ds') :
    Emits item (es ++ fs) (ds ++ ds') := by
  rw [Doc.Emits, Doc.scriptAll_append]
  exact Op.Emits.append h h'

theorem orphans (cs : List Comment) : Emits item (cs.map .orphan) (Doc.orphans cs) := by
  induction cs with
  | nil => exact .nil
  | cons c cs ih => exact .orphan c ih

/-- A child with the orphans before it. -/
theorem led {l : Layout} {cs : List Comment} {i : Nat} (n : Node) (hbefore : l.before = Doc.orphans cs)
    (hbody : l.body = item i) : Emits item (cs.map .orphan ++ [.child i n]) l.led := by
  rw [Layout.led, hbefore, hbody]
  have hchild : Op.Emits item [.child i n] (Doc.scriptAll .plain true (item i) ++ []) := .child i n .nil
  rw [List.append_nil] at hchild
  exact (orphans cs).append hchild

end Doc.Emits

/-- Child number `i` of the node at `r`, by its own rule. -/
def Tree.childBody (ix : ParentIndex) (r : Path) {k : Kind} (t : Tree k) (i : Nat) : List Doc :=
  match t.trees[i]? with
  | some c => (c.2.layout ix (r ++ [i])).body
  | none => []

/-- The layout of a numbered child, with the orphans looked up before it. -/
def Layout.IsChild (n : Node) (item : Nat → List Doc) (e : Entry) (l : Layout) : Prop :=
  ∃ i c, e = .child i c ∧ l.before = Doc.orphans (n.orphansBefore i) ∧ l.body = item i

namespace Layout.IsChild

variable {n : Node} {item : Nat → List Doc} {es : List Entry} {ls : List Layout}

/-- The orphans before each child and the child itself, in the order of the children. -/
theorem emits_flatMap {f : Layout → List Doc} (h : List.Forall₂ (IsChild n item) es ls)
    (hf : ∀ fs l, Doc.Emits item fs l.led → Doc.Emits item fs (f l)) :
    Doc.Emits item (es.flatMap n.led) (ls.flatMap f) := by
  induction h with
  | nil => exact .nil
  | cons he _ ih =>
    obtain ⟨i, c, rfl, hbefore, hbody⟩ := he
    exact (hf _ _ (.led c hbefore hbody)).append ih

theorem emits_statements (h : List.Forall₂ (IsChild n item) es ls) :
    Doc.Emits item (es.flatMap n.led) (statements ls) := by
  refine emits_flatMap h fun fs l hl => ?_
  have hbreak : Doc.Emits item [] [.newline] := .newline .nil
  simpa using hl.append hbreak

theorem emits_members (h : List.Forall₂ (IsChild n item) es ls) :
    Doc.Emits item (es.flatMap n.led) (members ls) := by
  refine emits_flatMap h fun fs l hl => ?_
  have hbreak : Doc.Emits item [] [.newline] := .newline .nil
  simpa using hbreak.append (hl.append hbreak)

end Layout.IsChild

theorem Tree.layout_before (ix : ParentIndex) (p : Path) {k : Kind} (t : Tree k)
    (hk : k.takesOrphans = true) : (t.layout ix p).before = Doc.leading ix p (.tree t) := by
  rw [layout, fold_eq]
  exact if_pos hk

theorem Tree.childEntries_eq {k : Kind} (t : Tree k) :
    (Node.tree t).childEntries = t.trees.zipIdx.map fun c => .child c.2 c.1.node := by
  rw [Node.childEntries, Node.children_tree, List.zipIdx_map, List.map_map]
  rfl

/-- The trees of a list among the children of a node. -/
theorem ParentIndex.Of.isChild {ix : ParentIndex} {root : AnyTree} (hix : ix.Of root) {r : Path}
    {k : Kind} {t : Tree k} (ht : root.at? r = some ⟨k, t⟩) {pl : Place} {ts : Forest pl}
    {pre post : List AnyTree} (htrees : t.trees = pre ++ ts.trees ++ post)
    (hpl : ∀ c ∈ ts.trees, c.1.takesOrphans = true) {i : Nat} (hi : i = pre.length) :
    List.Forall₂ (Layout.IsChild (.tree t) (t.childBody ix r))
      ((ts.trees.zipIdx i).map fun c => .child c.2 c.1.node) (ts.fold (Layout.ofNode ix) r i) := by
  subst hi
  rw [Forest.fold_eq, List.forall₂_map_left_iff, List.forall₂_map_right_iff, List.forall₂_same]
  intro c hc
  have hget : t.trees[c.2]? = some c.1 := by
    refine List.mem_zipIdx_iff_getElem?.mp ?_
    rw [htrees, List.zipIdx_append, List.zipIdx_append, Nat.zero_add]
    exact List.mem_append_left _ (List.mem_append_right _ hc)
  have hk := hpl c.1 (List.fst_mem_of_mem_zipIdx hc)
  refine ⟨c.2, c.1.node, rfl, ?_, ?_⟩
  · exact (Tree.layout_before ix _ _ hk).trans (hix.leading_child ht hget _)
  · rw [Tree.childBody, hget]
    rfl

theorem Forest.admits_of_mem {pl : Place} : (ts : Forest pl) → ∀ c ∈ ts.trees, pl.admits c.1 = true
  | .nil, _, hc => nomatch hc
  | .cons hk t ts, c, hc => by
    rcases List.mem_cons.mp hc with rfl | hc
    · exact hk
    · exact ts.admits_of_mem c hc

theorem Kind.takesOrphans_of_stmt {k : Kind} (h : (Place.any .stmt).admits k = true) :
    k.takesOrphans = true := by
  simp [takesOrphans, h]

theorem Kind.takesOrphans_of_member {k : Kind} (h : (Place.any .member).admits k = true) :
    k.takesOrphans = true := by
  simp [takesOrphans, h]

namespace Node

variable (n : Node)

theorem filter_bodyEntries (hordered : n.Ordered) {h : Nat} (hh : h ≤ n.children.length) :
    ((n.bodyEntries h).filter fun e => !e.isComment) = n.childEntries.drop h := by
  have hled : ∀ es : List Entry, (∀ e ∈ es, e ∈ n.childEntries) →
      ((es.flatMap n.led).filter fun e => !e.isComment) = es := by
    intro es hes
    induction es with
    | nil => rfl
    | cons e es ih =>
      obtain ⟨i, c, -, rfl⟩ := n.mem_childEntries.mp (hes e (List.mem_cons_self ..))
      have hchild := n.isComment_childEntries (hes _ (List.mem_cons_self ..))
      rw [List.flatMap_cons, List.filter_append, ih fun f hf => hes f (List.mem_cons_of_mem _ hf), led,
        List.filter_append, List.filter_cons, hchild]
      simp [Entry.isComment, Entry.node, isComment]
  rw [n.bodyEntries_eq hordered hh, List.filter_append, hled _ fun e he => List.mem_of_mem_drop he]
  simp [Entry.isComment, Entry.node, isComment]

end Node

/-- The kinds with a body of statements or members. -/
def Kind.hasBody : Kind → Bool
  | .blockStmt | .switchEntry | .classDecl => true
  | _ => false

/-- The number of children before the body: the label of a switch entry; the annotations, the name, the
type parameters and the types behind them in a class. -/
def Tree.headers {k : Kind} (t : Tree k) : Nat :=
  match k, t.row with
  | .switchEntry, (label, _, ()) => label.toList.length
  | .classDecl, (_, annotations, _, _, params, extended, implemented, _, ()) =>
    annotations.length + 1 + params.length + extended.length + implemented.length
  | _, _ => 0

namespace Layout

open Rule in
/-- What stands before the body, from the layouts of the children. -/
def header {k : Kind} (row : Row (Field.Of fun _ => Layout) k.fields) : List Doc :=
  match k, row with
  | .blockStmt, _ => Doc.line "\x7b"
  | .switchEntry, (none, _, ()) => Doc.line "default:"
  | .switchEntry, (some label, _, ()) => [.write "case "] ++ label.expr ++ Doc.line ":"
  | .classDecl, (mods, annotations, isInterface, name, params, extended, implemented, _, ()) =>
    annotationLines annotations ++ modifiers mods ++
      [.write (if isInterface then "interface " else "class ")] ++
      name.decorated .classDeclaration ++ typeParameters params ++
      inheritance " extends " extended ++ inheritance " implements " implemented ++ Doc.line " \x7b"
  | _, _ => []

end Layout

/-- What is done before the body of a node is printed: for its attached comment, for the header, and
one level more. -/
def Tree.opening (ix : ParentIndex) (r : Path) {k : Kind} (t : Tree k) : List Op :=
  Doc.scriptAll .plain true
    (Layout.attached k t.data ++ Layout.header (t.fields.fold (Layout.ofNode ix) r 0)) ++ [.indent]

/-- What is done after the body. In a block the level has ended before the orphans at the end. -/
def Kind.closing : Kind → List Op
  | .blockStmt => [.write false "\x7d"]
  | .switchEntry => [.unindent]
  | .classDecl => [.unindent, .write false "\x7d"]
  | _ => []

namespace Layout

variable (a : List Doc) (stmts ms : List Layout) (ending : List Doc)

theorem script_blockStmt :
    Doc.scriptAll .plain true (a ++ Rule.blockStmt stmts ending) =
      Doc.scriptAll .plain true (a ++ header (k := .blockStmt) (stmts, ())) ++ [.indent] ++
        (Doc.scriptAll .plain true (statements stmts) ++
          .unindent :: Doc.scriptAll .plain true ending) ++ Kind.blockStmt.closing := by
  simp [Rule.blockStmt, header, Kind.closing, Doc.scriptAll_append, Doc.scriptAll, Doc.script]

theorem script_switchEntry (label : Option Layout) :
    Doc.scriptAll .plain true (a ++ Rule.switchEntry label stmts ending) =
      Doc.scriptAll .plain true (a ++ header (k := .switchEntry) (label, stmts, ())) ++ [.indent] ++
        Doc.scriptAll .plain true (statements stmts ++ ending) ++ Kind.switchEntry.closing := by
  cases label <;>
    simp [Rule.switchEntry, header, Kind.closing, Doc.line, Doc.scriptAll_append, Doc.scriptAll,
      Doc.script]

theorem script_classDecl (mods : Modifiers) (annotations : List Layout) (isInterface : Bool)
    (name : Layout) (params extended implemented : List Layout) :
    Doc.scriptAll .plain true (a ++
        Rule.classDecl mods annotations isInterface name params extended implemented ms ending) =
      Doc.scriptAll .plain true (a ++ header (k := .classDecl)
          (mods, annotations, isInterface, name, params, extended, implemented, ms, ())) ++ [.indent] ++
        Doc.scriptAll .plain true (members ms ++ ending) ++ Kind.classDecl.closing := by
  simp [Rule.classDecl, header, Kind.closing, Doc.scriptAll_append, Doc.scriptAll, Doc.script]

end Layout

/-- What is printed for the children in the last field. -/
theorem ParentIndex.Of.emits_children {ix : ParentIndex} {root : AnyTree} (hix : ix.Of root) {r : Path}
    {k : Kind} {t : Tree k} (ht : root.at? r = some ⟨k, t⟩) {pl : Place} {ts : Forest pl}
    {pre : List AnyTree} (htrees : t.trees = pre ++ ts.trees)
    (hpl : ∀ c ∈ ts.trees, c.1.takesOrphans = true) {i : Nat} (hi : i = pre.length)
    {f : List Layout → List Doc}
    (hf : ∀ es ls, List.Forall₂ (Layout.IsChild (.tree t) (t.childBody ix r)) es ls →
      Doc.Emits (t.childBody ix r) (es.flatMap (Node.tree t).led) (f ls)) :
    Doc.Emits (t.childBody ix r)
      (((Node.tree t).childEntries.drop pre.length).flatMap (Node.tree t).led)
      (f (ts.fold (Layout.ofNode ix) r i)) := by
  have hdrop : (Node.tree t).childEntries.drop pre.length =
      (ts.trees.zipIdx i).map fun c => .child c.2 c.1.node := by
    rw [t.childEntries_eq, htrees, List.zipIdx_append, List.map_append, Nat.zero_add,
      List.drop_left' (by simp), hi]
  have htrees' : t.trees = pre ++ ts.trees ++ [] := by rw [htrees, List.append_nil]
  rw [hdrop]
  exact hf _ _ (hix.isChild ht htrees' hpl hi)

/-- The children of a node with a body are those of its header and those of the body, and between the
header and the end the body is printed: the children with the orphans before them, then the orphans at
the end. -/
theorem ParentIndex.Of.script_body {ix : ParentIndex} {root : AnyTree} (hix : ix.Of root) {r : Path}
    {k : Kind} {t : Tree k} (ht : root.at? r = some ⟨k, t⟩) (hk : k.hasBody = true) :
    ∃ (pre post : List AnyTree) (body : List Op),
      t.trees = pre ++ post ∧ t.headers = pre.length ∧
      Doc.scriptAll .plain true (t.layout ix r).body = t.opening ix r ++ body ++ k.closing ∧
      Op.Emits (t.childBody ix r)
        (((Node.tree t).childEntries.drop pre.length).flatMap (Node.tree t).led ++
          (Node.tree t).orphansAtEnd.map .orphan) body := by
  have hending : Doc.Emits (t.childBody ix r) ((Node.tree t).orphansAtEnd.map .orphan)
      (Doc.trailing (.tree t)) := by
    rw [Doc.trailing_eq]
    exact .orphans _
  cases k with
  | blockStmt =>
    match t with
    | .node d (.cons (.many ts) .nil) =>
      have hpl := fun c hc => Kind.takesOrphans_of_stmt (ts.admits_of_mem c hc)
      have htrees : (Tree.node d (.cons (.many ts) .nil) : Tree .blockStmt).trees = [] ++ ts.trees :=
        List.append_nil _
      have hstmts := hix.emits_children ht htrees hpl (i := 0) rfl fun _ _ =>
        Layout.IsChild.emits_statements
      -- the level ends before the orphans at the end
      refine ⟨[], ts.trees, _, htrees, rfl, ?_, Op.Emits.append hstmts (.unindent hending)⟩
      exact Layout.script_blockStmt ..
  | switchEntry =>
    match t with
    | .node d (.cons label (.cons (.many ts) .nil)) =>
      have hpl := fun c hc => Kind.takesOrphans_of_stmt (ts.admits_of_mem c hc)
      have htrees : (Tree.node d (.cons label (.cons (.many ts) .nil)) : Tree .switchEntry).trees =
          label.trees ++ ts.trees := congrArg (label.trees ++ ·) (List.append_nil _)
      have hsize : 0 + label.size = label.trees.length := by rw [Nat.zero_add, Value.size_eq]
      have hstmts := hix.emits_children ht htrees hpl hsize fun _ _ => Layout.IsChild.emits_statements
      refine ⟨label.trees, ts.trees, _, htrees, ?_, ?_, hstmts.append hending⟩
      · cases label <;> rfl
      · exact Layout.script_switchEntry ..
  | classDecl =>
    match t with
    | .node d (.cons (.scalar m) (.cons (.many as) (.cons (.scalar b) (.cons (.one hn name)
        (.cons (.many ps) (.cons (.many xs) (.cons (.many is) (.cons (.many ts) .nil)))))))) =>
      have hpl := fun c hc => Kind.takesOrphans_of_member (ts.admits_of_mem c hc)
      have htrees : (Tree.node d (.cons (.scalar m) (.cons (.many as) (.cons (.scalar b)
          (.cons (.one hn name) (.cons (.many ps) (.cons (.many xs) (.cons (.many is)
          (.cons (.many ts) .nil)))))))) : Tree .classDecl).trees =
          (as.trees ++ [⟨_, name⟩] ++ ps.trees ++ xs.trees ++ is.trees) ++ ts.trees := by
        simp [Tree.trees, Tree.fields, Fields.trees, Value.trees]
      have hsize : 0 + as.size + 1 + ps.size + xs.size + is.size =
          (as.trees ++ [(⟨_, name⟩ : AnyTree)] ++ ps.trees ++ xs.trees ++ is.trees).length := by
        simp only [Forest.size_eq, List.length_append, List.length_singleton]
        omega
      have hmembers := hix.emits_children ht htrees hpl hsize fun _ _ => Layout.IsChild.emits_members
      refine ⟨_, ts.trees, _, htrees, ?_, ?_, hmembers.append hending⟩
      · simp only [Tree.headers, Tree.row, Tree.fields, Fields.row, Value.view,
          ← Forest.size_eq_length, Forest.size_eq, List.length_append, List.length_singleton]
      · exact Layout.script_classDecl ..
  | _ => cases hk

/-- The layout has `ds` as a part, perhaps on a deeper level or within a node offered to the
decorator. -/
inductive Doc.Part (ds : List Doc) : List Doc → Prop
  | here (as bs : List Doc) : Part ds (as ++ ds ++ bs)
  | deeper {inner : List Doc} (as bs : List Doc) (h : Part ds inner) :
    Part ds (as ++ [.indented inner] ++ bs)
  | decorated {inner : List Doc} (as bs : List Doc) (role : Role) (n : Node) (h : Part ds inner) :
    Part ds (as ++ [.decorated role n inner] ++ bs)

/-- What is done for a part is done in one stretch. -/
theorem Doc.Part.script_infix {ds es : List Doc} (h : Part ds es) (w : Wrapper) (comments : Bool) :
    scriptAll w comments ds <:+: scriptAll w comments es := by
  induction h with
  | here as bs =>
    rw [scriptAll_append, scriptAll_append]
    exact ⟨_, _, rfl⟩
  | deeper as bs _ ih =>
    rw [scriptAll_append, scriptAll_append, scriptAll_singleton, script]
    exact (ih.trans ⟨_, _, rfl⟩).trans ⟨_, _, rfl⟩
  | decorated as bs role n _ ih =>
    rw [scriptAll_append, scriptAll_append, scriptAll_singleton, script]
    exact (ih.trans ⟨_, _, rfl⟩).trans ⟨_, _, rfl⟩

/-- A pass over a whole tree, without decorator and with comments. Take a block, a switch entry or a
class that is printed in it and whose children start in order. Between its header and what closes it,
the part of its merged list behind the header is printed and nothing else: every orphan and every
statement or member once, in the order of that list. -/
theorem Tree.body_in_source_order {k₀ : Kind} {root : Tree k₀} {ix : ParentIndex}
    (hix : ParentIndex.build (.tree root) = .ok ix) {r : Path} {k : Kind} {t : Tree k}
    (ht : AnyTree.at? ⟨k₀, root⟩ r = some ⟨k, t⟩) (hk : k.hasBody = true)
    (hordered : (Node.tree t).Ordered)
    (hprinted : Doc.Part (t.layout ix r).body ((Node.tree root).layout ix []))
    (indent newLine : String) (s : PrintState) :
    let p : Printer := ⟨{ indent, newLine, printComments := true }, .plain⟩
    let record := p.recordPass .ops (.tree root) s
    let entries := (Node.tree t).bodyEntries t.headers
    record.outcome = p.pass (.tree root) s ∧
    (p.print (.tree root) s).1 = .ok (record.notes.foldl Sink.perform p.init.sink).text ∧
    (entries.filter fun e => !e.isComment) = (Node.tree t).childEntries.drop t.headers ∧
    ∃ before body after,
      record.notes = before ++ (t.opening ix r ++ body ++ k.closing) ++ after ∧
      Op.Emits (t.childBody ix r) entries body := by
  intro p record entries
  obtain ⟨ix', hix', hof⟩ := ParentIndex.build_tree root
  obtain rfl : ix' = ix := by simpa [hix'] using hix
  obtain ⟨pre, post, body, htrees, hheaders, hscript, hbody⟩ := hof.script_body ht hk
  have hle : t.headers ≤ (Node.tree t).children.length := by
    rw [hheaders, Node.children_tree, htrees, List.length_map, List.length_append]
    exact Nat.le_add_right ..
  have hnotes : record.notes = Doc.scriptAll .plain true ((Node.tree root).layout ix' []) :=
    p.ops_recordPass Wrapper.plain_decorator.symm hix s
  obtain ⟨before, after, hwhole⟩ := hprinted.script_infix .plain true
  refine ⟨p.outcome_recordPass .ops _ s, ?_, (Node.tree t).filter_bodyEntries hordered hle, before,
    body, after, ?_, ?_⟩
  · rw [hnotes]
    exact p.print_eq_script Wrapper.plain_decorator.symm hix s
  · rw [hnotes, ← hwhole, hscript]
  · show Op.Emits _ ((Node.tree t).bodyEntries t.headers) body
    rw [(Node.tree t).bodyEntries_eq hordered hle, hheaders]
    exact hbody

/-- Class `A` with two empty members and comments before the first, at its start and behind the
last. -/
def Tree.commentedClass : Tree .classDecl :=
  let member (pos : UInt32) : Tree .emptyMember := .ofRow _ { range := ⟨pos, pos⟩ } ()
  let comment (pos : UInt32) : Comment := { kind := .line, content := "c", range := ⟨pos, pos⟩ }
  (Build.classDecl .empty "A" [(member 5).inside, (member 9).inside]).withOrphans
    [comment 12, comment 5, comment 3]

/-- The class in a unit of its own. -/
def Tree.commentedUnit : Tree .compilationUnit :=
  Build.compilationUnit none [] [commentedClass.inside]

theorem Tree.body_in_source_order_commentedClass :
    let p : Printer := {}
    ∃ ix, ParentIndex.build (.tree commentedUnit) = .ok ix ∧ (Node.tree commentedClass).Ordered ∧
      Doc.Part (commentedClass.layout ix [0]).body ((Node.tree commentedUnit).layout ix []) ∧
      ∃ before body after,
        (p.recordPass .ops (.tree commentedUnit) p.init).notes =
          before ++ (commentedClass.opening ix [0] ++ body ++ Kind.classDecl.closing) ++ after ∧
        Op.Emits (commentedClass.childBody ix [0])
          ((Node.tree commentedClass).bodyEntries commentedClass.headers) body := by
  intro p
  obtain ⟨ix, hix⟩ : ∃ ix, ParentIndex.build (.tree commentedUnit) = .ok ix := ⟨_, rfl⟩
  have hordered : (Node.tree commentedClass).Ordered := by
    unfold Node.Ordered
    decide
  have hprinted : Doc.Part (commentedClass.layout ix [0]).body
      ((Node.tree commentedUnit).layout ix []) := by
    have hunit : (Node.tree commentedUnit).layout ix [] =
        (commentedClass.layout ix [0]).before ++ (commentedClass.layout ix [0]).body ++
          ([.newline] ++ Doc.trailing (.tree commentedUnit)) := by
      show Layout.Rule.compilationUnit none [] [commentedClass.layout ix [0]]
        (Doc.trailing (.tree commentedUnit)) = _
      simp [Layout.Rule.compilationUnit, Layout.led]
    rw [hunit]
    exact .here ..
  obtain ⟨-, -, -, hbody⟩ := Tree.body_in_source_order hix (r := [0]) rfl rfl hordered hprinted
    p.options.indent p.options.newLine p.init
  exact ⟨ix, hix, hordered, hprinted, hbody⟩

end JavaText
