import JavaText.Proofs.Subpasses

/-!
# The comment attached to a node

The rule of a node begins with the comment attached to it: to print the node is to print the comment and
then the node without one (`Printer.printNode_commented`). A few kinds leave the comment out, the levels
of an array creation among them; what comes out for those is shorter for good, since the text that
printing adds never makes up for text that is missing (`Sink.Ahead`).
-/

namespace JavaText

/-- The two outcomes are the same but for the index and what the decorator was asked. -/
structure Outcome.SameEffect (o o' : Outcome) : Prop where
  error? : o.error? = o'.error?
  sink : o.state.sink = o'.state.sink
  stats : o.state.stats = o'.state.stats

/-- Printing has the same effect on states with the same text and counters. -/
theorem Printer.runAll_sameEffect (p : Printer) (ds : List Doc) {s s' : PrintState}
    (hsink : s.sink = s'.sink) (hstats : s.stats = s'.stats) :
    (p.runAll ds s).SameEffect (p.runAll ds s') := by
  have hbare : ∀ r : PrintState, p.runAll ds r =
      ((p.runAll ds { sink := r.sink, stats := r.stats }).map (.withPast r.decorations)).map
        (.withParents r.parents) := by
    intro r
    rw [← (PrintState.unseen_withPast _).runAll, ← (PrintState.unseen_withParents _).runAll]
    rfl
  rw [hbare s, hbare s', hsink, hstats]
  constructor
  · simp only [Outcome.error?_map]
  · simp only [Outcome.state_map]
    rfl
  · simp only [Outcome.state_map]
    rfl

theorem Outcome.SameEffect.refl (o : Outcome) : o.SameEffect o := ⟨rfl, rfl, rfl⟩

theorem Outcome.SameEffect.symm {o o' : Outcome} (h : o.SameEffect o') : o'.SameEffect o :=
  ⟨h.error?.symm, h.sink.symm, h.stats.symm⟩

theorem Outcome.SameEffect.trans {o o' o'' : Outcome} (h : o.SameEffect o') (h' : o'.SameEffect o'') :
    o.SameEffect o'' :=
  ⟨h.error?.trans h'.error?, h.sink.trans h'.sink, h.stats.trans h'.stats⟩

/-- The tree with the given comment attached, or with none. -/
def Tree.withComment (c : Option Comment) {k : Kind} (t : Tree k) : Tree k :=
  t.withData { t.data with comment := c }

def Child.withComment (c : Option Comment) {p : Place} (e : Child p) : Child p :=
  ⟨e.admitted, e.tree.withComment c⟩

/-- The node with the given comment attached, or with none. To a comment none can be attached. -/
def Node.withComment (c : Option Comment) : Node → Node
  | .tree t => .tree (t.withComment c)
  | .entry cat e => .entry cat (e.withComment c)
  | .comment remark => .comment remark

/-- The comment attached to the node is not printed. -/
def Node.hidesComment : Node → Bool
  | .tree (k := k) _ => Layout.hidesComment k
  | .entry _ e => Layout.hidesComment e.kind
  | .comment _ => true

theorem Layout.hidesComment_eq_false_iff (k : Kind) :
    hidesComment k = false ↔ k ∉ [.simpleName, .unknownType, .arrayCreationLevel] := by
  cases k <;> decide

/-- The comment is printed for every node but a comment and those of three kinds. -/
theorem Node.hidesComment_eq_false_iff (n : Node) : n.hidesComment = false ↔
    ∃ t, n.top? = some t ∧ t.1 ∉ [.simpleName, .unknownType, .arrayCreationLevel] := by
  cases n with
  | comment => simp [hidesComment, top?]
  | tree | entry =>
    simp only [top?, Option.some.injEq, exists_eq_left']
    exact Layout.hidesComment_eq_false_iff _

theorem Layout.rule_withComment {k : Kind} (t : Tree k) (c : Option Comment)
    (row : Row (Field.Of fun _ => Layout) k.fields) : rule (t.withComment c) row = rule t row := by
  obtain ⟨d, fs⟩ := t
  -- A rule looks at the children and orphans alone.
  cases k <;> rfl

theorem Tree.body_withComment {k : Kind} (t : Tree k) (c : Option Comment) (ix : ParentIndex)
    (path : Path) :
    ((t.withComment c).layout ix path).body =
      Layout.attached k { comment := c } ++ ((t.withComment none).layout ix path).body := by
  have hbody : ∀ c, ((t.withComment c).layout ix path).body =
      Layout.attached k { comment := c } ++ Layout.rule t (t.fields.fold (Layout.ofNode ix) path 0) := by
    intro c
    rw [Tree.layout, Tree.fold_eq, Layout.ofNode, Layout.rule_withComment]
    obtain ⟨d, fs⟩ := t
    rfl
  have hnone : Layout.attached k { comment := none } = [] := by
    rw [Layout.attached]
    exact ite_self []
  rw [hbody, hbody, hnone, List.nil_append]

theorem Tree.led_empty {k : Kind} (t : Tree k) (path : Path) :
    (t.layout .empty path).led = (t.layout .empty path).body := by
  have hbefore : (t.layout .empty path).before = [] := by
    rw [Tree.layout, Tree.fold_eq, Layout.ofNode, ParentIndex.leading_eq_nil ParentIndex.parentOf_empty]
    exact ite_self []
  rw [Layout.led, hbefore, List.nil_append]

namespace Printer

variable (options : PrintOptions)

/-- Outside a pass and without a decorator, to print a node is to print its body. -/
theorem printNode_plain {n : Node} {t : AnyTree} (ht : n.top? = some t) {s : PrintState}
    (hs : s.parents = .empty) :
    (printNode ⟨options, .plain⟩ n s).SameEffect
      (runAll ⟨options, .plain⟩ (t.2.layout .empty []).body s) := by
  rw [printNode, hs]
  cases n with
  | comment c => cases ht
  | tree t' =>
    cases ht
    rw [Node.layout, Layout.alone, Tree.led_empty, ite_self]
    exact .refl _
  | entry cat e =>
    cases ht
    cases cat with
    | typeDecl | type => exact .refl _
    | member | stmt =>
      rw [Node.layout, Tree.led_empty]
      exact .refl _
    | expr =>
      rw [Node.layout, Layout.expr]
      split
      · -- An annotation is offered to the decorator, which only takes note of it.
        rw [Layout.decorated, runAll_singleton, run_decorated_plain _ rfl]
        exact runAll_sameEffect _ _ rfl rfl
      · exact .refl _

end Printer

theorem Node.top?_withComment {n : Node} {t : AnyTree} (h : n.top? = some t) (c : Option Comment) :
    (n.withComment c).top? = some ⟨t.1, t.2.withComment c⟩ ∧
      n.hidesComment = Layout.hidesComment t.1 := by
  cases n with
  | comment => cases h
  | tree | entry =>
    cases h
    exact ⟨rfl, rfl⟩

theorem Printer.parents_printComment (p : Printer) (c : Comment) (s : PrintState) :
    (p.printComment c s).parents = s.parents := by
  unfold printComment
  split
  · cases c.kind <;> rfl
  · rfl

/-- The comment attached to a node is printed first, or not at all. -/
theorem Printer.printNode_withComment (options : PrintOptions) (n : Node) (c : Comment) {s : PrintState}
    (hs : s.parents = .empty) :
    (printNode ⟨options, .plain⟩ (n.withComment (some c)) s).SameEffect
      (printNode ⟨options, .plain⟩ (n.withComment none)
        (if n.hidesComment then s else printComment ⟨options, .plain⟩ c s)) := by
  cases htop : n.top? with
  | none =>
    cases n with
    | comment => exact .refl _
    | tree | entry => cases htop
  | some t =>
    obtain ⟨hwith, hhides⟩ := Node.top?_withComment htop (some c)
    have hwithout := (Node.top?_withComment htop none).1
    refine (printNode_plain options hwith hs).trans ?_
    rw [Tree.body_withComment, runAll_append, Layout.attached, hhides]
    by_cases hk : Layout.hidesComment t.1 = true
    · rw [if_pos hk, if_pos hk]
      exact (printNode_plain options hwithout hs).symm
    · rw [if_neg hk, if_neg hk]
      have hparents := (parents_printComment ⟨options, .plain⟩ c s).trans hs
      exact (printNode_plain options hwithout hparents).symm

/-- Of two sinks that are to get the same, the first has more text already, and will have. It begins a
line where the second does, and so gets as much indentation at least. -/
structure Sink.Ahead (a b : Sink) : Prop where
  unit : a.unit = b.unit
  newLine : a.newLine = b.newLine
  depth : a.depth = b.depth
  atStart : b.atStart = true → a.atStart = true
  text : b.text.length < a.text.length

namespace Sink.Ahead

variable {a b : Sink}

theorem length_lead (h : Ahead a b) : b.lead.length ≤ a.lead.length := by
  unfold Sink.lead Sink.margin
  rw [h.unit, h.depth]
  cases hb : b.atStart with
  | false => exact Nat.zero_le _
  | true => rw [h.atStart hb]

theorem perform (h : Ahead a b) (op : Op) : Ahead (a.perform op) (b.perform op) := by
  have htext := h.text
  cases op with
  | write own t =>
    have hlead := h.length_lead
    rw [Sink.perform, Sink.perform, Sink.write_eq, Sink.write_eq]
    refine ⟨h.unit, h.newLine, h.depth, id, ?_⟩
    simp only [String.length_append]
    omega
  | newline =>
    refine ⟨h.unit, h.newLine, h.depth, fun _ => rfl, ?_⟩
    simp only [Sink.perform, Sink.newline, String.length_append, h.newLine]
    omega
  | indent => exact ⟨h.unit, h.newLine, congrArg (· + 1) h.depth, h.atStart, h.text⟩
  | unindent => exact ⟨h.unit, h.newLine, congrArg (· - 1) h.depth, h.atStart, h.text⟩
  | comment | decorate => exact h

theorem foldl (h : Ahead a b) (ops : List Op) :
    Ahead (ops.foldl Sink.perform a) (ops.foldl Sink.perform b) := by
  induction ops generalizing a b with
  | nil => exact h
  | cons op ops ih => exact ih (h.perform op)

end Sink.Ahead

/-- A comment leaves a text that is ahead of the one before it: there is its mark at least, and a line
break at the end. -/
theorem Comment.ahead_ops (c : Comment) (s : Sink) : (c.ops.foldl Sink.perform s).Ahead s := by
  have hmarks : "//".length = 2 ∧ "/*".length = 2 ∧ "/**".length = 3 := by decide
  unfold Comment.ops
  cases c.kind with
  | line | block | doc =>
    simp only [List.foldl_cons, List.foldl_nil, Sink.perform, Sink.write_eq, Sink.newline]
    refine ⟨rfl, rfl, rfl, fun _ => rfl, ?_⟩
    simp only [String.length_append]
    omega

/-- Whether a comment came before it shows in every text that follows. -/
theorem Printer.printNode_printComment_ne {p : Printer} (hp : p.decorator = .plain)
    (hcomments : p.options.printComments = true) (n : Node) (c : Comment) {s : PrintState}
    (hs : s.parents = .empty) :
    (p.printNode n s).state.sink ≠ (p.printNode n (p.printComment c s)).state.sink := by
  intro heq
  have hparents := (p.parents_printComment c s).trans hs
  have hrun := p.runAll_eq_script (hp.trans Wrapper.plain_decorator.symm) (n.laid_empty [])
  have hahead : (p.printComment c s).sink.Ahead s.sink := by
    rw [printComment_eq, if_pos hcomments, PrintState.sink_foldl]
    exact c.ahead_ops s.sink
  rw [printNode, printNode, hs, hparents, hrun, hrun] at heq
  have hlength := (hahead.foldl (Doc.scriptAll .plain p.options.printComments (n.layout .empty []))).text
  rw [← PrintState.sink_foldl, ← PrintState.sink_foldl] at hlength
  exact absurd (congrArg (fun sink => sink.text.length) heq) (Nat.ne_of_lt hlength)

/-- Outside a pass and without a decorator, to print a node with a comment attached is to print the
comment and then the node without one, unless it is a simple name, an unknown type or a level of an array
creation: then the comment is left out, and that makes a difference whenever comments are printed. -/
theorem Printer.printNode_commented (options : PrintOptions) (n : Node) (c : Comment) (s : PrintState) :
    let p : Printer := ⟨options, .plain⟩
    let s := { s with parents := .empty }
    let whole := p.printNode (n.withComment (some c)) s
    whole.SameEffect
        (p.printNode (n.withComment none) (if n.hidesComment then s else p.printComment c s)) ∧
      (whole.SameEffect (p.printNode (n.withComment none) (p.printComment c s)) ↔
        (∃ t, n.top? = some t ∧ t.1 ∉ [.simpleName, .unknownType, .arrayCreationLevel]) ∨
          options.printComments = false) := by
  intro p s whole
  rw [← Node.hidesComment_eq_false_iff]
  have hwhole : whole.SameEffect (p.printNode (n.withComment none)
      (if n.hidesComment then s else p.printComment c s)) := printNode_withComment options n c rfl
  refine ⟨hwhole, fun hparts => ?_, ?_⟩
  · by_contra hboth
    rw [not_or, Bool.not_eq_false, Bool.not_eq_false] at hboth
    rw [if_pos hboth.1] at hwhole
    exact p.printNode_printComment_ne rfl hboth.2 _ c rfl (hwhole.symm.trans hparts).sink
  · rintro (hshown | hoff)
    · rwa [if_neg (Bool.not_eq_true _ ▸ hshown)] at hwhole
    · have hnothing : p.printComment c s = s := if_neg (Bool.not_eq_true _ ▸ hoff)
      rw [hnothing, ite_self] at hwhole
      rwa [hnothing]

/-- A level of an array creation loses its comment. -/
theorem Printer.printNode_commentedLevel :
    let p : Printer := {}
    let level : Node := .tree (Build.level none)
    let c : Comment := { kind := .line, content := "c" }
    (p.printNode (level.withComment (some c)) p.init).state.sink.text = "[]" ∧
      (p.printNode (level.withComment none) (p.printComment c p.init)).state.sink.text = "//c\n[]" := by
  decide +kernel

end JavaText
