import JavaText.Proofs.Lines

/-!
# Text at the ground

Where no level is open there is no indentation, so it does not matter whether a line has begun: a layout
adds one and the same text wherever it is printed, and layouts one after the other add their texts one
after the other. `Printer.Adds` is this relation between layouts and texts; without a decorator every
layout made by rules has such a text (`Doc.Laid.adds`), and the text of a root is what a pass gives
(`Printer.Adds.print`).
-/

namespace JavaText

namespace Printer

/-- No level is open, and the sink has the settings of the printer. -/
structure Ground (p : Printer) (s : Sink) : Prop where
  unit : s.unit = p.options.indent
  newLine : s.newLine = p.options.newLine
  depth : s.depth = 0

/-- Printed at the ground, the layout adds the text and ends at the ground. -/
def Adds (p : Printer) (ds : List Doc) (t : String) : Prop :=
  ∀ s : PrintState, p.Ground s.sink →
    ∃ s', p.runAll ds s = .done s' ∧ p.Ground s'.sink ∧ s'.sink.text = s.sink.text ++ t

variable {p : Printer}

theorem ground_init : p.Ground p.init.sink := ⟨rfl, rfl, rfl⟩

theorem Ground.write {s : Sink} (h : p.Ground s) (t : String) :
    p.Ground (s.write t) ∧ (s.write t).text = s.text ++ t := by
  have hlead : s.lead = "" := by
    unfold Sink.lead Sink.margin
    rw [h.depth]
    exact ite_self _
  rw [Sink.write_eq, hlead, String.append_empty]
  exact ⟨⟨h.unit, h.newLine, h.depth⟩, rfl⟩

theorem Ground.newline {s : Sink} (h : p.Ground s) :
    p.Ground s.newline ∧ s.newline.text = s.text ++ p.options.newLine :=
  ⟨⟨h.unit, h.newLine, h.depth⟩, congrArg (s.text ++ ·) h.newLine⟩

/-- Operations that open and close no level add one text wherever they are performed. -/
theorem ground_foldl {ops : List Op} (h : ∀ op ∈ ops, op.isLevel = false) :
    ∃ t, ∀ s, p.Ground s → p.Ground (ops.foldl Sink.perform s) ∧
      (ops.foldl Sink.perform s).text = s.text ++ t := by
  induction ops with
  | nil => exact ⟨"", fun s hs => ⟨hs, String.append_empty.symm⟩⟩
  | cons op ops ih =>
    rw [List.forall_mem_cons] at h
    obtain ⟨t, ht⟩ := ih h.2
    have hstep : ∃ u, ∀ s, p.Ground s → p.Ground (s.perform op) ∧ (s.perform op).text = s.text ++ u := by
      cases op with
      | write own u => exact ⟨u, fun s hs => hs.write u⟩
      | newline => exact ⟨_, fun s hs => hs.newline⟩
      | indent | unindent => cases h.1
      | comment | decorate => exact ⟨"", fun s hs => ⟨hs, String.append_empty.symm⟩⟩
    obtain ⟨u, hu⟩ := hstep
    refine ⟨u ++ t, fun s hs => ?_⟩
    obtain ⟨hground, htext⟩ := ht _ (hu s hs).1
    exact ⟨hground, by rw [List.foldl_cons, htext, (hu s hs).2, String.append_assoc]⟩

namespace Adds

variable {ds es : List Doc} {t u : String}

theorem nil : p.Adds [] "" := fun s hs => ⟨s, rfl, hs, String.append_empty.symm⟩

theorem append (hd : p.Adds ds t) (he : p.Adds es u) : p.Adds (ds ++ es) (t ++ u) := by
  intro s hs
  obtain ⟨s₁, hrun₁, hground₁, htext₁⟩ := hd s hs
  obtain ⟨s₂, hrun₂, hground₂, htext₂⟩ := he s₁ hground₁
  refine ⟨s₂, ?_, hground₂, ?_⟩
  · rw [runAll_append, hrun₁]
    exact hrun₂
  · rw [htext₂, htext₁, String.append_assoc]

theorem write (t : String) : p.Adds [.write t] t := fun s hs =>
  ⟨s.write t, rfl, hs.write t⟩

theorem newline : p.Adds [.newline] p.options.newLine := fun s hs => ⟨s.newline, rfl, hs.newline⟩

theorem flatMap {X : Type} {xs : List X} {f : X → List Doc} {g : X → String}
    (h : ∀ x ∈ xs, p.Adds (f x) (g x)) : p.Adds (xs.flatMap f) (String.join (xs.map g)) := by
  induction xs with
  | nil => exact nil
  | cons x xs ih =>
    rw [List.flatMap_cons, List.map_cons, String.join_cons]
    rw [List.forall_mem_cons] at h
    exact h.1.append (ih h.2)

theorem comment (orphan : Bool) (c : Comment) : ∃ t, p.Adds [.comment orphan c] t := by
  have hlevel : ∀ op ∈ (if p.options.printComments then c.ops else []), op.isLevel = false := by
    split
    · exact c.isLevel_ops
    · exact fun op hop => absurd hop List.not_mem_nil
  obtain ⟨t, ht⟩ := ground_foldl (p := p) hlevel
  refine ⟨t, fun s hs => ?_⟩
  rw [runAll_singleton, run, printComment_eq]
  refine ⟨_, rfl, ?_⟩
  rw [PrintState.sink_foldl]
  cases orphan <;> exact ht s.sink hs

theorem comment_off (hp : p.options.printComments = false) (orphan : Bool) (c : Comment) :
    p.Adds [.comment orphan c] "" := by
  intro s hs
  have hnothing : ∀ s, p.printComment c s = s := fun s => if_neg (by simp [hp])
  rw [runAll_singleton, run, hnothing]
  cases orphan <;> exact ⟨_, rfl, hs, String.append_empty.symm⟩

theorem decorated (hp : p.decorator = .plain) (h : p.Adds ds t) (role : Role) (n : Node) :
    p.Adds [.decorated role n ds] t := by
  intro s hs
  obtain ⟨s', hrun, hground, htext⟩ := h (s.decorate role n) hs
  refine ⟨s', ?_, hground, htext⟩
  rw [runAll_singleton, p.run_decorated_plain hp, hrun]

theorem print {root : Node} {ix : ParentIndex} (hix : ParentIndex.build root = .ok ix)
    (h : p.Adds (root.layout ix []) t) (s : PrintState) : (p.print root s).1 = .ok t := by
  obtain ⟨s', hrun, hground, htext⟩ := h (p.passStart ix s) ground_init
  have hpass : p.pass root s = .done s' := by
    rw [p.pass_eq hix, hrun]
    exact if_pos hground.depth
  rw [Printer.print, hpass]
  exact congrArg Except.ok (htext.trans String.empty_append)

end Adds

end Printer

theorem Node.layout_tree {k : Kind} (hk : k.leadsItself = false) (t : Tree k) (ix : ParentIndex)
    (path : Path) : (Node.tree t).layout ix path = (t.layout ix path).body := by
  cases t with
  | node d fs => exact if_neg (Bool.not_eq_true _ ▸ hk)

/-- A part on lines of its own, one level deeper. -/
theorem Doc.Laid.adds_deeper {p : Printer} (hp : p.decorator = .plain) {Q : List Doc → Prop}
    {ds : List Doc} (h : Doc.Laid Q ds) : ∃ t, p.Adds [.newline, .indented ds] t := by
  -- After the line break a draft of the rest accompanies the sink, whatever was written before.
  let ops : List Op := [.indent] ++ Doc.scriptAll .plain p.options.printComments ds ++ [.unindent]
  let m := ops.foldl Draft.perform {}
  refine ⟨p.options.newLine ++ m.text p.options.indent p.options.newLine 0, fun s hs => ?_⟩
  have hrun := p.runAll_eq_script (hp.trans Wrapper.plain_decorator.symm) h.deeper s
  obtain ⟨hground, htext⟩ := hs.newline
  have hdraft := (Op.Nested.level (h.nested .plain p.options.printComments)).foldl_onto {} s.sink.newline
  rw [Draft.onto_new rfl] at hdraft
  have hsink : ((Doc.scriptAll .plain p.options.printComments [.newline, .indented ds]).foldl
      PrintState.perform s).sink = m.onto s.sink.newline := by
    rw [PrintState.sink_foldl, Doc.scriptAll_deeper]
    exact hdraft.1
  refine ⟨_, hrun, ?_, ?_⟩
  · rw [hsink]
    refine ⟨hground.unit, hground.newLine, ?_⟩
    show m.depth + s.sink.newline.depth = 0
    rw [hground.depth]
    exact hdraft.2
  · rw [hsink]
    show s.sink.newline.text ++ m.text _ _ _ = _
    rw [htext, hground.unit, hground.newLine, hground.depth, String.append_assoc]

/-- Without a decorator, every layout that rules make adds a text. -/
theorem Doc.Laid.adds {p : Printer} (hp : p.decorator = .plain) {Q : List Doc → Prop} {ds : List Doc}
    (h : Doc.Laid Q ds) : ∃ t, p.Adds ds t := by
  induction h with
  | nil => exact ⟨_, .nil⟩
  | append _ _ iha ihb =>
    obtain ⟨t, ht⟩ := iha
    obtain ⟨u, hu⟩ := ihb
    exact ⟨_, ht.append hu⟩
  | write t => exact ⟨_, .write t⟩
  | newline => exact ⟨_, .newline⟩
  | comment orphan c => exact Printer.Adds.comment orphan c
  | deeper ha _ => exact ha.adds_deeper hp
  | decorated role n _ _ ih =>
    obtain ⟨t, ht⟩ := ih
    exact ⟨t, ht.decorated hp role n⟩

end JavaText
