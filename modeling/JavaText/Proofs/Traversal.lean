import JavaText.Proofs.Recording
import JavaText.Proofs.Tags

/-!
# What a decorator cannot change

A run is recorded as it happens: every write, line break and change of level, and with them the comments
and the decorated nodes (`Ledger.ops`). Under a wrapper the record is the script of the layout, so without
the wrapper's own texts it is the record of the plain run, and the decorated nodes come with the same
depths (`Printer.pass_wrapped`).
-/

namespace JavaText

/-- Every operation is noted. -/
def Ledger.ops : Ledger Op where
  write own t := [.write own t]
  newline := [.newline]
  indent := [.indent]
  unindent := [.unindent]
  comment shown orphan c := .comment orphan c :: if shown then c.ops else []
  decorated role n inside _ := .decorate role n :: inside
  printed _ := []

theorem Course.ops_record_writes (options : PrintOptions) (node : PrintState → Recording Op)
    (ts : List String) (c : Course) (s : PrintState) :
    ((ts.foldr .write c).record .ops options node s).notes = ts.map (.write true) ++
      (c.record .ops options node ((ts.map (Op.write true)).foldl PrintState.perform s)).notes := by
  induction ts generalizing s with
  | nil => rfl
  | cons t ts ih => exact congrArg (Op.write true t :: ·) (ih (s.write t))

/-- A course that goes on after its node, where printing the node succeeds. -/
theorem Course.ops_record_print {options : PrintOptions} {node : PrintState → Recording Op}
    {s s' : PrintState} (next : Course) (h : (node s).outcome = .done s') :
    ((Course.print next).record .ops options node s).notes =
      (node s).notes ++ (next.record .ops options node s').notes := by
  simp only [Course.print, record, h, Ledger.ops, List.append_nil]
  rfl

namespace Printer

variable (p : Printer)

/-- What is recorded under a wrapper is the script. -/
theorem ops_recordAll {w : Wrapper} (hw : p.decorator = w.decorator) {Q : List Doc → Prop}
    {ds : List Doc} (h : Doc.Laid Q ds) (s : PrintState) :
    (p.recordAll .ops ds s).notes = Doc.scriptAll w p.options.printComments ds := by
  induction h generalizing s with
  | nil | write | newline => rfl
  | append ha _ iha ihb =>
    have hrun := (p.outcome_recordAll .ops _ s).trans (p.runAll_eq_script hw ha s)
    rw [recordAll_append, Recording.andThen_of_done _ hrun, Recording.after, iha, ihb,
      Doc.scriptAll_append]
  | comment orphan c =>
    rw [recordAll_singleton, Doc.scriptAll_singleton]
    rfl
  | @deeper a _ ih =>
    rw [recordAll_deeper, Doc.scriptAll_deeper, Recording.indented, ih]
    rfl
  | @decorated a role n _ ha ih =>
    have hnode := fun s => (p.outcome_recordAll .ops a s).trans (p.runAll_eq_script hw ha s)
    have hcourse : ((w.decorator role n).record .ops p.options (p.recordAll .ops a)
        (s.decorate role n)).notes = (w.opening role n).map (.write true) ++
          (Doc.scriptAll w p.options.printComments a ++ (w.closing role n).map (.write true)) := by
      rw [Wrapper.decorator, Course.ops_record_writes, Course.ops_record_print _ (hnode _), ih,
        Course.ops_record_writes]
      simp [Course.done, Course.record]
    rw [recordAll_singleton, Doc.scriptAll_singleton, Doc.script, record, hw]
    refine (congrArg (Op.decorate role n :: ·) hcourse).trans ?_
    simp

/-- The record of a pass under a wrapper. -/
theorem ops_recordPass {w : Wrapper} (hw : p.decorator = w.decorator) {root : Node}
    {ix : ParentIndex} (hix : ParentIndex.build root = .ok ix) (s : PrintState) :
    (p.recordPass .ops root s).notes =
      Doc.scriptAll w p.options.printComments (root.layout ix []) := by
  rw [p.notes_recordPass .ops hix, p.ops_recordAll hw (Node.laid_any hix)]

end Printer

/-- What a decorator is asked: the role, the node, and the depth at that moment. -/
def PrintState.asked (s : PrintState) : List (Role × Node × Nat) :=
  s.decorations.map fun d => (d.role, d.node, d.depth)

/-- Two states that differ in their texts only. -/
structure PrintState.Alike (s s' : PrintState) : Prop where
  depth : s.sink.depth = s'.sink.depth
  asked : s.asked = s'.asked
  stats : s.stats = s'.stats

namespace PrintState.Alike

variable {s s' : PrintState}

theorem perform (h : s.Alike s') (op : Op) : (s.perform op).Alike (s'.perform op) := by
  cases op with
  | write own t =>
    refine ⟨?_, h.asked, h.stats⟩
    exact (s.write_depth t).trans (h.depth.trans (s'.write_depth t).symm)
  | newline => exact ⟨h.depth, h.asked, h.stats⟩
  | indent => exact ⟨congrArg (· + 1) h.depth, h.asked, h.stats⟩
  | unindent => exact ⟨congrArg (· - 1) h.depth, h.asked, h.stats⟩
  | comment orphan c =>
    cases orphan with
    | false => exact h
    | true =>
      refine ⟨h.depth, h.asked, ?_⟩
      exact congrArg (fun st : Stats => { st with orphans := st.orphans + 1 }) h.stats
  | decorate role n =>
    refine ⟨h.depth, ?_, h.stats⟩
    have hasked := h.asked
    unfold PrintState.asked at hasked ⊢
    simp only [PrintState.perform, PrintState.decorate, List.map_cons, h.depth, hasked]

/-- A text of the wrapper is no trace of the traversal. -/
theorem perform_own (h : s.Alike s') {op : Op} (hop : op.isOwn = true) : (s.perform op).Alike s' := by
  cases op with
  | write own t => exact ⟨(s.write_depth t).trans h.depth, h.asked, h.stats⟩
  | newline | indent | unindent | comment | decorate => cases hop

/-- States stay alike if one of two runs leaves out the texts of the wrapper. -/
theorem foldl (h : s.Alike s') (ops : List Op) :
    (ops.foldl PrintState.perform s).Alike
      ((ops.filter fun op => !op.isOwn).foldl PrintState.perform s') := by
  induction ops generalizing s s' with
  | nil => exact h
  | cons op ops ih =>
    rw [List.foldl_cons, List.filter_cons]
    cases hop : op.isOwn with
    | true => exact ih (h.perform_own hop)
    | false => exact ih (h.perform op)

end PrintState.Alike

/-- A decorator that only writes around the nodes it is asked about has no influence on a pass. With its
own texts left out, everything is done as without it, and it is asked the same questions at the same
depths; the counters end the same. Markup is a decorator of this kind. -/
theorem Printer.pass_wrapped (options : PrintOptions) (w : Wrapper) (root : Node) (s : PrintState) :
    let wrapped : Printer := ⟨options, w.decorator⟩
    let plain : Printer := ⟨options, .plain⟩
    (wrapped.recordPass .ops root s).outcome = wrapped.pass root s ∧
    (plain.recordPass .ops root s).outcome = plain.pass root s ∧
    ((wrapped.recordPass .ops root s).notes.filter fun op => !op.isOwn) =
      (plain.recordPass .ops root s).notes ∧
    (wrapped.pass root s).state.asked = (plain.pass root s).state.asked ∧
    (wrapped.pass root s).state.stats = (plain.pass root s).state.stats ∧
    ∀ style : MarkupStyle, style.decorator = style.wrapper.decorator := by
  intro wrapped plain
  obtain ⟨ix, hix, -⟩ := ParentIndex.build_ok root
  have hpass := wrapped.pass_eq_script rfl hix s
  have hplain := plain.pass_eq_script Wrapper.plain_decorator.symm hix s
  have hops : ((wrapped.recordPass .ops root s).notes.filter fun op => !op.isOwn) =
      (plain.recordPass .ops root s).notes := by
    rw [wrapped.ops_recordPass rfl hix, plain.ops_recordPass Wrapper.plain_decorator.symm hix]
    exact Doc.filter_scriptAll w options.printComments _
  have halike : (wrapped.pass root s).state.Alike (plain.pass root s).state := by
    have hstart : (wrapped.passStart ix s).Alike (plain.passStart ix s) := ⟨rfl, rfl, rfl⟩
    have hend := hstart.foldl (Doc.scriptAll w options.printComments (root.layout ix []))
    rw [Doc.filter_scriptAll] at hend
    rw [hpass, hplain]
    exact hend
  exact ⟨wrapped.outcome_recordPass .ops root s, plain.outcome_recordPass .ops root s, hops, halike.asked,
    halike.stats, fun style => style.wrapper_decorator.symm⟩

end JavaText
