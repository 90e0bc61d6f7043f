import JavaText.Print.Printer
import JavaText.Proofs.Parents

/-!
# What printing keeps, whatever a decorator does

A decorator may look at the text so far, go on after a failure, or fail for reasons of its own; one that
is not given here could also remember what it was asked before, or print other nodes. All the same it
changes the state through a few operations only. `Job.MayEnd` describes every way in which printing can
end when each decorated node may be met with any finite course of them; printing under a given decorator
is one such way (`Printer.mayEnd_runAll`).

What the single operations keep is then kept by all of printing (`Job.MayEnd.kept`), also where it
fails.
-/

namespace JavaText

theorem Sink.unindent?_eq {s : Sink} {d : Nat} (h : s.depth = d + 1) :
    s.unindent? = some { s with depth := d } := by
  rw [unindent?, h]

@[simp]
theorem PrintState.write_depth (s : PrintState) (t : String) :
    (s.write t).sink.depth = s.sink.depth := by
  simp only [PrintState.write, Sink.write]
  split <;> rfl

@[simp]
theorem PrintState.newline_depth (s : PrintState) : s.newline.sink.depth = s.sink.depth := rfl

/-- A course that goes on only if printing the node succeeds. -/
theorem Course.run_print (options : PrintOptions) (node : PrintState → Outcome) (next : Course)
    (s : PrintState) :
    (Course.print next).run options node s = (node s).andThen (next.run options node) := by
  show (next.onward (node s).error?).run options node (node s).state = _
  cases node s <;> rfl

namespace Printer

variable (p : Printer)

@[simp]
theorem printComment_depth (c : Comment) (s : PrintState) :
    (p.printComment c s).sink.depth = s.sink.depth := by
  simp only [printComment, PrintState.writeLine]
  split
  · split <;> simp
  · rfl

theorem runAll_append (ds es : List Doc) (s : PrintState) :
    p.runAll (ds ++ es) s = (p.runAll ds s).andThen (p.runAll es) := by
  induction ds generalizing s with
  | nil => rfl
  | cons d ds ih =>
    rw [List.cons_append, runAll, runAll]
    cases p.run d s with
    | done s' => exact ih s'
    | failed e s' => rfl

theorem runAll_singleton (d : Doc) (s : PrintState) : p.runAll [d] s = p.run d s := by
  rw [runAll]
  cases p.run d s <;> rfl

/-- Without a decorator, a part offered to it is printed as it is. -/
theorem run_decorated_plain (hp : p.decorator = .plain) (role : Role) (n : Node) (ds : List Doc)
    (s : PrintState) : p.run (.decorated role n ds) s = p.runAll ds (s.decorate role n) := by
  rw [run, hp, Decorator.plain, Course.run_print]
  cases p.runAll ds (s.decorate role n) <;> rfl

/-- The state in which the layout of a pass is printed. -/
def passStart (ix : ParentIndex) (s : PrintState) : PrintState :=
  { s with sink := p.init.sink, parents := ix, stats := { nodes := ix.size + 1 } }

theorem pass_eq {root : Node} {ix : ParentIndex} (hix : ParentIndex.build root = .ok ix)
    (s : PrintState) :
    p.pass root s = (p.runAll (root.layout ix []) (p.passStart ix s)).andThen fun s =>
      if s.sink.depth = 0 then .done s else .failed (.unbalancedIndent s.sink.depth) s := by
  rw [pass, hix]
  rfl

theorem print_fst (root : Node) (s : PrintState) :
    (p.print root s).1 = match (p.pass root s).error? with
      | none => .ok (p.pass root s).state.sink.text
      | some e => .error e := by
  rw [print]
  cases p.pass root s <;> rfl

theorem print_stats (root : Node) (s : PrintState) :
    (p.print root s).2.stats = (p.pass root s).state.stats := by
  rw [print]
  cases p.pass root s <;> rfl

end Printer

/-- Something to be done in a pass. -/
inductive Job where
  | item (d : Doc)
  | layout (ds : List Doc)
  /-- What a decorator does, or has left to do, when it is asked about a node. -/
  | decorator

/-- Begun in the state, the job may end so. Printing stops at the first failure; a decorator may go on
after one. -/
inductive Job.MayEnd (options : PrintOptions) : Job → PrintState → Outcome → Prop
  | write (t : String) (s : PrintState) : MayEnd options (.item (.write t)) s (.done (s.write t))
  | newline (s : PrintState) : MayEnd options (.item .newline) s (.done s.newline)
  | comment (orphan : Bool) (c : Comment) (s : PrintState) :
    MayEnd options (.item (.comment orphan c)) s
      (.done (Printer.printComment { options } c (if orphan then s.countOrphan else s)))
  | indented {ds : List Doc} {s : PrintState} {o : Outcome}
      (h : MayEnd options (.layout ds) { s with sink := s.sink.indent } o) :
    MayEnd options (.item (.indented ds)) s o.closeLevel
  | decorated {s : PrintState} {o : Outcome} (role : Role) (n : Node) (ds : List Doc)
      (h : MayEnd options .decorator (s.decorate role n) o) :
    MayEnd options (.item (.decorated role n ds)) s o
  | abort (e : PrintError) (s : PrintState) : MayEnd options (.item (.abort e)) s (.failed e s)
  | nil (s : PrintState) : MayEnd options (.layout []) s (.done s)
  | next {d : Doc} {ds : List Doc} {s s' : PrintState} {o : Outcome}
      (h : MayEnd options (.item d) s (.done s')) (hrest : MayEnd options (.layout ds) s' o) :
    MayEnd options (.layout (d :: ds)) s o
  | stop {d : Doc} {s s' : PrintState} {e : PrintError} (ds : List Doc)
      (h : MayEnd options (.item d) s (.failed e s')) :
    MayEnd options (.layout (d :: ds)) s (.failed e s')
  | returns (s : PrintState) : MayEnd options .decorator s (.done s)
  | fails (e : PrintError) (s : PrintState) : MayEnd options .decorator s (.failed e s)
  | writes {s : PrintState} {o : Outcome} (t : String)
      (hrest : MayEnd options .decorator (s.write t) o) : MayEnd options .decorator s o
  | breaks {s : PrintState} {o : Outcome} (hrest : MayEnd options .decorator s.newline o) :
    MayEnd options .decorator s o
  /-- It prints a layout, that of the node it was asked about or of any other. -/
  | prints {ds : List Doc} {s : PrintState} {inner o : Outcome}
      (h : MayEnd options (.layout ds) s inner)
      (hrest : MayEnd options .decorator inner.state o) : MayEnd options .decorator s o
  | deepens {s : PrintState} {inner o : Outcome}
      (h : MayEnd options .decorator { s with sink := s.sink.indent } inner)
      (hrest : MayEnd options .decorator inner.closeLevel.state o) :
    MayEnd options .decorator s o

theorem Course.mayEnd_run {options : PrintOptions} {ds : List Doc} {node : PrintState → Outcome}
    (hnode : ∀ s, Job.MayEnd options (.layout ds) s (node s)) (c : Course) (s : PrintState) :
    Job.MayEnd options .decorator s (c.run options node s) := by
  induction c generalizing s with
  | finish error? =>
    cases error? with
    | none => exact .returns s
    | some e => exact .fails e s
  | write t next ih => exact .writes t (ih _)
  | newline next ih => exact .breaks (ih _)
  | look next ih => exact ih _ s
  | node next ih => exact .prints (hnode s) (ih _ _)
  | indented inside next ihinside ih => exact .deepens (ihinside _) (ih _ _)

namespace Printer

variable (p : Printer)

mutual

theorem mayEnd_run (d : Doc) (s : PrintState) : Job.MayEnd p.options (.item d) s (p.run d s) := by
  cases d with
  | write t => exact .write t s
  | newline => exact .newline s
  | comment orphan c => exact .comment orphan c s
  | indented ds => exact .indented (mayEnd_runAll ds _)
  | decorated role n ds => exact .decorated role n ds (Course.mayEnd_run (mayEnd_runAll ds) _ _)
  | abort e => exact .abort e s

/-- What a printer does with its decorator is one of the ways. -/
theorem mayEnd_runAll (ds : List Doc) (s : PrintState) :
    Job.MayEnd p.options (.layout ds) s (p.runAll ds s) := by
  cases ds with
  | nil => exact .nil s
  | cons d ds =>
    have hd := mayEnd_run d s
    rw [runAll]
    cases hrun : p.run d s with
    | done s' => exact .next (hrun ▸ hd) (mayEnd_runAll ds s')
    | failed e s' => exact .stop ds (hrun ▸ hd)

end

end Printer

theorem Outcome.closeLevel_state (o : Outcome) :
    o.closeLevel.state = { o.state with sink := o.state.sink.unindent?.getD o.state.sink } := by
  cases o with
  | done s =>
    rw [closeLevel]
    cases hs : s.sink.unindent? with
    | none => simp [state, hs]
    | some sink => simp [state, hs]
  | failed e s => rfl

/-- The single operations keep the relation between the state before and the state after. -/
structure PrintState.Keeps (K : PrintState → PrintState → Prop) : Prop where
  refl (s : PrintState) : K s s
  trans {s s' s'' : PrintState} (h : K s s') (h' : K s' s'') : K s s''
  write (s : PrintState) (t : String) : K s (s.write t)
  newline (s : PrintState) : K s s.newline
  countOrphan (s : PrintState) : K s s.countOrphan
  decorate (s : PrintState) (role : Role) (n : Node) : K s (s.decorate role n)
  level {s s' : PrintState} (h : K { s with sink := s.sink.indent } s') :
    K s { s' with sink := s'.sink.unindent?.getD s'.sink }

namespace PrintState.Keeps

variable {K : PrintState → PrintState → Prop} (hK : Keeps K)
include hK

theorem closeLevel {s : PrintState} {o : Outcome} (h : K { s with sink := s.sink.indent } o.state) :
    K s o.closeLevel.state := by
  rw [o.closeLevel_state]
  exact hK.level h

theorem printComment (p : Printer) (c : Comment) (s : PrintState) : K s (p.printComment c s) := by
  have hline : ∀ (s : PrintState) t, K s (s.writeLine t) := fun s t =>
    hK.trans (hK.write s t) (hK.newline _)
  have hblock : ∀ (s : PrintState) a, K s (((s.write a).write c.content).writeLine "*/") := fun s a =>
    hK.trans (hK.trans (hK.write s a) (hK.write _ _)) (hline _ _)
  unfold Printer.printComment
  split
  · split
    · exact hK.trans (hK.write s _) (hline _ _)
    · exact hblock s _
    · exact hblock s _
  · exact hK.refl s

end PrintState.Keeps

/-- What the operations keep is kept, however the job ends. -/
theorem Job.MayEnd.kept {K : PrintState → PrintState → Prop} (hK : PrintState.Keeps K)
    {options : PrintOptions} {job : Job} {s : PrintState} {o : Outcome}
    (h : MayEnd options job s o) : K s o.state := by
  induction h with
  | write t s => exact hK.write s t
  | newline s => exact hK.newline s
  | comment orphan c s =>
    cases orphan with
    | false => exact hK.printComment _ c s
    | true => exact hK.trans (hK.countOrphan s) (hK.printComment _ c _)
  | indented _ ih => exact hK.closeLevel ih
  | decorated role n _ _ ih => exact hK.trans (hK.decorate _ role n) ih
  | abort _ s | nil s | returns s | fails _ s => exact hK.refl s
  | next _ _ ih ihrest => exact hK.trans ih ihrest
  | stop _ _ ih => exact ih
  | writes t _ ih => exact hK.trans (hK.write _ t) ih
  | breaks _ ih => exact hK.trans (hK.newline _) ih
  | prints _ _ ih ihrest => exact hK.trans ih ihrest
  | deepens _ _ ih ihrest => exact hK.trans (hK.closeLevel ih) ihrest

namespace PrintState.Keeps

/-- Every level that is opened is closed. -/
theorem depth : Keeps fun s s' => s'.sink.depth = s.sink.depth where
  refl _ := rfl
  trans h h' := h'.trans h
  write s t := s.write_depth t
  newline _ := rfl
  countOrphan _ := rfl
  decorate _ _ _ := rfl
  level {s s'} h := by
    have hdepth : s'.sink.depth = s.sink.depth + 1 := h
    rw [Sink.unindent?_eq hdepth]
    rfl

end PrintState.Keeps

/-- A level that was opened is still open at the end. -/
theorem Job.MayEnd.depth_pos {options : PrintOptions} {job : Job} {s : PrintState} {o : Outcome}
    (h : MayEnd options job { s with sink := s.sink.indent } o) : 0 < o.state.sink.depth := by
  rw [h.kept .depth]
  exact Nat.succ_pos _

namespace PrintState.Keeps

/-- Nodes are counted before printing begins. -/
theorem nodes : Keeps fun s s' => s'.stats.nodes = s.stats.nodes where
  refl _ := rfl
  trans h h' := h'.trans h
  write _ _ := rfl
  newline _ := rfl
  countOrphan _ := rfl
  decorate _ _ _ := rfl
  level h := h

/-- The unit of indentation and the line end stay. -/
theorem cleared : Keeps fun s s' => s'.sink.cleared = s.sink.cleared where
  refl _ := rfl
  trans h h' := h'.trans h
  write s t := by
    rw [PrintState.write, Sink.write]
    split <;> rfl
  newline _ := rfl
  countOrphan _ := rfl
  decorate _ _ _ := rfl
  level {s s'} h := by
    have hclosed : (s'.sink.unindent?.getD s'.sink).cleared = s'.sink.cleared := by
      rw [Sink.unindent?]
      split <;> rfl
    exact hclosed.trans h

end PrintState.Keeps

namespace Printer

variable (p : Printer)

/-- What a pass leaves behind is what printing the root has left. -/
theorem pass_state {root : Node} {ix : ParentIndex} (hix : ParentIndex.build root = .ok ix)
    (s : PrintState) :
    (p.pass root s).state = (p.runAll (root.layout ix []) (p.passStart ix s)).state := by
  rw [p.pass_eq hix]
  cases p.runAll (root.layout ix []) (p.passStart ix s) with
  | done s =>
    rw [Outcome.andThen]
    split <;> rfl
  | failed e s => rfl

/-- What printing keeps is kept from the start of a pass to its end. -/
theorem pass_kept {K : PrintState → PrintState → Prop} (hK : PrintState.Keeps K) {root : Node}
    {ix : ParentIndex} (hix : ParentIndex.build root = .ok ix) (s : PrintState) :
    K (p.passStart ix s) (p.pass root s).state := by
  rw [p.pass_state hix]
  exact (p.mayEnd_runAll _ _).kept hK

/-- The statistics of a pass count the nodes of the walk. -/
theorem print_nodes (root : Node) (s : PrintState) :
    (p.print root s).2.stats.nodes = root.walk.length := by
  obtain ⟨ix, hix, -⟩ := ParentIndex.build_ok root
  rw [print_stats, p.pass_kept .nodes hix]
  exact ParentIndex.size_build hix

end Printer

end JavaText
