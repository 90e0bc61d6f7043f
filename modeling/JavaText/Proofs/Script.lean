import JavaText.Markup.Style
import JavaText.Proofs.Conduct
import JavaText.Proofs.PassLayout

/-!
# What printing does, as a list of operations

A decorator that only writes texts around nodes, markup for one, cannot make printing fail, and then
printing a layout is to perform its script: the writes, line breaks and changes of level in order, with
the comments and decorations met on the way. The script is read off the layout without a state
(`Doc.script`), and `Printer.runAll_eq_script` says that it is what happens.
-/

namespace JavaText

/-- Texts to write before and behind each node offered to a decorator. -/
structure Wrapper where
  opening : Role → Node → List String
  closing : Role → Node → List String

namespace Wrapper

def decorator (w : Wrapper) : Decorator := fun role n =>
  (w.opening role n).foldr .write (.print ((w.closing role n).foldr .write .done))

def plain : Wrapper := ⟨fun _ _ => [], fun _ _ => []⟩

theorem plain_decorator : plain.decorator = .plain := rfl

end Wrapper

/-- The tags of a style. -/
def MarkupStyle.wrapper (style : MarkupStyle) : Wrapper where
  opening role n := if style.isBare role n then [] else [(style.tagFor role).opening]
  closing role n := if style.isBare role n then [] else [(style.tagFor role).closing]

theorem MarkupStyle.wrapper_decorator (style : MarkupStyle) :
    style.wrapper.decorator = style.decorator := by
  funext role n
  simp only [Wrapper.decorator, wrapper, MarkupStyle.decorator]
  split <;> rfl

inductive Op where
  /-- Writes a text; `own` tells whether it is one of the decorator's. -/
  | write (own : Bool) (t : String)
  | newline
  | indent
  | unindent
  /-- A comment is printed next, if comments are; `orphan` tells whether it is an orphan. -/
  | comment (orphan : Bool) (c : Comment)
  /-- The node is decorated next. -/
  | decorate (role : Role) (n : Node)

/-- How the text of a comment is written. -/
def Comment.ops (c : Comment) : List Op :=
  match c.kind with
  | .line => [.write false "//", .write false c.lineText, .newline]
  | .block => [.write false "/*", .write false c.content, .write false "*/", .newline]
  | .doc => [.write false "/**", .write false c.content, .write false "*/", .newline]

/-- What a text written now has before it. -/
def Sink.lead (s : Sink) : String := if s.atStart then s.margin else ""

theorem Sink.write_eq (s : Sink) (t : String) :
    s.write t = { s with text := s.text ++ s.lead ++ t, atStart := false } := by
  obtain ⟨u, nl, text, d, atStart⟩ := s
  cases atStart <;> simp [write, lead]

/-- The operation on the text alone. -/
def Sink.perform (s : Sink) : Op → Sink
  | .write _ t => s.write t
  | .newline => s.newline
  | .indent => s.indent
  | .unindent => { s with depth := s.depth - 1 }
  | .comment .. | .decorate .. => s

def PrintState.perform (s : PrintState) : Op → PrintState
  | .write own t => { s with sink := s.sink.perform (.write own t) }
  | .newline => { s with sink := s.sink.perform .newline }
  | .indent => { s with sink := s.sink.perform .indent }
  | .unindent => { s with sink := s.sink.perform .unindent }
  | .comment orphan _ => if orphan then s.countOrphan else s
  | .decorate role n => s.decorate role n

theorem PrintState.sink_perform (s : PrintState) (op : Op) :
    (s.perform op).sink = s.sink.perform op := by
  cases op with
  | comment orphan => cases orphan <;> rfl
  | write | newline | indent | unindent | decorate => rfl

/-- The text is affected by the operations on it alone. -/
theorem PrintState.sink_foldl (ops : List Op) (s : PrintState) :
    (ops.foldl perform s).sink = ops.foldl Sink.perform s.sink := by
  induction ops generalizing s with
  | nil => rfl
  | cons op ops ih => rw [List.foldl_cons, List.foldl_cons, ih, sink_perform]

section
variable (w : Wrapper) (comments : Bool)

mutual

/-- What is done for an item of a layout under a wrapper, with comments printed or not. -/
def Doc.script : Doc → List Op
  | .write t => [.write false t]
  | .newline => [.newline]
  | .comment orphan c => .comment orphan c :: if comments then c.ops else []
  | .indented ds => [.indent] ++ Doc.scriptAll ds ++ [.unindent]
  | .decorated role n ds =>
    [.decorate role n] ++ (w.opening role n).map (.write true) ++ Doc.scriptAll ds ++
      (w.closing role n).map (.write true)
  | .abort _ => []

def Doc.scriptAll : List Doc → List Op
  | [] => []
  | d :: ds => d.script ++ Doc.scriptAll ds

end

theorem Doc.scriptAll_append (ds es : List Doc) :
    scriptAll w comments (ds ++ es) = scriptAll w comments ds ++ scriptAll w comments es := by
  induction ds with
  | nil => rfl
  | cons d ds ih => rw [List.cons_append, scriptAll, scriptAll, ih, List.append_assoc]

theorem Doc.scriptAll_singleton (d : Doc) : scriptAll w comments [d] = d.script w comments :=
  List.append_nil _

theorem Doc.scriptAll_deeper (ds : List Doc) :
    scriptAll w comments [.newline, .indented ds] =
      [.newline, .indent] ++ scriptAll w comments ds ++ [.unindent] := by
  simp [scriptAll, script]

end

namespace Printer

theorem printComment_eq (p : Printer) (c : Comment) (s : PrintState) :
    p.printComment c s = (if p.options.printComments then c.ops else []).foldl PrintState.perform s := by
  unfold printComment Comment.ops
  split
  · cases c.kind <;> rfl
  · rfl

/-- Closing a level that is open. -/
theorem closeLevel_done {s : PrintState} (h : 0 < s.sink.depth) :
    (Outcome.done s).closeLevel = .done (s.perform .unindent) := by
  obtain ⟨d, hd⟩ := Nat.exists_eq_add_one.mpr h
  rw [Outcome.closeLevel, Sink.unindent?_eq hd, PrintState.perform, Sink.perform, hd]
  rfl

/-- Writes at the beginning of a course. -/
theorem run_writes (options : PrintOptions) (node : PrintState → Outcome) (ts : List String)
    (c : Course) (s : PrintState) :
    (ts.foldr .write c).run options node s =
      c.run options node ((ts.map (Op.write true)).foldl PrintState.perform s) := by
  induction ts generalizing s with
  | nil => rfl
  | cons t ts ih => exact ih (s.write t)

/-- Printing leaves the depth as it was. -/
theorem runAll_depth (p : Printer) {ds : List Doc} {s s' : PrintState} (h : p.runAll ds s = .done s') :
    s'.sink.depth = s.sink.depth := by
  have hdepth := (p.mayEnd_runAll ds s).kept .depth
  rwa [h] at hdepth

/-- Printing under a wrapper is to perform the script. -/
theorem runAll_eq_script (p : Printer) {w : Wrapper} (hw : p.decorator = w.decorator)
    {Q : List Doc → Prop} {ds : List Doc} (h : Doc.Laid Q ds) (s : PrintState) :
    p.runAll ds s = .done ((Doc.scriptAll w p.options.printComments ds).foldl PrintState.perform s) := by
  induction h generalizing s with
  | nil | write | newline => rfl
  | append _ _ iha ihb =>
    rw [runAll_append, iha s, Doc.scriptAll_append, List.foldl_append]
    exact ihb _
  | comment orphan c =>
    rw [runAll_singleton, Doc.scriptAll_singleton, Doc.script, List.foldl_cons, run, printComment_eq]
    rfl
  | @deeper a ha ih =>
    have hrun : p.runAll [.newline, .indented a] s = s.newline.indented (p.runAll a) :=
      p.runAll_singleton (.indented a) s.newline
    rw [hrun, Doc.scriptAll_deeper, List.foldl_append, List.foldl_append]
    refine (congrArg Outcome.closeLevel (ih _)).trans (closeLevel_done ?_)
    rw [p.runAll_depth (ih _)]
    exact Nat.succ_pos _
  | @decorated a role n _ _ ih =>
    rw [runAll_singleton, Doc.scriptAll_singleton, Doc.script, run, hw, Wrapper.decorator, run_writes,
      Course.run_print, ih, List.foldl_append, List.foldl_append, List.foldl_append]
    exact run_writes _ _ (w.closing role n) .done _

/-- A pass under a wrapper is to perform the script of the root. -/
theorem pass_eq_script (p : Printer) {w : Wrapper} (hw : p.decorator = w.decorator) {root : Node}
    {ix : ParentIndex} (hix : ParentIndex.build root = .ok ix) (s : PrintState) :
    p.pass root s = .done ((Doc.scriptAll w p.options.printComments (root.layout ix [])).foldl
      PrintState.perform (p.passStart ix s)) := by
  have hlaid := Node.laid_any hix
  have hrun := p.runAll_eq_script hw hlaid (p.passStart ix s)
  rw [p.pass_eq hix, hrun]
  exact if_pos (p.runAll_depth hrun)

theorem print_eq_script (p : Printer) {w : Wrapper} (hw : p.decorator = w.decorator) {root : Node}
    {ix : ParentIndex} (hix : ParentIndex.build root = .ok ix) (s : PrintState) :
    (p.print root s).1 = .ok ((Doc.scriptAll w p.options.printComments (root.layout ix [])).foldl
      Sink.perform p.init.sink).text := by
  rw [print_fst, p.pass_eq_script hw hix]
  exact congrArg (fun sink : Sink => Except.ok sink.text) (PrintState.sink_foldl _ _)

/-- Printing under a wrapper does not fail. -/
theorem print_ok (p : Printer) {w : Wrapper} (hw : p.decorator = w.decorator) (root : Node)
    (s : PrintState) : ∃ text, (p.print root s).1 = .ok text := by
  obtain ⟨ix, hix, -⟩ := ParentIndex.build_ok root
  exact ⟨_, p.print_eq_script hw hix s⟩

end Printer

end JavaText
