import JavaText.Proofs.Script
import JavaText.Tree.Build

/-!
# Lines before indentation

The unit of indentation, the line end and the depth at which printing begins enter a text in one place
only, where a line is begun or ended. So the lines of a layout can be drawn up without them, each with
the depth it is begun at, counted from the depth at the beginning (`Doc.lines`); the text follows by
filling in the three (`Printer.runAll_lines`).

A draft accompanies the sink through a script. The two keep step as long as the script closes only
levels that it has opened (`Op.Nested`).
-/

namespace JavaText

inductive Line where
  /-- Nothing has been written on the line, and it has no indentation. -/
  | untouched
  | touched (depth : Nat) (text : String)
deriving DecidableEq, Repr

namespace Line

def write (depth : Nat) (t : String) : Line → Line
  | untouched => touched depth t
  | touched k text => touched k (text ++ t)

/-- The line as it stands in a text begun at a depth. -/
def render (indent : String) (depth : Nat) : Line → String
  | untouched => ""
  | touched k text => String.join (List.replicate (k + depth) indent) ++ text

theorem render_write (indent : String) (depth k : Nat) (t : String) (l : Line) :
    (l.write k t).render indent depth =
      l.render indent depth ++
        (if l = untouched then String.join (List.replicate (k + depth) indent) else "") ++ t := by
  cases l with
  | untouched =>
    rw [if_pos rfl, render, String.empty_append]
    rfl
  | touched k' text =>
    rw [if_neg Line.noConfusion, String.append_empty]
    exact String.append_assoc.symm

theorem write_ne_untouched (k : Nat) (t : String) (l : Line) : l.write k t ≠ untouched := by
  cases l <;> exact Line.noConfusion

end Line

/-- The line that is being written, those above it, and the current depth. -/
structure Draft where
  above : List Line := []
  line : Line := .untouched
  depth : Nat := 0

namespace Draft

def lines (m : Draft) : List Line := m.above ++ [m.line]

def perform (m : Draft) : Op → Draft
  | .write _ t => { m with line := m.line.write m.depth t }
  | .newline => { m with above := m.lines, line := .untouched }
  | .indent => { m with depth := m.depth + 1 }
  | .unindent => { m with depth := m.depth - 1 }
  | .comment .. | .decorate .. => m

/-- The lines joined. -/
def text (m : Draft) (indent newLine : String) (depth : Nat) : String :=
  newLine.intercalate (m.lines.map (Line.render indent depth))

section
variable (m : Draft) (indent newLine : String) (depth : Nat)

theorem text_eq :
    m.text indent newLine depth =
      String.join (m.above.map fun l => l.render indent depth ++ newLine) ++
        m.line.render indent depth := by
  unfold text lines
  induction m.above with
  | nil => exact String.intercalate_singleton.trans String.empty_append.symm
  | cons l ls ih =>
    have hne : (ls ++ [m.line]).map (Line.render indent depth) ≠ [] := by simp
    rw [List.cons_append, List.map_cons, String.intercalate_cons_of_ne_nil hne, ih, List.map_cons,
      String.join_cons]
    exact String.append_assoc.symm

theorem text_write (own : Bool) (t : String) :
    (m.perform (.write own t)).text indent newLine depth =
      m.text indent newLine depth ++
        (if m.line = .untouched then String.join (List.replicate (m.depth + depth) indent) else "") ++
          t := by
  rw [text_eq, text_eq, perform, Line.render_write]
  simp only [String.append_assoc]

theorem text_newline :
    (m.perform .newline).text indent newLine depth = m.text indent newLine depth ++ newLine := by
  rw [text_eq, text_eq, perform, lines, List.map_append, String.join_append]
  simp [Line.render, String.append_assoc]

end

/-- A sink with the lines of the draft added to it. -/
def onto (m : Draft) (s : Sink) : Sink :=
  { s with
    text := s.text ++ m.text s.unit s.newLine s.depth
    depth := m.depth + s.depth
    atStart := decide (m.line = .untouched) }

theorem onto_new {s : Sink} (h : s.atStart = true) : onto {} s = s := by
  rw [onto, text_eq, Nat.zero_add]
  show { s with text := s.text ++ ("" ++ ""), atStart := true } = s
  rw [String.append_empty, String.append_empty, ← h]

/-- One operation. The draft counts levels from the beginning, so it can close only those opened
since. -/
theorem perform_onto (m : Draft) (s : Sink) (op : Op) (hop : op = .unindent → 0 < m.depth) :
    (m.onto s).perform op = (m.perform op).onto s := by
  cases op with
  | write own t =>
    have hlead : (m.onto s).lead =
        if m.line = .untouched then String.join (List.replicate (m.depth + s.depth) s.unit) else "" := by
      simp only [Sink.lead, onto, Sink.margin, decide_eq_true_eq]
    have hstart : decide ((m.perform (.write own t)).line = .untouched) = false :=
      decide_eq_false (Line.write_ne_untouched _ _ _)
    rw [Sink.perform, Sink.write_eq, hlead, onto, onto, text_write, hstart]
    simp only [String.append_assoc]
    rfl
  | newline =>
    rw [onto, onto, text_newline, ← String.append_assoc]
    rfl
  | indent =>
    have hdepth : m.depth + s.depth + 1 = m.depth + 1 + s.depth := by omega
    exact congrArg (fun depth => { m.onto s with depth }) hdepth
  | unindent =>
    have hopen := hop rfl
    have hdepth : m.depth + s.depth - 1 = m.depth - 1 + s.depth := by omega
    exact congrArg (fun depth => { m.onto s with depth }) hdepth
  | comment | decorate => rfl

end Draft

def Op.isLevel : Op → Bool
  | .indent | .unindent => true
  | .write .. | .newline | .comment .. | .decorate .. => false

/-- Every level that is opened is closed, and no other. -/
inductive Op.Nested : List Op → Prop
  | nil : Nested []
  | append {a b : List Op} (ha : Nested a) (hb : Nested b) : Nested (a ++ b)
  | single (op : Op) (h : op.isLevel = false) : Nested [op]
  | level {a : List Op} (ha : Nested a) : Nested ([.indent] ++ a ++ [.unindent])

namespace Op.Nested

theorem of_forall {ops : List Op} (h : ∀ op ∈ ops, op.isLevel = false) : Nested ops := by
  induction ops with
  | nil => exact .nil
  | cons op ops ih =>
    rw [List.forall_mem_cons] at h
    exact .append (.single op h.1) (ih h.2)

/-- A script with nested levels does to a sink what it does to a draft on it, and ends at the depth at
which it begins. -/
theorem foldl_onto {ops : List Op} (h : Nested ops) (m : Draft) (s : Sink) :
    ops.foldl Sink.perform (m.onto s) = (ops.foldl Draft.perform m).onto s ∧
      (ops.foldl Draft.perform m).depth = m.depth := by
  induction h generalizing m with
  | nil => exact ⟨rfl, rfl⟩
  | append _ _ iha ihb =>
    obtain ⟨ha, hdepth⟩ := iha m
    obtain ⟨hb, hdepth'⟩ := ihb _
    rw [List.foldl_append, List.foldl_append, ha]
    exact ⟨hb, hdepth'.trans hdepth⟩
  | single op hop =>
    refine ⟨m.perform_onto s op ?_, ?_⟩
    · rintro rfl
      cases hop
    · cases op with
      | write | newline | comment | decorate => rfl
      | indent | unindent => cases hop
  | @level a _ ih =>
    -- inside the level the draft is one deeper than outside, so the level can be closed
    obtain ⟨ha, hdepth⟩ := ih (m.perform .indent)
    have hopen : (a.foldl Draft.perform (m.perform .indent)).depth = m.depth + 1 := hdepth
    have hindent : (m.onto s).perform .indent = (m.perform .indent).onto s :=
      m.perform_onto s .indent Op.noConfusion
    simp only [List.foldl_append, List.foldl_cons, List.foldl_nil, hindent, ha]
    refine ⟨Draft.perform_onto _ s .unindent fun _ => ?_, ?_⟩
    · rw [hopen]
      exact Nat.succ_pos _
    · exact congrArg (· - 1) hopen

end Op.Nested

theorem Comment.isLevel_ops (c : Comment) : ∀ op ∈ c.ops, op.isLevel = false := by
  unfold Comment.ops
  cases c.kind <;> simp [Op.isLevel]

theorem Doc.Laid.nested {Q : List Doc → Prop} {ds : List Doc} (h : Doc.Laid Q ds) (w : Wrapper)
    (comments : Bool) : Op.Nested (Doc.scriptAll w comments ds) := by
  have hown : ∀ ts : List String, Op.Nested (ts.map (.write true)) := fun ts =>
    .of_forall (by simp [Op.isLevel])
  induction h with
  | nil => exact .nil
  | append _ _ iha ihb =>
    rw [Doc.scriptAll_append]
    exact iha.append ihb
  | write | newline => exact .single _ rfl
  | comment orphan c =>
    rw [Doc.scriptAll_singleton]
    cases comments with
    | false => exact .single _ rfl
    | true => exact .append (.single (.comment orphan c) rfl) (.of_forall c.isLevel_ops)
  | deeper _ ih =>
    rw [Doc.scriptAll_deeper]
    have hnested := Op.Nested.append (.single .newline rfl) (.level ih)
    exact hnested
  | decorated role n _ _ ih =>
    rw [Doc.scriptAll_singleton, Doc.script]
    exact .append (.append (.append (.single _ rfl) (hown _)) ih) (hown _)

/-- The lines of a layout under a wrapper, with comments printed or not. -/
def Doc.lines (w : Wrapper) (comments : Bool) (ds : List Doc) : List Line :=
  ((Doc.scriptAll w comments ds).foldl Draft.perform {}).lines

namespace Printer

variable (p : Printer)

/-- Printing from the start of a line adds the lines of the layout to the text. -/
theorem runAll_lines {w : Wrapper} (hw : p.decorator = w.decorator) {Q : List Doc → Prop}
    {ds : List Doc} (h : Doc.Laid Q ds) {s : PrintState} (hs : s.sink.atStart = true) :
    ∃ s', p.runAll ds s = .done s' ∧
      s'.sink.text = s.sink.text ++ s.sink.newLine.intercalate
        ((Doc.lines w p.options.printComments ds).map (Line.render s.sink.unit s.sink.depth)) := by
  have hnested := (h.nested w p.options.printComments).foldl_onto {} s.sink
  rw [Draft.onto_new hs] at hnested
  refine ⟨_, p.runAll_eq_script hw h s, ?_⟩
  rw [PrintState.sink_foldl, hnested.1]
  rfl

/-- Prints a node of the indexed tree as it stands at its place in it. -/
def printAt (path : Path) (n : Node) (s : PrintState) : Outcome :=
  p.runAll (n.layout s.parents path) s

/-- Every node of a tree has its lines, whatever the unit of indentation, the line end and the depth are.
Printed from the start of a line, within the pass over the tree or outside of any, it adds them to the
text: joined by the line end, a line that was touched with as many units before its text as there were
levels at the beginning and have been opened since, and an untouched line empty. -/
theorem printAt_lines {root : Node} {ix : ParentIndex}
    (hix : ix = .empty ∨ ParentIndex.build root = .ok ix) {v : Visit} (hv : v ∈ root.walk)
    {decorator : Decorator}
    (hdecorator : decorator = .plain ∨ ∃ style : MarkupStyle, decorator = style.decorator)
    (printComments : Bool) :
    ∃ lines : List Line, ∀ (indent newLine before : String) (depth : Nat) (stats : Stats)
        (decorations : List Decoration),
      let p : Printer := ⟨{ indent, newLine, printComments }, decorator⟩
      let s : PrintState :=
        { sink := { unit := indent, newLine, text := before, depth, atStart := true }
          parents := ix, stats, decorations }
      ∃ s', p.printAt v.path v.node s = .done s' ∧
        (v.path = [] → p.printNode v.node s = .done s') ∧
        s'.sink.text = before ++ newLine.intercalate (lines.map (Line.render indent depth)) := by
  obtain ⟨w, hw⟩ : ∃ w : Wrapper, decorator = w.decorator := by
    rcases hdecorator with rfl | ⟨style, rfl⟩
    · exact ⟨.plain, Wrapper.plain_decorator.symm⟩
    · exact ⟨style.wrapper, style.wrapper_decorator.symm⟩
  have hlaid : Doc.Laid (fun _ => True) (v.node.layout ix v.path) := by
    rcases hix with rfl | hix
    · exact v.node.laid_empty v.path
    · exact Node.laid_visit hix hv
  refine ⟨Doc.lines w printComments (v.node.layout ix v.path), ?_⟩
  intro indent newLine before depth stats decorations p s
  obtain ⟨s', hrun, htext⟩ := p.runAll_lines hw hlaid (s := s) rfl
  refine ⟨s', hrun, ?_, htext⟩
  intro hpath
  rw [hpath] at hrun
  exact hrun

end Printer

/-- A block with a comment before its only statement. -/
def Tree.commentedBlock : Tree .blockStmt :=
  (Build.block [((Build.returnStmt none).spanning ⟨5, 9⟩).inside]).withOrphans
    [{ kind := .line, content := "c", range := ⟨1, 4⟩ }]

/-- The block as the initializer of a class. -/
def Tree.initializedClass : Tree .classDecl :=
  Build.classDecl .empty "A" [(Build.initializer true Tree.commentedBlock.child).inside]

theorem Printer.printAt_lines_commentedBlock :
    ∃ ix v, ParentIndex.build (.tree Tree.initializedClass) = .ok ix ∧
      v ∈ (Node.tree Tree.initializedClass).walk ∧ v.path = [1, 0] ∧ v.node = .tree Tree.commentedBlock ∧
      ∃ lines : List Line, ∀ indent newLine depth,
        let p : Printer := ⟨{ indent, newLine }, MarkupStyle.decorator {}⟩
        ∃ s', p.printAt v.path v.node
              { sink := { unit := indent, newLine, depth, atStart := true }, parents := ix } = .done s' ∧
          s'.sink.text = newLine.intercalate (lines.map (Line.render indent depth)) := by
  obtain ⟨ix, hix⟩ : ∃ ix, ParentIndex.build (.tree Tree.initializedClass) = .ok ix := ⟨_, rfl⟩
  have hv := Tree.initializedClass.mem_visits [] [1] none (i := 0) rfl rfl
  refine ⟨ix, _, hix, hv, rfl, rfl, ?_⟩
  obtain ⟨lines, hlines⟩ := Printer.printAt_lines (.inr hix) hv (.inr ⟨{}, rfl⟩) true
  refine ⟨lines, fun indent newLine depth => ?_⟩
  obtain ⟨s', hrun, -, htext⟩ := hlines indent newLine "" depth {} []
  refine ⟨s', hrun, ?_⟩
  rw [htext, String.empty_append]

end JavaText
