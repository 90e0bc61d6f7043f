import JavaText.Proofs.Conduct

/-!
# Passes do not see what came before

Of an earlier history a pass could find text, levels, a begun line, an index and counters; it begins by
replacing them all, and ends by clearing the sink and the index even where it fails. What is left of the
history is the record of decorations, which printing adds to and does not look at
(`PrintState.Unseen.runAll`).
-/

namespace JavaText

/-- Changes of the state that printing does not look at: the sink and the counters stay as they are, and
whatever printing does to a state it does to the changed one. -/
structure PrintState.Unseen (f : PrintState → PrintState) : Prop where
  sink : ∀ s, (f s).sink = s.sink
  stats : ∀ s, (f s).stats = s.stats
  setSink : ∀ (s : PrintState) (sink : Sink), f { s with sink } = { f s with sink }
  countOrphan : ∀ s, f s.countOrphan = (f s).countOrphan
  decorate : ∀ (s : PrintState) role n, f (s.decorate role n) = (f s).decorate role n

/-- The outcome with its state changed. -/
def Outcome.map (f : PrintState → PrintState) : Outcome → Outcome
  | .done s => .done (f s)
  | .failed e s => .failed e (f s)

theorem Outcome.state_map (f : PrintState → PrintState) (o : Outcome) :
    (o.map f).state = f o.state := by
  cases o <;> rfl

theorem Outcome.error?_map (f : PrintState → PrintState) (o : Outcome) :
    (o.map f).error? = o.error? := by
  cases o <;> rfl

theorem Outcome.andThen_map {f : PrintState → PrintState} {g : PrintState → Outcome}
    (hg : ∀ s, g (f s) = (g s).map f) (o : Outcome) : (o.map f).andThen g = (o.andThen g).map f := by
  cases o with
  | done s => exact hg s
  | failed e s => rfl

namespace PrintState.Unseen

variable {f : PrintState → PrintState}

theorem write (h : Unseen f) (t : String) (s : PrintState) : (f s).write t = f (s.write t) := by
  rw [PrintState.write, h.sink]
  exact (h.setSink s _).symm

theorem newline (h : Unseen f) (s : PrintState) : (f s).newline = f s.newline := by
  rw [PrintState.newline, h.sink]
  exact (h.setSink s _).symm

theorem closeLevel (h : Unseen f) (o : Outcome) : (o.map f).closeLevel = o.closeLevel.map f := by
  cases o with
  | failed e s =>
    rw [Outcome.map, Outcome.closeLevel, h.sink]
    exact congrArg (Outcome.failed e) (h.setSink s _).symm
  | done s =>
    rw [Outcome.map, Outcome.closeLevel, Outcome.closeLevel, h.sink]
    cases s.sink.unindent? with
    | none => rfl
    | some sink => exact congrArg Outcome.done (h.setSink s sink).symm

theorem indented (h : Unseen f) {g : PrintState → Outcome} (hg : ∀ s, g (f s) = (g s).map f)
    (s : PrintState) : (f s).indented g = (s.indented g).map f := by
  rw [PrintState.indented, PrintState.indented, ← h.closeLevel, ← hg, h.sink]
  exact congrArg (fun s => (g s).closeLevel) (h.setSink s _).symm

theorem view (h : Unseen f) (options : PrintOptions) (s : PrintState) :
    (f s).view options = s.view options := by
  rw [PrintState.view, h.sink, h.stats]
  rfl

theorem run_course (h : Unseen f) {options : PrintOptions} {node : PrintState → Outcome}
    (hnode : ∀ s, node (f s) = (node s).map f) (c : Course) (s : PrintState) :
    c.run options node (f s) = (c.run options node s).map f := by
  induction c generalizing s with
  | finish error? => cases error? <;> rfl
  | write t next ih => rw [Course.run, h.write, ih]; rfl
  | newline next ih => rw [Course.run, h.newline, ih]; rfl
  | look next ih => rw [Course.run, h.view, ih]; rfl
  | node next ih =>
    simp only [Course.run, hnode, Outcome.error?_map, Outcome.state_map]
    exact ih _ _
  | indented inside next ihinside ih =>
    simp only [Course.run, h.indented ihinside, Outcome.error?_map, Outcome.state_map]
    exact ih _ _

theorem printComment (h : Unseen f) (p : Printer) (c : Comment) (s : PrintState) :
    p.printComment c (f s) = f (p.printComment c s) := by
  unfold Printer.printComment
  split
  · split <;> simp only [PrintState.writeLine, h.write, h.newline]
  · rfl

mutual

theorem run (h : Unseen f) (p : Printer) (d : Doc) (s : PrintState) :
    p.run d (f s) = (p.run d s).map f := by
  cases d with
  | write t => exact congrArg Outcome.done (h.write t s)
  | newline => exact congrArg Outcome.done (h.newline s)
  | abort => rfl
  | comment orphan c =>
    cases orphan with
    | false => exact congrArg Outcome.done (h.printComment p c s)
    | true =>
      have hcomment := h.printComment p c s.countOrphan
      rw [h.countOrphan] at hcomment
      exact congrArg Outcome.done hcomment
  | indented ds => exact h.indented (runAll h p ds) s
  | decorated role n ds =>
    rw [Printer.run, Printer.run, ← h.decorate]
    exact h.run_course (runAll h p ds) _ _

/-- Printing does to the changed state what it does to the state. -/
theorem runAll (h : Unseen f) (p : Printer) (ds : List Doc) (s : PrintState) :
    p.runAll ds (f s) = (p.runAll ds s).map f := by
  cases ds with
  | nil => rfl
  | cons d ds =>
    rw [Printer.runAll, Printer.runAll, run h p d s]
    exact Outcome.andThen_map (runAll h p ds) _

end

end PrintState.Unseen

/-- The state with decorations that were made before its own. -/
def PrintState.withPast (past : List Decoration) (s : PrintState) : PrintState :=
  { s with decorations := s.decorations ++ past }

/-- Earlier decorations change nothing and are kept. -/
theorem PrintState.unseen_withPast (past : List Decoration) : Unseen (withPast past) :=
  ⟨fun _ => rfl, fun _ => rfl, fun _ _ => rfl, fun _ => rfl, fun _ _ _ => rfl⟩

namespace Printer

variable (p : Printer) (root : Node) (s : PrintState)

/-- A pass is a pass from a state with nothing printed, after the decorations there were. -/
theorem pass_eq_init : p.pass root s = (p.pass root p.init).map (.withPast s.decorations) := by
  obtain ⟨ix, hix, -⟩ := ParentIndex.build_ok root
  have hstart : p.passStart ix s = (p.passStart ix p.init).withPast s.decorations := rfl
  rw [p.pass_eq hix, p.pass_eq hix, hstart, (PrintState.unseen_withPast s.decorations).runAll]
  refine Outcome.andThen_map (fun s' => ?_) _
  have hsink : (s'.withPast s.decorations).sink = s'.sink := rfl
  rw [hsink]
  split <;> rfl

theorem print_snd :
    (p.print root s).2 = { (p.pass root s).state with
      sink := (p.pass root s).state.sink.cleared, parents := .empty } := by
  rw [print]
  cases p.pass root s <;> rfl

/-- A pass ends with the indentation and line end that the options give. -/
theorem print_sink : (p.print root s).2.sink = p.init.sink := by
  obtain ⟨ix, hix, -⟩ := ParentIndex.build_ok root
  have hcleared : (p.pass root s).state.sink.cleared = p.init.sink := p.pass_kept .cleared hix s
  rw [print_snd]
  exact hcleared

/-- To print a root gives the same text or error, and the same counters, in every state a printer can be
in, whatever was printed or has failed before; and the decorator is asked the same. Afterwards the
printer holds no text, no level and no index, and what is written next begins a line. -/
theorem print_independent :
    (p.print root s).1 = (p.print root p.init).1 ∧
    (p.print root s).2.stats = (p.print root p.init).2.stats ∧
    (p.print root s).2.decorations = (p.print root p.init).2.decorations ++ s.decorations ∧
    (p.print root s).2.sink.text = "" ∧
    (p.print root s).2.sink.depth = 0 ∧
    (∀ depth t, ({ (p.print root s).2.sink with depth }.write t).text =
      String.join (List.replicate depth p.options.indent) ++ t) ∧
    (p.print root s).2.sink = p.init.sink ∧
    (p.print root s).2.parents = .empty := by
  have hsink := p.print_sink root s
  refine ⟨?_, ?_, ?_, ?_, ?_, ?_, hsink, ?_⟩
  · rw [print_fst, print_fst, p.pass_eq_init root s, Outcome.error?_map, Outcome.state_map]
    rfl
  · rw [print_stats, print_stats, p.pass_eq_init root s, Outcome.state_map]
    rfl
  · rw [print_snd, print_snd, p.pass_eq_init root s, Outcome.state_map]
    rfl
  · rw [hsink]
    rfl
  · rw [hsink]
    rfl
  · intro depth t
    rw [hsink]
    exact congrArg (· ++ t) String.empty_append
  · rw [print_snd]

end Printer

end JavaText
