import JavaText.Proofs.Conduct

/-!
# Recorded runs

What a run does can be noted as it happens. A `Ledger` says what is noted of each thing that printing or
a decorator does; a recorded run makes the notes and is otherwise the run itself
(`Printer.outcome_recordPass`).
-/

namespace JavaText

/-- The notes that are made of a run. -/
structure Ledger (α : Type) where
  /-- A text is written; `own` tells whether it is one of the decorator's. -/
  write (own : Bool) (t : String) : List α
  newline : List α
  indent : List α
  unindent : List α
  /-- It is the turn of a comment, which is printed if `shown`. -/
  comment (shown orphan : Bool) (c : Comment) : List α
  /-- The decorator was called, `inside` was noted in the meantime, and this is what it returned. -/
  decorated (role : Role) (n : Node) (inside : List α) (error? : Option PrintError) : List α
  /-- The decorator has had its node printed, with this error or none. -/
  printed (error? : Option PrintError) : List α

/-- What was noted of a run, and how it ended. -/
structure Recording (α : Type) where
  notes : List α
  outcome : Outcome

namespace Recording

variable {α : Type}

/-- After earlier notes. -/
def after (notes : List α) (r : Recording α) : Recording α := { r with notes := notes ++ r.notes }

/-- Goes on if nothing has failed. -/
def andThen (r : Recording α) (f : PrintState → Recording α) : Recording α :=
  match r.outcome with
  | .done s => (f s).after r.notes
  | .failed e s => ⟨r.notes, .failed e s⟩

/-- Runs `f` one level deeper. The level is closed also after a failure. -/
def indented (L : Ledger α) (s : PrintState) (f : PrintState → Recording α) : Recording α :=
  let r := f { s with sink := s.sink.indent }
  ⟨L.indent ++ r.notes ++ L.unindent, r.outcome.closeLevel⟩

theorem andThen_of_done {r : Recording α} {s : PrintState} (f : PrintState → Recording α)
    (h : r.outcome = .done s) : r.andThen f = (f s).after r.notes := by
  rw [andThen, h]

theorem outcome_andThen {r : Recording α} {f : PrintState → Recording α} {o : Outcome}
    {g : PrintState → Outcome} (hr : r.outcome = o) (hf : ∀ s, (f s).outcome = g s) :
    (r.andThen f).outcome = o.andThen g := by
  subst hr
  obtain ⟨notes, outcome⟩ := r
  cases outcome with
  | done s => exact hf s
  | failed e s => rfl

theorem outcome_indented {L : Ledger α} {f : PrintState → Recording α} {g : PrintState → Outcome}
    (hf : ∀ s, (f s).outcome = g s) (s : PrintState) : (indented L s f).outcome = s.indented g :=
  congrArg Outcome.closeLevel (hf _)

end Recording

section
variable {α : Type} (L : Ledger α)

/-- Follows a course and makes notes; `node` prints the decorated node. -/
def Course.record (options : PrintOptions) (node : PrintState → Recording α) :
    Course → PrintState → Recording α
  | .finish none, s => ⟨[], .done s⟩
  | .finish (some e), s => ⟨[], .failed e s⟩
  | .write t next, s => (next.record options node (s.write t)).after (L.write true t)
  | .newline next, s => (next.record options node s.newline).after L.newline
  | .look next, s => (next (s.view options)).record options node s
  | .node next, s =>
    let r := node s
    ((next r.outcome.error?).record options node r.outcome.state).after
      (r.notes ++ L.printed r.outcome.error?)
  | .indented inside next, s =>
    let r := Recording.indented L s (inside.record options node)
    ((next r.outcome.error?).record options node r.outcome.state).after r.notes

namespace Printer

variable (p : Printer)

mutual

/-- Prints an item and makes notes. -/
def record : Doc → PrintState → Recording α
  | .write t, s => ⟨L.write false t, .done (s.write t)⟩
  | .newline, s => ⟨L.newline, .done s.newline⟩
  | .comment orphan c, s =>
    ⟨L.comment p.options.printComments orphan c,
      .done (p.printComment c (if orphan then s.countOrphan else s))⟩
  | .indented ds, s => .indented L s (recordAll ds)
  | .decorated role n ds, s =>
    let r := (p.decorator role n).record L p.options (recordAll ds) (s.decorate role n)
    ⟨L.decorated role n r.notes r.outcome.error?, r.outcome⟩
  | .abort e, s => ⟨[], .failed e s⟩

def recordAll : List Doc → PrintState → Recording α
  | [], s => ⟨[], .done s⟩
  | d :: ds, s => (record d s).andThen (recordAll ds)

end

/-- A pass, with the notes made while its root is printed. -/
def recordPass (root : Node) (s : PrintState) : Recording α :=
  match ParentIndex.build root with
  | .error e => ⟨[], .failed e { s with sink := p.init.sink }⟩
  | .ok ix =>
    (p.recordAll L (root.layout ix []) (p.passStart ix s)).andThen fun s =>
      ⟨[], if s.sink.depth = 0 then .done s else .failed (.unbalancedIndent s.sink.depth) s⟩

end Printer

theorem Course.outcome_record {options : PrintOptions} {node : PrintState → Recording α}
    {f : PrintState → Outcome} (hnode : ∀ s, (node s).outcome = f s) (c : Course) (s : PrintState) :
    (c.record L options node s).outcome = c.run options f s := by
  induction c generalizing s with
  | finish error? => cases error? <;> rfl
  | write t next ih => exact ih _
  | newline next ih => exact ih _
  | look next ih => exact ih _ s
  | node next ih =>
    simp only [record, run, hnode]
    exact ih _ _
  | indented inside next ihinside ih =>
    simp only [record, run, Recording.outcome_indented ihinside]
    exact ih _ _

namespace Printer

variable (p : Printer)

mutual

theorem outcome_record (d : Doc) (s : PrintState) : (p.record L d s).outcome = p.run d s := by
  cases d with
  | write | newline | comment | abort => rfl
  | indented ds => exact Recording.outcome_indented (outcome_recordAll ds) s
  | decorated role n ds => exact Course.outcome_record L (outcome_recordAll ds) _ _

theorem outcome_recordAll (ds : List Doc) (s : PrintState) :
    (p.recordAll L ds s).outcome = p.runAll ds s := by
  cases ds with
  | nil => rfl
  | cons d ds => exact Recording.outcome_andThen (outcome_record d s) (outcome_recordAll ds)

end

/-- A recorded pass ends as the pass does. -/
theorem outcome_recordPass (root : Node) (s : PrintState) :
    (p.recordPass L root s).outcome = p.pass root s := by
  obtain ⟨ix, hix, -⟩ := ParentIndex.build_ok root
  rw [recordPass, hix, p.pass_eq hix]
  exact Recording.outcome_andThen (p.outcome_recordAll L _ _) fun _ => rfl

theorem notes_recordPass {root : Node} {ix : ParentIndex} (hix : ParentIndex.build root = .ok ix)
    (s : PrintState) :
    (p.recordPass L root s).notes = (p.recordAll L (root.layout ix []) (p.passStart ix s)).notes := by
  rw [recordPass, hix]
  simp only [Recording.andThen]
  split
  · exact List.append_nil _
  · rfl

theorem recordAll_singleton (d : Doc) (s : PrintState) :
    p.recordAll L [d] s = p.record L d s := by
  rw [recordAll]
  obtain ⟨notes, outcome⟩ := p.record L d s
  cases outcome <;> simp [Recording.andThen, Recording.after, recordAll]

/-- A part one level deeper, on a new line. -/
theorem recordAll_deeper (ds : List Doc) (s : PrintState) :
    p.recordAll L [.newline, .indented ds] s =
      (Recording.indented L s.newline (p.recordAll L ds)).after L.newline :=
  congrArg (Recording.after L.newline) (p.recordAll_singleton L (.indented ds) s.newline)

theorem recordAll_append (ds es : List Doc) (s : PrintState) :
    p.recordAll L (ds ++ es) s = (p.recordAll L ds s).andThen (p.recordAll L es) := by
  induction ds generalizing s with
  | nil => rfl
  | cons d ds ih =>
    rw [List.cons_append, recordAll, recordAll]
    obtain ⟨notes, outcome⟩ := p.record L d s
    cases outcome with
    | failed e s' => rfl
    | done s' =>
      simp only [Recording.andThen, ih]
      obtain ⟨notes', outcome'⟩ := p.recordAll L ds s'
      cases outcome' with
      | failed e s'' => rfl
      | done s'' => simp [Recording.after]

end Printer

end

end JavaText
