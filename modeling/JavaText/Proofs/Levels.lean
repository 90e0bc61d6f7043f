import Mathlib.Data.List.Forall2
import JavaText.Print.Printer
import JavaText.Proofs.Conduct

/-!
# Levels in a session

A call may stand inside calls that opened a level, and then in the depth there are at most as many
levels as there are such calls around it; fewer only because printing a root starts anew from depth zero
and leaves it there (`Call.MayRun.depth`). A call that opened a level finds it gone in this case and no
other, and fails with an underflow.

The calls are followed under any conduct of the decorator (`Call.MayRun`); what a printer does with its
own decorator is one case (`Call.mayRun_runAll`).
-/

namespace JavaText

/-- The step that an operation leaves behind. -/
def Outcome.step (o : Outcome) : Step :=
  ⟨match o.error? with | none => .nothing | some e => .error e, o.state⟩

/-- The end of a pass: no level may be open. -/
def Outcome.balanced (o : Outcome) : Outcome :=
  o.andThen fun s => if s.sink.depth = 0 then .done s else .failed (.unbalancedIndent s.sink.depth) s

/-- The step that a pass leaves behind: the text is handed out, and the sink and the index are empty. -/
def Outcome.passStep (o : Outcome) : Step :=
  ⟨match o with | .done s => .text s.sink.text | .failed e _ => .error e,
    { o.state with sink := o.state.sink.cleared, parents := .empty }⟩

/-- The step that a call leaves behind if it neither prints a node nor makes other calls. -/
def Call.simple? (options : PrintOptions) (s : PrintState) : Call → Option Step
  | .comment c => some ⟨.nothing, Printer.printComment { options } c s⟩
  | .write t => some ⟨.nothing, s.write t⟩
  | .writeLine t => some ⟨.nothing, s.writeLine t⟩
  | .newline => some ⟨.nothing, s.newline⟩
  | .options => some ⟨.options options, s⟩
  | .skip => some ⟨.nothing, s⟩
  | .print _ | .printNode _ | .indented _ | .fail _ => none

/-- The calls, made one after the other from the state, may leave these steps behind and end so. A node
may be any of those that the index is about. -/
inductive Call.MayRun (options : PrintOptions) :
    List Call → PrintState → List Step → Outcome → Prop
  | nil (s : PrintState) : MayRun options [] s [] (.done s)
  | fail (e : PrintError) (cs : List Call) (s : PrintState) :
    MayRun options (.fail e :: cs) s [] (.failed e s)
  | simple {c : Call} {cs : List Call} {s : PrintState} {step : Step} {steps : List Step} {o : Outcome}
      (h : c.simple? options s = some step) (hrest : MayRun options cs step.state steps o) :
    MayRun options (c :: cs) s (step :: steps) o
  | print {root : Node} {ix : ParentIndex} {cs : List Call} {s : PrintState} {inner o : Outcome}
      {steps : List Step} (hix : ParentIndex.build root = .ok ix)
      (h : Job.MayEnd options (.layout (root.layout ix [])) (Printer.passStart { options } ix s) inner)
      (hrest : MayRun options cs inner.balanced.passStep.state steps o) :
    MayRun options (.print root :: cs) s (inner.balanced.passStep :: steps) o
  | printNode {n : Node} {path : Path} {cs : List Call} {s : PrintState} {inner o : Outcome}
      {steps : List Step} (h : Job.MayEnd options (.layout (n.layout s.parents path)) s inner)
      (hrest : MayRun options cs inner.state steps o) :
    MayRun options (.printNode n :: cs) s (inner.step :: steps) o
  | indented {inside cs : List Call} {s : PrintState} {inner o : Outcome} {steps steps' : List Step}
      (h : MayRun options inside { s with sink := s.sink.indent } steps inner)
      (hrest : MayRun options cs inner.closeLevel.state steps' o) :
    MayRun options (.indented inside :: cs) s (steps ++ inner.closeLevel.step :: steps') o

section
variable (p : Printer)

theorem Printer.pass_eq_balanced {root : Node} {ix : ParentIndex}
    (hix : ParentIndex.build root = .ok ix) (s : PrintState) :
    p.pass root s = (p.runAll (root.layout ix []) (p.passStart ix s)).balanced := p.pass_eq hix s

theorem Call.run_print (root : Node) (steps : List Step) (s : PrintState) :
    Call.run p (.print root) steps s =
      ⟨(p.pass root s).passStep :: steps, .done (p.pass root s).passStep.state⟩ := by
  rw [Call.run, Printer.print]
  cases p.pass root s <;> rfl

mutual

/-- A call other than `fail` leaves its steps behind, and more calls can be made. -/
theorem Call.mayRun_run (c : Call) (steps : List Step) (s : PrintState) :
    (∃ e, c = .fail e) ∨ ∃ new s', Call.run p c steps s = ⟨new.reverse ++ steps, .done s'⟩ ∧
      ∀ cs new' o, Call.MayRun p.options cs s' new' o →
        Call.MayRun p.options (c :: cs) s (new ++ new') o := by
  cases c with
  | print root =>
    obtain ⟨ix, hix, -⟩ := ParentIndex.build_ok root
    refine .inr ⟨[_], _, Call.run_print p root steps s, fun cs new' o hrest => ?_⟩
    rw [p.pass_eq_balanced hix] at hrest ⊢
    exact .print hix (p.mayEnd_runAll _ _) hrest
  | printNode n =>
    exact .inr ⟨[_], _, rfl, fun cs new' o hrest => .printNode (p.mayEnd_runAll _ s) hrest⟩
  | comment | write | writeLine | newline | options | skip =>
    exact .inr ⟨[_], _, rfl, fun cs new' o hrest => .simple rfl hrest⟩
  | indented inside =>
    obtain ⟨new, hsteps, hrun⟩ := Call.mayRun_runAll inside steps { s with sink := s.sink.indent }
    generalize hinner : Call.runAll p inside steps { s with sink := s.sink.indent } = inner at hsteps hrun
    refine .inr ⟨new ++ [inner.outcome.closeLevel.step], inner.outcome.closeLevel.state, ?_,
      fun cs new' o hrest => ?_⟩
    · rw [Call.run, hinner, hsteps, List.reverse_append]
      rfl
    · rw [List.append_assoc]
      exact .indented hrun hrest
  | fail e => exact .inl ⟨e, rfl⟩

theorem Call.mayRun_runAll (cs : List Call) (steps : List Step) (s : PrintState) :
    ∃ new, (Call.runAll p cs steps s).steps = new.reverse ++ steps ∧
      Call.MayRun p.options cs s new (Call.runAll p cs steps s).outcome := by
  cases cs with
  | nil => exact ⟨[], rfl, .nil s⟩
  | cons c cs =>
    rcases Call.mayRun_run c steps s with ⟨e, rfl⟩ | ⟨new, s', hrun, hmore⟩
    · exact ⟨[], rfl, .fail e cs s⟩
    · obtain ⟨new', hsteps, hrest⟩ := Call.mayRun_runAll cs (new.reverse ++ steps) s'
      refine ⟨new ++ new', ?_, ?_⟩
      · rw [Call.runAll, hrun, hsteps, List.reverse_append, List.append_assoc]
      · rw [Call.runAll, hrun]
        exact hmore cs new' _ hrest

end

end

mutual

/-- Whether a root is printed when the call is made, also by a call inside it. -/
def Call.prints : Call → Bool
  | .print _ => true
  | .indented cs => Call.anyPrints cs
  | _ => false

/-- Calls after `fail` are not made. -/
def Call.anyPrints : List Call → Bool
  | [] => false
  | .fail _ :: _ => false
  | c :: cs => c.prints || Call.anyPrints cs

end

mutual

/-- For each step that the call leaves behind, in order, how many levels are open around it by then, if
there are `k` around the call. -/
def Call.levels (k : Nat) : Call → List Nat
  | .indented cs => Call.allLevels (k + 1) cs ++ [k]
  | .fail _ => []
  | _ => [k]

def Call.allLevels (k : Nat) : List Call → List Nat
  | [] => []
  | .fail _ :: _ => []
  | c :: cs => c.levels k ++ Call.allLevels k cs

end

def Call.error? : Call → Option PrintError
  | .fail e => some e
  | _ => none

/-- The error that the calls end with by themselves. -/
def Call.ownError? (cs : List Call) : Option PrintError := cs.findSome? Call.error?

section
variable {options : PrintOptions} {c : Call} {s : PrintState} {step : Step}

theorem Call.depth_simple (h : c.simple? options s = some step) :
    step.state.sink.depth = s.sink.depth := by
  cases c with
  | comment c =>
    obtain rfl := Option.some.inj h
    exact Printer.printComment_depth _ c s
  | write t | writeLine t =>
    obtain rfl := Option.some.inj h
    exact s.write_depth t
  | newline | options | skip =>
    obtain rfl := Option.some.inj h
    rfl
  | print | printNode | indented | fail => cases h

theorem Call.anyPrints_simple (h : c.simple? options s = some step) (cs : List Call) :
    Call.anyPrints (c :: cs) = Call.anyPrints cs := by
  cases c with
  | comment | write | writeLine | newline | options | skip => rfl
  | print | printNode | indented | fail => cases h

theorem Call.allLevels_simple (h : c.simple? options s = some step) (k : Nat) (cs : List Call) :
    Call.allLevels k (c :: cs) = k :: Call.allLevels k cs := by
  cases c with
  | comment | write | writeLine | newline | options | skip => rfl
  | print | printNode | indented | fail => cases h

theorem Call.ownError?_simple (h : c.simple? options s = some step) (cs : List Call) :
    Call.ownError? (c :: cs) = Call.ownError? cs := by
  cases c with
  | comment | write | writeLine | newline | options | skip => rfl
  | print | printNode | indented | fail => cases h

end

theorem Outcome.closeLevel_depth (o : Outcome) :
    o.closeLevel.state.sink.depth = o.state.sink.depth - 1 := by
  rw [o.closeLevel_state]
  cases hdepth : o.state.sink.depth with
  | zero => simp [Sink.unindent?, hdepth]
  | succ d => rw [Sink.unindent?_eq hdepth]; rfl

namespace Call.MayRun

variable {options : PrintOptions} {cs : List Call} {s : PrintState} {steps : List Step} {o : Outcome}

/-- Calls leave the depth as it was, unless one of them prints a root; then they leave no level open. -/
theorem depth (h : MayRun options cs s steps o) :
    o.state.sink.depth = if Call.anyPrints cs then 0 else s.sink.depth := by
  induction h with
  | nil | fail => rfl
  | simple h _ ih => rw [ih, Call.anyPrints_simple h, Call.depth_simple h]
  | print _ _ _ ih =>
    -- nothing after the pass can bring the levels back
    rw [ih]
    have hzero : ∀ o : Outcome, o.passStep.state.sink.depth = 0 := fun _ => rfl
    rw [hzero, ite_self]
    rfl
  | printNode h _ ih =>
    rw [ih, h.kept .depth]
    rfl
  | @indented inside cs s inner _ _ _ h _ ih ihrest =>
    have hprints : Call.anyPrints (.indented inside :: cs) =
        (Call.anyPrints inside || Call.anyPrints cs) := rfl
    have hindent : s.sink.indent.depth = s.sink.depth + 1 := rfl
    rw [ihrest, inner.closeLevel_depth, ih, hindent, hprints]
    cases Call.anyPrints inside <;> simp

theorem error? (h : MayRun options cs s steps o) : o.error? = Call.ownError? cs := by
  induction h with
  | nil | fail => rfl
  | simple h _ ih => rw [ih, Call.ownError?_simple h]
  | print _ _ _ ih | printNode _ _ ih | indented _ _ _ ih => exact ih

/-- After every step there are no more levels in the depth than are open around the call. -/
theorem forall₂_levels (h : MayRun options cs s steps o) {k : Nat} (hk : s.sink.depth ≤ k) :
    List.Forall₂ (fun step k => step.state.sink.depth ≤ k) steps (Call.allLevels k cs) := by
  induction h generalizing k with
  | nil | fail => exact .nil
  | simple h _ ih =>
    rw [Call.allLevels_simple h]
    have hdepth := Call.depth_simple h ▸ hk
    exact .cons hdepth (ih hdepth)
  | print _ _ _ ih => exact .cons (Nat.zero_le k) (ih (Nat.zero_le k))
  | printNode h _ ih =>
    have hdepth := h.kept .depth ▸ hk
    exact .cons hdepth (ih hdepth)
  | @indented inside cs s inner _ steps steps' h _ ih ihrest =>
    have hclosed : inner.closeLevel.state.sink.depth ≤ k := by
      have hinner := h.depth
      have hindent : s.sink.indent.depth = s.sink.depth + 1 := rfl
      rw [inner.closeLevel_depth, hinner, hindent]
      split <;> omega
    have hlevels : Call.allLevels k (.indented inside :: cs) =
        Call.allLevels (k + 1) inside ++ k :: Call.allLevels k cs := by
      simp [Call.allLevels, Call.levels]
    rw [hlevels]
    refine List.rel_append (ih (Nat.succ_le_succ hk)) ?_
    exact .cons hclosed (ihrest hclosed)

/-- How a call that opened a level ends: with the error of the calls inside it, or with an underflow if
one of them has printed a root, or well. -/
theorem result_indented {inside : List Call}
    (h : MayRun options inside { s with sink := s.sink.indent } steps o) :
    o.closeLevel.step.result = match Call.ownError? inside with
      | some e => .error e
      | none => if Call.anyPrints inside then .error .indentUnderflow else .nothing := by
  have herror := h.error?
  have hdepth : o.state.sink.depth = if Call.anyPrints inside then 0 else s.sink.depth + 1 := h.depth
  rw [← herror]
  cases o with
  | failed e s' => rfl
  | done s' =>
    change s'.sink.depth = _ at hdepth
    split at hdepth
    · next hprints =>
      have hnone : s'.sink.unindent? = none := by rw [Sink.unindent?, hdepth]
      rw [Outcome.closeLevel, hnone]
      exact (if_pos hprints).symm
    · next hprints =>
      rw [Outcome.closeLevel, Sink.unindent?_eq hdepth]
      exact (if_neg hprints).symm

end Call.MayRun

/-- Levels are opened and closed in order, over any session of calls nested in each other and under any
conduct of the decorator, failures included; the session of a printer with its own decorator is among
these. After every call there are at most as many levels in the depth as are open around it, so none
where none is. To print a node leaves the depth as it was. A call that opens a level, and whose inner
calls do not end with an error of their own, fails exactly if one of them printed a root, and then with
an underflow. -/
theorem Printer.session_levels (p : Printer) (calls : List Call) :
    Call.MayRun p.options calls p.init (p.session calls).steps.reverse (p.session calls).outcome ∧
    (∀ steps o, Call.MayRun p.options calls p.init steps o →
      List.Forall₂ (fun step k => step.state.sink.depth ≤ k) steps (Call.allLevels 0 calls) ∧
      o.state.sink.depth = 0) ∧
    (∀ n s, Job.MayEnd p.options (.layout (n.layout s.parents [])) s (p.printNode n s)) ∧
    (∀ (n : Node) path s o, Job.MayEnd p.options (.layout (n.layout s.parents path)) s o →
      o.state.sink.depth = s.sink.depth) ∧
    ∀ inside s steps o, Call.MayRun p.options [.indented inside] s steps o →
      ∃ before last, steps = before ++ [last] ∧
        (Call.ownError? inside = none →
          ((∃ e, last.result = .error e) ↔ Call.anyPrints inside = true) ∧
          (last.result = .error .indentUnderflow ↔ Call.anyPrints inside = true)) := by
  have hdepth : p.init.sink.depth = 0 := rfl
  refine ⟨?_, fun steps o h => ?_, fun n s => p.mayEnd_runAll _ s, fun n path s o h => h.kept .depth,
    fun inside s steps o h => ?_⟩
  · obtain ⟨new, hsteps, hrun⟩ := Call.mayRun_runAll p calls [] p.init
    rw [Printer.session, hsteps, List.append_nil, List.reverse_reverse]
    exact hrun
  · refine ⟨h.forall₂_levels (Nat.le_of_eq hdepth), ?_⟩
    rw [h.depth, hdepth, ite_self]
  · cases h with
    | simple h _ => cases h
    | @indented _ _ _ inner _ steps _ h hrest =>
      cases hrest with
      | nil =>
        refine ⟨steps, inner.closeLevel.step, rfl, fun hown => ?_⟩
        rw [h.result_indented, hown]
        cases Call.anyPrints inside <;> simp

end JavaText
