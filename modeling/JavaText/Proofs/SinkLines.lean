import Mathlib.Data.List.DropRight
import JavaText.Print.Basic

/-!
# The sink, line by line

A sink keeps one text, a depth and a flag; seen from outside it is a page of lines. The commands since
the page was last taken are cut at the line ends, and each stretch gives one line: nothing if no text is
written in it, otherwise its texts behind the indentation of the moment at which the first of them is
written (`Sink.lineText`). `Sink.after_eq_page` says that this is what is in the sink after any
commands, and what the depth is and the answers are.
-/

namespace JavaText

namespace Sink

inductive Command where
  | write (t : String)
  | writeLine (t : String)
  | newline
  | indent
  | unindent
  | take
deriving DecidableEq, Repr

inductive Reply where
  | done
  /-- No level was open. -/
  | underflow
  | text (t : String)
deriving DecidableEq, Repr

/-- What a sink answers to a command, and the sink afterwards. -/
def obey (s : Sink) : Command → Reply × Sink
  | .write t => (.done, s.write t)
  | .writeLine t => (.done, s.writeLine t)
  | .newline => (.done, s.newline)
  | .indent => (.done, s.indent)
  | .unindent =>
    match s.unindent? with
    | some s' => (.done, s')
    | none => (.underflow, s)
  | .take => (.text s.text, s.cleared)

def after (s : Sink) (cs : List Command) : Sink := cs.foldl (fun s c => (s.obey c).2) s

def log (s : Sink) : List Command → List (Command × Reply)
  | [] => []
  | c :: cs => (c, (s.obey c).1) :: log (s.obey c).2 cs

theorem after_concat (s : Sink) (cs : List Command) (c : Command) :
    s.after (cs ++ [c]) = ((s.after cs).obey c).2 := List.foldl_concat ..

theorem log_concat (s : Sink) (cs : List Command) (c : Command) :
    s.log (cs ++ [c]) = s.log cs ++ [(c, ((s.after cs).obey c).1)] := by
  induction cs generalizing s with
  | nil => rfl
  | cons d cs ih => exact congrArg _ (ih (s.obey d).2)

namespace Command

/-- A text with a line end is a text and a line end. -/
def parts : Command → List Command
  | .writeLine t => [.write t, .newline]
  | c => [c]

def text? : Command → Option String
  | .write t => some t
  | _ => none

/-- The depth after a command at depth `d`. -/
def level (d : Nat) : Command → Nat
  | .indent => d + 1
  | .unindent => d - 1
  | .take => 0
  | .write _ | .writeLine _ | .newline => d

end Command

/-- The depth after commands that begin at depth `d`. -/
def levelAfter (d : Nat) (cs : List Command) : Nat := cs.foldl Command.level d

/-- The line that commands without a line end make, from depth `d` on. Until the first text only the
depth changes. -/
def lineText (unit : String) (d : Nat) : List Command → String
  | [] => ""
  | c :: cs =>
    match c.text? with
    | none => lineText unit (c.level d) cs
    | some t =>
      String.join (List.replicate d unit) ++ String.join (t :: cs.filterMap Command.text?)

/-- The lines of several stretches, each from the depth at which the one before it ends. -/
def lineTexts (unit : String) (d : Nat) : List (List Command) → List String
  | [] => []
  | cs :: css => lineText unit d cs :: lineTexts unit (levelAfter d cs) css

def stretches (cs : List Command) : List (List Command) :=
  (cs.flatMap Command.parts).splitOn .newline

def page (unit newLine : String) (cs : List Command) : String :=
  newLine.intercalate (lineTexts unit 0 (stretches cs))

theorem levelAfter_append (d : Nat) (cs ds : List Command) :
    levelAfter d (cs ++ ds) = levelAfter (levelAfter d cs) ds := List.foldl_append

theorem lineTexts_concat (unit : String) (d : Nat) (css : List (List Command)) (cs : List Command) :
    lineTexts unit d (css ++ [cs]) =
      lineTexts unit d css ++ [lineText unit (levelAfter d css.flatten) cs] := by
  induction css generalizing d with
  | nil => rfl
  | cons ds css ih =>
    rw [List.cons_append, lineTexts, lineTexts, ih, List.flatten_cons, levelAfter_append]
    rfl

theorem lineText_cons_none (unit : String) (d : Nat) {c : Command} (hc : c.text? = none)
    (cs : List Command) : lineText unit d (c :: cs) = lineText unit (c.level d) cs := by
  rw [lineText, hc]

theorem lineText_cons_some (unit : String) (d : Nat) {c : Command} {t : String} (hc : c.text? = some t)
    (cs : List Command) : lineText unit d (c :: cs) =
      String.join (List.replicate d unit) ++ String.join (t :: cs.filterMap Command.text?) := by
  rw [lineText, hc]

/-- A text is added at the end of its line; the first one comes with the indentation. -/
theorem lineText_write (unit : String) (d : Nat) (cs : List Command) (t : String) :
    lineText unit d (cs ++ [.write t]) =
      lineText unit d cs ++
        (if cs.all (·.text?.isNone) then String.join (List.replicate (levelAfter d cs) unit) else "") ++
          t := by
  induction cs generalizing d with
  | nil => simp [lineText, Command.text?, levelAfter, String.join_cons, String.join_nil]
  | cons c cs ih =>
    cases hc : c.text? with
    | none =>
      rw [List.cons_append, lineText_cons_none unit d hc, lineText_cons_none unit d hc, ih]
      simp only [List.all_cons, hc, Option.isNone_none, Bool.true_and]
      rfl
    | some t' =>
      have hall : (c :: cs).all (·.text?.isNone) = false := by simp [hc]
      rw [List.cons_append, lineText_cons_some unit d hc, lineText_cons_some unit d hc, hall,
        List.filterMap_append, ← List.cons_append, String.join_append]
      simp [Command.text?, String.join_cons, String.join_nil, String.append_assoc]

theorem lineText_silent (unit : String) (d : Nat) (cs : List Command) {c : Command}
    (hc : c.text? = none) : lineText unit d (cs ++ [c]) = lineText unit d cs := by
  induction cs generalizing d with
  | nil => exact lineText_cons_none unit d hc []
  | cons c' cs ih =>
    cases hc' : c'.text? with
    | none => rw [List.cons_append, lineText_cons_none unit d hc', lineText_cons_none unit d hc', ih]
    | some t' =>
      rw [List.cons_append, lineText_cons_some unit d hc', lineText_cons_some unit d hc',
        List.filterMap_append, List.filterMap_cons_none hc]
      simp

theorem levelAfter_flatten_splitOn (d : Nat) (cs : List Command) :
    levelAfter d (cs.splitOn .newline).flatten = levelAfter d cs := by
  induction cs generalizing d with
  | nil => rfl
  | cons c cs ih =>
    obtain ⟨l, ls, hls⟩ := List.exists_cons_of_ne_nil (List.splitOn_ne_nil .newline cs)
    have ih := ih (c.level d)
    rw [List.splitOn_cons_eq_if_modifyHead]
    rw [hls] at ih ⊢
    split
    · next hc =>
      obtain rfl : c = .newline := eq_of_beq hc
      exact ih
    · exact ih

theorem splitOn_concat (cs : List Command) {c : Command} (hc : c ≠ .newline) :
    ∃ ls l, cs.splitOn .newline = ls ++ [l] ∧ (cs ++ [c]).splitOn .newline = ls ++ [l ++ [c]] := by
  induction cs with
  | nil => exact ⟨[], [], rfl, List.splitOn_eq_singleton (by simpa using hc.symm)⟩
  | cons c' cs ih =>
    obtain ⟨ls, l, hcs, hconcat⟩ := ih
    rw [List.cons_append, List.splitOn_cons_eq_if_modifyHead, List.splitOn_cons_eq_if_modifyHead, hcs,
      hconcat]
    split
    · exact ⟨[] :: ls, l, rfl, rfl⟩
    · cases ls with
      | nil => exact ⟨[], c' :: l, rfl, rfl⟩
      | cons l' ls => exact ⟨(c' :: l') :: ls, l, rfl, rfl⟩

theorem intercalate_concat (sep : String) (xs : List String) (x y : String) :
    sep.intercalate (xs ++ [x ++ y]) = sep.intercalate (xs ++ [x]) ++ y := by
  by_cases hxs : xs = []
  · rw [hxs, List.nil_append, List.nil_append, String.intercalate_singleton,
      String.intercalate_singleton]
  · have hne : ∀ z : String, [z] ≠ [] := fun z => List.cons_ne_nil z []
    rw [String.intercalate_append_of_ne_nil hxs (hne _), String.intercalate_append_of_ne_nil hxs (hne _),
      String.intercalate_singleton, String.intercalate_singleton, ← String.append_assoc]

/-- The sink stands at the end of the page of the commands; each of these is a single part. -/
structure Holds (cs : List Command) (s : Sink) : Prop where
  text : s.text = s.newLine.intercalate (lineTexts s.unit 0 (cs.splitOn .newline))
  depth : s.depth = levelAfter 0 cs
  atStart : s.atStart = ((cs.splitOn .newline).getLastD []).all (·.text?.isNone)

namespace Holds

variable {cs : List Command} {s : Sink}

theorem write (h : Holds cs s) (t : String) : Holds (cs ++ [.write t]) (s.write t) := by
  -- The text goes to the last stretch `l`; the lines of the stretches `ls` before it stay as they are.
  obtain ⟨ls, l, hcs, hconcat⟩ := splitOn_concat cs (c := .write t) Command.noConfusion
  have htext := h.text
  have hstart := h.atStart
  rw [hcs, lineTexts_concat] at htext
  rw [hcs, List.getLastD_concat] at hstart
  have hdepth : levelAfter (levelAfter 0 ls.flatten) l = s.depth := by
    rw [h.depth, ← levelAfter_flatten_splitOn 0 cs, hcs, List.flatten_concat, levelAfter_append]
  have hwrite : s.write t =
      { s with
        text := s.text ++ (if l.all (·.text?.isNone) then s.margin else "") ++ t
        atStart := false } := by
    rw [← hstart]
    unfold Sink.write
    cases s.atStart
    · simp
    · rfl
  rw [hwrite]
  refine ⟨?_, ?_, ?_⟩
  · show s.text ++ _ ++ t = s.newLine.intercalate (lineTexts s.unit 0 _)
    rw [hconcat, lineTexts_concat, lineText_write, hdepth, intercalate_concat, intercalate_concat,
      ← htext]
    rfl
  · rw [levelAfter_append]
    exact h.depth
  · rw [hconcat, List.getLastD_concat, List.all_append]
    exact (Bool.and_false _).symm

theorem newline (h : Holds cs s) : Holds (cs ++ [.newline]) s.newline := by
  have hlines : (cs ++ [Command.newline]).splitOn .newline = cs.splitOn .newline ++ [[]] :=
    List.splitOn_append_cons_self cs []
  have hne : lineTexts s.unit 0 (cs.splitOn .newline) ≠ [] := by
    obtain ⟨l, ls, hcs⟩ := List.exists_cons_of_ne_nil (List.splitOn_ne_nil Command.newline cs)
    rw [hcs]
    exact List.cons_ne_nil _ _
  refine ⟨?_, ?_, ?_⟩
  · show s.text ++ s.newLine = s.newLine.intercalate (lineTexts s.unit 0 _)
    rw [hlines, lineTexts_concat, String.intercalate_append_of_ne_nil hne (List.cons_ne_nil _ _),
      ← h.text]
    exact String.append_empty.symm
  · rw [levelAfter_append]
    exact h.depth
  · rw [hlines, List.getLastD_concat]
    rfl

theorem moved (h : Holds cs s) {c : Command} (hc : c.text? = none) (hne : c ≠ .newline) :
    Holds (cs ++ [c]) { s with depth := c.level s.depth } := by
  obtain ⟨ls, l, hcs, hconcat⟩ := splitOn_concat cs hne
  have htext := h.text
  have hstart := h.atStart
  rw [hcs, lineTexts_concat] at htext
  rw [hcs, List.getLastD_concat] at hstart
  refine ⟨?_, ?_, ?_⟩
  · rw [hconcat, lineTexts_concat, lineText_silent _ _ _ hc]
    exact htext
  · rw [levelAfter_append, ← h.depth]
    rfl
  · rw [hconcat, List.getLastD_concat, List.all_append, ← hstart]
    simp [hc]

end Holds

theorem obey_unindent (s : Sink) :
    s.obey .unindent = (if s.depth = 0 then .underflow else .done, { s with depth := s.depth - 1 }) := by
  obtain ⟨unit, newLine, text, depth, atStart⟩ := s
  cases depth <;> rfl

theorem obey_frame (s : Sink) (c : Command) :
    (s.obey c).2.unit = s.unit ∧ (s.obey c).2.newLine = s.newLine ∧
      (s.obey c).2.depth = c.level s.depth := by
  have hwrite : ∀ t, (s.write t).unit = s.unit ∧ (s.write t).newLine = s.newLine ∧
      (s.write t).depth = s.depth := by
    intro t
    unfold write
    split <;> exact ⟨rfl, rfl, rfl⟩
  cases c with
  | write t => exact hwrite t
  | writeLine t => exact hwrite t
  | newline | indent | take => exact ⟨rfl, rfl, rfl⟩
  | unindent =>
    rw [obey_unindent]
    exact ⟨rfl, rfl, rfl⟩

theorem depth_obey (s : Sink) {c : Command} (hc : c ≠ .take) :
    (s.obey c).2.depth + [(c, (s.obey c).1)].count (.unindent, .done) =
      s.depth + [(c, (s.obey c).1)].count (.indent, .done) := by
  rw [(s.obey_frame c).2.2]
  cases c with
  | write | writeLine | newline => simp [Command.level]
  | indent => rfl
  | unindent =>
    rw [obey_unindent]
    by_cases hzero : s.depth = 0
    · simp [Command.level, hzero]
    · have hcount : [(Command.unindent, Reply.done)].count (.unindent, .done) = 1 ∧
          [(Command.unindent, Reply.done)].count (.indent, .done) = 0 := by decide
      rw [if_neg hzero, hcount.1, hcount.2, Command.level]
      omega
  | take => exact absurd rfl hc

/-- The commands since the text was last taken. -/
def recent (cs : List Command) : List Command := cs.rtakeWhile (· != .take)

theorem recent_concat_take (cs : List Command) : recent (cs ++ [.take]) = [] :=
  List.rtakeWhile_concat_neg _ _ _ (by simp)

theorem recent_concat (cs : List Command) {c : Command} (hc : c ≠ .take) :
    recent (cs ++ [c]) = recent cs ++ [c] := List.rtakeWhile_concat_pos _ _ _ (by simpa using hc)

theorem Holds.obey {cs : List Command} {s : Sink} (h : Holds cs s) {c : Command} (hc : c ≠ .take) :
    Holds (cs ++ c.parts) (s.obey c).2 := by
  cases c with
  | write t => exact h.write t
  | writeLine t =>
    have hline := (h.write t).newline
    rw [List.append_assoc] at hline
    exact hline
  | newline => exact h.newline
  | indent => exact h.moved rfl Command.noConfusion
  | unindent =>
    rw [obey_unindent]
    exact h.moved rfl Command.noConfusion
  | take => exact absurd rfl hc

theorem after_frame (s : Sink) (cs : List Command) :
    (s.after cs).unit = s.unit ∧ (s.after cs).newLine = s.newLine := by
  induction cs using List.reverseRecOn with
  | nil => exact ⟨rfl, rfl⟩
  | append_singleton cs c ih =>
    obtain ⟨hunit, hnewLine, -⟩ := obey_frame (s.after cs) c
    rw [after_concat]
    exact ⟨hunit.trans ih.1, hnewLine.trans ih.2⟩

theorem levelAfter_parts (d : Nat) (cs : List Command) :
    levelAfter d (cs.flatMap Command.parts) = levelAfter d cs := by
  induction cs generalizing d with
  | nil => rfl
  | cons c cs ih =>
    rw [List.flatMap_cons, levelAfter_append, ih]
    cases c <;> rfl

def recentLog (log : List (Command × Reply)) : List (Command × Reply) :=
  log.rtakeWhile (·.1 != .take)

section
variable (unit newLine : String) (cs : List Command)

theorem holds_after : Holds ((recent cs).flatMap Command.parts) (after { unit, newLine } cs) := by
  induction cs using List.reverseRecOn with
  | nil => exact ⟨rfl, rfl, rfl⟩
  | append_singleton cs c ih =>
    rw [after_concat]
    by_cases hc : c = .take
    · subst hc
      rw [recent_concat_take]
      exact ⟨rfl, rfl, rfl⟩
    · rw [recent_concat cs hc, List.flatMap_append, List.flatMap_singleton]
      exact ih.obey hc

theorem depth_add_count_unindent :
    (after { unit, newLine } cs).depth +
        (recentLog (log { unit, newLine } cs)).count (.unindent, .done) =
      (recentLog (log { unit, newLine } cs)).count (.indent, .done) := by
  induction cs using List.reverseRecOn with
  | nil => rfl
  | append_singleton cs c ih =>
    rw [after_concat, log_concat]
    by_cases hc : c = .take
    · subst hc
      rw [recentLog, List.rtakeWhile_concat_neg _ _ _ (by simp)]
      rfl
    · have hstep := (after { unit, newLine } cs).depth_obey hc
      rw [recentLog, List.rtakeWhile_concat_pos _ _ _ (by simpa using hc), List.count_append,
        List.count_append, ← recentLog]
      omega

/-- After any commands the sink holds the page of those since it was last taken. Its depth is the number
of levels opened and not closed since then, a level cannot be closed if and only if none is open, which
changes nothing, and taking the text hands it out and leaves a new sink. -/
theorem after_eq_page :
    let fresh : Sink := { unit, newLine }
    let s := fresh.after cs
    let log := recentLog (fresh.log cs)
    s.text = page unit newLine (recent cs) ∧
      s.depth = levelAfter 0 (recent cs) ∧
      s.depth + log.count (.unindent, .done) = log.count (.indent, .done) ∧
      ((s.obey .unindent).1 = .underflow ↔ s.depth = 0) ∧
      (s.depth = 0 → (s.obey .unindent).2 = s) ∧
      s.obey .take = (.text s.text, fresh) := by
  intro fresh s log
  obtain ⟨hunit, hnewLine⟩ : s.unit = unit ∧ s.newLine = newLine := after_frame fresh cs
  have hholds : Holds ((recent cs).flatMap Command.parts) s := holds_after unit newLine cs
  refine ⟨?_, ?_, depth_add_count_unindent unit newLine cs, ?_, ?_, ?_⟩
  · rw [hholds.text, hunit, hnewLine]
    rfl
  · rw [hholds.depth, levelAfter_parts]
  · rw [obey_unindent]
    split <;> simp [*]
  · intro hzero
    have hnone : s.unindent? = none := by rw [unindent?, hzero]
    rw [obey, hnone]
  · show (Reply.text s.text, s.cleared) = _
    rw [cleared, hunit, hnewLine]

example : page "  " "\n" [.newline, .indent, .indent, .write "x", .unindent, .write "y", .newline] =
    "\n    xy\n" := by decide +kernel

end

end Sink

end JavaText
