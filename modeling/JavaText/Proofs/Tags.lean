import Mathlib.Tactic.Ring
import JavaText.Proofs.Script

/-!
# Deleting what a wrapper wrote

The text of a script falls into pieces, and the wrapper's own texts are among them; deleting those
should leave the text printed without a wrapper. Indentation can spoil this: it is written at the first
text of a line, so a tag that opens a line takes the indentation of that moment, and without the tag the
line may stay empty or begin at a lower level. `Margins` counts the units of indentation that stand only
because of a tag, and `Doc.Laid.kept_eq_iff` says that deletion leaves the plain text exactly if there
is none, or if a unit is no text at all.
-/

namespace JavaText

/-- A part of a text that is written at one go; `own` tells whether it is one of the wrapper's. -/
structure Piece where
  own : Bool
  text : String

def Piece.joined (ps : List Piece) : String := String.join (ps.map Piece.text)

/-- The text that is left when the wrapper's pieces are deleted. -/
def Piece.kept (ps : List Piece) : String := joined (ps.filter fun p => !p.own)

theorem Piece.joined_append (ps qs : List Piece) : joined (ps ++ qs) = joined ps ++ joined qs := by
  rw [joined, List.map_append, String.join_append, joined, joined]

theorem Piece.kept_append (ps qs : List Piece) : kept (ps ++ qs) = kept ps ++ kept qs := by
  rw [kept, List.filter_append, joined_append, kept, kept]

namespace Sink

/-- What an operation adds to the text. Indentation is nobody's own. -/
def pieces (s : Sink) : Op → List Piece
  | .write own t => (if s.atStart then [⟨false, s.margin⟩] else []) ++ [⟨own, t⟩]
  | .newline => [⟨false, s.newLine⟩]
  | .indent | .unindent | .comment .. | .decorate .. => []

def allPieces (s : Sink) : List Op → List Piece
  | [] => []
  | op :: ops => s.pieces op ++ (s.perform op).allPieces ops

theorem text_perform (s : Sink) (op : Op) :
    (s.perform op).text = s.text ++ Piece.joined (s.pieces op) := by
  cases op with
  | write own t =>
    simp only [perform, write, pieces]
    split <;> simp [Piece.joined, String.join_cons, String.join_nil, String.append_assoc]
  | newline => simp [perform, newline, pieces, Piece.joined, String.join_cons, String.join_nil]
  | indent | unindent | comment | decorate =>
    simp [perform, indent, pieces, Piece.joined, String.join_nil]

/-- The text is what its pieces make. -/
theorem text_foldl (ops : List Op) (s : Sink) :
    (ops.foldl perform s).text = s.text ++ Piece.joined (s.allPieces ops) := by
  induction ops generalizing s with
  | nil => exact String.append_empty.symm
  | cons op ops ih =>
    rw [List.foldl_cons, ih, text_perform, allPieces, Piece.joined_append, String.append_assoc]

end Sink

namespace Op

def isOwn : Op → Bool
  | .write own _ => own
  | .newline | .indent | .unindent | .comment .. | .decorate .. => false

/-- The operation with an empty text in place of one of the wrapper's. -/
def blank : Op → Op
  | .write true _ => .write true ""
  | op => op

end Op

theorem Sink.perform_blank (s : Sink) (x : String) (op : Op) :
    Sink.perform { s with text := x } op.blank =
      { s.perform op with text := x ++ Piece.kept (s.pieces op) } := by
  cases op with
  | write own t =>
    cases own <;> simp only [Op.blank, perform, write, margin, pieces] <;> split <;>
      simp [Piece.kept, Piece.joined, String.join_cons, String.join_nil, String.append_assoc]
  | newline =>
    simp [Op.blank, perform, newline, pieces, Piece.kept, Piece.joined, String.join_cons,
      String.join_nil]
  | indent | unindent | comment | decorate =>
    simp [Op.blank, perform, indent, pieces, Piece.kept, Piece.joined, String.join_nil]

/-- To delete the wrapper's pieces is to write empty texts in their place. -/
theorem Sink.text_foldl_blank (ops : List Op) (s : Sink) (x : String) :
    ((ops.map Op.blank).foldl perform { s with text := x }).text =
      x ++ Piece.kept (s.allPieces ops) := by
  induction ops generalizing s x with
  | nil => exact String.append_empty.symm
  | cons op ops ih =>
    rw [List.map_cons, List.foldl_cons, perform_blank, ih, allPieces, Piece.kept_append,
      String.append_assoc]

section
variable (w : Wrapper) (comments : Bool)

theorem Comment.filter_ops (c : Comment) : (c.ops.filter fun op => !op.isOwn) = c.ops := by
  unfold Comment.ops
  cases c.kind <;> rfl

theorem Op.filter_own (ts : List String) :
    ((ts.map (Op.write true)).filter fun op => !op.isOwn) = [] := by
  simp [isOwn]

mutual

theorem Doc.filter_script (d : Doc) :
    ((d.script w comments).filter fun op => !op.isOwn) = d.script .plain comments := by
  cases d with
  | write | newline | abort => rfl
  | comment orphan c =>
    cases comments with
    | false => rfl
    | true => exact congrArg (Op.comment orphan c :: ·) c.filter_ops
  | indented ds =>
    rw [script, script, List.filter_append, List.filter_append, filter_scriptAll ds]
    rfl
  | decorated role n ds =>
    rw [script, script, List.filter_append, List.filter_append, List.filter_append, Op.filter_own,
      Op.filter_own, filter_scriptAll ds]
    rfl

/-- The script without the wrapper's texts is the script without a wrapper. -/
theorem Doc.filter_scriptAll (ds : List Doc) :
    ((scriptAll w comments ds).filter fun op => !op.isOwn) = scriptAll .plain comments ds := by
  cases ds with
  | nil => rfl
  | cons d ds => rw [scriptAll, scriptAll, List.filter_append, filter_script d, filter_scriptAll ds]

end

end

/-- What has been written on the current line. -/
inductive LineStart where
  | fresh
  /-- Only texts of the wrapper, the first of them at this depth. -/
  | tagged (depth : Nat)
  | begun
deriving DecidableEq, Repr

/-- The depth, the current line, and the units of indentation on the lines before that stand there only
because of a text of the wrapper. -/
structure Margins where
  depth : Nat := 0
  line : LineStart := .fresh
  stray : Nat := 0
deriving DecidableEq, Repr

namespace Margins

/-- The units of indentation before the wrapper's texts on a line with nothing else. -/
def pending (m : Margins) : Nat :=
  match m.line with
  | .tagged d => d
  | .fresh | .begun => 0

/-- The stray units if nothing else is written on the current line. -/
def total (m : Margins) : Nat := m.stray + m.pending

def step (m : Margins) : Op → Margins
  | .write true _ => if m.line = .fresh then { m with line := .tagged m.depth } else m
  -- Without the wrapper the line would get the indentation of this moment.
  | .write false _ => { m with line := .begun, stray := m.stray + (m.pending - m.depth) }
  | .newline => { m with line := .fresh, stray := m.total }
  | .indent => { m with depth := m.depth + 1 }
  | .unindent => { m with depth := m.depth - 1 }
  | .comment .. | .decorate .. => m

end Margins

/-- The stray units of indentation in the text of a script. -/
def Op.stray (ops : List Op) : Nat := (ops.foldl Margins.step {}).total

theorem length_units (n : Nat) (u : String) :
    (String.join (List.replicate n u)).length = n * u.length := by
  induction n with
  | zero => simp
  | succ n ih =>
    rw [List.replicate_succ, String.join_cons, String.length_append, ih, Nat.succ_mul, Nat.add_comm]

theorem units_eq_empty {n : Nat} {u : String} (h : u = "" ∨ n = 0) :
    String.join (List.replicate n u) = "" := by
  rw [← String.length_eq_zero_iff, length_units]
  rcases h with rfl | rfl
  · rfl
  · exact Nat.zero_mul _

/-- `k` is the text with empty texts in place of the wrapper's, `s` the text without a wrapper, and `m`
accounts for the difference. -/
structure Margins.Tracks (m : Margins) (k s : Sink) : Prop where
  unit : k.unit = s.unit
  newLine : k.newLine = s.newLine
  keptDepth : k.depth = m.depth
  depth : s.depth = m.depth
  keptStart : k.atStart = decide (m.line = .fresh)
  start : s.atStart = decide (m.line ≠ .begun)
  /-- The depth only falls behind a text of the wrapper that opens a line. -/
  falls : m.line = .tagged m.pending → m.depth ≤ m.pending
  length : k.text.length = s.text.length + m.total * s.unit.length
  text : s.unit = "" ∨ m.stray = 0 →
    k.text = s.text ++ String.join (List.replicate m.pending s.unit)

namespace Margins.Tracks

variable {m : Margins} {k s : Sink}

theorem margin_eq (h : m.Tracks k s) : k.margin = s.margin := by
  rw [Sink.margin, Sink.margin, h.keptDepth, h.depth, h.unit]

theorem length_margin (h : m.Tracks k s) : s.margin.length = m.depth * s.unit.length := by
  rw [Sink.margin, length_units, h.depth]

theorem write_own (h : m.Tracks k s) (t : String) :
    (m.step (.write true t)).Tracks (k.write "") s := by
  rw [Sink.write_eq, step]
  split
  · next hfresh =>
    have hlead : k.lead = s.margin := by simp [Sink.lead, h.keptStart, hfresh, h.margin_eq]
    have hpending : m.pending = 0 := by simp [pending, hfresh]
    rw [hlead]
    refine ⟨h.unit, h.newLine, h.keptDepth, h.depth, by simp, by simp [h.start, hfresh],
      fun _ => Nat.le_refl _, ?_, fun hstray => ?_⟩
    · rw [String.append_empty, String.length_append, h.length, h.length_margin, total, total,
        hpending, pending]
      ring
    · rw [h.text hstray, hpending, units_eq_empty (.inr rfl), String.append_empty,
        String.append_empty, Sink.margin, h.depth]
      rfl
  · next hfresh =>
    have hlead : k.lead = "" := by simp [Sink.lead, h.keptStart, hfresh]
    rw [hlead, String.append_empty, String.append_empty]
    exact { h with keptStart := by simp [hfresh] }

/-- A text behind one of the wrapper's that opened the line: without the wrapper it is this text that
takes the indentation. -/
theorem write_tagged (h : m.Tracks k s) (t : String) (htagged : m.line = .tagged m.pending) :
    (m.step (.write false t)).Tracks (k.write t) (s.write t) := by
  have hkept : k.lead = "" := by simp [Sink.lead, h.keptStart, htagged]
  have hlead : s.lead = s.margin := by simp [Sink.lead, h.start, htagged]
  obtain ⟨e, he⟩ := Nat.exists_eq_add_of_le (h.falls htagged)
  have hdiff : m.pending - m.depth = e := by omega
  rw [Sink.write_eq, Sink.write_eq, hkept, hlead, String.append_empty, step, hdiff]
  refine ⟨h.unit, h.newLine, h.keptDepth, h.depth, rfl, rfl, by rintro ⟨⟩, ?_, fun hstray => ?_⟩
  · rw [String.length_append, String.length_append, String.length_append, h.length,
      h.length_margin, total, he, total, pending]
    ring
  · have hunits : String.join (List.replicate m.pending s.unit) = s.margin := by
      rw [Sink.margin, h.depth]
      rcases hstray with hunit | hnone
      · rw [units_eq_empty (.inl hunit), units_eq_empty (.inl hunit)]
      · rw [he, (Nat.add_eq_zero_iff.mp hnone).2, Nat.add_zero]
    rw [h.text (hstray.imp_right fun hnone => (Nat.add_eq_zero_iff.mp hnone).1), hunits]
    exact String.append_empty.symm

theorem write_other (h : m.Tracks k s) (t : String) (hpending : m.pending = 0)
    (hstart : k.atStart = s.atStart) : (m.step (.write false t)).Tracks (k.write t) (s.write t) := by
  have hlead : k.lead = s.lead := by rw [Sink.lead, Sink.lead, hstart, h.margin_eq]
  rw [Sink.write_eq, Sink.write_eq, hlead, step, hpending, Nat.zero_sub, Nat.add_zero]
  refine ⟨h.unit, h.newLine, h.keptDepth, h.depth, rfl, rfl, by rintro ⟨⟩, ?_, fun hstray => ?_⟩
  · rw [String.length_append, String.length_append, String.length_append, String.length_append,
      h.length, total, hpending, total, pending]
    ring
  · rw [h.text hstray, hpending, units_eq_empty (.inr rfl), String.append_empty]
    exact String.append_empty.symm

theorem write (h : m.Tracks k s) (t : String) :
    (m.step (.write false t)).Tracks (k.write t) (s.write t) := by
  cases hline : m.line with
  | fresh =>
    exact h.write_other t (by simp [pending, hline]) (by simp [h.keptStart, h.start, hline])
  | tagged d => exact h.write_tagged t (by simp [pending, hline])
  | begun =>
    exact h.write_other t (by simp [pending, hline]) (by simp [h.keptStart, h.start, hline])

theorem newline (h : m.Tracks k s) : (m.step .newline).Tracks k.newline s.newline := by
  refine ⟨h.unit, h.newLine, h.keptDepth, h.depth, rfl, rfl, by rintro ⟨⟩, ?_, fun hstray => ?_⟩
  · have htotal : (m.step .newline).total = m.total := rfl
    rw [htotal, Sink.newline, Sink.newline, String.length_append, String.length_append, h.length,
      h.newLine, Nat.add_right_comm]
  · have hstray' : s.unit = "" ∨ m.stray = 0 :=
      hstray.imp_right fun hnone => (Nat.add_eq_zero_iff.mp hnone).1
    have hunits : String.join (List.replicate m.pending s.unit) = "" :=
      units_eq_empty (hstray.imp_right fun hnone => (Nat.add_eq_zero_iff.mp hnone).2)
    rw [Sink.newline, Sink.newline, h.text hstray', hunits, String.append_empty, h.newLine]
    exact String.append_empty.symm

/-- A level opens on a line with nothing on it. -/
theorem indent (h : m.Tracks k s) (hfresh : m.line = .fresh) :
    (m.step .indent).Tracks k.indent s.indent where
  __ := h
  keptDepth := congrArg (· + 1) h.keptDepth
  depth := congrArg (· + 1) h.depth
  falls htagged := by simp [step, hfresh] at htagged

theorem unindent (h : m.Tracks k s) :
    (m.step .unindent).Tracks (k.perform .unindent) (s.perform .unindent) where
  __ := h
  keptDepth := congrArg (· - 1) h.keptDepth
  depth := congrArg (· - 1) h.depth
  falls htagged := (Nat.sub_le _ _).trans (h.falls htagged)

end Margins.Tracks

/-- The operations keep the account whatever was done before. -/
def Op.Tracked (ops : List Op) : Prop :=
  ∀ m k s, Margins.Tracks m k s → (ops.foldl Margins.step m).Tracks
    ((ops.map blank).foldl Sink.perform k) ((ops.filter fun op => !op.isOwn).foldl Sink.perform s)

namespace Op.Tracked

theorem nil : Tracked [] := fun _ _ _ h => h

theorem append {ops ops' : List Op} (h : Tracked ops) (h' : Tracked ops') : Tracked (ops ++ ops') := by
  intro m k s hm
  rw [List.foldl_append, List.map_append, List.foldl_append, List.filter_append, List.foldl_append]
  exact h' _ _ _ (h m k s hm)

theorem own (ts : List String) : Tracked (ts.map (.write true)) := by
  induction ts with
  | nil => exact nil
  | cons t ts ih =>
    have hfirst : Tracked [.write true t] := fun _ _ _ h => h.write_own t
    exact hfirst.append ih

theorem write (t : String) : Tracked [.write false t] := fun _ _ _ h => h.write t

theorem newline : Tracked [.newline] := fun _ _ _ h => h.newline

theorem comment (orphan : Bool) (c : Comment) : Tracked [.comment orphan c] := fun _ _ _ h => h

theorem ops (c : Comment) : Tracked c.ops := by
  unfold Comment.ops
  cases c.kind with
  | line => exact append (write _) (append (write _) newline)
  | block | doc => exact append (write _) (append (write _) (append (write _) newline))

end Op.Tracked

/-- The script of a layout of rules keeps the account: levels open only at the start of a line. -/
theorem Doc.Laid.tracked {Q : List Doc → Prop} {ds : List Doc} (h : Doc.Laid Q ds) (w : Wrapper)
    (comments : Bool) : Op.Tracked (Doc.scriptAll w comments ds) := by
  induction h with
  | nil => exact .nil
  | append _ _ iha ihb =>
    rw [Doc.scriptAll_append]
    exact iha.append ihb
  | write t => exact .write t
  | newline => exact .newline
  | comment orphan c =>
    rw [Doc.scriptAll_singleton]
    cases comments with
    | false => exact .comment orphan c
    | true => exact (Op.Tracked.comment orphan c).append (.ops c)
  | deeper _ ih =>
    rw [Doc.scriptAll_deeper]
    refine Op.Tracked.append (Op.Tracked.append ?_ ih) fun _ _ _ hm => hm.unindent
    exact fun _ _ _ hm => hm.newline.indent rfl
  | decorated role n _ _ ih =>
    rw [Doc.scriptAll_singleton, Doc.script]
    exact Op.Tracked.append (.append (.append (fun _ _ _ hm => hm) (.own _)) ih) (.own _)

theorem Sink.unit_foldl (ops : List Op) (s : Sink) : (ops.foldl perform s).unit = s.unit := by
  induction ops generalizing s with
  | nil => rfl
  | cons op ops ih =>
    rw [List.foldl_cons, ih]
    cases op with
    | write own t => rw [perform, write_eq]
    | newline | indent | unindent | comment | decorate => rfl

/-- Deleting the wrapper's texts leaves the text printed without a wrapper exactly if no unit of
indentation is stray, or units are empty. -/
theorem Doc.Laid.kept_eq_iff {Q : List Doc → Prop} {ds : List Doc} (h : Doc.Laid Q ds) (w : Wrapper)
    (comments : Bool) (u nl : String) :
    Piece.kept (Sink.allPieces { unit := u, newLine := nl } (scriptAll w comments ds)) =
        ((scriptAll .plain comments ds).foldl Sink.perform { unit := u, newLine := nl }).text ↔
      u = "" ∨ Op.stray (scriptAll w comments ds) = 0 := by
  have hstart : Margins.Tracks {} { unit := u, newLine := nl } { unit := u, newLine := nl } :=
    ⟨rfl, rfl, rfl, rfl, rfl, rfl, by rintro ⟨⟩, by simp [Margins.total, Margins.pending],
      fun _ => by simp [Margins.pending]⟩
  have hend := h.tracked w comments _ _ _ hstart
  have hkept := Sink.text_foldl_blank (scriptAll w comments ds) { unit := u, newLine := nl } ""
  have hunit := Sink.unit_foldl (scriptAll .plain comments ds) { unit := u, newLine := nl }
  rw [String.empty_append] at hkept
  rw [filter_scriptAll] at hend
  rw [← hkept]
  constructor
  · intro heq
    have hlength := hend.length
    rw [heq, hunit] at hlength
    have hzero : Op.stray (scriptAll w comments ds) * u.length = 0 :=
      Nat.left_eq_add.mp hlength
    exact (Nat.mul_eq_zero.mp hzero).symm.imp_left String.length_eq_zero_iff.mp
  · intro hnone
    have hzero : u = "" ∨ _ ∧ _ := hnone.imp_right Nat.add_eq_zero_iff.mp
    have htext := hend.text (hunit ▸ hzero.imp_right And.left)
    rw [htext, hunit, units_eq_empty (hzero.imp_right And.right), String.append_empty]

end JavaText
