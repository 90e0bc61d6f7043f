import JavaText.Proofs.Script

/-!
# Nested brackets

`Bracketed` says by a grammar which words are properly nested; to read a word with a stack of the
brackets that are open comes to the same (`bracketed_iff`). What a text does to the stack does not
depend on what is printed before it, so a script can be read text by text, and a layout that leaves
every stack as it was (`Doc.Closed`) may stand anywhere.
-/

namespace JavaText

/-- The three pairs of brackets. -/
inductive Bracket where
  | round
  | square
  | curly
deriving DecidableEq, Repr

namespace Bracket

def opening : Bracket → Char
  | .round => '('
  | .square => '['
  | .curly => '\x7b'

def closing : Bracket → Char
  | .round => ')'
  | .square => ']'
  | .curly => '\x7d'

end Bracket

/-- The character is none of the brackets. -/
def noBracket (c : Char) : Bool := !(['(', ')', '[', ']', '\x7b', '\x7d'].contains c)

/-- There is no bracket in the text. -/
def bracketFree (t : String) : Bool := t.toList.all noBracket

/-- Every bracket is closed by its own kind, in the right order. -/
inductive Bracketed : List Char → Prop
  | nil : Bracketed []
  | other {c : Char} {w : List Char} (hc : noBracket c = true) (hw : Bracketed w) : Bracketed (c :: w)
  | pair (b : Bracket) {u w : List Char} (hu : Bracketed u) (hw : Bracketed w) :
    Bracketed (b.opening :: u ++ b.closing :: w)

theorem Bracketed.append {u w : List Char} (hu : Bracketed u) (hw : Bracketed w) :
    Bracketed (u ++ w) := by
  induction hu with
  | nil => exact hw
  | other hc _ ih => exact .other hc ih
  | pair b hu _ _ ih =>
    have h := Bracketed.pair b hu ih
    simpa using h

theorem exists_bracket {c : Char} (hc : ¬ noBracket c = true) :
    ∃ b : Bracket, c = b.opening ∨ c = b.closing := by
  rw [noBracket, Bool.not_eq_true', Bool.not_eq_false, List.contains_iff_mem] at hc
  simp only [List.mem_cons, List.not_mem_nil, or_false] at hc
  rcases hc with rfl | rfl | rfl | rfl | rfl | rfl
  · exact ⟨.round, .inl rfl⟩
  · exact ⟨.round, .inr rfl⟩
  · exact ⟨.square, .inl rfl⟩
  · exact ⟨.square, .inr rfl⟩
  · exact ⟨.curly, .inl rfl⟩
  · exact ⟨.curly, .inr rfl⟩

/-- The brackets that are open, the last one first; `none` after one that was closed by another kind. -/
abbrev Nesting := Option (List Bracket)

namespace Nesting

def enter (x : Nesting) (b : Bracket) : Nesting := x.map (b :: ·)

def leave (x : Nesting) (b : Bracket) : Nesting := x.bind fun bs =>
  if bs.head? = some b then some bs.tail else none

@[simp] theorem leave_enter (x : Nesting) (b : Bracket) : (x.enter b).leave b = x := by
  cases x <;> simp [enter, leave]

/-- The nesting behind a character. -/
def step (x : Nesting) (c : Char) : Nesting :=
  if c = '(' then x.enter .round
  else if c = ')' then x.leave .round
  else if c = '[' then x.enter .square
  else if c = ']' then x.leave .square
  else if c = '\x7b' then x.enter .curly
  else if c = '\x7d' then x.leave .curly
  else x

theorem step_opening (x : Nesting) (b : Bracket) : x.step b.opening = x.enter b := by
  cases b <;> rfl

theorem step_closing (x : Nesting) (b : Bracket) : x.step b.closing = x.leave b := by
  cases b <;> rfl

theorem step_noBracket {c : Char} (hc : noBracket c = true) (x : Nesting) : x.step c = x := by
  simp only [noBracket, List.contains_cons, List.contains_nil, Bool.not_or, Bool.and_eq_true,
    Bool.not_eq_true', beq_eq_false_iff_ne] at hc
  simp [step, hc]

theorem foldl_step_none (w : List Char) : w.foldl step none = none := by
  induction w with
  | nil => rfl
  | cons c w ih =>
    have hstep : step none c = none := by
      unfold step
      repeat' split
      all_goals rfl
    rw [List.foldl_cons, hstep, ih]

end Nesting

/-- Behind the word the listed brackets are closed, the first one first, and in between it is properly
nested. -/
inductive Closes : List Bracket → List Char → Prop
  | nil {w : List Char} (hw : Bracketed w) : Closes [] w
  | cons (b : Bracket) {bs : List Bracket} {u w : List Char} (hu : Bracketed u) (hw : Closes bs w) :
    Closes (b :: bs) (u ++ b.closing :: w)

theorem Closes.prepend {bs : List Bracket} {u w : List Char} (hu : Bracketed u) (hw : Closes bs w) :
    Closes bs (u ++ w) := by
  cases hw with
  | nil hw => exact .nil (hu.append hw)
  | cons b hv hw =>
    rw [← List.append_assoc]
    exact .cons b (hu.append hv) hw

/-- A stack that a word empties is closed by it. -/
theorem Closes.of_foldl (w : List Char) {bs : List Bracket}
    (h : w.foldl Nesting.step (some bs) = some []) : Closes bs w := by
  induction w generalizing bs with
  | nil =>
    obtain rfl : bs = [] := Option.some.inj h
    exact .nil .nil
  | cons c w ih =>
    rw [List.foldl_cons] at h
    by_cases hc : noBracket c = true
    · rw [Nesting.step_noBracket hc] at h
      exact (ih h).prepend (.other hc .nil)
    · obtain ⟨b, rfl | rfl⟩ := exists_bracket hc
      · rw [Nesting.step_opening] at h
        cases ih h with
        | cons _ hu hw => simpa using hw.prepend (.pair b hu .nil)
      · rw [Nesting.step_closing, Nesting.leave, Option.bind_some] at h
        split at h
        · next hhead =>
          obtain ⟨bs, rfl⟩ := List.head?_eq_some_iff.mp hhead
          exact .cons b .nil (ih h)
        · rw [Nesting.foldl_step_none] at h
          cases h

theorem Bracketed.foldl {w : List Char} (h : Bracketed w) (x : Nesting) :
    w.foldl Nesting.step x = x := by
  induction h generalizing x with
  | nil => rfl
  | other hc _ ih => rw [List.foldl_cons, Nesting.step_noBracket hc, ih]
  | pair b _ _ ihu ihw =>
    rw [List.foldl_append, List.foldl_cons, List.foldl_cons, Nesting.step_opening, ihu,
      Nesting.step_closing, Nesting.leave_enter, ihw]

/-- A word is properly nested if reading it leaves nothing open and closes nothing else. -/
theorem bracketed_iff {w : List Char} : Bracketed w ↔ w.foldl Nesting.step (some []) = some [] := by
  refine ⟨fun h => h.foldl _, fun h => ?_⟩
  cases Closes.of_foldl w h with
  | nil hw => exact hw

instance (w : List Char) : Decidable (Bracketed w) := decidable_of_iff' _ bracketed_iff

example : ¬ Bracketed ['(', '[', ')', ']'] := by decide

/-- The nesting behind a text. -/
def Nesting.read (x : Nesting) (t : String) : Nesting := t.toList.foldl step x

@[simp] theorem Nesting.read_append (x : Nesting) (t u : String) :
    x.read (t ++ u) = (x.read t).read u := by
  rw [read, String.toList_append, List.foldl_append]
  rfl

theorem Nesting.read_bracketFree {t : String} (ht : bracketFree t = true) (x : Nesting) :
    x.read t = x := by
  rw [bracketFree, List.all_eq_true] at ht
  unfold read
  generalize t.toList = w at ht
  induction w with
  | nil => rfl
  | cons c w ih =>
    rw [List.forall_mem_cons] at ht
    rw [List.foldl_cons, step_noBracket ht.1, ih ht.2]

/-- The nesting behind an operation, as far as it writes a text of its own. -/
def Nesting.follow (x : Nesting) : Op → Nesting
  | .write _ t => x.read t
  | .newline | .indent | .unindent | .comment .. | .decorate .. => x

theorem Sink.bracketFree_margin {s : Sink} (h : bracketFree s.unit = true) :
    bracketFree s.margin = true := by
  unfold bracketFree margin at *
  rw [String.toList_join, List.all_flatMap, List.all_eq_true]
  intro t ht
  rw [List.eq_of_mem_replicate ht, h]

section
variable {s : Sink} (hunit : bracketFree s.unit = true) (hline : bracketFree s.newLine = true)
include hunit hline

theorem Sink.read_perform (op : Op) (x : Nesting) :
    x.read (s.perform op).text = (x.read s.text).follow op := by
  cases op with
  | write own t =>
    have hlead : bracketFree s.lead = true := by
      unfold lead
      split
      · exact bracketFree_margin hunit
      · rfl
    rw [perform, write_eq, Nesting.read_append, Nesting.read_append, Nesting.read_bracketFree hlead]
    rfl
  | newline =>
    rw [perform, newline, Nesting.read_append, Nesting.read_bracketFree hline]
    rfl
  | indent | unindent | comment | decorate => rfl

/-- If neither the indentation nor the line end has brackets, only the texts of a script count. -/
theorem Sink.read_foldl (ops : List Op) (x : Nesting) :
    x.read (ops.foldl perform s).text = ops.foldl Nesting.follow (x.read s.text) := by
  induction ops generalizing s with
  | nil => rfl
  | cons op ops ih =>
    have hkept : (s.perform op).unit = s.unit ∧ (s.perform op).newLine = s.newLine := by
      cases op with
      | write => rw [perform, write_eq]; exact ⟨rfl, rfl⟩
      | newline | indent | unindent | comment | decorate => exact ⟨rfl, rfl⟩
    rw [List.foldl_cons, List.foldl_cons, ih (hkept.1 ▸ hunit) (hkept.2 ▸ hline),
      read_perform hunit hline]

end

end JavaText
