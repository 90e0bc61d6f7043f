import JavaText.Proofs.Recording
import JavaText.Proofs.Script
import JavaText.Tree.Build

/-!
# Where failures come from

The layout of a pass can always be completed, and every level that printing opens it also closes, so the
only errors are those that calls of the decorator return. The calls of a pass are noted with what
happened inside them (`Ledger.calls`), and the notes account for the error that a pass ends with
(`Printer.accounts_recordPass`): it was made by some call, and all calls around that one returned it too
(`Note.Sound.carries`). A decorator that ignores the failure of its node keeps the error from coming out.
-/

namespace JavaText

/-- Closing a level that is open makes no error. -/
theorem Outcome.closeLevel_error? {o : Outcome} (h : 0 < o.state.sink.depth) :
    o.closeLevel.error? = o.error? := by
  obtain ⟨d, hd⟩ := Nat.exists_eq_add_one.mpr h
  cases o with
  | done s =>
    have hsink : s.sink.unindent? = _ := Sink.unindent?_eq hd
    rw [closeLevel, hsink]
    rfl
  | failed e s => rfl

theorem Outcome.closeLevel_error?_of_eq_some {o : Outcome} {e : PrintError} (h : o.error? = some e) :
    o.closeLevel.error? = some e := by
  cases o with
  | done s => cases h
  | failed e' s => exact h

/-- A decorator that does something one level deeper gets the error of that or none. -/
theorem Printer.error?_indented (p : Printer) (inside : Course) (ds : List Doc) (s : PrintState) :
    (s.indented (inside.run p.options (p.runAll ds))).error? =
      (inside.run p.options (p.runAll ds) { s with sink := s.sink.indent }).error? := by
  exact Outcome.closeLevel_error? (Course.mayEnd_run (p.mayEnd_runAll ds) inside _).depth_pos

/-- What is noted of the decorator. -/
inductive Note where
  /-- A call, what was noted in the meantime, and the error that it returned. -/
  | call (role : Role) (n : Node) (inside : List Note) (error? : Option PrintError)
  /-- The node of the call has been printed, with this error or none. -/
  | printed (error? : Option PrintError)

def Ledger.calls : Ledger Note where
  write _ _ := []
  newline := []
  indent := []
  unindent := []
  comment _ _ _ := []
  decorated role n inside error? := [.call role n inside error?]
  printed error? := [.printed error?]

namespace Note

def returned? : Note → Option PrintError
  | .call _ _ _ error? => error?
  | .printed _ => none

/-- A call that returned the error without having been given it by its node. -/
inductive IsOwn (e : PrintError) : Note → Prop
  | call {inside : List Note} (role : Role) (n : Node) (h : .printed (some e) ∉ inside) :
    IsOwn e (.call role n inside (some e))

/-- A call that returned the error; it is an error of its own, or one that a call inside carried. -/
inductive Carries (e : PrintError) : Note → Prop
  | own {c : Note} (h : c.IsOwn e) : Carries e c
  | through {inside : List Note} {c : Note} (role : Role) (n : Node) (hmem : c ∈ inside)
      (h : Carries e c) : Carries e (.call role n inside (some e))

/-- A call that returned every error that printing its node gave it. -/
def HandsOn : Note → Prop
  | .call _ _ inside error? => ∀ e, .printed (some e) ∈ inside → error? = some e
  | .printed _ => True

/-- A note, or one made inside another, and so on. -/
inductive Among (c : Note) : List Note → Prop
  | here {notes : List Note} (hmem : c ∈ notes) : Among c notes
  | inside {role : Role} {n : Node} {inside : List Note} {error? : Option PrintError}
      {notes : List Note} (hmem : .call role n inside error? ∈ notes) (h : Among c inside) :
    Among c notes

/-- Every call returned the errors that its node gave it. -/
def AllHandOn (notes : List Note) : Prop := ∀ c, Among c notes → c.HandsOn

/-- What a call was given by its node is what calls inside it returned. -/
inductive Sound : Note → Prop
  | call {inside : List Note} (role : Role) (n : Node) (error? : Option PrintError)
      (given : ∀ e, .printed (some e) ∈ inside ↔ ∃ c ∈ inside, c.returned? = some e)
      (sound : ∀ c ∈ inside, c.Sound) : Sound (.call role n inside error?)
  | printed (error? : Option PrintError) : Sound (.printed error?)

variable {e : PrintError} {c : Note} {notes : List Note}

theorem IsOwn.returned?_eq (h : c.IsOwn e) : c.returned? = some e := by
  cases h with
  | call role n h => rfl

theorem Carries.returned?_eq (h : c.Carries e) : c.returned? = some e := by
  cases h with
  | own h => exact h.returned?_eq
  | through role n hmem h => rfl

/-- A returned error can be followed inwards to the call that made it. -/
theorem Sound.carries (hc : c.Sound) (h : c.returned? = some e) : c.Carries e := by
  induction hc with
  | printed => cases h
  | @call inside role n error? given sound ih =>
    -- an error that the call was given was returned by a call inside, which carries it
    obtain rfl : error? = some e := h
    by_cases hgiven : .printed (some e) ∈ inside
    · obtain ⟨c, hmem, hc⟩ := (given e).mp hgiven
      exact .through role n hmem (ih c hmem hc)
    · exact .own (.call role n hgiven)

theorem Carries.exists_isOwn (h : c.Carries e) (hmem : c ∈ notes) :
    ∃ c : Note, c.Among notes ∧ c.IsOwn e := by
  induction h generalizing notes with
  | own h => exact ⟨_, .here hmem, h⟩
  | through role n hinside _ ih =>
    obtain ⟨c, hc, hown⟩ := ih hinside
    exact ⟨c, .inside hmem hc, hown⟩

/-- Where errors are handed on, an error comes out of all the calls around the one that made it. -/
theorem Among.exists_returned (h : c.Among notes) (hown : c.IsOwn e) (hsound : ∀ c ∈ notes, c.Sound)
    (hon : AllHandOn notes) : ∃ c ∈ notes, c.returned? = some e := by
  induction h with
  | here hmem => exact ⟨_, hmem, hown.returned?_eq⟩
  | @inside role n inside error? notes hmem _ ih =>
    cases hsound _ hmem with
    | call _ _ _ given sound =>
      have hgiven := (given e).mpr (ih sound fun c hc => hon c (.inside hmem hc))
      exact ⟨_, hmem, hon _ (.here hmem) e hgiven⟩

namespace AllHandOn

variable {a b inside : List Note}

theorem nil : AllHandOn [] := by
  intro c hc
  cases hc with
  | here hmem | inside hmem => cases hmem

theorem append (ha : AllHandOn a) (hb : AllHandOn b) : AllHandOn (a ++ b) := by
  intro c hc
  cases hc with
  | here hmem => exact (List.mem_append.mp hmem).elim (fun h => ha c (.here h)) fun h => hb c (.here h)
  | inside hmem hc =>
    exact (List.mem_append.mp hmem).elim (fun h => ha c (.inside h hc)) fun h => hb c (.inside h hc)

theorem printed (error? : Option PrintError) : AllHandOn [.printed error?] := by
  intro c hc
  cases hc with
  | here hmem =>
    obtain rfl := List.mem_singleton.mp hmem
    trivial
  | inside hmem => cases List.mem_singleton.mp hmem

theorem call {role : Role} {n : Node} {error? : Option PrintError} (hinside : AllHandOn inside)
    (h : (Note.call role n inside error?).HandsOn) : AllHandOn [.call role n inside error?] := by
  intro c hc
  cases hc with
  | here hmem =>
    obtain rfl := List.mem_singleton.mp hmem
    exact h
  | inside hmem hc =>
    cases List.mem_singleton.mp hmem
    exact hinside c hc

end AllHandOn

end Note

/-- Notes made while a call goes on. -/
structure Note.Settled (notes : List Note) : Prop where
  given : ∀ e, .printed (some e) ∈ notes ↔ ∃ c ∈ notes, c.returned? = some e
  sound : ∀ c ∈ notes, c.Sound

namespace Note.Settled

variable {a b : List Note}

theorem nil : Settled [] := ⟨by simp, by simp⟩

theorem append (ha : Settled a) (hb : Settled b) : Settled (a ++ b) where
  given e := by
    simp only [List.mem_append, ha.given e, hb.given e, or_and_right, exists_or]
  sound c hc := (List.mem_append.mp hc).elim (ha.sound c) (hb.sound c)

end Note.Settled

/-- The notes of a layout: the calls, and the error that printing ended with is one that a call has
returned. -/
structure Recording.Accounts (r : Recording Note) : Prop where
  error : ∀ e, r.outcome.error? = some e ↔ ∃ c ∈ r.notes, c.returned? = some e
  sound : ∀ c ∈ r.notes, c.Sound
  calls : ∀ error?, .printed error? ∉ r.notes

namespace Recording.Accounts

variable {r : Recording Note}

theorem of_done (s : PrintState) : Accounts ⟨[], .done s⟩ :=
  ⟨by simp [Outcome.error?], by simp, by simp⟩

theorem andThen {f : PrintState → Recording Note} (hr : r.Accounts) (hf : ∀ s, (f s).Accounts) :
    (r.andThen f).Accounts := by
  obtain ⟨notes, outcome⟩ := r
  cases outcome with
  | failed e s => exact hr
  | done s =>
    -- nothing has failed so far, so no call has returned an error yet
    have hnone : ∀ e, ¬∃ c ∈ notes, c.returned? = some e := fun e h => by cases (hr.error e).mpr h
    refine ⟨fun e => ?_, fun c hc => ?_, fun error? hc => ?_⟩
    · show (f s).outcome.error? = some e ↔ ∃ c ∈ notes ++ (f s).notes, c.returned? = some e
      simp only [List.mem_append, or_and_right, exists_or, hnone e, false_or, (hf s).error e]
    · exact (List.mem_append.mp hc).elim (hr.sound c) ((hf s).sound c)
    · exact (List.mem_append.mp hc).elim (hr.calls error?) ((hf s).calls error?)

theorem closeLevel (hr : r.Accounts) (h : 0 < r.outcome.state.sink.depth) :
    Accounts ⟨r.notes, r.outcome.closeLevel⟩ :=
  ⟨fun e => by rw [Outcome.closeLevel_error? h, hr.error e], hr.sound, hr.calls⟩

theorem call (role : Role) (n : Node) (h : Note.Settled r.notes) :
    Accounts ⟨[.call role n r.notes r.outcome.error?], r.outcome⟩ where
  error e := by simp [Note.returned?]
  sound c hc := by
    obtain rfl := List.mem_singleton.mp hc
    exact .call role n _ h.given h.sound
  calls error? := by simp

/-- The notes of a layout and how printing it ended, as they stand in the call that had it printed. -/
theorem settled (hr : r.Accounts) : Note.Settled (r.notes ++ [.printed r.outcome.error?]) where
  given e := by
    have hprinted : .printed (some e) ∈ r.notes ++ [Note.printed r.outcome.error?] ↔
        r.outcome.error? = some e := by
      simp [hr.calls, eq_comm]
    simp [hprinted, hr.error e, or_and_right, exists_or, Note.returned?]
  sound c hc := by
    rcases List.mem_append.mp hc with hc | hc
    · exact hr.sound c hc
    · obtain rfl := List.mem_singleton.mp hc
      exact .printed _

end Recording.Accounts

/-- Whatever a decorator does, the errors it is given are accounted for. -/
theorem Course.settled_record {options : PrintOptions} {node : PrintState → Recording Note}
    (hnode : ∀ s, (node s).Accounts) (c : Course) (s : PrintState) :
    Note.Settled (c.record .calls options node s).notes := by
  induction c generalizing s with
  | finish error? => cases error? <;> exact .nil
  | write t next ih => exact ih _
  | newline next ih => exact ih _
  | look next ih => exact ih _ s
  | node next ih => exact (hnode s).settled.append (ih _ _)
  | indented inside next ihinside ih =>
    refine Note.Settled.append ?_ (ih _ _)
    exact (Note.Settled.nil.append (ihinside _)).append .nil

/-- The course ends with the first error it meets. -/
inductive Course.Strict : Course → Prop
  | finish (error? : Option PrintError) : Strict (.finish error?)
  | write {next : Course} (t : String) (h : Strict next) : Strict (.write t next)
  | newline {next : Course} (h : Strict next) : Strict (.newline next)
  | look {next : View → Course} (h : ∀ v, Strict (next v)) : Strict (.look next)
  | node {next : Option PrintError → Course} (h : Strict (next none))
      (hfail : ∀ e, next (some e) = .fail e) : Strict (.node next)
  | indented {inside : Course} {next : Option PrintError → Course} (hinside : Strict inside)
      (h : Strict (next none)) (hfail : ∀ e, next (some e) = .fail e) : Strict (.indented inside next)

theorem Course.Strict.error?_record {options : PrintOptions} {node : PrintState → Recording Note}
    (hnode : ∀ s, (node s).Accounts) {c : Course} (hc : c.Strict) {s : PrintState} {e : PrintError}
    (h : .printed (some e) ∈ (c.record .calls options node s).notes) :
    (c.record .calls options node s).outcome.error? = some e := by
  induction hc generalizing s with
  | finish error? => cases error? <;> cases h
  | write t _ ih => exact ih h
  | newline _ ih => exact ih h
  | look _ ih => exact ih _ h
  | @node next _ hfail ih =>
    simp only [record, Recording.after] at h ⊢
    cases herror : (node s).outcome.error? with
    | none =>
      rw [herror] at h
      refine ih ?_
      simpa [Ledger.calls, (hnode s).calls] using h
    | some e' =>
      rw [herror, hfail] at h
      rw [hfail]
      simpa [Ledger.calls, (hnode s).calls, fail, record, eq_comm, Outcome.error?] using h
  | @indented inside next _ _ hfail ihinside ih =>
    simp only [record, Recording.after, Recording.indented] at h ⊢
    have hinside := @ihinside { s with sink := s.sink.indent }
    generalize inside.record .calls options node { s with sink := s.sink.indent } = r at h hinside ⊢
    have hclosed := fun hmem => Outcome.closeLevel_error?_of_eq_some (hinside hmem)
    cases herror : r.outcome.closeLevel.error? with
    | none =>
      -- an error given inside would still be there when the level is closed
      have hnot : .printed (some e) ∉ r.notes := fun hmem => by
        cases herror.symm.trans (hclosed hmem)
      rw [herror] at h
      refine ih ?_
      simpa [Ledger.calls, hnot] using h
    | some e' =>
      rw [herror, hfail] at h
      have hmem : .printed (some e) ∈ r.notes := by
        simpa [Ledger.calls, fail, record] using h
      rw [hfail]
      exact herror.symm.trans (hclosed hmem)

/-- The calls of a course are those made when it has its node printed. -/
theorem Course.allHandOn_record {options : PrintOptions} {node : PrintState → Recording Note}
    (hnode : ∀ s, Note.AllHandOn (node s).notes) (c : Course) (s : PrintState) :
    Note.AllHandOn (c.record .calls options node s).notes := by
  induction c generalizing s with
  | finish error? => cases error? <;> exact .nil
  | write t next ih => exact ih _
  | newline next ih => exact ih _
  | look next ih => exact ih _ s
  | node next ih => exact ((hnode s).append (.printed _)).append (ih _ _)
  | indented inside next ihinside ih =>
    refine Note.AllHandOn.append ?_ (ih _ _)
    exact (Note.AllHandOn.nil.append (ihinside _)).append .nil

namespace Printer

variable (p : Printer)

theorem accounts_recordAll {Q : List Doc → Prop} {ds : List Doc} (h : Doc.Laid Q ds) (s : PrintState) :
    (p.recordAll .calls ds s).Accounts := by
  induction h generalizing s with
  | nil | write | newline | comment => exact .of_done _
  | append _ _ iha ihb =>
    rw [recordAll_append]
    exact (iha s).andThen ihb
  | @deeper a _ ih =>
    have hdepth : 0 < (p.recordAll .calls a
        { s.newline with sink := s.newline.sink.indent }).outcome.state.sink.depth := by
      rw [outcome_recordAll]
      exact (p.mayEnd_runAll a _).depth_pos
    rw [recordAll_deeper, Recording.indented, Recording.after]
    simpa [Ledger.calls] using (ih _).closeLevel hdepth
  | @decorated a role n _ _ ih =>
    rw [recordAll_singleton, record]
    exact .call role n (Course.settled_record ih _ _)

/-- A decorator that ends with the first error hands all errors on. -/
theorem allHandOn_recordAll (hp : ∀ role n, (p.decorator role n).Strict) {Q : List Doc → Prop}
    {ds : List Doc} (h : Doc.Laid Q ds) (s : PrintState) :
    Note.AllHandOn (p.recordAll .calls ds s).notes := by
  induction h generalizing s with
  | nil | write | newline | comment => exact .nil
  | @append a b _ _ iha ihb =>
    rw [recordAll_append, Recording.andThen]
    split
    · exact (iha s).append (ihb _)
    · exact iha s
  | @deeper a _ ih =>
    rw [recordAll_deeper]
    exact (Note.AllHandOn.nil.append (ih _)).append .nil
  | @decorated a role n _ ha ih =>
    rw [recordAll_singleton, record]
    refine .call (Course.allHandOn_record ih _ _) fun e he => ?_
    exact (hp role n).error?_record (p.accounts_recordAll ha) he

/-- A pass adds no error to those of its layout. -/
theorem accounts_recordPass (root : Node) (s : PrintState) : (p.recordPass .calls root s).Accounts := by
  obtain ⟨ix, hix, -⟩ := ParentIndex.build_ok root
  have hlaid := p.accounts_recordAll (Node.laid_any hix) (p.passStart ix s)
  have hnotes := p.notes_recordPass .calls hix s
  have herror : (p.recordPass .calls root s).outcome.error? =
      (p.recordAll .calls (root.layout ix []) (p.passStart ix s)).outcome.error? := by
    rw [outcome_recordPass, outcome_recordAll, p.pass_eq hix]
    cases hrun : p.runAll (root.layout ix []) (p.passStart ix s) with
    | failed e s' => rfl
    | done s' =>
      have hdepth : s'.sink.depth = 0 := p.runAll_depth hrun
      rw [Outcome.andThen, if_pos hdepth]
  exact ⟨fun e => by rw [herror, hnotes, hlaid.error e], hnotes ▸ hlaid.sound, hnotes ▸ hlaid.calls⟩

theorem print_eq_error_iff (root : Node) (s : PrintState) (e : PrintError) :
    (p.print root s).1 = .error e ↔ (p.pass root s).error? = some e := by
  rw [print_fst]
  cases (p.pass root s).error? <;> simp

/-- Printing does not fail by itself: not without a decorator, and not under markup. Nor does what any
decorator does one level deeper. Under any decorator printing fails exactly with an error that a call of
the decorator made and that all calls around it returned as well; so if each call returns the errors of
its node, exactly with an error that some call made. -/
theorem print_error_iff (root : Node) (s : PrintState) :
    (∀ options, ∃ text, (Printer.print ⟨options, .plain⟩ root s).1 = .ok text) ∧
    (∀ options (style : MarkupStyle),
      ∃ text, (Printer.print ⟨options, style.decorator⟩ root s).1 = .ok text) ∧
    ∀ p : Printer,
      let calls := (p.recordPass .calls root s).notes
      (p.recordPass .calls root s).outcome = p.pass root s ∧
      (∀ (inside : Course) (ds : List Doc) (s' : PrintState),
        (s'.indented (inside.run p.options (p.runAll ds))).error? =
          (inside.run p.options (p.runAll ds) { s' with sink := s'.sink.indent }).error?) ∧
      (∀ e, (p.print root s).1 = .error e ↔ ∃ c ∈ calls, c.Carries e) ∧
      (Note.AllHandOn calls →
        ∀ e, (p.print root s).1 = .error e ↔ ∃ c : Note, c.Among calls ∧ c.IsOwn e) ∧
      ((∀ role n, (p.decorator role n).Strict) → Note.AllHandOn calls) := by
  refine ⟨fun options => print_ok _ Wrapper.plain_decorator.symm root s,
    fun options style => print_ok _ style.wrapper_decorator.symm root s, fun p => ?_⟩
  intro calls
  obtain ⟨herror, hsound, -⟩ := p.accounts_recordPass root s
  have hreturned : ∀ e, (p.print root s).1 = .error e ↔ ∃ c ∈ calls, c.returned? = some e := fun e => by
    rw [print_eq_error_iff, ← p.outcome_recordPass .calls, herror e]
  have hcarried : ∀ e, (p.print root s).1 = .error e ↔ ∃ c ∈ calls, c.Carries e := fun e => by
    rw [hreturned e]
    constructor
    · rintro ⟨c, hmem, hc⟩
      exact ⟨c, hmem, (hsound c hmem).carries hc⟩
    · rintro ⟨c, hmem, hc⟩
      exact ⟨c, hmem, hc.returned?_eq⟩
  refine ⟨p.outcome_recordPass .calls root s, p.error?_indented, hcarried, fun hon e => ?_,
    fun hp => ?_⟩
  · constructor
    · intro h
      obtain ⟨c, hmem, hc⟩ := (hcarried e).mp h
      exact hc.exists_isOwn hmem
    · rintro ⟨c, hc, hown⟩
      exact (hreturned e).mpr (hc.exists_returned hown hsound hon)
  · obtain ⟨ix, hix, -⟩ := ParentIndex.build_ok root
    show Note.AllHandOn (p.recordPass .calls root s).notes
    rw [p.notes_recordPass .calls hix]
    exact p.allHandOn_recordAll hp (Node.laid_any hix) _

end Printer

/-- Fails for types, and takes no notice of how its nodes are printed elsewhere. -/
def Decorator.heedless : Decorator
  | .typeReference, _ => .fail .indentUnderflow
  | _, _ => .node fun _ => .done

theorem Kind.admits_voidType : (Place.any .type).admits .voidType = true := rfl

theorem Kind.admits_classType : (Place.any .type).admits .classType = true := rfl

/-- `A a` -/
def Tree.typedParameter : Tree .parameter :=
  Build.parameter ((Build.classType "A").inside Kind.admits_classType) "a"

/-- `void m(A a);` -/
def Tree.oneParameter : Tree .methodDecl :=
  Build.method .empty (Build.voidType.inside Kind.admits_voidType) "m" [typedParameter.child] none

/-- An error that a call made need not come out: the call around it can return another, or none. -/
theorem Printer.print_ignored_error :
    let p : Printer := { decorator := .heedless }
    (p.print (.tree Tree.oneParameter) p.init).1 = .ok "void m();" ∧
    ∃ c : Note, c.Among (p.recordPass .calls (.tree Tree.oneParameter) p.init).notes ∧
      c.IsOwn .indentUnderflow := by
  intro p
  refine ⟨by decide +kernel, ?_⟩
  have hmem : .call .parameter (.tree Tree.typedParameter)
      [.call .typeReference (.tree (Build.classType "A")) [] (some .indentUnderflow),
        .printed (some .indentUnderflow)] none ∈
      (p.recordPass .calls (.tree Tree.oneParameter) p.init).notes := .tail _ (.head _)
  exact ⟨_, .inside hmem (.here (.head _)), .call _ _ (by simp)⟩

end JavaText
