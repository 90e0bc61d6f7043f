import JavaText.Proofs.Tags
import JavaText.Tree.Build

/-!
# Where tags leave indentation alone

A text of a wrapper moves no indentation if the part that it encloses begins and ends with a text of its
own: the opening one then only hands the indentation on, and the closing one never opens a line.
`Doc.strokes` shows what a part begins and ends with, and a layout all of whose decorated parts are
sealed in this way has no stray indentation (`Doc.Laid.stray_eq_zero`).

Every decorated part is sealed but one (`Tree.inline_layout`): an annotation that is only a name, with
orphans at the end of that name, ends with the line break of a comment.
-/

namespace JavaText

variable (comments : Bool)

mutual

/-- What is done to the text for an item, in order: `true` for a text, `false` for a line break or a
change of level. -/
def Doc.strokes : Doc → List Bool
  | .write _ => [true]
  | .newline => [false]
  | .comment .. => if comments then [true, false] else []
  | .indented ds => [false] ++ Doc.strokesAll ds ++ [false]
  | .decorated _ _ ds => Doc.strokesAll ds
  | .abort _ => []

def Doc.strokesAll : List Doc → List Bool
  | [] => []
  | d :: ds => d.strokes ++ Doc.strokesAll ds

end

namespace Doc

/-- The part begins with a text. -/
def Begins (ds : List Doc) : Prop := (strokesAll comments ds).head? = some true

/-- The part ends with a text. -/
def Ends (ds : List Doc) : Prop := (strokesAll comments ds).getLast? = some true

/-- The part begins with a text or does nothing. -/
def Opens (ds : List Doc) : Prop := (strokesAll comments ds).head? ≠ some false

/-- The part begins and ends with a text. -/
structure Sealed (ds : List Doc) : Prop where
  begins : Begins comments ds
  ends : Ends comments ds

end Doc

variable {comments}

namespace Margins

/-- Nothing is on the current line, or something besides texts of the wrapper. -/
def Clean (m : Margins) : Prop := m.line = .fresh ∨ m.line = .begun

/-- What is done next cannot leave indentation behind. -/
def Ready (m : Margins) (strokes : List Bool) : Prop :=
  m.Clean ∨ m.line = .tagged m.depth ∧ strokes.head? = some true

/-- Nothing was left behind from `m` to `m'`. -/
structure Settles (m m' : Margins) (strokes : List Bool) : Prop where
  depth : m'.depth = m.depth
  stray : m'.stray = m.stray
  clean : m'.Clean
  last : strokes.getLast? = some true → m'.line = .begun

variable {m : Margins} {st : List Bool}

theorem Clean.pending (h : m.Clean) : m.pending = 0 := by
  rcases h with h | h <;> simp [Margins.pending, h]

theorem Ready.clean (h : m.Ready st) (hst : st.head? ≠ some true) : m.Clean :=
  h.resolve_right fun h => hst h.2

theorem Ready.step_write (h : m.Ready st) (t : String) :
    m.step (.write false t) = { m with line := .begun } := by
  have hpending : m.pending - m.depth = 0 := by
    rcases h with h | ⟨h, -⟩
    · rw [h.pending, Nat.zero_sub]
    · simp [Margins.pending, h]
  rw [step, hpending, Nat.add_zero]

theorem Clean.step_newline (h : m.Clean) : m.step .newline = { m with line := .fresh } := by
  rw [step, total, h.pending, Nat.add_zero]

/-- The wrapper's texts open the line or change nothing. -/
theorem foldl_own (ts : List String) (m : Margins) :
    (ts.map (Op.write true)).foldl step m = m ∨
      m.line = .fresh ∧ (ts.map (Op.write true)).foldl step m = { m with line := .tagged m.depth } := by
  induction ts generalizing m with
  | nil => exact .inl rfl
  | cons t ts ih =>
    rw [List.map_cons, List.foldl_cons, step]
    split
    · next hfresh =>
      rcases ih { m with line := .tagged m.depth } with h | ⟨h, -⟩
      · exact .inr ⟨hfresh, h⟩
      · cases h
    · exact ih m

theorem foldl_own_begun (ts : List String) (h : m.line = .begun) :
    (ts.map (Op.write true)).foldl step m = m := by
  rcases foldl_own ts m with h' | ⟨h', -⟩
  · exact h'
  · rw [h] at h'
    cases h'

end Margins

theorem Doc.strokesAll_append (ds es : List Doc) :
    strokesAll comments (ds ++ es) = strokesAll comments ds ++ strokesAll comments es := by
  induction ds with
  | nil => rfl
  | cons d ds ih => rw [List.cons_append, strokesAll, strokesAll, ih, List.append_assoc]

/-- The operations leave no indentation behind; without strokes they change nothing. -/
structure Op.Settled (ops : List Op) (st : List Bool) : Prop where
  idle : st = [] → ∀ m : Margins, ops.foldl Margins.step m = m
  settles : ∀ m : Margins, m.Ready st → m.Settles (ops.foldl Margins.step m) st

namespace Op.Settled

variable {ops ops' : List Op} {st st' : List Bool}

theorem nil : Settled [] [] := ⟨fun _ _ => rfl, fun _ hm => ⟨rfl, rfl, hm.clean nofun, nofun⟩⟩

theorem append (h : Settled ops st) (h' : Settled ops' st') :
    Settled (ops ++ ops') (st ++ st') := by
  refine ⟨fun hst m => ?_, fun m hm => ?_⟩
  · rw [List.append_eq_nil_iff] at hst
    rw [List.foldl_append, h.idle hst.1, h'.idle hst.2]
  rw [List.foldl_append]
  by_cases hidle : st = []
  · rw [h.idle hidle]
    rw [hidle] at hm ⊢
    exact h'.settles m hm
  have hfirst := h.settles m (by rwa [Margins.Ready, List.head?_append_of_ne_nil _ hidle] at hm)
  have hsecond := h'.settles _ (.inl hfirst.clean)
  refine ⟨hsecond.depth.trans hfirst.depth, hsecond.stray.trans hfirst.stray, hsecond.clean, ?_⟩
  intro hlast
  -- The last stroke is one of the first part if the second has none.
  by_cases hidle' : st' = []
  · rw [h'.idle hidle']
    rw [hidle', List.append_nil] at hlast
    exact hfirst.last hlast
  · rw [List.getLast?_append_of_ne_nil _ hidle'] at hlast
    exact hsecond.last hlast

theorem write (t : String) : Settled [.write false t] [true] := by
  refine ⟨nofun, fun m hm => ?_⟩
  rw [List.foldl_cons, hm.step_write t]
  exact ⟨rfl, rfl, .inr rfl, fun _ => rfl⟩

theorem newline : Settled [.newline] [false] := by
  refine ⟨nofun, fun m hm => ?_⟩
  rw [List.foldl_cons, (hm.clean nofun).step_newline]
  exact ⟨rfl, rfl, .inl rfl, nofun⟩

theorem comment (orphan : Bool) (c : Comment) : Settled [.comment orphan c] [] :=
  ⟨fun _ _ => rfl, nil.settles⟩

theorem printed (c : Comment) : Settled c.ops [true, false] := by
  refine ⟨nofun, fun m hm => ?_⟩
  have hbegun : Margins.Clean { m with line := .begun } := .inr rfl
  have hready : Margins.Ready { m with line := .begun } [] := .inl hbegun
  have hfold : c.ops.foldl Margins.step m = { m with line := .fresh } := by
    unfold Comment.ops
    cases c.kind <;>
      simp only [List.foldl_cons, List.foldl_nil, hm.step_write, hready.step_write,
        hbegun.step_newline]
  rw [hfold]
  exact ⟨rfl, rfl, .inl rfl, nofun⟩

theorem deeper (h : Settled ops st) :
    Settled ([.newline, .indent] ++ ops ++ [.unindent]) ([false, false] ++ st ++ [false]) := by
  refine ⟨nofun, fun m hm => ?_⟩
  have hstep : [Op.newline, .indent].foldl Margins.step m =
      { m with depth := m.depth + 1, line := .fresh } := by
    rw [List.foldl_cons, (hm.clean nofun).step_newline]
    rfl
  have hinner := h.settles { m with depth := m.depth + 1, line := .fresh } (.inl (.inl rfl))
  rw [List.foldl_append, List.foldl_append, hstep]
  refine ⟨congrArg (· - 1) hinner.depth, hinner.stray, hinner.clean, fun hlast => ?_⟩
  rw [List.getLast?_concat] at hlast
  cases hlast

/-- A part that begins and ends with a text, between texts of a wrapper. -/
theorem decorated (h : Settled ops st) (hfirst : st.head? = some true)
    (hlast : st.getLast? = some true) (role : Role) (n : Node) (ts ts' : List String) :
    Settled ([.decorate role n] ++ ts.map (.write true) ++ ops ++ ts'.map (.write true)) st := by
  refine ⟨fun hst => ?_, fun m hm => ?_⟩
  · rw [hst] at hfirst
    cases hfirst
  rw [List.foldl_append, List.foldl_append, List.foldl_append]
  -- The opening text may take the indentation, and the enclosed part then begins at that depth.
  obtain ⟨m₁, hm₁, hready, hdepth, hstray⟩ : ∃ m₁,
      (ts.map (Op.write true)).foldl Margins.step
        ([Op.decorate role n].foldl Margins.step m) = m₁ ∧
      m₁.Ready st ∧ m₁.depth = m.depth ∧ m₁.stray = m.stray := by
    rcases Margins.foldl_own ts m with h | ⟨-, h⟩
    · exact ⟨m, h, hm, rfl, rfl⟩
    · exact ⟨_, h, .inr ⟨rfl, hfirst⟩, rfl, rfl⟩
  have hinner := h.settles m₁ hready
  rw [hm₁, Margins.foldl_own_begun _ (hinner.last hlast)]
  exact ⟨hinner.depth.trans hdepth, hinner.stray.trans hstray, hinner.clean, hinner.last⟩

end Op.Settled

/-- A layout with sealed parts leaves no indentation behind. -/
theorem Doc.Laid.settled {ds : List Doc} (h : Doc.Laid (Doc.Sealed comments) ds) (w : Wrapper) :
    Op.Settled (Doc.scriptAll w comments ds) (Doc.strokesAll comments ds) := by
  induction h with
  | nil => exact .nil
  | append _ _ iha ihb =>
    rw [Doc.scriptAll_append, Doc.strokesAll_append]
    exact iha.append ihb
  | write t => exact .write t
  | newline => exact .newline
  | comment orphan c =>
    rw [Doc.scriptAll_singleton]
    cases comments with
    | false => exact .comment orphan c
    | true => exact (Op.Settled.comment orphan c).append (.printed c)
  | @deeper a _ ih =>
    have hst : Doc.strokesAll comments [.newline, .indented a] =
        [false, false] ++ Doc.strokesAll comments a ++ [false] := by
      simp [Doc.strokesAll, Doc.strokes]
    rw [Doc.scriptAll_deeper, hst]
    exact ih.deeper
  | @decorated a role n hsealed _ ih =>
    have hst : Doc.strokesAll comments [.decorated role n a] = Doc.strokesAll comments a :=
      List.append_nil _
    rw [Doc.scriptAll_singleton, Doc.script, hst]
    exact ih.decorated hsealed.begins hsealed.ends role n _ _

/-- A layout with sealed parts has no stray indentation. -/
theorem Doc.Laid.stray_eq_zero {ds : List Doc} (h : Doc.Laid (Doc.Sealed comments) ds)
    (w : Wrapper) : Op.stray (Doc.scriptAll w comments ds) = 0 := by
  have hsettles := (h.settled w).settles {} (.inl (.inl rfl))
  rw [Op.stray, Margins.total, hsettles.stray, hsettles.clean.pending]

namespace Doc

variable {ds es : List Doc}

theorem Begins.opens (h : Begins comments ds) : Opens comments ds := by
  rw [Opens, h]
  nofun

theorem Begins.append (h : Begins comments ds) (es : List Doc) : Begins comments (ds ++ es) := by
  rw [Begins, strokesAll_append, List.head?_append, h]
  rfl

theorem Opens.nil : Opens comments [] := nofun

theorem Opens.append (h : Opens comments ds) (h' : Opens comments es) : Opens comments (ds ++ es) := by
  unfold Opens at *
  rw [strokesAll_append, List.head?_append]
  cases hds : (strokesAll comments ds).head? with
  | none => exact h'
  | some b =>
    rw [hds] at h
    exact h

theorem Opens.begins (h : Opens comments ds) (h' : Begins comments es) : Begins comments (ds ++ es) := by
  unfold Opens at h
  rw [Begins, strokesAll_append, List.head?_append]
  cases hds : (strokesAll comments ds).head? with
  | none => exact h'
  | some b =>
    cases b with
    | false => exact absurd hds h
    | true => rfl

theorem begins_write (t : String) : Begins comments [.write t] := rfl

theorem ends_write (t : String) : Ends comments [.write t] := rfl

theorem Ends.append (h : Ends comments es) (ds : List Doc) : Ends comments (ds ++ es) := by
  rw [Ends, strokesAll_append, List.getLast?_append, h]
  rfl

theorem Ends.append_idle (h : Ends comments ds) (h' : strokesAll comments es = []) :
    Ends comments (ds ++ es) := by
  rwa [Ends, strokesAll_append, h', List.append_nil]

theorem Sealed.decorated (h : Sealed comments ds) (role : Role) (n : Node) :
    Begins comments [.decorated role n ds] := by
  rw [Begins, strokesAll, strokes, strokesAll, List.append_nil]
  exact h.begins

theorem Opens.flatMap {X : Type} {f : X → List Doc} {xs : List X}
    (h : ∀ x ∈ xs, Opens comments (f x)) : Opens comments (xs.flatMap f) := by
  induction xs with
  | nil => exact .nil
  | cons x xs ih =>
    rw [List.flatMap_cons]
    exact (h x (List.mem_cons_self ..)).append (ih fun y hy => h y (List.mem_cons_of_mem _ hy))

theorem Opens.separated {sep : String} {xs : List (List Doc)} (h : ∀ x ∈ xs, Opens comments x) :
    Opens comments (Doc.separated sep xs) := by
  unfold Doc.separated
  induction xs with
  | nil => exact .nil
  | cons x xs ih =>
    cases xs with
    | nil => simpa using h x
    | cons y ys =>
      rw [List.intercalate_cons_cons]
      exact ((h x (List.mem_cons_self ..)).append (begins_write sep).opens).append
        (ih fun z hz => h z (List.mem_cons_of_mem _ hz))

theorem opens_attached (k : Kind) (d : NodeData) : Opens comments (Layout.attached k d) := by
  unfold Layout.attached
  split
  · exact .nil
  · cases d.comment with
    | none => exact .nil
    | some c => cases comments <;> nofun

end Doc

namespace Layout

open Doc (Opens Begins Ends Sealed Laid)

/-- What is known about the layout of a node within a line: a decorated part is sealed, and no part of
a type begins with a line break. -/
structure Inline (comments : Bool) (l : Layout) : Prop where
  isSealed : l.kind.isDecorated = true → Sealed comments l.body
  body : (Place.any .type).admits l.kind = true → Opens comments l.body
  element : (Place.any .type).admits l.kind = true → Opens comments l.element
  brackets : (Place.any .type).admits l.kind = true → Opens comments l.brackets

/-- Related to itself: `Inline`, with all parts made by rules. -/
abbrev InlineAt (comments : Bool) (p : Place) (l : Layout) : Prop :=
  Rel (fun l _ => Inline comments l) (fun ds _ => Laid (Sealed comments) ds) p l l

namespace InlineAt

variable {l : Layout} {ls : List Layout}

theorem isSealed {k : Kind} (h : InlineAt comments (.only k) l) (hk : k.isDecorated = true) :
    Sealed comments l.body := by
  have hkind : k = l.kind := eq_of_beq h.admitted
  exact h.whole.isSealed (hkind ▸ hk)

theorem of_many {p : Place} (h : List.Forall₂ (Rel (fun l _ => Inline comments l)
    (fun ds _ => Laid (Sealed comments) ds) p) ls ls) : ∀ l ∈ ls, InlineAt comments p l := by
  rw [List.forall₂_same] at h
  exact h

theorem of_opt {p : Place} {s : Option Layout} (h : Option.Rel (Rel (fun l _ => Inline comments l)
    (fun ds _ => Laid (Sealed comments) ds) p) s s) : ∀ l, s = some l → InlineAt comments p l := by
  rintro l rfl
  cases h with
  | some h => exact h

theorem opens_type (h : InlineAt comments (.any .type) l) : Opens comments l.type := by
  unfold Layout.type
  split
  · next hkind => exact ((h.whole.isSealed (by rw [hkind]; rfl)).decorated _ _).opens
  · exact h.whole.body h.admitted

theorem opens_annotations (h : ∀ l ∈ ls, InlineAt comments (.only .annotationExpr) l) (gap : Bool) :
    Opens comments (annotations gap ls) := by
  unfold annotations
  split
  · exact .nil
  · refine Opens.append ?_ (Opens.flatMap fun l hl => ?_)
    · cases gap <;> nofun
    · exact ((((h l hl).isSealed rfl).decorated _ _).append _).opens

end InlineAt

section
variable {ix : ParentIndex} {p : Path} {k : Kind} {t : Tree k}
  {row : Row (Field.Of fun _ => Layout) k.fields}

/-- A node that is not set within a line. -/
theorem Inline.of_other (hk : k.isDecorated = false) (htype : (Place.any .type).admits k = false) :
    Inline comments (ofNode ix p t row) where
  isSealed h := nomatch hk.symm.trans h
  body h := nomatch htype.symm.trans h
  element h := nomatch htype.symm.trans h
  brackets h := nomatch htype.symm.trans h

/-- A node that is decorated and not a type. -/
theorem Inline.of_sealed (htype : (Place.any .type).admits k = false)
    (h : Sealed comments (ofNode ix p t row).body) : Inline comments (ofNode ix p t row) where
  isSealed _ := h
  body h := nomatch htype.symm.trans h
  element h := nomatch htype.symm.trans h
  brackets h := nomatch htype.symm.trans h

/-- A type without array layers. -/
theorem Inline.of_type (hk : k.isDecorated = false) (hbody : Opens comments (rule t row))
    (helement : ∀ own, elementOf row own = own) (hbrackets : bracketsOf row = []) :
    Inline comments (ofNode ix p t row) where
  isSealed h := nomatch hk.symm.trans h
  body _ := (Doc.opens_attached k t.data).append hbody
  element _ := by
    have hclass : k ≠ .classType := fun h => by rw [h] at hk; cases hk
    simp only [ofNode, helement, if_neg hclass]
    exact (Doc.opens_attached k t.data).append hbody
  brackets _ := by
    simp only [ofNode, hbrackets]
    exact .nil

end

namespace Rule

theorem ends_classType {s : Option Layout} {as : List Layout} {n : Layout}
    {t : Option (List Layout)} (hn : InlineAt comments (.only .simpleName) n) :
    Ends comments (classType s as n t) := by
  unfold classType
  match t with
  | none => exact ((hn.isSealed rfl).ends.append _).append_idle rfl
  | some [] => exact (Doc.ends_write _).append _
  | some (l :: ls) => exact ((Doc.ends_write _).append _).append _

variable {as : List Layout} (has : ∀ l ∈ as, InlineAt comments (.only .annotationExpr) l)
include has

theorem opens_arrayBrackets {c : Layout} (hc : InlineAt comments (.any .type) c) :
    Opens comments (arrayBrackets c as) :=
  ((InlineAt.opens_annotations has _).append (Doc.begins_write _).opens).append
    (hc.whole.brackets hc.admitted)

theorem opens_elements {es : List Layout} (hes : ∀ l ∈ es, InlineAt comments (.any .type) l)
    (gap : Bool) (sep : String) :
    Opens comments (annotations gap as ++ Doc.separated sep (es.map type)) := by
  refine (InlineAt.opens_annotations has _).append (Opens.separated fun ds hds => ?_)
  obtain ⟨l, hl, rfl⟩ := List.mem_map.mp hds
  exact (hes l hl).opens_type

theorem begins_classType {s : Option Layout} {n : Layout} {t : Option (List Layout)}
    (hs : ∀ l, s = some l → InlineAt comments (.only .classType) l)
    (hn : InlineAt comments (.only .simpleName) n) : Begins comments (classType s as n t) := by
  refine Begins.append (Opens.begins (Opens.append ?_ (InlineAt.opens_annotations has _))
    (hn.isSealed rfl).begins) _
  cases s with
  | none => exact .nil
  | some l => exact (((hs l rfl).isSealed rfl).begins.append _).opens

theorem sealed_parameter {m : Modifiers} {ty n : Layout} {v : Bool}
    (hty : InlineAt comments (.any .type) ty) (hn : InlineAt comments (.only .simpleName) n) :
    Sealed comments (parameter m as ty v n) where
  begins := by
    refine Opens.begins (.append (.append (.append (.append (InlineAt.opens_annotations has _) ?_)
      hty.opens_type) ?_) ?_) (hn.isSealed rfl).begins
    · unfold modifiers
      split <;> nofun
    · cases v <;> nofun
    · split <;> nofun
  ends := (hn.isSealed rfl).ends.append _

end Rule

end Layout

/-- The annotation is only a name, and orphans stand at the end of that name. -/
def Tree.trailsOrphans (a : Tree .annotationExpr) : Bool :=
  match a.row with
  | (name, .marker, ()) => !(Node.tree name.tree).orphansAtEnd.isEmpty
  | _ => false

theorem Doc.strokesAll_orphans {cs : List Comment} (h : comments = false ∨ cs = []) :
    strokesAll comments (Doc.orphans cs) = [] := by
  rcases h with rfl | rfl
  · induction cs with
    | nil => rfl
    | cons c cs ih => exact ih
  · rfl

theorem Tree.ends_name {ix : ParentIndex} {p : Path} (t : Tree .name)
    (h : comments = false ∨ (Node.tree t).orphansAtEnd = []) :
    Doc.Ends comments (t.layout ix p).body := by
  rw [layout, fold_eq]
  refine Doc.Ends.append (Doc.Ends.append_idle ((Doc.ends_write _).append _) ?_) _
  rw [Doc.trailing_eq]
  exact Doc.strokesAll_orphans h

section

open Layout

/-- An annotation is sealed unless it ends with orphans of its name. -/
theorem Tree.sealed_annotation {ix : ParentIndex} {p : Path} (a : Tree .annotationExpr)
    (h : comments = false ∨ a.trailsOrphans = false) :
    Doc.Sealed comments (a.layout ix p).body := by
  have hbegins : ∀ row, Doc.Begins comments (attached .annotationExpr a.data ++ rule a row) :=
    fun row => (Doc.opens_attached _ _).begins (((Doc.begins_write "@").append _).append _)
  rw [layout, fold_eq]
  refine ⟨hbegins _, ?_⟩
  rw [← a.ofRow_row] at h ⊢
  revert h
  obtain ⟨⟨hk, name⟩, args, -⟩ := a.row
  intro h
  obtain rfl : Kind.name = _ := eq_of_beq hk
  refine Doc.Ends.append ?_ _
  cases args with
  | marker =>
    replace h : comments = false ∨ (!(Node.tree name).orphansAtEnd.isEmpty) = false := h
    have hname : comments = false ∨ (Node.tree name).orphansAtEnd = [] := by simpa using h
    exact ((name.ends_name hname).append _).append_idle rfl
  | single | pairs => exact ((Doc.ends_write ")").append _).append _

/-- The layouts of all nodes are as they should be within a line, annotations with orphans at the end
apart. -/
theorem Tree.inline_layout {ix : ParentIndex} {p : Path} {k : Kind} (t : Tree k)
    (h : ∀ a : Tree .annotationExpr, (⟨_, a⟩ : AnyTree) = ⟨k, t⟩ →
      comments = false ∨ a.trailsOrphans = false) :
    Doc.LaidAt (Doc.Sealed comments) (Inline comments) ix p ⟨k, t⟩ := by
  intro hrow
  have hannotated : ∀ a : Tree .annotationExpr, (⟨_, a⟩ : AnyTree) = ⟨k, t⟩ →
      Doc.Sealed comments (t.layout ix p).body := by
    rintro a ⟨⟩
    exact a.sealed_annotation (h a rfl)
  rw [layout, fold_eq] at hannotated ⊢
  revert hrow hannotated
  generalize t.fields.fold (ofNode ix) p 0 = row
  intro hrow hannotated
  cases k with
  | simpleName => exact .of_sealed rfl ⟨rfl, rfl⟩
  | annotationExpr => exact .of_sealed rfl (hannotated t rfl)
  | parameter =>
    obtain ⟨-, has, hty, -, hn, -⟩ := hrow
    have hsealed := Rule.sealed_parameter (m := row.1) (v := row.2.2.2.1) (InlineAt.of_many has)
      hty hn
    exact .of_sealed rfl ⟨(Doc.opens_attached _ _).begins hsealed.begins, hsealed.ends.append _⟩
  | classType =>
    obtain ⟨hs, has, hn, -⟩ := hrow
    have hbegins := Rule.begins_classType (t := row.2.2.2.1) (InlineAt.of_many has)
      (InlineAt.of_opt hs) hn
    have hsealed : Doc.Sealed comments (ofNode ix p t row).body :=
      ⟨(Doc.opens_attached _ _).begins hbegins, (Rule.ends_classType hn).append _⟩
    exact ⟨fun _ => hsealed, fun _ => hsealed.begins.opens, fun _ => (hsealed.decorated _ _).opens,
      fun _ => .nil⟩
  | primitiveType | voidType =>
    have has := InlineAt.of_many hrow.1
    exact .of_type rfl ((InlineAt.opens_annotations has _).append (Doc.begins_write _).opens)
      (fun _ => rfl) rfl
  | arrayType =>
    obtain ⟨hc, has, -⟩ := hrow
    have hbrackets := Rule.opens_arrayBrackets (InlineAt.of_many has) hc
    have helement := hc.whole.element hc.admitted
    refine ⟨fun h => ?_, fun _ => (Doc.opens_attached _ _).append (helement.append hbrackets),
      fun _ => helement, fun _ => hbrackets⟩
    contradiction
  | wildcardType =>
    have has := InlineAt.of_many hrow.1
    have hopens := (InlineAt.opens_annotations has false).begins (Doc.begins_write "?")
    exact .of_type rfl ((hopens.append _).append _).opens (fun _ => rfl) rfl
  | unionType | intersectionType =>
    obtain ⟨has, hes, -⟩ := hrow
    exact .of_type rfl
      (Rule.opens_elements (InlineAt.of_many has) (InlineAt.of_many hes) _ _)
      (fun _ => rfl) rfl
  | unknownType => exact .of_type rfl .nil (fun _ => rfl) rfl
  | _ => exact .of_other rfl rfl

end

/-- Some annotation in what is printed for the node is only a name with orphans at its end. -/
def Node.TrailsOrphans (root : Node) : Prop :=
  ∃ t r a, root.top? = some t ∧ t.at? r = some ⟨.annotationExpr, a⟩ ∧ a.trailsOrphans = true

/-- A pass leaves no stray indentation without comments, or if no annotation ends with orphans. -/
theorem Node.stray_eq_zero {root : Node} {ix : ParentIndex} (hix : ParentIndex.build root = .ok ix)
    (w : Wrapper) (h : comments = false ∨ ¬ root.TrailsOrphans) :
    Op.stray (Doc.scriptAll w comments (root.layout ix [])) = 0 := by
  have hlaid : Doc.Laid (Doc.Sealed comments) (root.layout ix []) := by
    refine Node.laid (D := Layout.Inline comments) (fun l hl => hl.isSealed) hix ?_
    intro t ht r u hu
    refine u.2.inline_layout fun a ha => h.imp_right fun h => ?_
    exact Bool.eq_false_iff.mpr fun htrails => h ⟨t, r, a, ht, ha ▸ hu, htrails⟩
  exact hlaid.stray_eq_zero w

/-- A text printed with markup is made of pieces, the tags among them. To delete the tags gives the text
printed without markup exactly if no tag leaves indentation behind, or if a level is indented by
nothing; and tags leave none behind where comments are not printed, or where no annotation ends with
orphans of its name. -/
theorem Printer.print_markup_kept_iff (style : MarkupStyle) (options : PrintOptions) (root : Node)
    (s s' : PrintState) :
    ∃ ix, ParentIndex.build root = .ok ix ∧
      let ops := Doc.scriptAll style.wrapper options.printComments (root.layout ix [])
      let pieces := Sink.allPieces { unit := options.indent, newLine := options.newLine } ops
      (Printer.print ⟨options, style.decorator⟩ root s).1 = .ok (Piece.joined pieces) ∧
      ((Printer.print ⟨options, .plain⟩ root s').1 = .ok (Piece.kept pieces) ↔
        options.indent = "" ∨ Op.stray ops = 0) ∧
      (options.printComments = false ∨ ¬ root.TrailsOrphans → Op.stray ops = 0) := by
  obtain ⟨ix, hix, -⟩ := ParentIndex.build_ok root
  have hmarkup := Printer.print_eq_script ⟨options, style.decorator⟩ style.wrapper_decorator.symm hix s
  have hplain := Printer.print_eq_script ⟨options, .plain⟩ Wrapper.plain_decorator.symm hix s'
  have hiff := (Node.laid_any hix).kept_eq_iff style.wrapper options.printComments options.indent
    options.newLine
  refine ⟨ix, hix, ?_, ?_, Node.stray_eq_zero hix style.wrapper⟩
  · rw [hmarkup, Sink.text_foldl]
    exact congrArg Except.ok String.empty_append
  · rw [hplain, ← hiff, Except.ok.injEq]
    exact eq_comm

/-- Class `A` with a class `B` in it that is annotated with `@N`, and a comment at the end of that
name. -/
def Tree.annotatedInside : Tree .classDecl :=
  let name := (Build.name "N").withOrphans [{ kind := .line, content := "c" }]
  let marker : Tree .annotationExpr := .ofRow _ {} (name.child, .marker, ())
  let inner : Tree .classDecl :=
    .ofRow _ {} (.empty, [marker.child], false, Build.ident "B", [], [], [], [], ())
  Build.classDecl .empty "A" [inner.inside]

/-- Here a closing tag stands alone on a line, one level deep. -/
theorem Printer.print_markup_annotatedInside :
    ∃ ix, ParentIndex.build (.tree Tree.annotatedInside) = .ok ix ∧
      (Printer.print {} (.tree Tree.annotatedInside) (Printer.init {})).1 ≠
        .ok (Piece.kept (Sink.allPieces {}
          (Doc.scriptAll (MarkupStyle.wrapper {}) true
            ((Node.tree Tree.annotatedInside).layout ix [])))) := by
  obtain ⟨ix, hix⟩ : ∃ ix, ParentIndex.build (.tree Tree.annotatedInside) = .ok ix := ⟨_, rfl⟩
  have hstray : Op.stray (Doc.scriptAll (MarkupStyle.wrapper {}) true
      ((Node.tree Tree.annotatedInside).layout ix [])) = 1 := by
    cases hix
    rfl
  refine ⟨ix, hix, fun h => ?_⟩
  rw [Printer.print_eq_script {} Wrapper.plain_decorator.symm hix, Except.ok.injEq] at h
  have hnone := ((Node.laid_any hix).kept_eq_iff (MarkupStyle.wrapper {}) true "    " "\n").mp h.symm
  rw [hstray] at hnone
  exact absurd hnone (by decide)

end JavaText
