import JavaText.Proofs.JsonRecord

/-!
# Records in all their forms

What a record may look like is said by its parts: in an object each part stands once under its name, in
any order and among further members, and a part may be missing if it is what a missing one is taken for;
in an array the parts stand in order. `Json.Means` says that whatever shows a value is read as that
value, in either mode; it carries over from the parts to the record (`Json.Means.record`), and so from
the offsets up to the data of a node.
-/

namespace JavaText

namespace Json

/-- What stands under the name, in order. -/
def valuesNamed {R : Type} (name : String) (ms : List (Json.Text × R)) : List R :=
  ms.filterMap fun m => if m.1 = some name then some m.2 else none

theorem valuesNamed_cons_self {R : Type} (name : String) (r : R) (ms : List (Json.Text × R)) :
    valuesNamed name ((some name, r) :: ms) = r :: valuesNamed name ms :=
  List.filterMap_cons_some (if_pos rfl)

theorem valuesNamed_cons_of_ne {R : Type} {name : String} {m : Json.Text × R} (h : m.1 ≠ some name)
    (ms : List (Json.Text × R)) : valuesNamed name (m :: ms) = valuesNamed name ms :=
  List.filterMap_cons_none (if_neg h)

theorem mem_valuesNamed {R : Type} {name : String} {r : R} {ms : List (Json.Text × R)} :
    r ∈ valuesNamed name ms ↔ (some name, r) ∈ ms := by
  rw [valuesNamed, List.mem_filterMap]
  constructor
  · rintro ⟨⟨name', r'⟩, hm, h⟩
    split at h
    · next hname =>
      obtain rfl : r' = r := Option.some.inj h
      obtain rfl : name' = some name := hname
      exact hm
    · cases h
  · intro hm
    exact ⟨_, hm, if_pos rfl⟩

namespace Schema

variable {φ R : Type} {V : φ → Type} {sch : Schema V} {field : R → (f : φ) → Except ReadError (V f)}

/-- Each field finds its members by itself. -/
theorem putAll_split {f : φ} {fs : List φ} (hf : sch.name f ∉ fs.map sch.name)
    {ms : List (Json.Text × R)} {x y : Option (V f)} {vs vs' : Found V fs}
    (hhead : sch.putAll field [f] (x, ()) ms = .ok (y, ()))
    (hrest : sch.putAll field fs vs ms = .ok vs') :
    sch.putAll field (f :: fs) (x, vs) ms = .ok (y, vs') := by
  induction ms generalizing x vs with
  | nil =>
    cases hhead
    cases hrest
    rfl
  | cons m ms ih =>
    obtain ⟨- | name, r⟩ := m
    · cases hhead
    · rw [putAll] at hhead hrest ⊢
      by_cases hname : sch.name f = name
      · subst hname
        -- The other fields pass the member over.
        rw [put_of_not_mem hf] at hrest
        cases x with
        | some v =>
          rw [put, if_pos rfl] at hhead
          cases hhead
        | none =>
          cases hr : field r f with
          | error e =>
            rw [put, if_pos rfl, hr] at hhead
            cases hhead
          | ok v =>
            rw [put_same hr] at hhead ⊢
            exact ih hhead hrest
      · rw [put_other hname] at hhead ⊢
        cases hstep : sch.put name (field r) fs vs with
        | error e =>
          rw [hstep] at hrest
          cases hrest
        | ok vs₁ =>
          rw [hstep] at hrest
          exact ih hhead hrest

section
variable {f : φ} {ms : List (Json.Text × R)} (hnames : ∀ m ∈ ms, m.1.isSome)
include hnames

theorem putAll_absent (h : valuesNamed (sch.name f) ms = []) (x : Option (V f)) :
    sch.putAll field [f] (x, ()) ms = .ok (x, ()) := by
  induction ms with
  | nil => rfl
  | cons m ms ih =>
    rw [List.forall_mem_cons] at hnames
    obtain ⟨- | name, r⟩ := m
    · cases hnames.1
    · have hne : sch.name f ≠ name := by
        rintro rfl
        rw [valuesNamed_cons_self] at h
        cases h
      rw [valuesNamed_cons_of_ne (fun heq => hne (Option.some.inj heq).symm)] at h
      rw [putAll, put_other hne]
      exact ih hnames.2 h

theorem putAll_found {r : R} {v : V f} (h : valuesNamed (sch.name f) ms = [r])
    (hr : field r f = .ok v) : sch.putAll field [f] (none, ()) ms = .ok (some v, ()) := by
  induction ms with
  | nil => cases h
  | cons m ms ih =>
    rw [List.forall_mem_cons] at hnames
    obtain ⟨- | name, r'⟩ := m
    · cases hnames.1
    · by_cases hname : sch.name f = name
      · subst hname
        rw [valuesNamed_cons_self, List.cons.injEq] at h
        obtain ⟨rfl, hrest⟩ := h
        rw [putAll, put_same hr]
        exact putAll_absent hnames.2 hrest _
      · rw [valuesNamed_cons_of_ne (fun heq => hname (Option.some.inj heq).symm)] at h
        rw [putAll, put_other hname]
        exact ih hnames.2 h

end

variable (sch field) in
/-- Under the name of each field there stands one member, which gives its value, or none, and then the
value is that of a missing one. -/
inductive Gives (ms : List (Json.Text × R)) : (fs : List φ) → Row V fs → Prop
  | nil : Gives ms [] ()
  | found {f : φ} {fs : List φ} {v : V f} {vs : Row V fs} {r : R}
      (hr : valuesNamed (sch.name f) ms = [r]) (hv : field r f = .ok v) (h : Gives ms fs vs) :
      Gives ms (f :: fs) (v, vs)
  | absent {f : φ} {fs : List φ} {v : V f} {vs : Row V fs} (hr : valuesNamed (sch.name f) ms = [])
      (hv : sch.absent f = some v) (h : Gives ms fs vs) : Gives ms (f :: fs) (v, vs)

/-- The order of the members does not matter, nor do members under other names. -/
theorem Gives.ofMembers {fs : List φ} {row : Row V fs} {ms : List (Json.Text × R)}
    (h : Gives sch field ms fs row) (hnames : ∀ m ∈ ms, m.1.isSome)
    (hnodup : (fs.map sch.name).Nodup) : sch.ofMembers field fs ms = .ok row := by
  suffices hput : ∃ found, sch.putAll field fs (nothing fs) ms = .ok found ∧
      sch.complete fs found = .ok row by
    obtain ⟨found, hput, hcomplete⟩ := hput
    rw [Schema.ofMembers, hput]
    exact hcomplete
  induction h with
  | nil =>
    refine ⟨(), ?_, rfl⟩
    induction ms with
    | nil => rfl
    | cons m ms ih =>
      rw [List.forall_mem_cons] at hnames
      obtain ⟨- | name, r⟩ := m
      · cases hnames.1
      · exact ih hnames.2
  | found hr hv _ ih =>
    obtain ⟨hf, hnodup⟩ := List.nodup_cons.mp hnodup
    obtain ⟨found, hput, hcomplete⟩ := ih hnodup
    refine ⟨(some _, found), putAll_split hf (putAll_found hnames hr hv) hput, ?_⟩
    rw [complete, hcomplete]
    rfl
  | absent hr hv _ ih =>
    obtain ⟨hf, hnodup⟩ := List.nodup_cons.mp hnodup
    obtain ⟨found, hput, hcomplete⟩ := ih hnodup
    refine ⟨(none, found), putAll_split hf (putAll_absent hnames hr none) hput, ?_⟩
    rw [complete, Option.none_or, hv, hcomplete]
    rfl

end Schema

/-- A part of a record, as far as its presentations go. -/
structure Part where
  name : String
  /-- It may be missing in an object. -/
  omissible : Prop
  /-- The values that show it. -/
  shown : Json → Prop

/-- The value shows a record with these parts: an object in which every part is shown once under its
name, or is missing and may be, beside members with other names that can be taken in; or an array that
shows the parts in order. -/
def ShowsRecord (parts : List Part) : Json → Prop
  | .object ms =>
    (∀ q ∈ parts, (∃ j, valuesNamed q.name ms = [j] ∧ q.shown j) ∨
      (valuesNamed q.name ms = [] ∧ q.omissible)) ∧
    ∀ m ∈ ms, ∃ name, m.1 = some name ∧ (name ∈ parts.map Part.name ∨ m.2.isPlain = true)
  | .array js => List.Forall₂ Part.shown parts js
  | _ => False

/-- Nothing is shown as null. -/
def ShowsOption : Option (Json → Prop) → Json → Prop
  | none, j => j = .null
  | some P, j => P j

/-- The value is an array that shows one item after the other. -/
def ShowsList (items : List (Json → Prop)) (j : Json) : Prop :=
  ∃ js, j = .array js ∧ List.Forall₂ (fun P i => P i) items js

theorem ShowsRecord.not_isNull {parts : List Part} {j : Json} (h : ShowsRecord parts j) :
    j.isNull = false := by
  cases j with
  | null => exact h.elim
  | _ => rfl

theorem ShowsRecord.isSome_names {parts : List Part} {ms : List (Json.Text × Json)}
    (h : ShowsRecord parts (.object ms)) : ∀ m ∈ ms, m.1.isSome := by
  intro m hm
  obtain ⟨name, hname, -⟩ := h.2 m hm
  rw [hname]
  rfl

theorem ShowsList.not_isNull {items : List (Json → Prop)} {j : Json} (h : ShowsList items j) :
    j.isNull = false := by
  obtain ⟨js, rfl, -⟩ := h
  rfl

/-- Whatever shows `a` can be taken in, and is read as `a` wherever it fits. -/
structure Means {α : Type} (P : Json → Prop) (read : Mode → Json → Except ReadError α) (a : α) :
    Prop where
  plain : ∀ j, P j → j.isPlain = true
  read : ∀ j m, P j → j.fits m = true → read m j = .ok a

namespace Means

variable {α β : Type} {read : Mode → Json → Except ReadError α}

/-- The form in which a value is written shows it. -/
theorem written {toJson : α → Json} (h : ReadsBack toJson read) (a : α) :
    Means (· = toJson a) read a where
  plain := by
    rintro _ rfl
    exact (h.written a).isPlain
  read := by
    rintro _ m rfl hfits
    exact h.read a m hfits

theorem map {P : Json → Prop} {a : α} (h : Means P read a) (f : α → β) :
    Means P (fun m j => (read m j).map f) (f a) where
  plain := h.plain
  read j m hj hfits := by
    rw [h.read j m hj hfits]
    rfl

theorem congr {P : Json → Prop} {a : α} (h : Means P read a)
    {read' : Mode → Json → Except ReadError α} (heq : ∀ m j, read' m j = read m j) :
    Means P read' a where
  plain := h.plain
  read j m hj hfits := (heq m j).trans (h.read j m hj hfits)

theorem option_none : Means (ShowsOption none) (fun m j => readOption (read m) j) none where
  plain := by
    rintro _ rfl
    rfl
  read := by
    rintro _ m rfl -
    rfl

theorem option_some {P : Json → Prop} {a : α} (h : Means P read a)
    (hnull : ∀ j, P j → j.isNull = false) :
    Means (ShowsOption (some P)) (fun m j => readOption (read m) j) (some a) where
  plain := h.plain
  read j m hj hfits := by
    rw [readOption, hnull j hj, h.read j m hj hfits]
    rfl

theorem list {items : List (Json → Prop)} {as : List α}
    (h : List.Forall₂ (fun P a => Means P read a) items as) :
    Means (ShowsList items) (readList read) as where
  plain := by
    rintro _ ⟨js, rfl, hjs⟩
    rw [isPlain, isPlainItems_eq, List.all_eq_true]
    induction h generalizing js with
    | nil =>
      cases hjs
      exact List.forall_mem_nil _
    | cons hmeans _ ih =>
      cases hjs with
      | cons hj hjs => exact List.forall_mem_cons.mpr ⟨hmeans.plain _ hj, ih _ hjs⟩
  read := by
    rintro _ m ⟨js, rfl, hjs⟩ hfits
    obtain ⟨m', hm, hitems⟩ := fits_array hfits
    rw [readList, hm]
    show js.mapM (read m') = .ok as
    clear hfits
    induction h generalizing js with
    | nil =>
      cases hjs
      rfl
    | cons hmeans _ ih =>
      cases hjs with
      | cons hj hjs =>
        rw [List.forall_mem_cons] at hitems
        rw [List.mapM_cons, hmeans.read _ m' hj hitems.1, ih _ hjs hitems.2]
        rfl

end Means

section
variable {φ : Type} {V : φ → Type}

/-- The parts are those of the row: named as its fields are, missing only where the row has what a
missing field is taken for, and shown by what is read as the field. -/
inductive Explains (sch : Schema V) (field : Mode → Json → (f : φ) → Except ReadError (V f)) :
    (fs : List φ) → Row V fs → List Part → Prop
  | nil : Explains sch field [] () []
  | cons {f : φ} {fs : List φ} {v : V f} {vs : Row V fs} {q : Part} {qs : List Part}
      (hname : q.name = sch.name f) (habsent : q.omissible → sch.absent f = some v)
      (hmeans : Means q.shown (fun m j => field m j f) v) (h : Explains sch field fs vs qs) :
      Explains sch field (f :: fs) (v, vs) (q :: qs)

variable {sch : Schema V} {field : Mode → Json → (f : φ) → Except ReadError (V f)} {fs : List φ}
  {row : Row V fs} {parts : List Part}

namespace Explains

theorem plain (h : Explains sch field fs row parts) :
    ∀ q ∈ parts, ∀ j, q.shown j → j.isPlain = true := by
  induction h with
  | nil => exact List.forall_mem_nil _
  | cons _ _ hmeans _ ih => exact List.forall_mem_cons.mpr ⟨hmeans.plain, ih⟩

theorem gives (h : Explains sch field fs row parts) {m : Mode} {ms : List (Json.Text × Json)}
    (hparts : ∀ q ∈ parts, (∃ j, valuesNamed q.name ms = [j] ∧ q.shown j) ∨
      (valuesNamed q.name ms = [] ∧ q.omissible))
    (hfits : ∀ p ∈ ms, p.2.fits m = true) : sch.Gives (field m) ms fs row := by
  induction h with
  | nil => exact .nil
  | cons hname habsent hmeans _ ih =>
    rw [List.forall_mem_cons, hname] at hparts
    rcases hparts.1 with ⟨j, hj, hshown⟩ | ⟨hnone, homissible⟩
    · have hmem := mem_valuesNamed.mp (hj ▸ List.mem_singleton_self j)
      exact .found hj (hmeans.read j m hshown (hfits _ hmem)) (ih hparts.2)
    · exact .absent hnone (habsent homissible) (ih hparts.2)

theorem ofItems (h : Explains sch field fs row parts) {m : Mode} {js : List Json}
    (hjs : List.Forall₂ Part.shown parts js) (hfits : ∀ j ∈ js, j.fits m = true) :
    sch.ofItems (field m) fs js = .ok row := by
  induction h generalizing js with
  | nil =>
    cases hjs
    rfl
  | cons _ _ hmeans _ ih =>
    cases hjs with
    | cons hj hjs =>
      rw [List.forall_mem_cons] at hfits
      rw [Schema.ofItems, hmeans.read _ m hj hfits.1, ih hjs hfits.2]
      rfl

end Explains

theorem ShowsRecord.isPlain {j : Json} (h : ShowsRecord parts j)
    (hparts : ∀ q ∈ parts, ∀ j, q.shown j → j.isPlain = true) : j.isPlain = true := by
  cases j with
  | object ms =>
    rw [Json.isPlain, isPlainMembers_eq, List.all_eq_true]
    intro m hm
    obtain ⟨name, hname, hpart | hplain⟩ := h.2 m hm
    · -- The member is the only one under its name, so it is the one that shows the part.
      obtain ⟨q, hq, rfl⟩ := List.mem_map.mp hpart
      have hmem : m.2 ∈ valuesNamed q.name ms := mem_valuesNamed.mpr (hname ▸ hm)
      rcases h.1 q hq with ⟨j, hj, hshown⟩ | ⟨hnone, -⟩
      · rw [hj, List.mem_singleton] at hmem
        rw [hname, hmem, hparts q hq j hshown]
        rfl
      · rw [hnone] at hmem
        cases hmem
    · rw [hname, hplain]
      rfl
  | array js =>
    have hjs : List.Forall₂ Part.shown parts js := h
    rw [Json.isPlain, isPlainItems_eq, List.all_eq_true]
    clear h
    induction hjs with
    | nil => exact List.forall_mem_nil _
    | cons hj _ ih =>
      rw [List.forall_mem_cons] at hparts
      exact List.forall_mem_cons.mpr ⟨hparts.1 _ hj, ih hparts.2⟩
  | null | bool | number | string => exact h.elim

/-- A record with the parts of a row is read as the row. -/
theorem Means.record (h : Explains sch field fs row parts) (hnodup : (fs.map sch.name).Nodup) :
    Means (ShowsRecord parts) (fun m j => sch.read field fs m j) row where
  plain j hj := hj.isPlain h.plain
  read j m hj hfits := by
    cases j with
    | object ms =>
      obtain ⟨m', hm, hmembers⟩ := fits_object hfits
      rw [Schema.read, hm]
      exact (h.gives hj.1 hmembers).ofMembers hj.isSome_names hnodup
    | array js =>
      obtain ⟨m', hm, hitems⟩ := fits_array hfits
      rw [Schema.read, hm]
      exact h.ofItems hj hitems
    | null | bool | number | string => exact hj.elim

end

end Json

open Json (Means ShowsRecord ShowsOption ShowsList)

namespace Range

def parts (r : Range) : List Json.Part :=
  [⟨"pos", False, (· = .nat r.pos.toNat)⟩, ⟨"end", False, (· = .nat r.stop.toNat)⟩]

/-- The value shows the range. -/
def Shows (r : Range) : Json → Prop := ShowsRecord r.parts

theorem means_offset (n : UInt32) : Means (· = .nat n.toNat) (fun _ => readOffset) n where
  plain := by
    rintro _ rfl
    exact (Json.Written.nat n.toNat_lt).isPlain
  read := by
    rintro _ _ rfl -
    exact readOffset_nat n

theorem means (r : Range) : Means r.Shows read r := by
  have hrow : Json.Explains schema (fun _ j _ => readOffset j) [.pos, .stop] (r.pos, r.stop, ())
      r.parts :=
    .cons rfl False.elim (means_offset r.pos) (.cons rfl False.elim (means_offset r.stop) .nil)
  exact (Means.record hrow (by decide)).map _

end Range

namespace Comment

def parts (c : Comment) : List Json.Part :=
  [⟨"kind", False, (· = .text c.kind.spelling)⟩, ⟨"content", False, (· = .text c.content)⟩,
    ⟨"range", c.range = {}, c.range.Shows⟩]

/-- The value shows the comment. -/
def Shows (c : Comment) : Json → Prop := ShowsRecord c.parts

theorem means (c : Comment) : Means c.Shows read c := by
  have hrow : Json.Explains schema readPart [.kind, .content, .range]
      (c.kind, c.content, c.range, ()) c.parts :=
    .cons rfl False.elim (.written CommentKind.readsBack c.kind) <|
      .cons rfl False.elim (.written Json.readsBack_text c.content) <|
        .cons rfl (fun h => congrArg some h.symm) c.range.means .nil
  exact (Means.record hrow (by decide)).map _

end Comment

namespace NodeData

/-- Whatever is as in the data of a node without any may be missing. -/
def parts (d : NodeData) : List Json.Part :=
  [⟨"range", d.range = {}, d.range.Shows⟩,
    ⟨"comment", d.comment = none, ShowsOption (d.comment.map Comment.Shows)⟩,
    ⟨"orphanComments", d.orphans = [], ShowsList (d.orphans.map Comment.Shows)⟩]

/-- The value shows the data. -/
def Shows (d : NodeData) : Json → Prop := ShowsRecord d.parts

theorem means (d : NodeData) : Means d.Shows read d := by
  have hcomment : Means (ShowsOption (d.comment.map Comment.Shows))
      (fun m j => Json.readOption (Comment.read m) j) d.comment := by
    cases d.comment with
    | none => exact .option_none
    | some c => exact c.means.option_some fun _ h => h.not_isNull
  have horphans : List.Forall₂ (fun P c => Means P Comment.read c) (d.orphans.map Comment.Shows)
      d.orphans := by
    rw [List.forall₂_map_left_iff, List.forall₂_same]
    exact fun c _ => c.means
  have hrow : Json.Explains schema readPart [.range, .comment, .orphans]
      (d.range, d.comment, d.orphans, ()) d.parts :=
    .cons rfl (fun h => congrArg some h.symm) d.range.means <|
      .cons rfl (fun h => congrArg some h.symm) hcomment <|
        .cons rfl (fun h => congrArg some h.symm) (.list horphans) .nil
  exact (Means.record hrow (by decide)).map _

end NodeData

/-- The value shows the contents of a field that has no nodes in it. -/
def Scalar.Shows : (s : Scalar) → s.Carrier → Json → Prop
  | .data, d, j => d.Shows j
  | s, v, j => j = s.toJson v

theorem Scalar.means (s : Scalar) (v : s.Carrier) : Means (s.Shows v) (fun m j => s.read m j) v := by
  cases s with
  | data => exact v.means
  | text | optText | flag | modifiers | primitive | assignOp | binaryOp | unaryOp =>
    exact .written (Scalar.readsBack _) v

end JavaText
