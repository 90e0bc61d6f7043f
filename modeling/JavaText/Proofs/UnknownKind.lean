import JavaText.Command.Render
import JavaText.Proofs.Retagged

/-!
# Tags that name no kind

Reading goes through a value from the front, and up to the tag that was replaced it finds what was
written; so the unknown tag is the first thing that is wrong, wherever it stands (`Json.Schema.Breaks`,
`Value.readSlot_retagged`). A tagged object is taken in as a whole before its contents are read, which
is no obstacle: what was written can be taken in whatever its tags are.
-/

namespace JavaText

open Json (Mode ReadError Schema)

namespace Json.Schema

variable {φ R : Type} {V : φ → Type} (sch : Schema V) (field : R → (f : φ) → Except ReadError (V f))

/-- The members name the fields in order, and the first one that cannot be read gives the error. -/
inductive Breaks (e : ReadError) : (fs : List φ) → List (Json.Text × R) → Prop
  | here {f : φ} {fs : List φ} {r : R} {ms : List (Json.Text × R)} (hr : field r f = .error e)
      (hnames : ms.map Prod.fst = (fs.map sch.name).map some) :
      Breaks e (f :: fs) ((some (sch.name f), r) :: ms)
  | later {f : φ} {fs : List φ} {v : V f} {r : R} {ms : List (Json.Text × R)}
      (hr : field r f = .ok v) (h : Breaks e fs ms) :
      Breaks e (f :: fs) ((some (sch.name f), r) :: ms)

variable {sch field} {e : ReadError}

theorem Breaks.names {fs : List φ} {ms : List (Json.Text × R)} (h : Breaks sch field e fs ms) :
    ms.map Prod.fst = (fs.map sch.name).map some := by
  induction h with
  | here _ hnames => exact congrArg (List.cons _) hnames
  | later _ _ ih => exact congrArg (List.cons _) ih

theorem Breaks.ofMembers {fs : List φ} {ms : List (Json.Text × R)} (h : Breaks sch field e fs ms)
    (hnodup : (fs.map sch.name).Nodup) : sch.ofMembers field fs ms = .error e := by
  have hput : sch.putAll field fs (nothing fs) ms = .error e := by
    induction h with
    | @here f fs r ms hr _ =>
      rw [putAll, nothing]
      have hfirst : sch.put (sch.name f) (field r) (f :: fs) (none, nothing fs) = .error e := by
        refine (if_pos rfl).trans ?_
        show (field r f).map _ = _
        rw [hr]
        rfl
      rw [hfirst]
      rfl
    | @later f fs v r ms hr h ih =>
      obtain ⟨hf, hnodup⟩ := List.nodup_cons.mp hnodup
      have hmembers : ∀ m ∈ ms, ∃ g ∈ fs, m.1 = some (sch.name g) := by
        intro m hm
        have hname := List.mem_map_of_mem (f := Prod.fst) hm
        rw [h.names, List.map_map] at hname
        obtain ⟨g, hg, heq⟩ := List.mem_map.mp hname
        exact ⟨g, hg, heq.symm⟩
      rw [putAll, nothing, put_same hr]
      refine (putAll_cons hmembers hf (some v) _).trans ?_
      rw [ih hnodup]
      rfl
  rw [Schema.ofMembers, hput]
  rfl

end Json.Schema

/-- The names that the tag of the category may have. -/
def Category.tags (c : Category) : List String := c.variants.map Prod.fst

/-- The error for a tag that the category does not have. -/
def Category.unknown (c : Category) (tag : String) : ReadError := .unknownVariant tag c.tags

section
variable {tag : String} {c : Category} {k : Kind} {m : Mode}

theorem Category.readTag_unknown (htag : tag ∉ c.tags) (m : Mode) :
    c.readTag m (.text tag) = .error (c.unknown tag) := by
  have hnone : c.variants.find? (fun v => v.1 == tag) = none := by
    refine List.find?_eq_none.mpr fun v hv heq => htag ?_
    rw [← eq_of_beq heq]
    exact List.mem_map_of_mem hv
  rw [Json.text, readTag, Json.variant, hnone]
  rfl

/-- The tag is read before anything else of the object. -/
theorem Json.readSlot_unknown (htag : tag ∉ c.tags) {ms : List (String × Json)}
    (hfits : (Json.record (("kind", .text tag) :: ms)).fits m = true) :
    (Json.record (("kind", .text tag) :: ms)).readSlot m (.one (.any c)) =
      .error (c.unknown tag) := by
  obtain ⟨m', hm, -⟩ := Json.fits_record hfits
  have hscan : ∀ rest, c.scan m' none ((some "kind", .text tag) :: rest) = .error (c.unknown tag) := by
    intro rest
    rw [Category.scan, if_pos rfl, Category.readTag_unknown htag]
    rfl
  rw [Json.readSlot_record]
  show m.enter.bind _ = _
  rw [hm]
  show (c.scan m' none ((some "kind", .text tag) :: _)).bind _ = _
  rw [hscan]
  rfl

theorem Json.map_fst_readers (ms : List (String × Json)) :
    (Json.readers ms).map Prod.fst = (ms.map Prod.fst).map some := by
  unfold Json.readers
  rw [List.map_map, List.map_map]
  rfl

/-- The members of a node, read in the mode `m`, break off with the error. -/
abbrev Json.BreaksOff (e : ReadError) (k : Kind) (ms : List (String × Json)) (m : Mode) : Prop :=
  Field.schema.Breaks (Opened.readField m) e (.data :: k.fields) (Json.readers ms)

/-- A node of which the members break off cannot be read in any place. -/
theorem Place.readSlot_breaks {p : Place} {e : ReadError} {ms : List (String × Json)}
    (hk : p.admits k = true)
    (hbreaks : ∀ m, (∀ q ∈ ms, q.2.fits m = true) → Json.BreaksOff e k ms m)
    (hfits : (p.object k ms).fits m = true) :
    (p.object k ms).readSlot m (.one p) = .error e := by
  obtain ⟨hkind, hnodup⟩ := List.nodup_cons.mp k.nodup_names
  have hnames : ms.map Prod.fst = (Field.data :: k.fields).map Field.schema.name := by
    have hbuffered := (hbreaks .buffered fun _ _ => rfl).names
    rw [Json.map_fst_readers] at hbuffered
    exact List.map_injective_iff.mpr (Option.some_injective _) hbuffered
  obtain ⟨m', hmembers, hread⟩ := Place.readSlot_members hk (hnames ▸ hkind) hfits
  rw [hread, Opened.treeOfMembers, (hbreaks m' hmembers).ofMembers hnodup]
  rfl

theorem mem_map_iff {α β : Type} {f : α → β} {l : List (Category × α)} {b : β} :
    (c, b) ∈ l.map (Prod.map id f) ↔ ∃ a, (c, a) ∈ l ∧ f a = b := by
  simp

/-- A node in its place cannot be read with an unknown tag, be it its own or one below. -/
theorem Place.readSlot_retagged {p : Place} {t : Tree k} {j : Json} (htag : tag ∉ c.tags)
    (hk : p.admits k = true)
    (hbelow : ∀ ms, (c, ms) ∈ t.retagged tag → ∀ m, (∀ q ∈ ms, q.2.fits m = true) →
      Json.BreaksOff (c.unknown tag) k ms m)
    (hj : (c, j) ∈ p.retagged tag k t.members (t.retagged tag)) (hfits : j.fits m = true) :
    j.readSlot m (.one p) = .error (c.unknown tag) := by
  have hinner : (c, j) ∈ (t.retagged tag).map (Prod.map id (p.object k)) →
      j.readSlot m (.one p) = .error (c.unknown tag) := by
    intro hj
    obtain ⟨ms, hms, rfl⟩ := mem_map_iff.mp hj
    exact Place.readSlot_breaks hk (hbelow ms hms) hfits
  cases p with
  | only _ => exact hinner hj
  | any c' =>
    rcases List.mem_cons.mp hj with heq | hj
    · cases heq
      exact Json.readSlot_unknown htag hfits
    · exact hinner hj

end

section
variable {tag : String} {c : Category}

mutual

theorem Tree.breaksOff (htag : tag ∉ c.tags) : {k : Kind} → (t : Tree k) →
    (ms : List (String × Json)) → (c, ms) ∈ t.retagged tag → (m : Mode) →
    (∀ q ∈ ms, q.2.fits m = true) → Json.BreaksOff (c.unknown tag) k ms m
  | _, .node d fs, ms, hms, m, hfits => by
    obtain ⟨ms', hms', rfl⟩ := mem_map_iff.mp hms
    rw [List.forall_mem_cons] at hfits
    have hdata : d.toJson.readSlot m (.scalar .data) = .ok d :=
      (Json.readSlot_scalar _ _ _).trans (NodeData.readsBack.read d m hfits.1)
    exact .later hdata (Fields.breaks htag fs ms' hms' m hfits.2)

theorem Fields.breaks (htag : tag ∉ c.tags) : {fs : List Field} → (vs : Fields fs) →
    (ms : List (String × Json)) → (c, ms) ∈ vs.retagged tag → (m : Mode) →
    (∀ q ∈ ms, q.2.fits m = true) →
    Field.schema.Breaks (Opened.readField m) (c.unknown tag) fs (Json.readers ms)
  | _, .cons v vs, ms, hms, m, hfits => by
    rcases List.mem_append.mp hms with hms | hms
    · obtain ⟨j, hj, rfl⟩ := mem_map_iff.mp hms
      rw [List.forall_mem_cons] at hfits
      refine .here (Value.readSlot_retagged htag v j hj m hfits.1) ?_
      exact (Json.map_fst_readers _).trans (congrArg (List.map some) vs.map_fst_members)
    · obtain ⟨ms', hms', rfl⟩ := mem_map_iff.mp hms
      rw [List.forall_mem_cons] at hfits
      exact .later (Value.readSlot_toJson v m hfits.1) (Fields.breaks htag vs ms' hms' m hfits.2)

/-- The contents of a slot cannot be read with an unknown tag in them. -/
theorem Value.readSlot_retagged (htag : tag ∉ c.tags) : {s : Slot} → (v : Value s) → (j : Json) →
    (c, j) ∈ v.retagged tag → (m : Mode) → j.fits m = true →
    j.readSlot m s = .error (c.unknown tag)
  | _, .one hk t, _, hj, _, hfits => Place.readSlot_retagged htag hk (Tree.breaksOff htag t) hj hfits
  | .opt p, .present hk t, j, hj, m, hfits => by
    have hread := Place.readSlot_retagged htag hk (Tree.breaksOff htag t) hj hfits
    cases j with
    | null => cases p <;> cases hread
    | bool | number | string | array | object => exact congrArg (Except.map some) hread
  | .many p, .many ts, j, hj, m, hfits => by
    obtain ⟨js, hjs, rfl⟩ := mem_map_iff.mp hj
    obtain ⟨m', hm, hitems⟩ := Json.fits_array hfits
    exact (Json.readSlot_many hm _ _).trans (Forest.readSlot_retagged htag ts js hjs m' hitems)
  | .optMany p, .listed ts, j, hj, m, hfits => by
    obtain ⟨js, hjs, rfl⟩ := mem_map_iff.mp hj
    obtain ⟨m', hm, hitems⟩ := Json.fits_array hfits
    have hlist := (Json.readSlot_many hm _ _).trans (Forest.readSlot_retagged htag ts js hjs m' hitems)
    show ((Json.array js).readSlot m (.many p)).map some = _
    rw [hlist]
    rfl
  | _, .single hk t, j, hj, m, hfits => by
    obtain ⟨j', hj', rfl⟩ := mem_map_iff.mp hj
    obtain ⟨m', hm, hmembers⟩ := Json.fits_record hfits
    rw [List.forall_mem_cons] at hmembers
    have hread := Place.readSlot_retagged htag hk (Tree.breaksOff htag t) hj' hmembers.1
    refine (Json.readSlot_arguments hm .single _).trans ?_
    rw [Opened.argumentsOf, hread]
    rfl
  | _, .pairs ts, j, hj, m, hfits => by
    obtain ⟨js, hjs, rfl⟩ := mem_map_iff.mp hj
    obtain ⟨m', hm, hmembers⟩ := Json.fits_record hfits
    rw [List.forall_mem_cons] at hmembers
    obtain ⟨m'', hm', hitems⟩ := Json.fits_array hmembers.1
    have hlist := (Json.readSlot_many hm' _ _).trans (Forest.readSlot_retagged htag ts js hjs m'' hitems)
    refine (Json.readSlot_arguments hm .pairs _).trans ?_
    rw [Opened.argumentsOf, hlist]
    rfl

theorem Forest.readSlot_retagged (htag : tag ∉ c.tags) : {p : Place} → (ts : Forest p) →
    (js : List Json) → (c, js) ∈ ts.retagged tag → (m : Mode) → (∀ j ∈ js, j.fits m = true) →
    (Json.itemReaders js).mapM (fun r => r m (.one p)) = .error (c.unknown tag)
  | _, .cons hk t ts, js, hjs, m, hfits => by
    rcases List.mem_append.mp hjs with hjs | hjs
    · obtain ⟨j, hj, rfl⟩ := mem_map_iff.mp hjs
      rw [List.forall_mem_cons] at hfits
      rw [Json.itemReaders, List.mapM_cons,
        Place.readSlot_retagged htag hk (Tree.breaksOff htag t) hj hfits.1]
      rfl
    · obtain ⟨js', hjs', rfl⟩ := mem_map_iff.mp hjs
      rw [List.forall_mem_cons] at hfits
      rw [Json.itemReaders, List.mapM_cons, Place.readSlot_object hk (Tree.listed t) hfits.1,
        Forest.readSlot_retagged htag ts js' hjs' m hfits.2]
      rfl

end

end

namespace Json

/-- Where one tag in what is written for a node is replaced by a name that its category does not have, the
text is refused for that name, at whatever depth the tag stands. The values with one tag replaced are those
with another name in one of the objects that carry a tag. -/
theorem load_retagged {p : Place} (child : Child p) (hdepth : child.toJson.depth ≤ 127) (tag : String) :
    (child.retagged tag).map Prod.snd = child.toJson.retagged tag ∧
      ∀ (c : Category) (j : Json), (c, j) ∈ child.retagged tag → tag ∉ c.tags →
        load (readChild p) j.render = .error (.data (c.unknown tag)) ∧
          (c.unknown tag).message? = some ("unknown variant " ++ ReadError.quoted tag ++
            ", expected one of " ++ ", ".intercalate (c.tags.map ReadError.quoted)) ∧
          (p = .only .compilationUnit → ∀ (r : Renderer) (path : String),
            r.renderText path j.render = .error (.tree path (.data (c.unknown tag)))) := by
  refine ⟨child.map_snd_retagged, fun c j hj htag => ?_⟩
  have hmem : j ∈ child.toJson.retagged tag := by
    rw [← child.map_snd_retagged]
    exact List.mem_map_of_mem hj
  obtain ⟨hwritten, hle⟩ := (Value.written_toJson (.one child.admitted child.tree)).retagged j hmem
  have hload : load (readChild p) j.render = .error (.data (c.unknown tag)) := by
    have hread := Value.readSlot_retagged htag (.one child.admitted child.tree) j hj .top
      (hwritten.fits (hle.trans hdepth))
    rw [load, hwritten.parse_render]
    show Except.mapError _ (readChild p j) = _
    rw [readChild, hread]
    rfl
  refine ⟨hload, ?_, ?_⟩
  · cases c <;> rfl
  · rintro rfl r path
    rw [Renderer.renderText, hload]
    rfl

/-- An enumeration in which there is only another one. -/
def enumUnit : Tree .compilationUnit :=
  Build.compilationUnit none []
    [(Build.enumDecl .empty "A" [] [(Build.enumDecl .empty "B" [] []).inside]).inside]

/-- The inner enumeration with the tag of a statement. -/
theorem load_retagged_enumUnit :
    "Block" ∈ Category.stmt.tags ∧ ∃ j, (Category.member, j) ∈ enumUnit.child.retagged "Block" ∧
      load (readChild (.only .compilationUnit)) j.render =
        .error (.data (.unknownVariant "Block" Category.member.tags)) ∧
      ∀ (r : Renderer) (path : String), r.renderText path j.render =
        .error (.tree path (.data (.unknownVariant "Block" Category.member.tags))) := by
  have hretagged := (load_retagged enumUnit.child (by decide) "Block").2 .member
  have hmem : ∃ j, (Category.member, j) ∈ enumUnit.child.retagged "Block" :=
    ⟨_, List.mem_cons_of_mem _ (List.mem_singleton_self _)⟩
  obtain ⟨j, hj⟩ := hmem
  obtain ⟨hload, -, hrender⟩ := hretagged j hj (by decide)
  exact ⟨by decide, j, hj, hload, hrender rfl⟩

end Json

end JavaText
