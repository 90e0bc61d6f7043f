import JavaText.Proofs.JsonRecord
import JavaText.Tree.Build

/-!
# Loading undoes writing

The members of a written node list its data and fields in order, each under a name of its own, and none
of them is called `kind`; so the tag in front names the kind again and the fields give the node's
contents (`Place.readSlot_object`). By recursion over the tree every slot is read back
(`Value.readSlot_toJson`), and a text that was written for a node gives the node.
-/

namespace JavaText

open Json (Mode ReadError ReadsBack Written Schema)

/-- The fields of a kind have different names, and none is called as the tag is. -/
theorem Kind.nodup_names (k : Kind) :
    ("kind" :: (Field.data :: k.fields).map Field.schema.name).Nodup := by
  cases k <;> decide

namespace Category

theorem find?_tag (c : Category) :
    ∀ v ∈ c.variants, c.variants.find? (fun w => w.1 == v.1) = some v := by
  cases c <;> decide

theorem readTag_tag? {c : Category} {k : Kind} (h : (Place.any c).admits k = true) (m : Mode) :
    c.readTag m (.text ((c.tag? k).getD "")) = .ok k := by
  obtain ⟨tag, htag⟩ := Option.isSome_iff_exists.mp h
  obtain ⟨v, hv, rfl⟩ := Option.map_eq_some_iff.mp htag
  have hsome := List.find?_some hv
  have hkind : v.2 = k := eq_of_beq hsome
  rw [htag, Option.getD_some, Json.text, readTag, Json.variant,
    c.find?_tag v (List.mem_of_find?_eq_some hv)]
  exact congrArg Except.ok hkind

/-- Once the tag is found, the other members only have to fit. -/
theorem scan_found (c : Category) {m : Mode} (k : Kind) {ms : List (String × Json)}
    (hname : "kind" ∉ ms.map Prod.fst) (hfits : ∀ p ∈ ms, p.2.fits m = true) :
    c.scan m (some k) (ms.map fun (name, j) => (some name, j)) = .ok k := by
  induction ms with
  | nil => rfl
  | cons p ms ih =>
    rw [List.map_cons, List.mem_cons, not_or] at hname
    rw [List.forall_mem_cons] at hfits
    rw [List.map_cons, scan, if_neg (Ne.symm hname.1), if_pos hfits.1]
    exact ih hname.2 hfits.2

end Category

theorem Fields.map_fst_members {fs : List Field} (vs : Fields fs) :
    vs.members.map Prod.fst = fs.map Field.schema.name := by
  cases vs with
  | nil => rfl
  | cons v vs =>
    rw [Fields.members, List.map_cons, List.map_cons, map_fst_members vs]
    rfl

theorem Tree.map_fst_members {k : Kind} (t : Tree k) :
    t.members.map Prod.fst = (Field.data :: k.fields).map Field.schema.name := by
  cases t with
  | node d fs =>
    rw [Tree.members, List.map_cons, List.map_cons, fs.map_fst_members]
    rfl

namespace Json

/-- The readers of the members of a record. -/
def readers (ms : List (String × Json)) : List (Json.Text × SlotReader) :=
  ms.map fun (name, j) => (some name, j.readSlot)

theorem memberReaders_eq (ms : List (String × Json)) :
    memberReaders (ms.map fun (name, j) => (some name, j)) = readers ms := by
  induction ms with
  | nil => rfl
  | cons p ms ih =>
    rw [List.map_cons, memberReaders, ih]
    rfl

theorem readSlot_record (ms : List (String × Json)) :
    (record ms).readSlot = Opened.slot { value := record ms, members := readers ms } := by
  rw [record, readSlot, memberReaders_eq]

theorem readSlot_scalar (j : Json) (m : Mode) (s : Scalar) :
    j.readSlot m (.scalar s) = s.read m j := by
  cases j <;> rfl

theorem readSlot_many {m m' : Mode} (hm : m.enter = .ok m') (js : List Json) (p : Place) :
    (array js).readSlot m (.many p) = (itemReaders js).mapM fun r => r m' (.one p) := by
  show m.enter.bind _ = _
  rw [hm]
  rfl

end Json

section

variable {k : Kind} {t : Tree k} {m m' : Mode}

/-- The members of the node, each read in the mode `m`, list the node's contents. -/
abbrev Tree.Listed (t : Tree k) (m : Mode) : Prop :=
  Field.schema.Lists (Opened.readField m) (.data :: k.fields) (t.data, t.row)
    (Json.readers t.members)

theorem Tree.Listed.treeOfMembers (h : t.Listed m) :
    Opened.treeOfMembers k m (Json.readers t.members) = .ok t := by
  have hrow := h.ofMembers (List.nodup_cons.mp k.nodup_names).2
  rw [Opened.treeOfMembers, hrow]
  exact congrArg Except.ok t.ofRow_row

/-- An object in a place is read by its members, once the tag is known. Those of a tagged object are
read after all of it has been taken in. -/
theorem Place.readSlot_members {p : Place} (hk : p.admits k = true) {ms : List (String × Json)}
    (hnames : "kind" ∉ ms.map Prod.fst) (hfits : (p.object k ms).fits m = true) :
    ∃ m', (∀ q ∈ ms, q.2.fits m' = true) ∧ (p.object k ms).readSlot m (.one p) =
      (Opened.treeOfMembers k m' (Json.readers ms)).map fun t => ⟨hk, t⟩ := by
  cases p with
  | only k' =>
    cases eq_of_beq hk
    obtain ⟨m', hm, hmembers⟩ := Json.fits_record hfits
    refine ⟨m', hmembers, ?_⟩
    rw [Place.object, Json.readSlot_record]
    show m.enter.bind _ = _
    rw [hm]
    rfl
  | any c =>
    obtain ⟨m', hm, hmembers⟩ := Json.fits_record hfits
    rw [List.forall_mem_cons] at hmembers
    refine ⟨.buffered, fun _ _ => rfl, ?_⟩
    have hscan : c.scan m' none ((("kind", Json.text ((c.tag? k).getD "")) :: ms).map
        fun (name, j) => (some name, j)) = .ok k := by
      rw [List.map_cons, Category.scan, if_pos rfl, Category.readTag_tag? hk]
      exact c.scan_found k hnames hmembers.2
    -- No field is called as the tag is.
    have htagged (tag : SlotReader) : Opened.treeOfMembers k .buffered
        ((some "kind", tag) :: Json.readers ms) = Opened.treeOfMembers k .buffered (Json.readers ms) := by
      rw [Opened.treeOfMembers, Schema.ofMembers_cons (List.nodup_cons.mp k.nodup_names).1]
      rfl
    have hplaced : ∀ t : Tree k, Opened.inCategory c t = .ok ⟨hk, t⟩ := fun t => dif_pos hk
    rw [Place.object, Json.readSlot_record]
    show m.enter.bind _ = _
    rw [hm]
    show (c.scan m' none _).bind _ = _
    rw [hscan]
    show (Opened.treeOfMembers k .buffered _).bind _ = _
    rw [Json.readers, List.map_cons, ← Json.readers, htagged]
    cases Opened.treeOfMembers k .buffered (Json.readers ms) with
    | error e => rfl
    | ok t => exact hplaced t

theorem Tree.kind_notMem_members (t : Tree k) : "kind" ∉ t.members.map Prod.fst := by
  rw [t.map_fst_members]
  exact (List.nodup_cons.mp k.nodup_names).1

/-- The object of a node is read back in its place. -/
theorem Place.readSlot_object {p : Place} (hk : p.admits k = true)
    (hlisted : ∀ m, (∀ q ∈ t.members, q.2.fits m = true) → t.Listed m)
    (hfits : (p.object k t.members).fits m = true) :
    (p.object k t.members).readSlot m (.one p) = .ok ⟨hk, t⟩ := by
  obtain ⟨m', hmembers, hread⟩ := Place.readSlot_members hk t.kind_notMem_members hfits
  rw [hread, (hlisted m' hmembers).treeOfMembers]
  rfl

theorem Place.readSlot_object_opt (p : Place) (ms : List (String × Json)) :
    (p.object k ms).readSlot m (.opt p) = ((p.object k ms).readSlot m (.one p)).map some := by
  cases p <;> rfl

/-- The arguments of an annotation that are not just a marker. -/
theorem Json.readSlot_arguments (hm : m.enter = .ok m') (form : Opened.ArgumentsForm) (j : Json) :
    (Json.record [(form.spelling, j)]).readSlot m .arguments =
      Opened.argumentsOf m' j j.readSlot form := by
  have hform : Json.variant Opened.ArgumentsForm.all Opened.ArgumentsForm.spelling form.spelling =
      .ok form := by
    cases form <;> rfl
  have hempty : (m == .buffered && !List.isEmpty ([] : List (Json.Text × Json))) = false := by simp
  rw [Json.readSlot_record]
  show (if (m == .buffered && !List.isEmpty ([] : List (Json.Text × Json))) then _ else _) = _
  rw [hempty, if_neg (by decide), hm]
  show (Json.variant _ _ _).bind _ = _
  rw [hform]
  show (Opened.argumentsOf m' j j.readSlot form).bind _ = _
  cases Opened.argumentsOf m' j j.readSlot form <;> rfl

end

mutual

theorem Tree.listed : {k : Kind} → (t : Tree k) → (m : Mode) →
    (∀ q ∈ t.members, q.2.fits m = true) → t.Listed m
  | _, .node d fs, m, h => by
    rw [Tree.members, List.forall_mem_cons] at h
    have hdata : d.toJson.readSlot m (.scalar .data) = .ok d :=
      (Json.readSlot_scalar _ _ _).trans (NodeData.readsBack.read d m h.1)
    exact .found hdata (Fields.listed fs m h.2)

theorem Fields.listed : {fs : List Field} → (vs : Fields fs) → (m : Mode) →
    (∀ q ∈ vs.members, q.2.fits m = true) →
    Field.schema.Lists (Opened.readField m) fs vs.row (Json.readers vs.members)
  | _, .nil, _, _ => .nil
  | _, .cons v vs, m, h => by
    rw [Fields.members, List.forall_mem_cons] at h
    exact .found (Value.readSlot_toJson v m h.1) (Fields.listed vs m h.2)

theorem Value.readSlot_toJson : {s : Slot} → (v : Value s) → (m : Mode) →
    v.toJson.fits m = true → v.toJson.readSlot m s = .ok v.view
  | .scalar s, .scalar v, m, h => (Json.readSlot_scalar _ _ _).trans (s.readsBack.read v m h)
  | _, .one hk t, _, h => Place.readSlot_object hk (Tree.listed t) h
  | _, .absent, _, _ => rfl
  | _, .present hk t, m, h => by
    rw [Value.toJson, Place.readSlot_object_opt, Place.readSlot_object hk (Tree.listed t) h]
    rfl
  | _, .many ts, m, h => by
    obtain ⟨m', hm, hitems⟩ := Json.fits_array h
    exact (Json.readSlot_many hm _ _).trans (Forest.readSlot_toJson ts m' hitems)
  | _, .unlisted, _, _ => rfl
  | .optMany p, .listed ts, m, h => by
    obtain ⟨m', hm, hitems⟩ := Json.fits_array h
    have hlist := (Json.readSlot_many hm _ _).trans (Forest.readSlot_toJson ts m' hitems)
    show ((Json.array ts.toJson).readSlot m (.many p)).map some = _
    rw [hlist]
    rfl
  | _, .marker, _, _ => rfl
  | _, .single hk t, m, h => by
    obtain ⟨m', hm, hmembers⟩ := Json.fits_record h
    rw [List.forall_mem_cons] at hmembers
    have hchild := Place.readSlot_object hk (Tree.listed t) hmembers.1
    refine (Json.readSlot_arguments hm .single _).trans ?_
    rw [Opened.argumentsOf, hchild]
    rfl
  | _, .pairs ts, m, h => by
    obtain ⟨m', hm, hmembers⟩ := Json.fits_record h
    rw [List.forall_mem_cons] at hmembers
    obtain ⟨m'', hm', hitems⟩ := Json.fits_array hmembers.1
    have hlist := (Json.readSlot_many hm' _ _).trans (Forest.readSlot_toJson ts m'' hitems)
    refine (Json.readSlot_arguments hm .pairs _).trans ?_
    rw [Opened.argumentsOf, hlist]
    rfl

theorem Forest.readSlot_toJson : {p : Place} → (ts : Forest p) → (m : Mode) →
    (∀ j ∈ ts.toJson, j.fits m = true) →
    (Json.itemReaders ts.toJson).mapM (fun r => r m (.one p)) = .ok ts.toList
  | _, .nil, _, _ => rfl
  | _, .cons hk t ts, m, h => by
    rw [Forest.toJson, List.forall_mem_cons] at h
    rw [Forest.toJson, Json.itemReaders, List.mapM_cons,
      Place.readSlot_object hk (Tree.listed t) h.1, Forest.readSlot_toJson ts m h.2]
    rfl

end

theorem Place.written_object (p : Place) (k : Kind) {ms : List (String × Json)}
    (h : ∀ q ∈ ms, Written q.2) : Written (p.object k ms) := by
  cases p with
  | only _ => exact .record h
  | any c => exact .record (List.forall_mem_cons.mpr ⟨.text _, h⟩)

mutual

theorem Tree.written_members : {k : Kind} → (t : Tree k) → ∀ q ∈ t.members, Written q.2
  | _, .node d fs =>
    List.forall_mem_cons.mpr ⟨NodeData.readsBack.written d, Fields.written_members fs⟩

theorem Fields.written_members : {fs : List Field} → (vs : Fields fs) →
    ∀ q ∈ vs.members, Written q.2
  | _, .nil => List.forall_mem_nil _
  | _, .cons v vs => List.forall_mem_cons.mpr ⟨Value.written_toJson v, Fields.written_members vs⟩

theorem Value.written_toJson : {s : Slot} → (v : Value s) → Written v.toJson
  | .scalar s, .scalar v => s.readsBack.written v
  | _, .one _ t => Place.written_object _ _ (Tree.written_members t)
  | _, .absent => .null
  | _, .present _ t => Place.written_object _ _ (Tree.written_members t)
  | _, .many ts => .array (Forest.written_toJson ts)
  | _, .unlisted => .null
  | _, .listed ts => .array (Forest.written_toJson ts)
  | _, .marker => .text _
  | _, .single (k := k) _ t => .record (List.forall_mem_singleton.mpr
    (Place.written_object (.any .expr) k (Tree.written_members t)))
  | _, .pairs ts => .record (List.forall_mem_singleton.mpr (.array (Forest.written_toJson ts)))

theorem Forest.written_toJson : {p : Place} → (ts : Forest p) → ∀ j ∈ ts.toJson, Written j
  | _, .nil => List.forall_mem_nil _
  | _, .cons _ t ts => List.forall_mem_cons.mpr
    ⟨Place.written_object _ _ (Tree.written_members t), Forest.written_toJson ts⟩

end

theorem Slot.readsBack (s : Slot) :
    ReadsBack (fun v : s.Of Child => (Value.ofView v).toJson) fun m j => j.readSlot m s where
  written v := (Value.ofView v).written_toJson
  read v m hfits := by
    have hread := (Value.ofView v).readSlot_toJson m hfits
    rwa [Value.view_ofView] at hread

namespace Json

/-- The text written for `a` gives `a` when it is loaded, and the same text again when what was
loaded is written. -/
structure Restores {α : Type} (toJson : α → Json) (read : Json → Except ReadError α) (a : α) :
    Prop where
  load : Json.load read (toJson a).render = .ok a
  fixed : (Json.load read (toJson a).render).map (fun b => (toJson b).render) =
    .ok (toJson a).render

theorem ReadsBack.restores {α : Type} {toJson : α → Json}
    {read : Mode → Json → Except ReadError α} (h : ReadsBack toJson read) {a : α}
    (hdepth : (toJson a).depth ≤ 127) : Restores toJson (read .top) a where
  load := h.load hdepth
  fixed := by
    rw [h.load hdepth]
    rfl

/-- Loading undoes writing: for a node in any place and for the contents of any slot, provided that
what is written nests no deeper than a text may; for comments and settings always. -/
theorem restores_written :
    (∀ (p : Place) (c : Child p), c.toJson.depth ≤ 127 → Restores Child.toJson (readChild p) c) ∧
    (∀ (s : Slot) (v : s.Of Child), (Value.ofView v).toJson.depth ≤ 127 →
      Restores (fun v => (Value.ofView v).toJson) (fun j => j.readSlot .top s) v) ∧
    (∀ c, Restores Comment.toJson (Comment.read .top) c) ∧
    (∀ o, Restores PrintOptions.toJson (PrintOptions.read .top) o) ∧
    (∀ s, Restores MarkupStyle.toJson (MarkupStyle.read .top) s) ∧
    (∀ c, Restores Config.toJson (Config.read .top) c) := by
  refine ⟨?_, ?_, ?_, ?_, ?_, ?_⟩
  · intro p c hdepth
    exact (Slot.readsBack (.one p)).restores hdepth
  · intro s v hdepth
    exact s.readsBack.restores hdepth
  · intro c
    have hdepth : c.toJson.depth = 2 := rfl
    exact Comment.readsBack.restores (by omega)
  · intro o
    have hdepth : o.toJson.depth = 1 := rfl
    exact PrintOptions.readsBack.restores (by omega)
  · intro s
    have hdepth := s.depth_toJson_le
    exact MarkupStyle.readsBack.restores (by omega)
  · intro c
    have hdepth := c.depth_toJson_le
    exact Config.readsBack.restores (by omega)

/-- A field with a comment, a modifier that has no name, and type arguments that are there but
empty. -/
def oddField : Member :=
  ((Build.field ⟨0x8001⟩ (Build.diamondType "Ω").inside ["x"]).commented
    { kind := .doc, content := "\"\n\t\\ü", range := ⟨7, 3⟩ }).inside

theorem restores_written_oddField :
    load (readChild (.any .member)) oddField.toJson.render = .ok oddField ∧
      load (fun j => j.readSlot .top (.optMany (.any .type))) (array []).render = .ok (some []) ∧
      load (fun j => j.readSlot .top (.optMany (.any .type))) null.render = .ok none :=
  ⟨(restores_written.1 _ oddField (by decide)).load,
    (restores_written.2.1 (.optMany (.any .type)) (some []) (by decide)).load,
    (restores_written.2.1 (.optMany (.any .type)) none (by decide)).load⟩

end Json

end JavaText
