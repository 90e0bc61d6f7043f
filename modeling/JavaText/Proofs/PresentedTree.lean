import JavaText.Proofs.JsonTree
import JavaText.Proofs.PresentedRecord
import JavaText.Tree.Build

/-!
# Trees in all their forms

At every level of a tree a node may be shown as an object, with its members in any order, with members
left out and with further ones, or as an array; and where several kinds may stand the tag is one more
part of the record, anywhere among the members but first in the array. Whatever the mixture, it is read
as the tree (`Value.means`): nodes in a place for one kind are records read straight from the text, and
those in a category are records again once the tag has been found.
-/

namespace JavaText

open Json (Mode ReadError Schema Means Explains ShowsRecord ShowsOption ShowsList)

/-- The parts of a node in a place. -/
def Place.parts (p : Place) (k : Kind) (parts : List Json.Part) : List Json.Part :=
  match p with
  | .only _ => parts
  | .any c => ⟨"kind", False, (· = .text ((c.tag? k).getD ""))⟩ :: parts

mutual

/-- The data and the fields of a node, in order. -/
def Tree.parts : {k : Kind} → Tree k → List Json.Part
  | _, .node d fs => ⟨"data", d = {}, d.Shows⟩ :: Fields.parts fs

/-- A field with a default may be missing if it has the default, and an option if it is empty. -/
def Fields.parts : {fs : List Field} → Fields fs → List Json.Part
  | _, .nil => []
  | _, .cons (f := f) v vs =>
    ⟨f.name, (f.hasDefault || f.slot.isOptional) = true ∧ f.slot.empty? = some v.view,
      Value.Shows v⟩ :: Fields.parts vs

/-- The value shows the contents of a slot. -/
def Value.Shows : {s : Slot} → Value s → Json → Prop
  | _, .scalar (s := s) v => s.Shows v
  | _, .one (p := p) (k := k) _ t => ShowsRecord (p.parts k (Tree.parts t))
  | _, .absent => ShowsOption none
  | _, .present (p := p) (k := k) _ t => ShowsOption (some (ShowsRecord (p.parts k (Tree.parts t))))
  | _, .many ts => ShowsList (Forest.shown ts)
  | _, .unlisted => ShowsOption none
  | _, .listed ts => ShowsOption (some (ShowsList (Forest.shown ts)))
  | _, .marker => (· = .text "Marker")
  | _, .single (k := k) _ t => fun j => ∃ i, j = .record [("Single", i)] ∧
      ShowsRecord ((Place.any .expr).parts k (Tree.parts t)) i
  | _, .pairs ts => fun j => ∃ i, j = .record [("Pairs", i)] ∧ ShowsList (Forest.shown ts) i

/-- What shows each tree. -/
def Forest.shown : {p : Place} → Forest p → List (Json → Prop)
  | _, .nil => []
  | _, .cons (p := p) (k := k) _ t ts =>
    ShowsRecord (p.parts k (Tree.parts t)) :: Forest.shown ts

end

/-- The value shows the node in its place. -/
def Child.Shows {p : Place} (c : Child p) : Json → Prop := ShowsRecord (p.parts c.kind c.tree.parts)

namespace Json

theorem itemReaders_eq (js : List Json) : itemReaders js = js.map readSlot := by
  induction js with
  | nil => rfl
  | cons j js ih => rw [itemReaders, ih, List.map_cons]

theorem memberReaders_map (ms : List (Json.Text × Json)) :
    memberReaders ms = ms.map fun m => (m.1, m.2.readSlot) := by
  induction ms with
  | nil => rfl
  | cons m ms ih => rw [memberReaders, ih, List.map_cons]

namespace Schema

variable {φ R S : Type} {V : φ → Type} (sch : Schema V) (field : R → (f : φ) → Except ReadError (V f))
  (g : S → R)

theorem ofMembers_map (fs : List φ) (ms : List (Json.Text × S)) :
    sch.ofMembers field fs (ms.map fun m => (m.1, g m.2)) =
      sch.ofMembers (fun s => field (g s)) fs ms := by
  suffices hput : ∀ found, sch.putAll field fs found (ms.map fun m => (m.1, g m.2)) =
      sch.putAll (fun s => field (g s)) fs found ms by
    rw [ofMembers, ofMembers, hput]
  induction ms with
  | nil => exact fun _ => rfl
  | cons m ms ih =>
    intro found
    obtain ⟨- | name, s⟩ := m
    · rfl
    · rw [List.map_cons, putAll, putAll]
      exact congrArg _ (funext ih)

theorem ofItems_map (fs : List φ) (ss : List S) :
    sch.ofItems field fs (ss.map g) = sch.ofItems (fun s => field (g s)) fs ss := by
  induction fs generalizing ss with
  | nil => cases ss <;> rfl
  | cons f fs ih =>
    cases ss with
    | nil =>
      rw [List.map_nil, ofItems, ofItems, ← ih, List.map_nil]
    | cons s ss => rw [List.map_cons, ofItems, ofItems, ih]

end Schema

/-- Reads a field. -/
def readField (m : Mode) (j : Json) : (f : Field) → Except ReadError (f.Of Child) :=
  Opened.readField m j.readSlot

theorem treeOfMembers_eq (k : Kind) (m : Mode) (ms : List (Json.Text × Json)) :
    Opened.treeOfMembers k m (memberReaders ms) =
      (Field.schema.ofMembers (readField m) (.data :: k.fields) ms).map
        fun row => Tree.ofRow k row.1 row.2 := by
  rw [Opened.treeOfMembers, memberReaders_map, Schema.ofMembers_map]
  rfl

theorem treeOfItems_eq (k : Kind) (m : Mode) (js : List Json) :
    Opened.treeOfItems k m (itemReaders js) =
      (Field.schema.ofItems (readField m) (.data :: k.fields) js).map
        fun row => Tree.ofRow k row.1 row.2 := by
  rw [Opened.treeOfItems, itemReaders_eq, Schema.ofItems_map]
  rfl

/-- In a place for one kind a node is a record. -/
theorem readSlot_only (j : Json) (m : Mode) (k : Kind) :
    j.readSlot m (.one (.only k)) =
      (Field.schema.read readField (.data :: k.fields) m j).map
        fun row => (Tree.ofRow k row.1 row.2).child := by
  cases j with
  | object ms =>
    show m.enter.bind (fun m => (Opened.treeOfMembers k m (memberReaders ms)).map Tree.child) =
      (m.enter.bind fun m => Field.schema.ofMembers (readField m) (.data :: k.fields) ms).map _
    cases m.enter with
    | error e => rfl
    | ok m' =>
      show (Opened.treeOfMembers k m' (memberReaders ms)).map Tree.child =
        (Field.schema.ofMembers (readField m') (.data :: k.fields) ms).map _
      rw [treeOfMembers_eq]
      cases Field.schema.ofMembers (readField m') (.data :: k.fields) ms <;> rfl
  | array js =>
    show m.enter.bind (fun m => (Opened.treeOfItems k m (itemReaders js)).map Tree.child) =
      (m.enter.bind fun m => Field.schema.ofItems (readField m) (.data :: k.fields) js).map _
    cases m.enter with
    | error e => rfl
    | ok m' =>
      show (Opened.treeOfItems k m' (itemReaders js)).map Tree.child =
        (Field.schema.ofItems (readField m') (.data :: k.fields) js).map _
      rw [treeOfItems_eq]
      cases Field.schema.ofItems (readField m') (.data :: k.fields) js <;> rfl
  | null | bool | number | string => rfl

theorem readSlot_opt (j : Json) (m : Mode) (p : Place) :
    j.readSlot m (.opt p) = readOption (fun j => j.readSlot m (.one p)) j := by
  cases j <;> rfl

theorem readSlot_many_eq (j : Json) (m : Mode) (p : Place) :
    j.readSlot m (.many p) = readList (fun m j => j.readSlot m (.one p)) m j := by
  cases j with
  | array js =>
    show m.enter.bind (fun m => (itemReaders js).mapM fun r => r m (.one p)) = m.enter.bind _
    refine congrArg _ (funext fun m' => ?_)
    rw [itemReaders_eq, List.mapM_map]
    rfl
  | null | bool | number | string | object => rfl

theorem readSlot_optMany (j : Json) (m : Mode) (p : Place) :
    j.readSlot m (.optMany p) = readOption (fun j => j.readSlot m (.many p)) j := by
  cases j <;> rfl

end Json

namespace Category

variable {c : Category} {m : Mode} {k : Kind}

/-- Once the tag is found, the other members only have to fit. -/
theorem scan_rest {ms : List (Json.Text × Json)} (hnames : ∀ p ∈ ms, p.1.isSome)
    (hkind : Json.valuesNamed "kind" ms = []) (hfits : ∀ p ∈ ms, p.2.fits m = true) :
    c.scan m (some k) ms = .ok k := by
  induction ms with
  | nil => rfl
  | cons p ms ih =>
    rw [List.forall_mem_cons] at hnames hfits
    obtain ⟨- | name, j⟩ := p
    · cases hnames.1
    · by_cases hname : name = "kind"
      · subst hname
        rw [Json.valuesNamed_cons_self] at hkind
        cases hkind
      · rw [Json.valuesNamed_cons_of_ne (fun heq => hname (Option.some.inj heq))] at hkind
        rw [scan, if_neg hname, if_pos hfits.1]
        exact ih hnames.2 hkind hfits.2

/-- The tag is found wherever it stands. -/
theorem scan_tag {ms : List (Json.Text × Json)} {tag : Json} (hnames : ∀ p ∈ ms, p.1.isSome)
    (hkind : Json.valuesNamed "kind" ms = [tag]) (htag : c.readTag m tag = .ok k)
    (hfits : ∀ p ∈ ms, p.2.fits m = true) : c.scan m none ms = .ok k := by
  induction ms with
  | nil => cases hkind
  | cons p ms ih =>
    rw [List.forall_mem_cons] at hnames hfits
    obtain ⟨- | name, j⟩ := p
    · cases hnames.1
    · by_cases hname : name = "kind"
      · subst hname
        rw [Json.valuesNamed_cons_self, List.cons.injEq] at hkind
        obtain ⟨rfl, hrest⟩ := hkind
        rw [scan, if_pos rfl, htag]
        exact scan_rest hnames.2 hrest hfits.2
      · rw [Json.valuesNamed_cons_of_ne (fun heq => hname (Option.some.inj heq))] at hkind
        rw [scan, if_neg hname, if_pos hfits.1]
        exact ih hnames.2 hkind hfits.2

end Category

section
variable {k : Kind} {t : Tree k}

/-- The parts of the tree are those of its data and fields. -/
abbrev Tree.Explained (t : Tree k) : Prop :=
  Explains Field.schema Json.readField (.data :: k.fields) (t.data, t.row) t.parts

theorem Tree.Explained.only (h : t.Explained) :
    Means (ShowsRecord t.parts) (fun m j => j.readSlot m (.one (.only k))) t.child := by
  have hrow := Means.record h (List.nodup_cons.mp k.nodup_names).2
  have hchild : (Tree.ofRow k t.data t.row).child = t.child := congrArg Tree.child t.ofRow_row
  rw [← hchild]
  exact (hrow.map fun row => (Tree.ofRow k row.1 row.2).child).congr fun m j =>
    Json.readSlot_only j m k

/-- The contents of a tagged node are read after all of it has been taken in, and then everything
fits. -/
theorem Tree.Explained.any (h : t.Explained) {c : Category} (hk : (Place.any c).admits k = true) :
    Means (ShowsRecord ((Place.any c).parts k t.parts)) (fun m j => j.readSlot m (.one (.any c)))
      ⟨hk, t⟩ where
  plain j hj := by
    refine hj.isPlain (List.forall_mem_cons.mpr ⟨?_, h.plain⟩)
    rintro _ rfl
    rfl
  read j m hj hfits := by
    cases j with
    | object ms =>
      obtain ⟨m', hm, hmembers⟩ := Json.fits_object hfits
      have hnames := hj.isSome_names
      obtain ⟨htag, hparts⟩ := List.forall_mem_cons.mp hj.1
      rcases htag with ⟨tag, hkind, rfl⟩ | ⟨-, hfalse⟩
      · -- The tag is passed over when the fields are read, like any further member.
        have hscan := Category.scan_tag hnames hkind (Category.readTag_tag? hk m') hmembers
        have hgives : Field.schema.Gives (Json.readField .buffered) ms _ _ :=
          h.gives hparts fun _ _ => rfl
        have hrow := hgives.ofMembers hnames (List.nodup_cons.mp k.nodup_names).2
        show m.enter.bind _ = _
        rw [hm]
        show (c.scan m' none ms).bind _ = _
        rw [hscan]
        show (Opened.treeOfMembers k .buffered (Json.memberReaders ms)).bind _ = _
        rw [Json.treeOfMembers_eq, hrow]
        show Opened.inCategory c (Tree.ofRow k t.data t.row) = _
        rw [t.ofRow_row]
        exact dif_pos hk
      · exact hfalse.elim
    | array js =>
      obtain ⟨m', hm, hitems⟩ := Json.fits_array hfits
      have hjs : List.Forall₂ Json.Part.shown ((Place.any c).parts k t.parts) js := hj
      cases hjs with
      | cons htag hjs =>
        obtain rfl := htag
        rw [List.forall_mem_cons] at hitems
        have hrow := h.ofItems (m := .buffered) hjs fun _ _ => rfl
        show m.enter.bind _ = _
        rw [hm]
        show ((c.readTag m' _).bind _).bind _ = _
        rw [Category.readTag_tag? hk, Except.bind, if_pos (List.all_eq_true.mpr hitems.2)]
        show (Opened.treeOfItems k .buffered (Json.itemReaders _)).bind _ = _
        rw [Json.treeOfItems_eq, hrow]
        show Opened.inCategory c (Tree.ofRow k t.data t.row) = _
        rw [t.ofRow_row]
        exact dif_pos hk
    | null | bool | number | string => exact hj.elim

theorem Tree.Explained.means (h : t.Explained) {p : Place} (hk : p.admits k = true) :
    Means (ShowsRecord (p.parts k t.parts)) (fun m j => j.readSlot m (.one p)) ⟨hk, t⟩ := by
  cases p with
  | only k' =>
    cases eq_of_beq hk
    exact h.only
  | any c => exact h.any hk

end

/-- The arguments of an annotation that are not just a marker. -/
theorem Json.Means.arguments (form : Opened.ArgumentsForm) {P : Json → Prop}
    {args : Slot.arguments.Of Child}
    (h : Means P (fun m i => Opened.argumentsOf m i i.readSlot form) args) :
    Means (fun j => ∃ i, j = .record [(form.spelling, i)] ∧ P i) (fun m j => j.readSlot m .arguments)
      args where
  plain := by
    rintro _ ⟨i, rfl, hi⟩
    have hplain := h.plain i hi
    rw [Json.record, Json.isPlain, Json.isPlainMembers_eq]
    simp [hplain]
  read := by
    rintro _ m ⟨i, rfl, hi⟩ hfits
    obtain ⟨m', hm, hmembers⟩ := Json.fits_record hfits
    rw [List.forall_mem_cons] at hmembers
    exact (Json.readSlot_arguments hm form i).trans (h.read i m' hi hmembers.1)

mutual

theorem Tree.explained : {k : Kind} → (t : Tree k) → t.Explained
  | _, .node d fs => by
    refine .cons rfl (fun h => congrArg some h.symm) ?_ (Fields.explained fs)
    exact d.means.congr fun m j => Json.readSlot_scalar j m .data

theorem Fields.explained : {fs : List Field} → (vs : Fields fs) →
    Explains Field.schema Json.readField fs vs.row vs.parts
  | _, .nil => .nil
  | _, .cons v vs => by
    refine .cons rfl (fun h => ?_) (Value.means v) (Fields.explained vs)
    exact (if_pos h.1).trans h.2

/-- Whatever shows the contents of a slot is read as them. -/
theorem Value.means : {s : Slot} → (v : Value s) → Means v.Shows (fun m j => j.readSlot m s) v.view
  | _, .scalar (s := s) v => (s.means v).congr fun m j => Json.readSlot_scalar j m s
  | _, .one hk t => (Tree.explained t).means hk
  | _, .absent (p := p) => Means.option_none.congr fun m j => Json.readSlot_opt j m p
  | _, .present (p := p) hk t => by
    have hsome := ((Tree.explained t).means hk).option_some fun _ h => h.not_isNull
    exact hsome.congr fun m j => Json.readSlot_opt j m p
  | _, .many (p := p) ts => (Means.list (Forest.means ts)).congr fun m j => Json.readSlot_many_eq j m p
  | _, .unlisted (p := p) => Means.option_none.congr fun m j => Json.readSlot_optMany j m p
  | _, .listed (p := p) ts => by
    have hlist := (Means.list (Forest.means ts)).congr fun m j => Json.readSlot_many_eq j m p
    have hsome := hlist.option_some fun _ h => h.not_isNull
    exact hsome.congr fun m j => Json.readSlot_optMany j m p
  | _, .marker => by
    constructor
    · rintro _ rfl
      rfl
    · rintro _ m rfl -
      rfl
  | _, .single hk t => by
    have hvalue := (Tree.explained t).means hk
    exact Means.arguments .single (hvalue.map Arguments.single)
  | _, .pairs ts => by
    have hlist := (Means.list (Forest.means ts)).congr fun m j =>
      Json.readSlot_many_eq j m (.only .memberValuePair)
    exact Means.arguments .pairs (hlist.map Arguments.pairs)

theorem Forest.means : {p : Place} → (ts : Forest p) →
    List.Forall₂ (fun P c => Means P (fun m j => j.readSlot m (.one p)) c) ts.shown ts.toList
  | _, .nil => .nil
  | _, .cons hk t ts => .cons ((Tree.explained t).means hk) (Forest.means ts)

end

namespace Json

/-- Every presentation of a node loads as the node. -/
theorem load_presented {p : Place} (c : Child p) {j : Json} {text : String}
    (htext : parse text = some j) (hshows : c.Shows j) (hdepth : j.depth ≤ 127) :
    load (readChild p) text = .ok c := by
  have hmeans := c.tree.explained.means c.admitted
  have hfits : j.fits .top = true := fits_direct_iff.mpr ⟨hdepth, hmeans.plain j hshows⟩
  rw [load, htext]
  show Except.mapError _ (j.readSlot .top (.one p)) = _
  rw [hmeans.read j .top hshows hfits]
  rfl

/-- A block that throws a variable. -/
def throwBlock : Tree .blockStmt :=
  (Build.block [(Build.throwStmt (Build.nameExpr "x").inside).inside]).spanning ⟨2, 9⟩

/-- The statement with its tag last, and in it nodes that are arrays. -/
def throwMixed : Json :=
  .object [(some "expression", .array [.text "Name", .object [], .array [.object [], .text "x"]]),
    (some "kind", .text "Throw")]

/-- The block with a further member first, and its data an array after the statements. -/
def throwBlockMixed : Json :=
  .object [(some "kind", .number { whole := 1, exponent := some 3 }),
    (some "statements", .array [throwMixed]),
    (some "data", .array [.object [(some "end", .nat 9), (some "pos", .nat 2)], .null, .array []])]

def throwBlockText : String :=
  "\x7b\"kind\":1e3,\"statements\":[\x7b\"expression\":[\"Name\",\x7b\x7d,[\x7b\x7d,\"x\"]]," ++
    "\"kind\":\"Throw\"\x7d],\"data\":[\x7b\"end\":9,\"pos\":2\x7d,null,[]]\x7d"

theorem load_presented_throwBlock :
    load (readChild (.only .blockStmt)) throwBlockText = .ok throwBlock.child := by
  have htext : parse throwBlockText = some throwBlockMixed := by cbv
  have hnone : NodeData.Shows {} (.object []) := by
    refine ⟨List.forall_mem_cons.mpr ⟨.inr ⟨rfl, rfl⟩, ?_⟩, List.forall_mem_nil _⟩
    exact List.forall_mem_cons.mpr ⟨.inr ⟨rfl, rfl⟩, List.forall_mem_singleton.mpr (.inr ⟨rfl, rfl⟩)⟩
  have hvalue : Child.Shows ((Build.nameExpr "x").inside : Expr)
      (.array [.text "Name", .object [], .array [.object [], .text "x"]]) :=
    .cons rfl (.cons hnone (.cons (.cons hnone (.cons rfl .nil)) .nil))
  have hthrow : Child.Shows ((Build.throwStmt (Build.nameExpr "x").inside).inside : Stmt)
      throwMixed := by
    constructor
    · refine List.forall_mem_cons.mpr ⟨.inl ⟨_, rfl, rfl⟩, List.forall_mem_cons.mpr ?_⟩
      exact ⟨.inr ⟨rfl, rfl⟩, List.forall_mem_singleton.mpr (.inl ⟨_, rfl, hvalue⟩)⟩
    · exact List.forall_mem_cons.mpr
        ⟨⟨_, rfl, .inl (by decide)⟩, List.forall_mem_singleton.mpr ⟨_, rfl, .inl (by decide)⟩⟩
  have hrange : Range.Shows ⟨2, 9⟩ (.object [(some "end", .nat 9), (some "pos", .nat 2)]) := by
    constructor
    · exact List.forall_mem_cons.mpr
        ⟨.inl ⟨_, rfl, rfl⟩, List.forall_mem_singleton.mpr (.inl ⟨_, rfl, rfl⟩)⟩
    · exact List.forall_mem_cons.mpr
        ⟨⟨_, rfl, .inl (by decide)⟩, List.forall_mem_singleton.mpr ⟨_, rfl, .inl (by decide)⟩⟩
  have hdata : NodeData.Shows throwBlock.data
      (.array [.object [(some "end", .nat 9), (some "pos", .nat 2)], .null, .array []]) :=
    .cons hrange (.cons rfl (.cons ⟨[], rfl, .nil⟩ .nil))
  have hnumber : isPlain (.number { whole := 1, exponent := some 3 }) = true := by decide +kernel
  refine load_presented throwBlock.child htext ⟨?_, ?_⟩ (by decide)
  · refine List.forall_mem_cons.mpr ⟨.inl ⟨_, rfl, hdata⟩, List.forall_mem_singleton.mpr ?_⟩
    exact .inl ⟨_, rfl, _, rfl, .cons hthrow .nil⟩
  · refine List.forall_mem_cons.mpr ⟨⟨_, rfl, .inr hnumber⟩, List.forall_mem_cons.mpr ?_⟩
    exact ⟨⟨_, rfl, .inl (by decide)⟩, List.forall_mem_singleton.mpr ⟨_, rfl, .inl (by decide)⟩⟩

end Json

end JavaText
