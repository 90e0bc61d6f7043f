import JavaText.Command.Render
import JavaText.Proofs.JsonFits
import JavaText.Proofs.ModifierText

/-!
# Records are read back

A record whose members are the fields in order, apart from fields that have the value they get when left
out, gives its row (`Json.Schema.Lists.ofMembers`); from this follow the ranges, comments and data of
nodes, the scalars, and the settings of a run.
-/

namespace JavaText

namespace Json

namespace Schema

variable {φ R : Type} {V : φ → Type} (sch : Schema V) (field : R → (f : φ) → Except ReadError (V f))

/-- The members list the fields of the row in order, and each can be read; only a field that has the
value it gets when left out may be missing. -/
inductive Lists : (fs : List φ) → Row V fs → List (Json.Text × R) → Prop
  | nil : Lists [] () []
  | found {f : φ} {fs : List φ} {v : V f} {vs : Row V fs} {r : R} {ms : List (Json.Text × R)}
      (hr : field r f = .ok v) (h : Lists fs vs ms) :
      Lists (f :: fs) (v, vs) ((some (sch.name f), r) :: ms)
  | absent {f : φ} {fs : List φ} {v : V f} {vs : Row V fs} {ms : List (Json.Text × R)}
      (hv : sch.absent f = some v) (h : Lists fs vs ms) : Lists (f :: fs) (v, vs) ms

variable {sch field}

theorem Lists.name_mem {fs : List φ} {row : Row V fs} {ms : List (Json.Text × R)}
    (h : Lists sch field fs row ms) : ∀ m ∈ ms, ∃ f ∈ fs, m.1 = some (sch.name f) := by
  induction h with
  | nil => intro m hm; cases hm
  | @found f fs _ _ r ms _ _ ih =>
    intro m hm
    rcases List.mem_cons.mp hm with rfl | hm
    · exact ⟨f, List.mem_cons_self .., rfl⟩
    · obtain ⟨g, hg, hname⟩ := ih m hm
      exact ⟨g, List.mem_cons_of_mem _ hg, hname⟩
  | absent _ _ ih =>
    intro m hm
    obtain ⟨g, hg, hname⟩ := ih m hm
    exact ⟨g, List.mem_cons_of_mem _ hg, hname⟩

theorem put_same {f : φ} {fs : List φ} {read : (f : φ) → Except ReadError (V f)} {v : V f}
    (h : read f = .ok v) (vs : Found V fs) :
    sch.put (sch.name f) read (f :: fs) (none, vs) = .ok (some v, vs) := by
  refine (if_pos rfl).trans ?_
  show (read f).map _ = _
  rw [h]
  rfl

theorem put_other {f : φ} {fs : List φ} {name : String} (h : sch.name f ≠ name)
    (read : (f : φ) → Except ReadError (V f)) (v : Option (V f)) (vs : Found V fs) :
    sch.put name read (f :: fs) (v, vs) = (sch.put name read fs vs).map fun vs => (v, vs) :=
  if_neg h

/-- A name that is no field's is passed over. -/
theorem put_of_not_mem {name : String} {fs : List φ} (h : name ∉ fs.map sch.name)
    (read : (f : φ) → Except ReadError (V f)) (found : Found V fs) :
    sch.put name read fs found = .ok found := by
  induction fs with
  | nil => rfl
  | cons f fs ih =>
    rw [List.map_cons, List.mem_cons, not_or] at h
    obtain ⟨v, vs⟩ := found
    rw [put_other (Ne.symm h.1), ih h.2]
    rfl

/-- Members that do not name the first field leave it alone. -/
theorem putAll_cons {f : φ} {fs : List φ} {ms : List (Json.Text × R)}
    (h : ∀ m ∈ ms, ∃ g ∈ fs, m.1 = some (sch.name g)) (hf : sch.name f ∉ fs.map sch.name)
    (v : Option (V f)) (vs : Found V fs) :
    sch.putAll field (f :: fs) (v, vs) ms = (sch.putAll field fs vs ms).map fun vs => (v, vs) := by
  induction ms generalizing vs with
  | nil => rfl
  | cons m ms ih =>
    obtain ⟨name, r⟩ := m
    obtain ⟨g, hg, rfl⟩ := h _ (List.mem_cons_self ..)
    have hne : sch.name f ≠ sch.name g := fun heq => hf (heq ▸ List.mem_map_of_mem hg)
    rw [putAll, putAll, put_other hne]
    cases sch.put (sch.name g) (field r) fs vs with
    | error e => rfl
    | ok vs₁ => exact ih (fun m hm => h m (List.mem_cons_of_mem _ hm)) vs₁

theorem Lists.putAll {fs : List φ} {row : Row V fs} {ms : List (Json.Text × R)}
    (h : Lists sch field fs row ms) (hnodup : (fs.map sch.name).Nodup) :
    ∃ found, sch.putAll field fs (nothing fs) ms = .ok found ∧ sch.complete fs found = .ok row := by
  induction h with
  | nil => exact ⟨(), rfl, rfl⟩
  | @found f fs v vs r ms hr h ih =>
    obtain ⟨hf, hnodup⟩ := List.nodup_cons.mp hnodup
    obtain ⟨found, hput, hcomplete⟩ := ih hnodup
    refine ⟨(some v, found), ?_, ?_⟩
    · rw [Schema.putAll, nothing, put_same hr]
      refine (putAll_cons h.name_mem hf (some v) _).trans ?_
      rw [hput]
      rfl
    · rw [complete, hcomplete]
      rfl
  | @absent f fs v vs ms hv h ih =>
    obtain ⟨hf, hnodup⟩ := List.nodup_cons.mp hnodup
    obtain ⟨found, hput, hcomplete⟩ := ih hnodup
    refine ⟨(none, found), (putAll_cons h.name_mem hf none _).trans ?_, ?_⟩
    · rw [hput]
      rfl
    · rw [complete, Option.none_or, hv, hcomplete]
      rfl

theorem Lists.ofMembers {fs : List φ} {row : Row V fs} {ms : List (Json.Text × R)}
    (h : Lists sch field fs row ms) (hnodup : (fs.map sch.name).Nodup) :
    sch.ofMembers field fs ms = .ok row := by
  obtain ⟨found, hput, hcomplete⟩ := h.putAll hnodup
  rw [Schema.ofMembers, hput]
  exact hcomplete

/-- A further member in front that is no field's changes nothing. -/
theorem ofMembers_cons {name : String} {fs : List φ} (h : name ∉ fs.map sch.name) (r : R)
    (ms : List (Json.Text × R)) :
    sch.ofMembers field fs ((some name, r) :: ms) = sch.ofMembers field fs ms := by
  rw [ofMembers, putAll, put_of_not_mem h]
  rfl

end Schema

/-- Whatever is written is a value that the renderer spells, and it is read back wherever it fits. -/
structure ReadsBack {α : Type} (toJson : α → Json) (read : Mode → Json → Except ReadError α) :
    Prop where
  written : ∀ a, Written (toJson a)
  read : ∀ a m, (toJson a).fits m = true → read m (toJson a) = .ok a

theorem ReadsBack.load {α : Type} {toJson : α → Json} {read : Mode → Json → Except ReadError α}
    (h : ReadsBack toJson read) {a : α} (hdepth : (toJson a).depth ≤ 127) :
    Json.load (read .top) (toJson a).render = .ok a := by
  rw [Json.load, (h.written a).parse_render]
  show Except.mapError _ (read .top (toJson a)) = _
  rw [h.read a .top ((h.written a).fits hdepth)]
  rfl

theorem Written.record {ms : List (String × Json)} (h : ∀ m ∈ ms, Written m.2) :
    Written (.record ms) := by
  refine .object ?_ ?_
  · intro m hm
    obtain ⟨p, -, rfl⟩ := List.mem_map.mp hm
    rfl
  · intro m hm
    obtain ⟨p, hp, rfl⟩ := List.mem_map.mp hm
    exact h p hp

/-- What stands in a record that fits, fits one level further. -/
theorem fits_record {m : Mode} {ms : List (String × Json)} (h : (Json.record ms).fits m = true) :
    ∃ m', m.enter = .ok m' ∧ ∀ p ∈ ms, p.2.fits m' = true := by
  obtain ⟨m', hm, hfits⟩ := fits_object h
  exact ⟨m', hm, fun p hp => hfits _ (List.mem_map_of_mem hp)⟩

theorem depth_record_le {ms : List (String × Json)} {n : Nat} (h : ∀ p ∈ ms, p.2.depth ≤ n) :
    (Json.record ms).depth ≤ n + 1 := by
  rw [record, depth]
  refine Nat.add_le_add_right (depthMembers_le_iff.mpr fun m hm => ?_) 1
  obtain ⟨p, hp, rfl⟩ := List.mem_map.mp hm
  exact h p hp

/-- A record whose members list its fields. -/
theorem ReadsBack.record {α φ : Type} {V : φ → Type} {sch : Schema V} {fs : List φ}
    {part : Mode → Json → (f : φ) → Except ReadError (V f)} {members : α → List (String × Json)}
    {ofRow : Row V fs → α} (row : α → Row V fs) (hrow : ∀ a, ofRow (row a) = a)
    (hnodup : (fs.map sch.name).Nodup) (hwritten : ∀ a, ∀ p ∈ members a, Written p.2)
    (hlists : ∀ a m, (∀ p ∈ members a, p.2.fits m = true) →
      sch.Lists (part m) fs (row a) ((members a).map fun (k, v) => (some k, v))) :
    ReadsBack (fun a => .record (members a)) fun m j => (sch.read part fs m j).map ofRow where
  written a := .record (hwritten a)
  read a m hfits := by
    obtain ⟨m', hm, hmembers⟩ := fits_record hfits
    have hread : sch.read part fs m (.record (members a)) = .ok (row a) := by
      rw [Json.record, Schema.read, hm]
      exact (hlists a m' hmembers).ofMembers hnodup
    rw [hread]
    exact congrArg Except.ok (hrow a)

theorem mapM_map_eq_ok {α β : Type} {g : α → β} {f : β → Except ReadError α} {as : List α}
    (h : ∀ a ∈ as, f (g a) = .ok a) : (as.map g).mapM f = .ok as := by
  induction as with
  | nil => rfl
  | cons a as ih =>
    rw [List.map_cons, List.mapM_cons, h a (List.mem_cons_self ..),
      ih fun b hb => h b (List.mem_cons_of_mem _ hb)]
    rfl

theorem readsBack_text : ReadsBack text fun _ => readText where
  written s := .text s
  read _ _ _ := rfl

theorem readsBack_bool : ReadsBack bool fun _ => readBool where
  written b := .bool b
  read _ _ _ := rfl

/-- A word of a closed list, by its spelling. -/
theorem readsBack_word {α : Type} {all : List α} {spelling : α → String}
    (h : ∀ a, all.find? (fun b => spelling b == spelling a) = some a) :
    ReadsBack (fun a => text (spelling a)) (readWord all spelling) where
  written a := .text (spelling a)
  read a m _ := by
    show variant all spelling (spelling a) = .ok a
    rw [variant, h a]

theorem ReadsBack.list {α : Type} {toJson : α → Json} {read : Mode → Json → Except ReadError α}
    (h : ReadsBack toJson read) :
    ReadsBack (fun as : List α => array (as.map toJson)) (readList read) where
  written as := by
    refine .array fun j hj => ?_
    obtain ⟨a, -, rfl⟩ := List.mem_map.mp hj
    exact h.written a
  read as m hfits := by
    obtain ⟨m', hm, hitems⟩ := fits_array hfits
    rw [readList, hm]
    exact mapM_map_eq_ok fun a ha => h.read a m' (hitems _ (List.mem_map_of_mem ha))

theorem depth_texts (cs : List String) : (array (cs.map text)).depth = 1 := by
  have hle : depthItems (cs.map text) ≤ 0 := by
    refine depthItems_le_iff.mpr fun j hj => ?_
    obtain ⟨c, -, rfl⟩ := List.mem_map.mp hj
    exact Nat.le_refl 0
  rw [depth, Nat.le_zero.mp hle]

end Json

open Json (ReadsBack Written Schema)

theorem Range.readOffset_nat (n : UInt32) : readOffset (.nat n.toNat) = .ok n := by
  have hnat : Number.nat? { whole := n.toNat } = some n.toNat := rfl
  rw [Json.nat, readOffset, hnat]
  show (if n.toNat < 4294967296 then _ else _) = _
  rw [if_pos n.toNat_lt, UInt32.ofNat_toNat]

theorem Range.readsBack : ReadsBack toJson read := by
  refine .record (fun r => (r.pos, r.stop, ())) (fun _ => rfl) (by decide) ?_ ?_
  · intro r
    simp only [List.forall_mem_cons]
    exact ⟨.nat r.pos.toNat_lt, .nat r.stop.toNat_lt, List.forall_mem_nil _⟩
  · intro r m _
    exact .found (readOffset_nat _) (.found (readOffset_nat _) .nil)

theorem CommentKind.readsBack : ReadsBack (fun k => .text (spelling k)) read :=
  Json.readsBack_word fun k => by cases k <;> rfl

theorem Comment.readsBack : ReadsBack toJson read := by
  refine .record (fun c => (c.kind, c.content, c.range, ())) (fun _ => rfl) (by decide) ?_ ?_
  · intro c
    simp only [List.forall_mem_cons]
    exact ⟨.text _, .text _, Range.readsBack.written c.range, List.forall_mem_nil _⟩
  · intro c m hfits
    simp only [List.forall_mem_cons] at hfits
    obtain ⟨hkindFits, -, hrangeFits, -⟩ := hfits
    have hkind := CommentKind.readsBack.read c.kind m hkindFits
    have hrange := Range.readsBack.read c.range m hrangeFits
    exact .found hkind (.found rfl (.found hrange .nil))

theorem NodeData.readsBack : ReadsBack toJson read := by
  refine .record (fun d => (d.range, d.comment, d.orphans, ())) (fun _ => rfl) (by decide) ?_ ?_
  · intro d p hp
    rw [List.mem_append, List.mem_append, List.mem_singleton] at hp
    rcases hp with (rfl | hp) | hp
    · exact Range.readsBack.written d.range
    · obtain ⟨c, -, rfl⟩ := Option.map_eq_some_iff.mp (Option.mem_toList.mp hp)
      exact Comment.readsBack.written c
    · split at hp
      · cases hp
      · rw [List.mem_singleton.mp hp]
        exact Comment.readsBack.list.written d.orphans
  · intro d m hfits
    have hrange := Range.readsBack.read d.range m (hfits ("range", d.range.toJson) (by simp))
    have horphans : Schema.Lists schema (readPart m) [.orphans] (d.orphans, ())
        ((if d.orphans.isEmpty then [] else
          [("orphanComments", Json.array (d.orphans.map Comment.toJson))]).map
            fun (k, v) => (some k, v)) := by
      split
      · next hempty =>
        rw [List.isEmpty_iff.mp hempty]
        exact .absent rfl .nil
      · next hfull =>
        have hlist := Comment.readsBack.list.read d.orphans m
          (hfits ("orphanComments", .array (d.orphans.map Comment.toJson)) (by simp [hfull]))
        exact .found hlist .nil
    rw [List.append_assoc, List.singleton_append, List.map_cons]
    refine .found hrange ?_
    rw [List.map_append]
    cases hd : d.comment with
    | none => exact .absent rfl horphans
    | some c =>
      have hread := Comment.readsBack.read c m (hfits ("comment", c.toJson) (by simp [hd]))
      refine .found ?_ horphans
      show Json.readOption (Comment.read m) c.toJson = .ok (some c)
      rw [Json.readOption, hread]
      rfl

theorem Scalar.readsBack (s : Scalar) : ReadsBack s.toJson fun m j => s.read m j := by
  cases s with
  | text => exact Json.readsBack_text
  | optText =>
    refine ⟨fun v => ?_, fun v m _ => ?_⟩
    · cases v with
      | none => exact .null
      | some s => exact .text s
    · cases v <;> rfl
  | flag => exact Json.readsBack_bool
  | modifiers =>
    refine ⟨fun v => .text _, fun v m _ => ?_⟩
    simp only [Scalar.toJson, Scalar.read, Json.text, Json.readText, Except.bind, v.read?_text]
  | primitive => exact Json.readsBack_word fun v => by cases v <;> rfl
  | assignOp => exact Json.readsBack_word fun v => by cases v <;> rfl
  | binaryOp => exact Json.readsBack_word fun v => by cases v <;> rfl
  | unaryOp => exact Json.readsBack_word fun v => by cases v <;> rfl
  | data => exact NodeData.readsBack

theorem PrintOptions.readsBack : ReadsBack toJson read := by
  refine .record (fun o => (o.indent, o.newLine, o.printComments, ())) (fun _ => rfl) (by decide) ?_ ?_
  · intro o
    simp only [List.forall_mem_cons]
    exact ⟨.text _, .text _, .bool _, List.forall_mem_nil _⟩
  · intro o m _
    exact .found rfl (.found rfl (.found rfl .nil))

namespace ClassTable

/-- A type above all that are there comes last. -/
theorem setEntry_above {type : String} {cs : List String} {es : List (String × List String)}
    (h : ∀ e ∈ es, e.1 < type) : setEntry type cs es = es ++ [(type, cs)] := by
  induction es with
  | nil => rfl
  | cons e es ih =>
    have hlt := h e (List.mem_cons_self ..)
    have hne : type ≠ e.1 := fun heq => String.lt_irrefl _ (heq ▸ hlt)
    have hge : ¬ type < e.1 := fun hgt => String.lt_irrefl _ (String.lt_trans hgt hlt)
    rw [setEntry, if_neg hne, if_neg hge, ih fun e he => h e (List.mem_cons_of_mem _ he)]
    rfl

theorem readMembers_entries {m : Json.Mode} (t : ClassTable) {es : List (String × List String)}
    (hsorted : Sorted (t.entries ++ es)) (hfits : ∀ e ∈ es, (Json.array (e.2.map .text)).fits m) :
    ∃ t', readMembers m t (es.map fun (type, cs) => (some type, .array (cs.map .text))) = .ok t' ∧
      t'.entries = t.entries ++ es := by
  induction es generalizing t with
  | nil => exact ⟨t, rfl, (List.append_nil _).symm⟩
  | cons e es ih =>
    obtain ⟨type, cs⟩ := e
    have habove : ∀ e ∈ t.entries, e.1 < type := fun e he =>
      (List.pairwise_append.mp hsorted).2.2 e he (type, cs) (List.mem_cons_self ..)
    have hset : (t.set type cs).entries ++ es = t.entries ++ (type, cs) :: es := by
      show setEntry type cs t.entries ++ es = _
      rw [setEntry_above habove, List.append_assoc, List.singleton_append]
    have hread := Json.readsBack_text.list.read cs m (hfits _ (List.mem_cons_self ..))
    obtain ⟨t', hrest, hentries⟩ := ih (t.set type cs) (hset ▸ hsorted) fun e he =>
      hfits e (List.mem_cons_of_mem _ he)
    refine ⟨t', ?_, hentries.trans hset⟩
    rw [List.map_cons, readMembers, hread]
    exact hrest

theorem readsBack : ReadsBack toJson read where
  written t := by
    refine .record fun p hp => ?_
    obtain ⟨e, -, rfl⟩ := List.mem_map.mp hp
    exact Json.readsBack_text.list.written e.2
  read t m hfits := by
    obtain ⟨m', hm, hmembers⟩ := Json.fits_record hfits
    have hsorted : Sorted (empty.entries ++ t.entries) := t.sorted
    obtain ⟨t', hread, hentries⟩ := readMembers_entries empty hsorted fun e he =>
      hmembers _ (List.mem_map_of_mem he)
    have heq : t' = t := by
      obtain ⟨entries, sorted⟩ := t'
      cases hentries
      rfl
    rw [toJson, Json.record, read, hm, List.map_map]
    exact hread.trans (congrArg Except.ok heq)

theorem depth_toJson_le (t : ClassTable) : t.toJson.depth ≤ 2 := by
  refine Json.depth_record_le fun p hp => ?_
  obtain ⟨e, -, rfl⟩ := List.mem_map.mp hp
  exact Nat.le_of_eq (Json.depth_texts e.2)

end ClassTable

theorem MarkupStyle.readsBack : ReadsBack toJson read := by
  refine .record (fun s => (s.tag, s.bareNames, s.classes, ())) (fun _ => rfl) (by decide) ?_ ?_
  · intro s
    simp only [List.forall_mem_cons]
    exact ⟨.text _, Json.readsBack_text.list.written s.bareNames,
      ClassTable.readsBack.written s.classes, List.forall_mem_nil _⟩
  · intro s m hfits
    simp only [List.forall_mem_cons] at hfits
    obtain ⟨-, hnamesFit, hclassesFit, -⟩ := hfits
    have hnames := Json.readsBack_text.list.read s.bareNames m hnamesFit
    have hclasses := ClassTable.readsBack.read s.classes m hclassesFit
    exact .found rfl (.found hnames (.found hclasses .nil))

theorem MarkupStyle.depth_toJson_le (s : MarkupStyle) : s.toJson.depth ≤ 3 := by
  have hnames := Json.depth_texts s.bareNames
  have hclasses := s.classes.depth_toJson_le
  have htag : (Json.text s.tag).depth = 0 := rfl
  refine Json.depth_record_le ?_
  simp only [List.forall_mem_cons, List.not_mem_nil]
  refine ⟨by omega, by omega, by omega, by simp⟩

theorem Config.readsBack : ReadsBack toJson read := by
  refine .record (fun c => (c.printer, c.markup, ())) (fun _ => rfl) (by decide) ?_ ?_
  · intro c
    simp only [List.forall_mem_cons]
    exact ⟨PrintOptions.readsBack.written c.printer, MarkupStyle.readsBack.written c.markup,
      List.forall_mem_nil _⟩
  · intro c m hfits
    simp only [List.forall_mem_cons] at hfits
    obtain ⟨hprinterFits, hmarkupFits, -⟩ := hfits
    have hprinter := PrintOptions.readsBack.read c.printer m hprinterFits
    have hmarkup := MarkupStyle.readsBack.read c.markup m hmarkupFits
    exact .found hprinter (.found hmarkup .nil)

theorem Config.depth_toJson_le (c : Config) : c.toJson.depth ≤ 4 := by
  have hprinter : c.printer.toJson.depth = 1 := rfl
  have hmarkup := c.markup.depth_toJson_le
  refine Json.depth_record_le ?_
  simp only [List.forall_mem_cons, List.not_mem_nil]
  refine ⟨by omega, by omega, by simp⟩

end JavaText
