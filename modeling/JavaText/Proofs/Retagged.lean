import JavaText.Proofs.JsonTree

/-!
# Written trees with another tag

A node in a place for several kinds is written with its tag, and the values that come from the written
tree when one tag is replaced can be told in two ways: by looking for the objects that carry a tag
(`Json.retagged`), and by going through the tree, where each tag belongs to a category
(`Child.retagged`). They are the same values (`Child.map_snd_retagged`).
-/

namespace JavaText

open Json (Written)

namespace Json

variable (tag : String)

/-- Whether the members are those of a node with a tag: the tag comes first and then the data. -/
def isTagged : List (Json.Text × Json) → Bool
  | (first, _) :: (second, _) :: _ => first == some "kind" && second == some "data"
  | _ => false

mutual

/-- The values that come from the given one when the tag of one node in it is replaced. -/
def retagged : Json → List Json
  | .array js => (retaggedItems js).map .array
  | .object ms =>
    (if isTagged ms then [.object ((some "kind", .text tag) :: ms.tail)] else []) ++
      (retaggedMembers ms).map .object
  | _ => []

def retaggedItems : List Json → List (List Json)
  | [] => []
  | j :: js => (retagged j).map (· :: js) ++ (retaggedItems js).map (j :: ·)

def retaggedMembers : List (Json.Text × Json) → List (List (Json.Text × Json))
  | [] => []
  | (n, j) :: ms =>
    (retagged j).map (fun j => (n, j) :: ms) ++ (retaggedMembers ms).map ((n, j) :: ·)

end

variable {tag}

theorem forall_retaggedItems {P : Json → Prop} {js : List Json} (hjs : ∀ j ∈ js, P j)
    (h : ∀ j ∈ js, ∀ j' ∈ j.retagged tag, P j') :
    ∀ js' ∈ retaggedItems tag js, ∀ j ∈ js', P j := by
  induction js with
  | nil =>
    intro js' hjs'
    cases hjs'
  | cons j js ih =>
    rw [List.forall_mem_cons] at hjs h
    intro js' hjs'
    rw [retaggedItems, List.mem_append, List.mem_map, List.mem_map] at hjs'
    rcases hjs' with ⟨j', hj', rfl⟩ | ⟨js', hjs', rfl⟩
    · exact List.forall_mem_cons.mpr ⟨h.1 j' hj', hjs.2⟩
    · exact List.forall_mem_cons.mpr ⟨hjs.1, ih hjs.2 h.2 js' hjs'⟩

theorem forall_retaggedMembers {P : Json.Text × Json → Prop} {ms : List (Json.Text × Json)}
    (hms : ∀ m ∈ ms, P m) (h : ∀ m ∈ ms, ∀ j ∈ m.2.retagged tag, P (m.1, j)) :
    ∀ ms' ∈ retaggedMembers tag ms, ∀ m ∈ ms', P m := by
  induction ms with
  | nil =>
    intro ms' hms'
    cases hms'
  | cons m ms ih =>
    obtain ⟨n, j⟩ := m
    rw [List.forall_mem_cons] at hms h
    intro ms' hms'
    rw [retaggedMembers, List.mem_append, List.mem_map, List.mem_map] at hms'
    rcases hms' with ⟨j', hj', rfl⟩ | ⟨ms', hms', rfl⟩
    · exact List.forall_mem_cons.mpr ⟨h.1 j' hj', hms.2⟩
    · exact List.forall_mem_cons.mpr ⟨hms.1, ih hms.2 h.2 ms' hms'⟩

/-- Another tag is written like any text, and nests no deeper. -/
theorem Written.retagged {j : Json} (h : Written j) :
    ∀ j' ∈ j.retagged tag, Written j' ∧ j'.depth ≤ j.depth := by
  induction h with
  | null | bool | nat | text =>
    intro j' hj'
    cases hj'
  | @array js hjs ih =>
    intro j' hj'
    obtain ⟨js', hjs', rfl⟩ := List.mem_map.mp hj'
    have hdepth := depthItems_le_iff.mp (Nat.le_refl (depthItems js))
    have hitems : ∀ j ∈ js', Written j ∧ j.depth ≤ depthItems js :=
      forall_retaggedItems (fun j hj => ⟨hjs j hj, hdepth j hj⟩)
        (fun j hj j' hj' => ⟨(ih j hj j' hj').1, (ih j hj j' hj').2.trans (hdepth j hj)⟩) js' hjs'
    refine ⟨.array fun j hj => (hitems j hj).1, ?_⟩
    rw [depth, depth]
    exact Nat.succ_le_succ (depthItems_le_iff.mpr fun j hj => (hitems j hj).2)
  | @object ms hname hms ih =>
    intro j' hj'
    have hdepth := depthMembers_le_iff.mp (Nat.le_refl (depthMembers ms))
    have hold : ∀ m ∈ ms, m.1.isSome ∧ Written m.2 ∧ m.2.depth ≤ depthMembers ms := fun m hm =>
      ⟨hname m hm, hms m hm, hdepth m hm⟩
    obtain ⟨ms', rfl, hmembers⟩ : ∃ ms', j' = .object ms' ∧
        ∀ m ∈ ms', m.1.isSome ∧ Written m.2 ∧ m.2.depth ≤ depthMembers ms := by
      rw [Json.retagged, List.mem_append, List.mem_map] at hj'
      rcases hj' with hj' | ⟨ms', hms', rfl⟩
      · split at hj'
        · refine ⟨_, List.mem_singleton.mp hj', List.forall_mem_cons.mpr ⟨?_, ?_⟩⟩
          · exact ⟨rfl, .text tag, Nat.zero_le _⟩
          · exact fun m hm => hold m (List.mem_of_mem_tail hm)
        · cases hj'
      · refine ⟨ms', rfl, forall_retaggedMembers hold (fun m hm j hj => ?_) ms' hms'⟩
        obtain ⟨hwritten, hle⟩ := ih m hm j hj
        exact ⟨hname m hm, hwritten, hle.trans (hdepth m hm)⟩
    refine ⟨.object (fun m hm => (hmembers m hm).1) fun m hm => (hmembers m hm).2.1, ?_⟩
    rw [depth, depth]
    exact Nat.succ_le_succ (depthMembers_le_iff.mpr fun m hm => (hmembers m hm).2.2)

variable (tag)

/-- The members of a record with one tag in them replaced. -/
def retaggedRecord : List (String × Json) → List (List (String × Json))
  | [] => []
  | (n, j) :: ms =>
    (j.retagged tag).map (fun j => (n, j) :: ms) ++ (retaggedRecord ms).map ((n, j) :: ·)

variable {tag}

theorem retaggedMembers_record (ms : List (String × Json)) :
    (retaggedMembers tag (ms.map fun (n, j) => (some n, j))).map object =
      (retaggedRecord tag ms).map record := by
  have hmembers : retaggedMembers tag (ms.map (Prod.map some id)) =
      (retaggedRecord tag ms).map (List.map (Prod.map some id)) := by
    induction ms with
    | nil => rfl
    | cons m ms ih =>
      rw [List.map_cons, retaggedRecord, List.map_append, List.map_map, List.map_map, retaggedMembers, ih,
        List.map_map]
      rfl
  refine (congrArg (List.map object) hmembers).trans ?_
  rw [List.map_map]
  rfl

theorem retagged_record_tagged (j d : Json) (ms : List (String × Json)) :
    (record (("kind", j) :: ("data", d) :: ms)).retagged tag =
      record (("kind", .text tag) :: ("data", d) :: ms) ::
        (retaggedRecord tag (("kind", j) :: ("data", d) :: ms)).map record := by
  rw [← retaggedMembers_record]
  rfl

theorem retagged_record_untagged {n : String} (h : n ≠ "kind") (j : Json) (ms : List (String × Json)) :
    (record ((n, j) :: ms)).retagged tag = (retaggedRecord tag ((n, j) :: ms)).map record := by
  have hnot : isTagged (((n, j) :: ms).map fun (n, j) => (some n, j)) = false := by
    cases ms with
    | nil => rfl
    | cons m ms => simp [isTagged, h]
  rw [← retaggedMembers_record, record, retagged, hnot]
  rfl

theorem retaggedRecord_eq_nil {ms : List (String × Json)} (h : ∀ m ∈ ms, m.2.retagged tag = []) :
    retaggedRecord tag ms = [] := by
  induction ms with
  | nil => rfl
  | cons m ms ih =>
    rw [List.forall_mem_cons] at h
    rw [retaggedRecord, h.1, ih h.2]
    rfl

theorem retaggedItems_eq_nil {js : List Json} (h : ∀ j ∈ js, j.retagged tag = []) :
    retaggedItems tag js = [] := by
  induction js with
  | nil => rfl
  | cons j js ih =>
    rw [List.forall_mem_cons] at h
    rw [retaggedItems, h.1, ih h.2]
    rfl

end Json

section
variable {tag : String}

theorem NodeData.retagged_toJson (d : NodeData) : d.toJson.retagged tag = [] := by
  have hcomment : ∀ c : Comment, c.toJson.retagged tag = [] := fun _ => rfl
  have horphans : (Json.array (d.orphans.map Comment.toJson)).retagged tag = [] := by
    rw [Json.retagged, Json.retaggedItems_eq_nil, List.map_nil]
    intro j hj
    obtain ⟨c, -, rfl⟩ := List.mem_map.mp hj
    exact hcomment c
  rw [toJson, List.append_assoc, List.singleton_append, Json.retagged_record_untagged (by decide),
    Json.retaggedRecord_eq_nil, List.map_nil]
  refine List.forall_mem_cons.mpr ⟨rfl, List.forall_mem_append.mpr ⟨fun m hm => ?_, fun m hm => ?_⟩⟩
  · obtain ⟨c, -, rfl⟩ := Option.map_eq_some_iff.mp (Option.mem_toList.mp hm)
    exact hcomment c
  · split at hm
    · cases hm
    · obtain rfl := List.mem_singleton.mp hm
      exact horphans

theorem Scalar.retagged_toJson (s : Scalar) (v : s.Carrier) : (s.toJson v).retagged tag = [] := by
  cases s with
  | data => exact v.retagged_toJson
  | optText => cases v <;> rfl
  | text | flag | modifiers | primitive | assignOp | binaryOp | unaryOp => rfl

end

/-- The object of a node with one tag replaced, its own or one in its members; with each goes the
category of the tag. -/
def Place.retagged (tag : String) (p : Place) (k : Kind) (ms : List (String × Json))
    (inner : List (Category × List (String × Json))) : List (Category × Json) :=
  let below := inner.map (Prod.map id (p.object k))
  match p with
  | .only _ => below
  | .any c => (c, .record (("kind", .text tag) :: ms)) :: below

section
variable (tag : String)

mutual

/-- What is written for the members of the node with one tag replaced, and the category of that tag. -/
def Tree.retagged : {k : Kind} → Tree k → List (Category × List (String × Json))
  | _, .node d fs => (Fields.retagged fs).map (Prod.map id (("data", d.toJson) :: ·))

def Fields.retagged : {fs : List Field} → Fields fs → List (Category × List (String × Json))
  | _, .nil => []
  | _, .cons (f := f) v vs =>
    (Value.retagged v).map (Prod.map id fun j => (f.name, j) :: vs.members) ++
      (Fields.retagged vs).map (Prod.map id ((f.name, v.toJson) :: ·))

def Value.retagged : {s : Slot} → Value s → List (Category × Json)
  | _, .scalar _ => []
  | _, .one (p := p) (k := k) _ t => p.retagged tag k t.members (Tree.retagged t)
  | _, .absent => []
  | _, .present (p := p) (k := k) _ t => p.retagged tag k t.members (Tree.retagged t)
  | _, .many ts => (Forest.retagged ts).map (Prod.map id .array)
  | _, .unlisted => []
  | _, .listed ts => (Forest.retagged ts).map (Prod.map id .array)
  | _, .marker => []
  | _, .single (k := k) _ t =>
    ((Place.any .expr).retagged tag k t.members (Tree.retagged t)).map
      (Prod.map id fun j => .record [("Single", j)])
  | _, .pairs ts => (Forest.retagged ts).map (Prod.map id fun js => .record [("Pairs", .array js)])

def Forest.retagged : {p : Place} → Forest p → List (Category × List Json)
  | _, .nil => []
  | _, .cons (p := p) (k := k) _ t ts =>
    (p.retagged tag k t.members (Tree.retagged t)).map (Prod.map id (· :: ts.toJson)) ++
      (Forest.retagged ts).map (Prod.map id (p.object k t.members :: ·))

end

/-- What is written for the node in its place with one tag replaced, and the category of that tag. -/
def Child.retagged {p : Place} (c : Child p) : List (Category × Json) :=
  p.retagged tag c.kind c.tree.members (c.tree.retagged tag)

end

section
variable {tag : String}

theorem map_snd_map {α β : Type} (f : α → β) (l : List (Category × α)) :
    (l.map (Prod.map id f)).map Prod.snd = (l.map Prod.snd).map f := by
  rw [List.map_map, List.map_map]
  rfl

theorem Place.map_snd_retagged (p : Place) {k : Kind} {t : Tree k}
    (h : (t.retagged tag).map Prod.snd = Json.retaggedRecord tag t.members) :
    (p.retagged tag k t.members (t.retagged tag)).map Prod.snd =
      (p.object k t.members).retagged tag := by
  have hbelow : ((t.retagged tag).map (Prod.map id (p.object k))).map Prod.snd =
      (Json.retaggedRecord tag t.members).map (p.object k) := by
    rw [map_snd_map, h]
  obtain ⟨d, fs⟩ := t
  cases p with
  | only _ => exact hbelow.trans (Json.retagged_record_untagged (by decide) _ _).symm
  | any c =>
    -- Nothing can be replaced within the tag itself.
    have hmembers (s : String) (ms : List (String × Json)) :
        Json.retaggedRecord tag (("kind", .text s) :: ms) =
          (Json.retaggedRecord tag ms).map (("kind", .text s) :: ·) := rfl
    have hobject :=
      @Json.retagged_record_tagged tag (.text ((c.tag? k).getD "")) d.toJson fs.members
    rw [hmembers, List.map_map] at hobject
    exact (congrArg (List.cons _) hbelow).trans hobject.symm

mutual

theorem Tree.map_snd_retagged : {k : Kind} → (t : Tree k) →
    (t.retagged tag).map Prod.snd = Json.retaggedRecord tag t.members
  | _, .node d fs => by
    rw [Tree.retagged, Tree.members, map_snd_map, Fields.map_snd_retagged fs, Json.retaggedRecord,
      d.retagged_toJson]
    rfl

theorem Fields.map_snd_retagged : {fs : List Field} → (vs : Fields fs) →
    (vs.retagged tag).map Prod.snd = Json.retaggedRecord tag vs.members
  | _, .nil => rfl
  | _, .cons v vs => by
    rw [Fields.retagged, Fields.members, List.map_append, map_snd_map, map_snd_map,
      Value.map_snd_retagged v, Fields.map_snd_retagged vs, Json.retaggedRecord]

theorem Value.map_snd_retagged : {s : Slot} → (v : Value s) →
    (v.retagged tag).map Prod.snd = v.toJson.retagged tag
  | .scalar s, .scalar v => (s.retagged_toJson v).symm
  | _, .one _ t => Place.map_snd_retagged _ (Tree.map_snd_retagged t)
  | _, .absent => rfl
  | _, .present _ t => Place.map_snd_retagged _ (Tree.map_snd_retagged t)
  | _, .many ts => (map_snd_map ..).trans (congrArg _ (Forest.map_snd_retagged ts))
  | _, .unlisted => rfl
  | _, .listed ts => (map_snd_map ..).trans (congrArg _ (Forest.map_snd_retagged ts))
  | _, .marker => rfl
  | _, .single _ t => by
    rw [Value.retagged, Value.toJson, map_snd_map,
      Place.map_snd_retagged (.any .expr) (Tree.map_snd_retagged t),
      Json.retagged_record_untagged (by decide), Json.retaggedRecord, Json.retaggedRecord, List.map_nil,
      List.append_nil, List.map_map]
    rfl
  | _, .pairs ts => by
    rw [Value.retagged, Value.toJson, map_snd_map, Forest.map_snd_retagged ts,
      Json.retagged_record_untagged (by decide), Json.retaggedRecord, Json.retaggedRecord, List.map_nil,
      List.append_nil, List.map_map, Json.retagged, List.map_map]
    rfl

theorem Forest.map_snd_retagged : {p : Place} → (ts : Forest p) →
    (ts.retagged tag).map Prod.snd = Json.retaggedItems tag ts.toJson
  | _, .nil => rfl
  | _, .cons _ t ts => by
    rw [Forest.retagged, Forest.toJson, List.map_append, map_snd_map, map_snd_map,
      Place.map_snd_retagged _ (Tree.map_snd_retagged t), Forest.map_snd_retagged ts,
      Json.retaggedItems]

end

/-- Going through the tree meets the tags that are in what is written for it. -/
theorem Child.map_snd_retagged {p : Place} (c : Child p) :
    (c.retagged tag).map Prod.snd = c.toJson.retagged tag :=
  Place.map_snd_retagged p c.tree.map_snd_retagged

end

end JavaText
