import JavaText.Proofs.Conduct
import JavaText.Proofs.JsonTree

/-!
# A walk misses no node

The data in a tree are collected twice without a walk: from the tree as it is built, whatever field they
stand in (`Tree.allData`), and from the text that is written for it, where each node has one member for
its data (`Json.valuesOf`). The walk meets just these, in the same order (`Tree.walk_covers`), and every
node but the root after the node that has it among its children.
-/

namespace JavaText

def Scalar.allData : (s : Scalar) → s.Carrier → List NodeData
  | .data, d => [d]
  | .text, _ | .optText, _ | .flag, _ | .modifiers, _ | .primitive, _ | .assignOp, _
  | .binaryOp, _ | .unaryOp, _ => []

mutual

/-- The data that occur anywhere in the tree, in the order in which they stand there. -/
def Tree.allData : {k : Kind} → Tree k → List NodeData
  | _, .node d fs => d :: Fields.allData fs

def Fields.allData : {fs : List Field} → Fields fs → List NodeData
  | _, .nil => []
  | _, .cons v vs => Value.allData v ++ Fields.allData vs

def Value.allData : {s : Slot} → Value s → List NodeData
  | _, .scalar (s := s) v => s.allData v
  | _, .one _ t => Tree.allData t
  | _, .absent => []
  | _, .present _ t => Tree.allData t
  | _, .many ts => Forest.allData ts
  | _, .unlisted => []
  | _, .listed ts => Forest.allData ts
  | _, .marker => []
  | _, .single _ t => Tree.allData t
  | _, .pairs ts => Forest.allData ts

def Forest.allData : {p : Place} → Forest p → List NodeData
  | _, .nil => []
  | _, .cons _ t ts => Tree.allData t ++ Forest.allData ts

end

/-- The field holds the data of a node, or is called as if it did. -/
def Field.isData (f : Field) : Bool := f.slot == .scalar .data || f.name == "data"

/-- The data of a node are apart from its fields. -/
theorem Kind.not_isData {k : Kind} {f : Field} (hf : f ∈ k.fields) : f.isData = false := by
  have hall : (k.fields.all fun f => !f.isData) = true := by cases k <;> decide
  simpa using List.all_eq_true.mp hall f hf

theorem Field.slot_ne_data {f : Field} (h : f.isData = false) : f.slot ≠ .scalar .data := by
  rintro hslot
  simp [isData, hslot] at h

theorem Field.name_ne_data {f : Field} (h : f.isData = false) : f.name ≠ "data" := by
  rintro hname
  simp [isData, hname] at h

theorem Forest.allData_eq {p : Place} : (ts : Forest p) →
    ts.allData = ts.trees.flatMap fun c => c.2.allData
  | .nil => rfl
  | .cons _ t ts => by rw [allData, trees, List.flatMap_cons, allData_eq ts]

theorem Value.allData_eq {s : Slot} (hs : s ≠ .scalar .data) (v : Value s) :
    v.allData = v.trees.flatMap fun c => c.2.allData := by
  cases v with
  | @scalar s v => cases s with
    | data => exact absurd rfl hs
    | _ => rfl
  | many ts | listed ts | pairs ts => exact ts.allData_eq
  | one | present | single => exact (List.append_nil _).symm
  | absent | unlisted | marker => rfl

theorem Fields.allData_eq {fs : List Field} (h : ∀ f ∈ fs, f.isData = false) (vs : Fields fs) :
    vs.allData = vs.trees.flatMap fun c => c.2.allData := by
  cases vs with
  | nil => rfl
  | cons v vs =>
    rw [List.forall_mem_cons] at h
    rw [allData, trees, List.flatMap_append, Value.allData_eq (Field.slot_ne_data h.1),
      allData_eq h.2]

theorem Tree.allData_eq {k : Kind} (t : Tree k) :
    t.allData = t.data :: t.trees.flatMap fun c => c.2.allData := by
  cases t with
  | node d fs => exact congrArg (d :: ·) (fs.allData_eq fun _ => Kind.not_isData)

/-- The walk meets the data of the tree. -/
theorem Tree.filterMap_visits {k : Kind} (t : Tree k) (path : Path) (parent : Option Node) :
    ((t.visits path parent).filterMap fun v => v.node.data?) = t.allData := by
  induction t using Tree.of_trees generalizing path parent with
  | step t ih =>
    have hchildren : (t.trees.zipIdx.map Prod.fst).flatMap (fun c => c.2.allData) =
        t.trees.flatMap fun c => c.2.allData := by rw [List.zipIdx_map_fst]
    rw [visits_eq, allData_eq, ← hchildren, List.flatMap_map]
    refine congrArg (t.data :: ·) ((List.filterMap_flatMap ..).trans ?_)
    refine List.flatMap_congr fun c hc => ?_
    exact ih c.1 (List.fst_mem_of_mem_zipIdx hc) _ _

namespace Json

variable (name : String)

mutual

/-- The values of all members with the name, at any depth. -/
def valuesOf : Json → List Json
  | .array js => valuesOfItems js
  | .object ms => valuesOfMembers ms
  | _ => []

def valuesOfItems : List Json → List Json
  | [] => []
  | j :: js => valuesOf j ++ valuesOfItems js

def valuesOfMembers : List (Json.Text × Json) → List Json
  | [] => []
  | (n, j) :: ms => (if n = some name then [j] else []) ++ valuesOf j ++ valuesOfMembers ms

end

theorem valuesOf_array (js : List Json) :
    (array js).valuesOf name = js.flatMap fun j => j.valuesOf name := by
  rw [valuesOf]
  induction js with
  | nil => rfl
  | cons j js ih => rw [valuesOfItems, ih, List.flatMap_cons]

/-- What a member of a record brings along. -/
def valuesOfMember (m : String × Json) : List Json :=
  (if m.1 = name then [m.2] else []) ++ m.2.valuesOf name

theorem valuesOf_record (ms : List (String × Json)) :
    (record ms).valuesOf name = ms.flatMap (valuesOfMember name) := by
  rw [record, valuesOf]
  induction ms with
  | nil => rfl
  | cons m ms ih =>
    rw [List.map_cons, valuesOfMembers, ih, List.flatMap_cons, valuesOfMember]
    simp only [Option.some.injEq]

variable {name}

theorem valuesOfMember_other {n : String} (h : n ≠ name) (j : Json) :
    valuesOfMember name (n, j) = j.valuesOf name := by
  rw [valuesOfMember, if_neg h, List.nil_append]

end Json

theorem Comment.valuesOf_toJson (c : Comment) : c.toJson.valuesOf "data" = [] := rfl

theorem NodeData.valuesOf_toJson (d : NodeData) : d.toJson.valuesOf "data" = [] := by
  have horphans : (Json.array (d.orphans.map Comment.toJson)).valuesOf "data" = [] := by
    rw [Json.valuesOf_array, List.flatMap_map]
    exact List.flatMap_eq_nil_iff.mpr fun c _ => c.valuesOf_toJson
  rw [toJson, Json.valuesOf_record, List.flatMap_append, List.flatMap_append]
  have hcomment : ((d.comment.map fun c => ("comment", c.toJson)).toList.flatMap
      (Json.valuesOfMember "data")) = [] := by
    cases d.comment <;> rfl
  have hrange : [("range", d.range.toJson)].flatMap (Json.valuesOfMember "data") = [] := rfl
  rw [hrange, hcomment]
  split
  · rfl
  · exact (List.append_nil _).trans horphans

theorem Scalar.valuesOf_toJson (s : Scalar) (v : s.Carrier) : (s.toJson v).valuesOf "data" = [] := by
  cases s with
  | data => exact v.valuesOf_toJson
  | optText => cases v <;> rfl
  | text | flag | modifiers | primitive | assignOp | binaryOp | unaryOp => rfl

theorem Place.valuesOf_object (p : Place) (k : Kind) (ms : List (String × Json)) :
    (p.object k ms).valuesOf "data" = ms.flatMap (Json.valuesOfMember "data") := by
  cases p with
  | only _ => exact Json.valuesOf_record ..
  | any c => exact Json.valuesOf_record ..

mutual

/-- Each node is written with one member for its data. -/
theorem Tree.valuesOf_members : {k : Kind} → (t : Tree k) →
    t.members.flatMap (Json.valuesOfMember "data") = t.allData.map NodeData.toJson
  | _, .node d fs => by
    rw [Tree.members, List.flatMap_cons, Fields.valuesOf_members fs fun _ => Kind.not_isData,
      Json.valuesOfMember, d.valuesOf_toJson]
    rfl

theorem Fields.valuesOf_members : {fs : List Field} → (vs : Fields fs) →
    (∀ f ∈ fs, f.isData = false) →
    vs.members.flatMap (Json.valuesOfMember "data") = vs.allData.map NodeData.toJson
  | _, .nil, _ => rfl
  | f :: _, .cons v vs, h => by
    rw [List.forall_mem_cons] at h
    rw [Fields.members, List.flatMap_cons, Fields.valuesOf_members vs h.2,
      Json.valuesOfMember_other (Field.name_ne_data h.1),
      Value.valuesOf_toJson v (Field.slot_ne_data h.1), Fields.allData, List.map_append]

theorem Value.valuesOf_toJson : {s : Slot} → (v : Value s) → s ≠ .scalar .data →
    v.toJson.valuesOf "data" = v.allData.map NodeData.toJson
  | .scalar s, .scalar v, h => by
    have hnone : s.allData v = [] := by
      cases s with
      | data => exact absurd rfl h
      | _ => rfl
    rw [Value.toJson, s.valuesOf_toJson, Value.allData, hnone]
    rfl
  | _, .one _ t, _ => (Place.valuesOf_object ..).trans (Tree.valuesOf_members t)
  | _, .absent, _ => rfl
  | _, .present _ t, _ => (Place.valuesOf_object ..).trans (Tree.valuesOf_members t)
  | _, .many ts, _ => (Json.valuesOf_array ..).trans (Forest.valuesOf_toJson ts)
  | _, .unlisted, _ => rfl
  | _, .listed ts, _ => (Json.valuesOf_array ..).trans (Forest.valuesOf_toJson ts)
  | _, .marker, _ => rfl
  | _, .single _ t, _ => by
    rw [Value.toJson, Json.valuesOf_record, List.flatMap_singleton,
      Json.valuesOfMember_other (n := "Single") (by decide), Place.valuesOf_object, Tree.valuesOf_members t]
    rfl
  | _, .pairs ts, _ => by
    rw [Value.toJson, Json.valuesOf_record, List.flatMap_singleton,
      Json.valuesOfMember_other (n := "Pairs") (by decide), Json.valuesOf_array, Forest.valuesOf_toJson ts]
    rfl

theorem Forest.valuesOf_toJson : {p : Place} → (ts : Forest p) →
    (ts.toJson.flatMap fun j => j.valuesOf "data") = ts.allData.map NodeData.toJson
  | _, .nil => rfl
  | _, .cons _ t ts => by
    rw [Forest.toJson, List.flatMap_cons, Place.valuesOf_object, Tree.valuesOf_members t,
      Forest.valuesOf_toJson ts, Forest.allData, List.map_append]

end

theorem exists_of_flatMap_eq {α β : Type} {f : α → List β} {xs : List α}
    {pre post : List β} {y : β} (h : xs.flatMap f = pre ++ y :: post) :
    ∃ x ∈ xs, ∃ a b c, pre = a ++ b ∧ f x = b ++ y :: c := by
  induction xs generalizing pre with
  | nil => simp at h
  | cons x xs ih =>
    have hrest : ∀ a b, pre = a ++ b → xs.flatMap f = b ++ y :: post →
        ∃ x' ∈ x :: xs, ∃ a b c, pre = a ++ b ∧ f x' = b ++ y :: c := by
      rintro a b rfl hb
      obtain ⟨x', hx', a', b', c, rfl, hf⟩ := ih hb
      exact ⟨x', List.mem_cons_of_mem _ hx', a ++ a', b', c, (List.append_assoc ..).symm, hf⟩
    rw [List.flatMap_cons, List.append_eq_append_iff] at h
    rcases h with ⟨b, hpre, hb⟩ | ⟨bs, hfx, hbs⟩
    · exact hrest _ b hpre hb
    · cases bs with
      | nil => exact hrest pre [] (List.append_nil _).symm hbs.symm
      | cons b bs =>
        obtain ⟨rfl, -⟩ := List.cons.inj hbs
        exact ⟨x, List.mem_cons_self .., [], pre, bs, rfl, hfx⟩

/-- What is visited after the root stands below a node visited before, among that node's children. -/
theorem Tree.parent_of_visits_eq {k : Kind} (t : Tree k) (path : Path) (parent : Option Node)
    {pre post : List Visit} {v : Visit} (h : t.visits path parent = pre ++ v :: post) :
    pre = [] ∧ v = ⟨path, parent, .tree t⟩ ∨
      ∃ u ∈ pre, ∃ i, v.parent = some u.node ∧ v.path = u.path ++ [i] ∧
        u.node.children[i]? = some v.node := by
  induction t using Tree.of_trees generalizing path parent pre post v with
  | step t ih =>
    rw [visits_eq] at h
    cases pre with
    | nil => exact .inl ⟨rfl, (List.cons.inj h).1.symm⟩
    | cons root pre =>
      obtain ⟨rfl, hbelow⟩ := List.cons.inj h
      obtain ⟨⟨c, i⟩, hc, a, b, d, rfl, hvisits⟩ := exists_of_flatMap_eq hbelow
      refine .inr ?_
      rcases ih c (List.fst_mem_of_mem_zipIdx hc) _ _ hvisits with ⟨-, rfl⟩ | ⟨u, hu, hlisted⟩
      · refine ⟨_, List.mem_cons_self .., i, rfl, rfl, ?_⟩
        rw [Node.children_tree, List.getElem?_map, List.mem_zipIdx_iff_getElem?.mp hc]
        rfl
      · exact ⟨u, List.mem_cons_of_mem _ (List.mem_append_right _ hu), hlisted⟩

/-- The children of a visited node are visited below it. -/
theorem Tree.visit_child_mem {k : Kind} (t : Tree k) {u : Visit} (hu : u ∈ (Node.tree t).walk) {i : Nat}
    {c : Node} (hc : u.node.children[i]? = some c) :
    ⟨u.path ++ [i], some u.node, c⟩ ∈ (Node.tree t).walk := by
  obtain ⟨r, tree, hpath, hat, hnode⟩ := t.at?_of_mem_visits [] none hu
  have hchildren : tree.node.children = tree.2.trees.map AnyTree.node := Node.children_tree tree.2
  rw [hnode, hchildren, List.getElem?_map, Option.map_eq_some_iff] at hc
  obtain ⟨child, hchild, rfl⟩ := hc
  rw [hpath, hnode]
  exact t.mem_visits [] r none hat hchild

/-- A walk misses no node and repeats none. The data it meets are the data in the tree, and one member
of the written tree goes with each; no place is visited twice; what is visited after the root is a child
of a node visited before, at its place among the children, and no child is left out. So the index of the
tree can be built and has all nodes but the root, and a pass counts the nodes, whatever a decorator does
in it. -/
theorem Tree.walk_covers {k : Kind} (t : Tree k) :
    let walk := (Node.tree t).walk
    (walk.filterMap fun v => v.node.data?) = t.allData ∧
    walk.length = t.allData.length ∧
    (∀ (p : Place) (h : p.admits k = true),
      (Child.mk h t).toJson.valuesOf "data" = t.allData.map NodeData.toJson) ∧
    (walk.map Visit.path).Nodup ∧
    (∀ pre v post, walk = pre ++ v :: post →
      pre = [] ∧ v = ⟨[], none, .tree t⟩ ∨
        ∃ u ∈ pre, ∃ i, v.parent = some u.node ∧ v.path = u.path ++ [i] ∧
          u.node.children[i]? = some v.node) ∧
    (∀ u ∈ walk, ∀ i c, u.node.children[i]? = some c → ⟨u.path ++ [i], some u.node, c⟩ ∈ walk) ∧
    (∃ ix, ParentIndex.build (.tree t) = .ok ix ∧ ix.size + 1 = walk.length ∧
      ∀ v ∈ walk, ix.parentOf v.path = v.parent) ∧
    ∀ (p : Printer) (s : PrintState), (p.print (.tree t) s).2.stats.nodes = t.allData.length := by
  intro walk
  have hdata : (walk.filterMap fun v => v.node.data?) = t.allData := t.filterMap_visits [] none
  have hlength : walk.length = t.allData.length := by
    rw [← hdata, eq_comm, List.filterMap_length_eq_length]
    intro v hv
    obtain ⟨-, u, -, -, hnode⟩ := t.at?_of_mem_visits [] none hv
    rw [hnode]
    rfl
  obtain ⟨ix, hix, hparents, -⟩ := ParentIndex.build_ok (.tree t)
  refine ⟨hdata, hlength, fun p h => ?_, t.nodup_visits [] none, fun pre v post => ?_,
    fun u hu i c => t.visit_child_mem hu, ⟨ix, hix, ParentIndex.size_build hix, hparents⟩,
    fun p s => (p.print_nodes _ s).trans hlength⟩
  · exact (Place.valuesOf_object ..).trans t.valuesOf_members
  · exact t.parent_of_visits_eq [] none

end JavaText
