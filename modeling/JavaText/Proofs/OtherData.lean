import JavaText.Markup.Style
import JavaText.Proofs.Subtrees

/-!
# Trees with other data

`Tree.mapData` keeps the shape of a tree and what its fields hold, and gives the node at each place the
data that a function has for that place and for the data there were. Children and places go along
(`Tree.trees_mapData`, `AnyTree.at?_mapData`), and to fold the new tree is to fold the old one by a rule
that gives each node its new data first (`Tree.fold_mapData`).
-/

namespace JavaText

mutual

/-- The tree with the data that `g` gives the node at each path below the root. -/
def Tree.mapData (g : Path → NodeData → NodeData) : {k : Kind} → Tree k → Tree k
  | _, .node d fs => .node (g [] d) (Fields.mapData g 0 fs)

def Fields.mapData (g : Path → NodeData → NodeData) (i : Nat) :
    {fs : List Field} → Fields fs → Fields fs
  | _, .nil => .nil
  | _, .cons v vs => .cons (Value.mapData g i v) (Fields.mapData g (i + v.size) vs)

def Value.mapData (g : Path → NodeData → NodeData) (i : Nat) : {s : Slot} → Value s → Value s
  | _, .scalar v => .scalar v
  | _, .one h t => .one h (Tree.mapData (fun r => g (i :: r)) t)
  | _, .absent => .absent
  | _, .present h t => .present h (Tree.mapData (fun r => g (i :: r)) t)
  | _, .many ts => .many (Forest.mapData g i ts)
  | _, .unlisted => .unlisted
  | _, .listed ts => .listed (Forest.mapData g i ts)
  | _, .marker => .marker
  | _, .single h t => .single h (Tree.mapData (fun r => g (i :: r)) t)
  | _, .pairs ts => .pairs (Forest.mapData g i ts)

def Forest.mapData (g : Path → NodeData → NodeData) (i : Nat) : {p : Place} → Forest p → Forest p
  | _, .nil => .nil
  | _, .cons h t ts => .cons h (Tree.mapData (fun r => g (i :: r)) t) (Forest.mapData g (i + 1) ts)

end

def AnyTree.mapData (g : Path → NodeData → NodeData) (t : AnyTree) : AnyTree := ⟨t.1, t.2.mapData g⟩

section
variable (g : Path → NodeData → NodeData)

theorem Tree.data_mapData {k : Kind} (t : Tree k) : (t.mapData g).data = g [] t.data := by
  cases t with
  | node d fs => rfl

/-- A numbered child with other data. -/
def AnyTree.mapChild (c : AnyTree × Nat) : AnyTree := c.1.mapData fun r => g (c.2 :: r)

theorem Forest.trees_mapData {p : Place} : (ts : Forest p) → (i : Nat) →
    (ts.mapData g i).trees = (ts.trees.zipIdx i).map (AnyTree.mapChild g)
  | .nil, _ => rfl
  | .cons _ t ts, i => by
    rw [mapData, trees, trees, List.zipIdx_cons, List.map_cons, trees_mapData ts (i + 1)]
    rfl

theorem Value.trees_mapData {s : Slot} (v : Value s) (i : Nat) :
    (v.mapData g i).trees = (v.trees.zipIdx i).map (AnyTree.mapChild g) := by
  cases v with
  | many ts | listed ts | pairs ts => exact ts.trees_mapData g i
  | one | present | single => rfl
  | scalar | absent | unlisted | marker => rfl

theorem Fields.trees_mapData {fs : List Field} (vs : Fields fs) (i : Nat) :
    (vs.mapData g i).trees = (vs.trees.zipIdx i).map (AnyTree.mapChild g) := by
  cases vs with
  | nil => rfl
  | cons v vs =>
    rw [mapData, trees, trees, List.zipIdx_append, List.map_append, Value.trees_mapData,
      trees_mapData vs, Value.size_eq]

theorem Tree.trees_mapData {k : Kind} (t : Tree k) :
    (t.mapData g).trees = t.trees.zipIdx.map (AnyTree.mapChild g) := by
  cases t with
  | node d fs => exact fs.trees_mapData g 0

theorem Tree.zipIdx_trees_mapData {k : Kind} (t : Tree k) :
    (t.mapData g).trees.zipIdx = t.trees.zipIdx.map fun c => (AnyTree.mapChild g c, c.2) := by
  rw [t.trees_mapData]
  refine List.ext_getElem? fun i => ?_
  simp only [List.getElem?_zipIdx, List.getElem?_map, Nat.zero_add, Option.map_map]
  rfl

theorem Value.size_mapData {s : Slot} (v : Value s) (i : Nat) : (v.mapData g i).size = v.size := by
  rw [size_eq, trees_mapData, List.length_map, List.length_zipIdx, size_eq]

theorem AnyTree.at?_mapData (t : AnyTree) (r : Path) :
    (t.mapData g).at? r = (t.at? r).map (mapData fun s => g (r ++ s)) := by
  induction r generalizing t g with
  | nil => rfl
  | cons i r ih =>
    have htrees : (t.mapData g).2.trees[i]? = t.2.trees[i]?.map (mapData fun s => g (i :: s)) := by
      rw [mapData, t.2.trees_mapData, List.getElem?_map, List.getElem?_zipIdx, Nat.zero_add,
        Option.map_map]
      rfl
    rw [at?, at?, htrees]
    cases t.2.trees[i]? with
    | none => rfl
    | some c => exact ih _ c

/-- The walk meets the nodes of the new tree where it meets those of the old one. -/
theorem Tree.visits_mapData {k : Kind} (t : Tree k) (path : Path) (parent parent' : Option Node) :
    List.Forall₂ (fun v v' => ∃ r u, v.path = path ++ r ∧ v'.path = path ++ r ∧
        AnyTree.at? ⟨k, t⟩ r = some u ∧ v.node = u.node ∧
        v'.node = (u.mapData fun s => g (r ++ s)).node)
      (t.visits path parent) ((t.mapData g).visits path parent') := by
  induction t using Tree.of_trees generalizing g path parent parent' with
  | step t ih =>
    rw [visits_eq, visits_eq, zipIdx_trees_mapData, List.flatMap_map]
    refine .cons ⟨[], ⟨_, t⟩, (List.append_nil _).symm, (List.append_nil _).symm, rfl, rfl, rfl⟩ ?_
    have hsame : List.Forall₂ (fun c c' => c ∈ t.trees.zipIdx ∧ c = c') t.trees.zipIdx t.trees.zipIdx :=
      List.forall₂_same.mpr fun c hc => ⟨hc, rfl⟩
    refine List.rel_flatMap hsame ?_
    rintro c _ ⟨hc, rfl⟩
    refine (ih c.1 (List.fst_mem_of_mem_zipIdx hc) _ _ _ _).imp ?_
    rintro v v' ⟨r, u, hpath, hpath', hu, hnode, hnode'⟩
    have hat := AnyTree.at?_cons (t := ⟨_, t⟩) (List.mem_zipIdx_iff_getElem?.mp hc) hu
    refine ⟨c.2 :: r, u, ?_, ?_, hat, hnode, hnode'⟩
    · rw [hpath, List.append_assoc]; rfl
    · rw [hpath', List.append_assoc]; rfl

end

section
variable (g : Path → NodeData → NodeData) {X : Type} (rule : Rule X)

/-- A rule as it sees the nodes of the tree with other data. -/
def Tree.mappedRule : Rule X := fun path _ t row => rule path (t.mapData fun r => g (path ++ r)) row

theorem Path.child_append (path : Path) (i : Nat) :
    (fun r => g (path ++ i :: r)) = fun r => g (path ++ [i] ++ r) := by
  funext r
  rw [List.append_assoc]
  rfl

mutual

theorem Tree.fold_mapData : {k : Kind} → (t : Tree k) → (path : Path) →
    (t.mapData fun r => g (path ++ r)).fold rule path = t.fold (Tree.mappedRule g rule) path
  | _, .node d fs, path => by
    rw [Tree.mapData, Tree.fold, Fields.fold_mapData fs path 0]
    rfl

theorem Fields.fold_mapData : {fs : List Field} → (vs : Fields fs) → (path : Path) → (i : Nat) →
    (vs.mapData (fun r => g (path ++ r)) i).fold rule path i = vs.fold (Tree.mappedRule g rule) path i
  | _, .nil, _, _ => rfl
  | _, .cons v vs, path, i => by
    rw [Fields.mapData, Fields.fold, Fields.fold, Value.fold_mapData v path i, Value.size_mapData,
      Fields.fold_mapData vs path]

theorem Value.fold_mapData : {s : Slot} → (v : Value s) → (path : Path) → (i : Nat) →
    (v.mapData (fun r => g (path ++ r)) i).fold rule path i = v.fold (Tree.mappedRule g rule) path i
  | _, .scalar _, _, _ => rfl
  | _, .one _ t, path, i => by
    rw [Value.mapData, Path.child_append]
    exact Tree.fold_mapData t (path ++ [i])
  | _, .absent, _, _ => rfl
  | _, .present _ t, path, i => by
    rw [Value.mapData, Path.child_append]
    exact congrArg some (Tree.fold_mapData t (path ++ [i]))
  | _, .many ts, path, i => Forest.fold_mapData ts path i
  | _, .unlisted, _, _ => rfl
  | _, .listed ts, path, i => congrArg some (Forest.fold_mapData ts path i)
  | _, .marker, _, _ => rfl
  | _, .single _ t, path, i => by
    rw [Value.mapData, Path.child_append]
    exact congrArg Arguments.single (Tree.fold_mapData t (path ++ [i]))
  | _, .pairs ts, path, i => congrArg Arguments.pairs (Forest.fold_mapData ts path i)

theorem Forest.fold_mapData : {p : Place} → (ts : Forest p) → (path : Path) → (i : Nat) →
    (ts.mapData (fun r => g (path ++ r)) i).fold rule path i = ts.fold (Tree.mappedRule g rule) path i
  | _, .nil, _, _ => rfl
  | _, .cons _ t ts, path, i => by
    rw [Forest.mapData, Path.child_append, Forest.fold, Forest.fold, Tree.fold_mapData t,
      Forest.fold_mapData ts]

end

end

section
variable (g : Path → NodeData → NodeData)

theorem Tree.identifier_mapData (t : Tree .simpleName) : (t.mapData g).identifier = t.identifier := by
  obtain ⟨d, - | ⟨value, rest⟩⟩ := t
  cases value with
  | scalar s => rfl

/-- Whether a style leaves a node bare does not depend on data. -/
theorem MarkupStyle.isBare_mapData (style : MarkupStyle) (role : Role) {k : Kind} (t : Tree k) :
    style.isBare role (.tree (t.mapData g)) = style.isBare role (.tree t) := by
  cases role with
  | typeReference =>
    cases k with
    | classType =>
      obtain ⟨d, - | ⟨scope, - | ⟨annotations, - | ⟨name, - | ⟨args, - | -⟩⟩⟩⟩⟩ := t
      cases name with
      | one hname name =>
        obtain rfl : Kind.simpleName = _ := eq_of_beq hname
        exact congrArg style.isBareName (name.identifier_mapData _)
    | _ => rfl
  | _ => rfl

end

end JavaText
