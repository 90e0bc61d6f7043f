import Mathlib.Data.List.Forall2
import Mathlib.Data.Option.Basic
import JavaText.Tree.Node

/-!
# Trees by their children

The four types that make up a tree are walked together once here: the children as one list, the walk and
the fold in terms of that list, and induction from the children to the node. Proofs about whole trees
start from these and do not open the fields again.
-/

namespace JavaText

/-- A tree of some kind. -/
abbrev AnyTree := (k : Kind) × Tree k

namespace AnyTree

def node (t : AnyTree) : Node := .tree t.2

end AnyTree

def Forest.trees {p : Place} : Forest p → List AnyTree
  | .nil => []
  | .cons _ t ts => ⟨_, t⟩ :: ts.trees

def Value.trees : {s : Slot} → Value s → List AnyTree
  | _, .scalar _ => []
  | _, .one _ t => [⟨_, t⟩]
  | _, .absent => []
  | _, .present _ t => [⟨_, t⟩]
  | _, .many ts => ts.trees
  | _, .unlisted => []
  | _, .listed ts => ts.trees
  | _, .marker => []
  | _, .single _ t => [⟨_, t⟩]
  | _, .pairs ts => ts.trees

def Fields.trees : {fs : List Field} → Fields fs → List AnyTree
  | _, .nil => []
  | _, .cons v vs => v.trees ++ vs.trees

/-- The children of a tree, in order. -/
def Tree.trees {k : Kind} (t : Tree k) : List AnyTree := t.fields.trees

theorem Forest.children_eq {p : Place} : (ts : Forest p) → ts.children = ts.trees.map AnyTree.node
  | .nil => rfl
  | .cons _ t ts => by rw [children, trees, List.map_cons, children_eq ts]; rfl

theorem Value.children_eq {s : Slot} (v : Value s) : v.children = v.trees.map AnyTree.node := by
  cases v with
  | many ts | listed ts | pairs ts => exact Forest.children_eq ts
  | one | present | single => rfl
  | scalar | absent | unlisted | marker => rfl

theorem Fields.children_eq {fs : List Field} (vs : Fields fs) :
    vs.children = vs.trees.map AnyTree.node := by
  cases vs with
  | nil => rfl
  | cons v vs => rw [children, trees, List.map_append, Value.children_eq, children_eq vs]

theorem Node.children_tree {k : Kind} (t : Tree k) :
    (Node.tree t).children = t.trees.map AnyTree.node := Fields.children_eq _

theorem Node.isComment_of_mem_children {n c : Node} (h : c ∈ n.children) : c.isComment = false := by
  cases n with
  | tree t =>
    rw [children_tree] at h
    obtain ⟨u, -, rfl⟩ := List.mem_map.mp h
    rfl
  | entry _ e => simp [children] at h
  | comment c => simp [children] at h

theorem Forest.size_eq {p : Place} : (ts : Forest p) → ts.size = ts.trees.length
  | .nil => rfl
  | .cons _ t ts => by rw [size, trees, List.length_cons, size_eq ts]

theorem Value.size_eq {s : Slot} (v : Value s) : v.size = v.trees.length := by
  cases v with
  | many ts | listed ts | pairs ts => exact Forest.size_eq ts
  | one | present | single => rfl
  | scalar | absent | unlisted | marker => rfl

section
variable {P : {k : Kind} → Tree k → Prop}

mutual

/-- What follows for a node from its children holds of every tree. -/
theorem Tree.of_trees (step : ∀ {k : Kind} (t : Tree k), (∀ c ∈ t.trees, P c.2) → P t) :
    {k : Kind} → (t : Tree k) → P t
  | _, .node d fs => step (.node d fs) (Fields.forall_trees step fs)

theorem Fields.forall_trees (step : ∀ {k : Kind} (t : Tree k), (∀ c ∈ t.trees, P c.2) → P t) :
    {fs : List Field} → (vs : Fields fs) → ∀ c ∈ vs.trees, P c.2
  | _, .nil => by simp [Fields.trees]
  | _, .cons v vs => fun c hc =>
    (List.mem_append.mp hc).elim (Value.forall_trees step v c) (Fields.forall_trees step vs c)

theorem Value.forall_trees (step : ∀ {k : Kind} (t : Tree k), (∀ c ∈ t.trees, P c.2) → P t) :
    {s : Slot} → (v : Value s) → ∀ c ∈ v.trees, P c.2
  | _, .scalar _ => by simp [Value.trees]
  | _, .one _ t => by simpa [Value.trees] using Tree.of_trees step t
  | _, .absent => by simp [Value.trees]
  | _, .present _ t => by simpa [Value.trees] using Tree.of_trees step t
  | _, .many ts => Forest.forall_trees step ts
  | _, .unlisted => by simp [Value.trees]
  | _, .listed ts => Forest.forall_trees step ts
  | _, .marker => by simp [Value.trees]
  | _, .single _ t => by simpa [Value.trees] using Tree.of_trees step t
  | _, .pairs ts => Forest.forall_trees step ts

theorem Forest.forall_trees (step : ∀ {k : Kind} (t : Tree k), (∀ c ∈ t.trees, P c.2) → P t) :
    {p : Place} → (ts : Forest p) → ∀ c ∈ ts.trees, P c.2
  | _, .nil => by simp [Forest.trees]
  | _, .cons _ t ts => by
    simpa [Forest.trees] using And.intro (Tree.of_trees step t) (Forest.forall_trees step ts)

end

end

section
variable (path : Path) (parent : Node)

/-- The visits to a numbered child and to what is below it. -/
def AnyTree.visits (c : AnyTree × Nat) : List Visit :=
  c.1.2.visits (path ++ [c.2]) (some parent)

theorem Forest.visits_eq {p : Place} : (ts : Forest p) → (i : Nat) →
    ts.visits path parent i = (ts.trees.zipIdx i).flatMap (AnyTree.visits path parent)
  | .nil, _ => rfl
  | .cons _ t ts, i => by
    rw [visits, trees, List.zipIdx_cons, List.flatMap_cons, visits_eq ts]; rfl

theorem Value.visits_eq {s : Slot} (v : Value s) (i : Nat) :
    v.visits path parent i = (v.trees.zipIdx i).flatMap (AnyTree.visits path parent) := by
  cases v with
  | many ts | listed ts | pairs ts => exact Forest.visits_eq path parent ts i
  | one | present | single => simp [visits, trees, AnyTree.visits]
  | scalar | absent | unlisted | marker => rfl

theorem Fields.visits_eq : {fs : List Field} → (vs : Fields fs) → (i : Nat) →
    vs.visits path parent i = (vs.trees.zipIdx i).flatMap (AnyTree.visits path parent)
  | _, .nil, _ => rfl
  | _, .cons v vs, i => by
    rw [visits, trees, List.zipIdx_append, List.flatMap_append, Value.visits_eq, visits_eq vs,
      Value.size_eq]

end

theorem Tree.visits_eq (path : Path) (parent : Option Node) {k : Kind} (t : Tree k) :
    t.visits path parent =
      ⟨path, parent, .tree t⟩ :: t.trees.zipIdx.flatMap (AnyTree.visits path (.tree t)) := by
  cases t with
  | node d fs => rw [visits, Fields.visits_eq]; rfl

/-- Two forms of arguments of the same shape with related contents. -/
inductive Arguments.Rel {E P E' P' : Type} (R : E → E' → Prop) (S : P → P' → Prop) :
    Arguments E P → Arguments E' P' → Prop
  | marker : Rel R S .marker .marker
  | single {x : E} {y : E'} (h : R x y) : Rel R S (.single x) (.single y)
  | pairs {xs : List P} {ys : List P'} (h : List.Forall₂ S xs ys) : Rel R S (.pairs xs) (.pairs ys)

section
variable {X Y : Type} (R : Place → X → Y → Prop)

/-- The contents of a slot have the same shape and scalars, and values for the children that are
related as the place of each child asks. -/
def Slot.Rel : (s : Slot) → (s.Of fun _ => X) → (s.Of fun _ => Y) → Prop
  | .scalar _, v, w => v = w
  | .one p, x, y => R p x y
  | .opt p, x, y => Option.Rel (R p) x y
  | .many p, xs, ys => List.Forall₂ (R p) xs ys
  | .optMany p, xs, ys => Option.Rel (List.Forall₂ (R p)) xs ys
  | .arguments, a, b => Arguments.Rel (R (.any .expr)) (R (.only .memberValuePair)) a b

/-- `Slot.Rel` in every field. -/
def Row.Rel : (fs : List Field) → Row (Field.Of fun _ => X) fs → Row (Field.Of fun _ => Y) fs → Prop
  | [], _, _ => True
  | f :: fs, (v, vs), (w, ws) => f.slot.Rel R v w ∧ Rel fs vs ws

end

section
variable {X Y : Type} {R : Place → X → Y → Prop} {f : Rule X} {g : Rule Y} {p q : Path}

/-- Two folds agree, up to `R`, on a numbered child in whatever place it stands. -/
def FoldsAgree (R : Place → X → Y → Prop) (f : Rule X) (g : Rule Y) (p q : Path)
    (c : AnyTree × Nat) : Prop :=
  ∀ pl : Place, pl.admits c.1.1 = true →
    R pl (c.1.2.fold f (p ++ [c.2])) (c.1.2.fold g (q ++ [c.2]))

theorem Forest.fold_rel {pl : Place} : (ts : Forest pl) → (i : Nat) →
    (∀ c ∈ ts.trees.zipIdx i, FoldsAgree R f g p q c) →
    List.Forall₂ (R pl) (ts.fold f p i) (ts.fold g q i)
  | .nil, _, _ => .nil
  | .cons hk t ts, i, h => by
    simp only [trees, List.zipIdx_cons, List.mem_cons, forall_eq_or_imp] at h
    exact .cons (h.1 pl hk) (fold_rel ts (i + 1) h.2)

theorem Value.fold_rel {s : Slot} (v : Value s) (i : Nat)
    (h : ∀ c ∈ v.trees.zipIdx i, FoldsAgree R f g p q c) :
    s.Rel R (v.fold f p i) (v.fold g q i) := by
  cases v with
  | scalar | marker => constructor
  | one hk => exact h _ (List.mem_singleton_self _) _ hk
  | present hk => exact .some (h _ (List.mem_singleton_self _) _ hk)
  | single hk => exact .single (h _ (List.mem_singleton_self _) _ hk)
  | absent | unlisted => exact .none
  | many ts => exact Forest.fold_rel ts i h
  | listed ts => exact .some (Forest.fold_rel ts i h)
  | pairs ts => exact .pairs (Forest.fold_rel ts i h)

/-- Folds that agree on every child agree on the row of the node. -/
theorem Fields.fold_rel : {fs : List Field} → (vs : Fields fs) → (i : Nat) →
    (∀ c ∈ vs.trees.zipIdx i, FoldsAgree R f g p q c) →
    Row.Rel R fs (vs.fold f p i) (vs.fold g q i)
  | _, .nil, _, _ => trivial
  | _, .cons v vs, i, h => by
    simp only [trees, List.zipIdx_append, List.mem_append] at h
    refine ⟨Value.fold_rel v i fun c hc => h c (.inl hc), fold_rel vs _ fun c hc => h c (.inr ?_)⟩
    rwa [Value.size_eq] at hc

end

/-- The values in arguments of one type. -/
def Arguments.toList {X : Type} : Arguments X X → List X
  | .marker => []
  | .single x => [x]
  | .pairs xs => xs

/-- The values for the children in a slot, in order. -/
@[simp] def Slot.toList {X : Type} : (s : Slot) → (s.Of fun _ => X) → List X
  | .scalar _, _ => []
  | .one _, x => [x]
  | .opt _, x => x.toList
  | .many _, xs => xs
  | .optMany _, xs => xs.getD []
  | .arguments, a => a.toList

/-- The values for the children of a node, in order. -/
@[simp] def Row.toList {X : Type} : (fs : List Field) → Row (Field.Of fun _ => X) fs → List X
  | [], _ => []
  | f :: fs, r => f.slot.toList r.1 ++ toList fs r.2

section
variable {X : Type} (rule : Rule X) (path : Path)

/-- The value for a numbered child of the node at `path`. -/
def AnyTree.fold (c : AnyTree × Nat) : X := c.1.2.fold rule (path ++ [c.2])

theorem Forest.fold_eq {p : Place} : (ts : Forest p) → (i : Nat) →
    ts.fold rule path i = (ts.trees.zipIdx i).map (AnyTree.fold rule path)
  | .nil, _ => rfl
  | .cons _ t ts, i => by
    rw [fold, fold_eq ts, trees, List.zipIdx_cons, List.map_cons]; rfl

theorem Value.toList_fold {s : Slot} (v : Value s) (i : Nat) :
    s.toList (v.fold rule path i) = (v.trees.zipIdx i).map (AnyTree.fold rule path) := by
  cases v with
  | many ts | listed ts | pairs ts => exact Forest.fold_eq rule path ts i
  | one | present | single => rfl
  | scalar | absent | unlisted | marker => rfl

theorem Fields.toList_fold : {fs : List Field} → (vs : Fields fs) → (i : Nat) →
    Row.toList fs (vs.fold rule path i) = (vs.trees.zipIdx i).map (AnyTree.fold rule path)
  | _, .nil, _ => rfl
  | _, .cons v vs, i => by
    rw [fold, Row.toList, trees, List.zipIdx_append, List.map_append, Value.toList_fold,
      toList_fold vs, Value.size_eq]

end

theorem Tree.fold_eq {X : Type} (rule : Rule X) (path : Path) {k : Kind} (t : Tree k) :
    t.fold rule path = rule path t (t.fields.fold rule path 0) := by
  cases t with
  | node d fs => rfl

/-- The tree at a path below `t`. -/
def AnyTree.at? (t : AnyTree) : Path → Option AnyTree
  | [] => some t
  | i :: r => t.2.trees[i]?.bind fun c => c.at? r

@[simp] theorem AnyTree.at?_nil (t : AnyTree) : t.at? [] = some t := rfl

theorem AnyTree.at?_cons {t c u : AnyTree} {i : Nat} {r : Path} (hc : t.2.trees[i]? = some c)
    (hu : c.at? r = some u) : t.at? (i :: r) = some u := by
  rw [at?, hc, Option.bind_some, hu]

theorem AnyTree.at?_append {t c u : AnyTree} {r r' : Path} (hc : t.at? r = some c)
    (hu : c.at? r' = some u) : t.at? (r ++ r') = some u := by
  induction r generalizing t with
  | nil =>
    obtain rfl : t = c := Option.some.inj hc
    exact hu
  | cons i r ih =>
    obtain ⟨d, hd, hc⟩ := Option.bind_eq_some_iff.mp hc
    exact AnyTree.at?_cons hd (ih hc)

/-- A place other than the root is a child's. -/
theorem AnyTree.at?_concat {t c : AnyTree} {i : Nat} {r : Path} :
    t.at? (r ++ [i]) = some c ↔ ∃ u, t.at? r = some u ∧ u.2.trees[i]? = some c := by
  induction r generalizing t with
  | nil => simp [at?]
  | cons j r ih =>
    simp only [List.cons_append, at?, Option.bind_eq_some_iff, ih]
    constructor
    · rintro ⟨d, hd, u, hu, hc⟩
      exact ⟨u, ⟨d, hd, hu⟩, hc⟩
    · rintro ⟨u, ⟨d, hd, hu⟩, hc⟩
      exact ⟨d, hd, u, hu, hc⟩

/-- Two folds over one tree agree if the two rules keep `R` at every node of it. -/
theorem Tree.fold_rel {X Y : Type} {R : Place → X → Y → Prop} {f : Rule X} {g : Rule Y} {k : Kind}
    (t : Tree k) (p q : Path)
    (step : ∀ r u, AnyTree.at? ⟨k, t⟩ r = some u →
      Row.Rel R u.1.fields (u.2.fields.fold f (p ++ r) 0) (u.2.fields.fold g (q ++ r) 0) →
      ∀ pl : Place, pl.admits u.1 = true → R pl (u.2.fold f (p ++ r)) (u.2.fold g (q ++ r)))
    (pl : Place) (hk : pl.admits k = true) : R pl (t.fold f p) (t.fold g q) := by
  induction t using Tree.of_trees generalizing p q pl with
  | step t ih =>
    have hrow : Row.Rel R _ (t.fields.fold f p 0) (t.fields.fold g q 0) := by
      refine Fields.fold_rel t.fields 0 fun c hc => ?_
      have hi : t.trees[c.2]? = some c.1 := List.mem_zipIdx_iff_getElem?.mp hc
      refine ih c.1 (List.mem_of_getElem? hi) _ _ fun r u hu => ?_
      have := step (c.2 :: r) u (AnyTree.at?_cons hi hu)
      simpa using this
    have := step [] ⟨_, t⟩ rfl
    simp only [List.append_nil] at this
    exact this hrow pl hk

end JavaText
