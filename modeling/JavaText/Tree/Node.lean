import JavaText.Tree.Basic

/-!
# Nodes and the fold over a tree

Structural recursion over trees, once for all: `Tree.fold` computes a value for every node from the
node itself, its path from the root and the values of its children, which arrive as a row of the
node's fields. The dotted form of a name and the array layers of a type are found in this way. A path
lists child positions from the root down; the children of a node are numbered through all its fields in
order.

A `Node` is whatever can be pointed at in a tree. The children of a node are the trees in its fields;
attached and orphan comments are not among them. `Node.walk` visits a node and everything below it,
parents before children.
-/

namespace JavaText

abbrev Path := List Nat

/-- The number of trees in a list. -/
def Forest.size {p : Place} : Forest p → Nat
  | .nil => 0
  | .cons _ _ ts => ts.size + 1

/-- The number of children in a field. -/
def Value.size : {s : Slot} → Value s → Nat
  | _, .scalar _ => 0
  | _, .one _ _ => 1
  | _, .absent => 0
  | _, .present _ _ => 1
  | _, .many ts => ts.size
  | _, .unlisted => 0
  | _, .listed ts => ts.size
  | _, .marker => 0
  | _, .single _ _ => 1
  | _, .pairs ts => ts.size

/-- How a node's value follows from its path, the node, and its children's values. -/
abbrev Rule (X : Type) :=
  Path → {k : Kind} → Tree k → Row (Field.Of fun _ => X) k.fields → X

mutual

/-- The value that `rule` gives the tree when its root stands at `path`. -/
def Tree.fold {X : Type} (rule : Rule X) (path : Path) : {k : Kind} → Tree k → X
  | _, .node d fs => rule path (.node d fs) (Fields.fold rule path 0 fs)

/-- The values of the children in several fields; the first child is number `i`. -/
def Fields.fold {X : Type} (rule : Rule X) (path : Path) (i : Nat) :
    {fs : List Field} → Fields fs → Row (Field.Of fun _ => X) fs
  | _, .nil => ()
  | _, .cons v vs => (Value.fold rule path i v, Fields.fold rule path (i + v.size) vs)

def Value.fold {X : Type} (rule : Rule X) (path : Path) (i : Nat) :
    {s : Slot} → Value s → s.Of fun _ => X
  | _, .scalar v => v
  | _, .one _ t => Tree.fold rule (path ++ [i]) t
  | _, .absent => none
  | _, .present _ t => some (Tree.fold rule (path ++ [i]) t)
  | _, .many ts => Forest.fold rule path i ts
  | _, .unlisted => none
  | _, .listed ts => some (Forest.fold rule path i ts)
  | _, .marker => .marker
  | _, .single _ t => .single (Tree.fold rule (path ++ [i]) t)
  | _, .pairs ts => .pairs (Forest.fold rule path i ts)

def Forest.fold {X : Type} (rule : Rule X) (path : Path) (i : Nat) :
    {p : Place} → Forest p → List X
  | _, .nil => []
  | _, .cons _ t ts => Tree.fold rule (path ++ [i]) t :: Forest.fold rule path (i + 1) ts

end

theorem Forest.size_eq_length {p : Place} : (ts : Forest p) → ts.size = ts.toList.length
  | .nil => rfl
  | .cons _ _ ts => by rw [size, toList, List.length_cons, size_eq_length ts]

/-- The identifier of a simple name. -/
def Tree.identifier (t : Tree .simpleName) : String := t.row.1

def Tree.dottedRule : Rule String
  | _, .name, _, (none, s, ()) => s
  | _, .name, _, (some q, s, ()) => q ++ "." ++ s
  | _, _, _, _ => ""

/-- The dotted form of a name, its qualifiers first. -/
def Tree.dotted (t : Tree .name) : String := t.fold dottedRule []

def Tree.layersRule : Rule (List (Tree .arrayType))
  | _, .arrayType, t, (inner, _, ()) => t :: inner
  | _, _, _, _ => []

/-- The array layers around a type, the outermost first. -/
def TypeNode.layers (c : TypeNode) : List (Tree .arrayType) := c.tree.fold Tree.layersRule []

def Tree.elementRule : Rule (Option TypeNode)
  | _, .arrayType, _, (inner, _, ()) => inner
  | _, k, t, _ => if h : (Place.any .type).admits k = true then some ⟨h, t⟩ else none

/-- What is inside all array layers of a type. -/
def TypeNode.element (c : TypeNode) : TypeNode := (c.tree.fold Tree.elementRule []).getD c

/-- Whether the type arguments are there but empty. -/
def Tree.isDiamond (t : Tree .classType) : Bool :=
  match t.row with
  | (_, _, _, some [], ()) => true
  | _ => false

/-- A tree, a comment, or a category entry taken as an opaque whole. The kinds that have a meaning
outside a category are opaque inside it: as an entry, a nested declaration, a class type or an
annotation shows no children. -/
inductive Node where
  | tree {k : Kind} (t : Tree k)
  | entry (c : Category) (e : Child (.any c))
  | comment (c : Comment)

def Forest.children {p : Place} : Forest p → List Node
  | .nil => []
  | .cons _ t ts => .tree t :: ts.children

def Value.children : {s : Slot} → Value s → List Node
  | _, .scalar _ => []
  | _, .one _ t => [.tree t]
  | _, .absent => []
  | _, .present _ t => [.tree t]
  | _, .many ts => ts.children
  | _, .unlisted => []
  | _, .listed ts => ts.children
  | _, .marker => []
  | _, .single _ t => [.tree t]
  | _, .pairs ts => ts.children

def Fields.children : {fs : List Field} → Fields fs → List Node
  | _, .nil => []
  | _, .cons v vs => v.children ++ vs.children

/-- The name of the node in its place. An annotation in the place of an expression goes by a name of
its own. -/
def Child.nodeName {p : Place} (c : Child p) : String :=
  match p, c.kind with
  | .any .expr, .annotationExpr => "AnnotationExpr"
  | _, k => k.nodeName

/-- The kinds that a category entry hides. -/
def Category.hides : Category → Kind → Bool
  | .member, .classDecl | .member, .enumDecl | .member, .annotationDecl => true
  | .type, .classType => true
  | .expr, .annotationExpr => true
  | _, _ => false

namespace Node

/-- The entry itself when the category hides its kind, otherwise the tree in it. -/
def ofEntry {c : Category} (e : Child (.any c)) : Node :=
  if c.hides e.kind then .entry c e else .tree e.tree

def children : Node → List Node
  | .tree t => t.fields.children
  | .entry _ _ => []
  | .comment _ => []

/-- What the node carries; a comment carries nothing. -/
def data? : Node → Option NodeData
  | .tree t => some t.data
  | .entry _ e => some e.tree.data
  | .comment _ => none

def range : Node → Range
  | .tree t => t.data.range
  | .entry _ e => e.tree.data.range
  | .comment c => c.range

def attached? (n : Node) : Option Comment := n.data?.bind NodeData.comment

def orphans (n : Node) : List Comment := (n.data?.map NodeData.orphans).getD []

def isComment : Node → Bool
  | .comment _ => true
  | _ => false

def name : Node → String
  | .tree (k := k) _ => k.nodeName
  | .entry _ e => e.nodeName
  | .comment c => c.kind.nodeName

end Node

/-- A node met on a walk: where it stands and below which node. -/
structure Visit where
  path : Path
  parent : Option Node
  node : Node

mutual

def Tree.visits (path : Path) (parent : Option Node) : {k : Kind} → Tree k → List Visit
  | _, .node d fs =>
    ⟨path, parent, .tree (.node d fs)⟩ :: Fields.visits path (.tree (.node d fs)) 0 fs

def Fields.visits (path : Path) (parent : Node) (i : Nat) :
    {fs : List Field} → Fields fs → List Visit
  | _, .nil => []
  | _, .cons v vs => Value.visits path parent i v ++ Fields.visits path parent (i + v.size) vs

def Value.visits (path : Path) (parent : Node) (i : Nat) : {s : Slot} → Value s → List Visit
  | _, .scalar _ => []
  | _, .one _ t => Tree.visits (path ++ [i]) parent t
  | _, .absent => []
  | _, .present _ t => Tree.visits (path ++ [i]) parent t
  | _, .many ts => Forest.visits path parent i ts
  | _, .unlisted => []
  | _, .listed ts => Forest.visits path parent i ts
  | _, .marker => []
  | _, .single _ t => Tree.visits (path ++ [i]) parent t
  | _, .pairs ts => Forest.visits path parent i ts

def Forest.visits (path : Path) (parent : Node) (i : Nat) : {p : Place} → Forest p → List Visit
  | _, .nil => []
  | _, .cons _ t ts => Tree.visits (path ++ [i]) parent t ++ Forest.visits path parent (i + 1) ts

end

/-- The node and every node below it, in pre-order. -/
def Node.walk : Node → List Visit
  | .tree t => t.visits [] none
  | n => [⟨[], none, n⟩]

end JavaText
