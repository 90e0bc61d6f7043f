import JavaText.Grammar.Field

/-!
# Syntax trees

A tree of kind `k` holds its data and one value for each field of `k`, of the type that the field's slot
asks for, so a tree that breaks the grammar cannot be written down.

The four types below are the trees themselves; `Row` is how the rest of the library looks at them: the
contents of a node as a tuple, with ordinary options and lists for the children.
-/

namespace JavaText

mutual

/-- A syntax tree whose root is of kind `k`. -/
inductive Tree : Kind → Type
  | node {k : Kind} (data : NodeData) (fields : Fields k.fields) : Tree k

/-- One value for each field. -/
inductive Fields : List Field → Type
  | nil : Fields []
  | cons {f : Field} {fs : List Field} (v : Value f.slot) (vs : Fields fs) : Fields (f :: fs)

/-- The contents of a slot. -/
inductive Value : Slot → Type
  | scalar {s : Scalar} (v : s.Carrier) : Value (.scalar s)
  | one {p : Place} {k : Kind} (h : p.admits k = true) (t : Tree k) : Value (.one p)
  | absent {p : Place} : Value (.opt p)
  | present {p : Place} {k : Kind} (h : p.admits k = true) (t : Tree k) : Value (.opt p)
  | many {p : Place} (ts : Forest p) : Value (.many p)
  | unlisted {p : Place} : Value (.optMany p)
  | listed {p : Place} (ts : Forest p) : Value (.optMany p)
  | marker : Value .arguments
  | single {k : Kind} (h : (Place.any .expr).admits k = true) (t : Tree k) : Value .arguments
  | pairs (ts : Forest (.only .memberValuePair)) : Value .arguments

/-- The trees of a list, each of a kind that the place admits. -/
inductive Forest : Place → Type
  | nil {p : Place} : Forest p
  | cons {p : Place} {k : Kind} (h : p.admits k = true) (t : Tree k) (ts : Forest p) : Forest p

end

def Tree.data {k : Kind} : Tree k → NodeData
  | .node d _ => d

def Tree.fields {k : Kind} : Tree k → Fields k.fields
  | .node _ fs => fs

/-- The tree with other data. -/
def Tree.withData {k : Kind} (d : NodeData) : Tree k → Tree k
  | .node _ fs => .node d fs

/-- A tree in a place that admits its kind. -/
structure Child (p : Place) where
  {kind : Kind}
  admitted : p.admits kind = true
  tree : Tree kind

abbrev TypeDecl := Child (.any .typeDecl)

abbrev Member := Child (.any .member)

abbrev TypeNode := Child (.any .type)

abbrev Stmt := Child (.any .stmt)

abbrev Expr := Child (.any .expr)

/-- A node of one fixed kind, seen as the child of a place for that kind. -/
def Tree.child {k : Kind} (t : Tree k) : Child (.only k) := ⟨beq_self_eq_true k, t⟩

/-- The tree of a child in a place for one kind. -/
def Child.sole {k : Kind} (c : Child (.only k)) : Tree k :=
  (show c.kind = k from (eq_of_beq c.admitted).symm) ▸ c.tree

@[simp] theorem Tree.sole_child {k : Kind} (t : Tree k) : t.child.sole = t := rfl

@[simp] theorem Child.child_sole {k : Kind} (c : Child (.only k)) : c.sole.child = c := by
  obtain ⟨h, t⟩ := c
  cases eq_of_beq h
  rfl

/-- The values of several fields as a tuple. -/
abbrev Row {φ : Type u} (V : φ → Type) : List φ → Type
  | [] => Unit
  | f :: fs => V f × Row V fs

namespace Forest

def toList {p : Place} : Forest p → List (Child p)
  | .nil => []
  | .cons h t ts => ⟨h, t⟩ :: ts.toList

def ofList {p : Place} : List (Child p) → Forest p
  | [] => .nil
  | c :: cs => .cons c.admitted c.tree (ofList cs)

@[simp] theorem ofList_toList {p : Place} : (ts : Forest p) → ofList ts.toList = ts
  | .nil => rfl
  | .cons h t ts => by rw [toList, ofList, ofList_toList ts]

@[simp] theorem toList_ofList {p : Place} (cs : List (Child p)) : (ofList cs).toList = cs := by
  induction cs with
  | nil => rfl
  | cons c cs ih => rw [ofList, toList, ih]

end Forest

namespace Value

def view : {s : Slot} → Value s → s.Of Child
  | _, .scalar v => v
  | _, .one h t => ⟨h, t⟩
  | _, .absent => none
  | _, .present h t => some ⟨h, t⟩
  | _, .many ts => ts.toList
  | _, .unlisted => none
  | _, .listed ts => some ts.toList
  | _, .marker => .marker
  | _, .single h t => .single ⟨h, t⟩
  | _, .pairs ts => .pairs ts.toList

def ofView : {s : Slot} → s.Of Child → Value s
  | .scalar _, v => .scalar v
  | .one _, c => .one c.admitted c.tree
  | .opt _, none => .absent
  | .opt _, some c => .present c.admitted c.tree
  | .many _, cs => .many (.ofList cs)
  | .optMany _, none => .unlisted
  | .optMany _, some cs => .listed (.ofList cs)
  | .arguments, .marker => .marker
  | .arguments, .single c => .single c.admitted c.tree
  | .arguments, .pairs cs => .pairs (.ofList cs)

@[simp] theorem ofView_view {s : Slot} (v : Value s) : ofView v.view = v := by
  cases v <;> simp [view, ofView]

@[simp] theorem view_ofView : {s : Slot} → (v : s.Of Child) → (ofView v).view = v
  | .scalar _, _ => rfl
  | .one _, _ => rfl
  | .opt _, none => rfl
  | .opt _, some _ => rfl
  | .many _, cs => by simp [view, ofView]
  | .optMany _, none => rfl
  | .optMany _, some cs => by simp [view, ofView]
  | .arguments, .marker => rfl
  | .arguments, .single _ => rfl
  | .arguments, .pairs cs => by simp [view, ofView]

end Value

namespace Fields

/-- The fields as a tuple. -/
def row : {fs : List Field} → Fields fs → Row (Field.Of Child) fs
  | _, .nil => ()
  | _, .cons v vs => (v.view, vs.row)

def ofRow : {fs : List Field} → Row (Field.Of Child) fs → Fields fs
  | [], _ => .nil
  | _ :: _, (v, vs) => .cons (.ofView v) (ofRow vs)

@[simp] theorem ofRow_row : {fs : List Field} → (vs : Fields fs) → ofRow vs.row = vs
  | _, .nil => rfl
  | _, .cons v vs => by rw [row, ofRow, Value.ofView_view, ofRow_row vs]

@[simp] theorem row_ofRow : {fs : List Field} → (r : Row (Field.Of Child) fs) → (ofRow r).row = r
  | [], _ => rfl
  | _ :: _, (v, vs) => by rw [ofRow, row, Value.view_ofView, row_ofRow vs]

end Fields

/-- The tree of kind `k` with the given contents. -/
def Tree.ofRow (k : Kind) (data : NodeData) (r : Row (Field.Of Child) k.fields) : Tree k :=
  .node data (.ofRow r)

def Tree.row {k : Kind} (t : Tree k) : Row (Field.Of Child) k.fields := t.fields.row

@[simp] theorem Tree.data_ofRow (k : Kind) (d : NodeData) (r : Row (Field.Of Child) k.fields) :
    (ofRow k d r).data = d := rfl

@[simp] theorem Tree.row_ofRow (k : Kind) (d : NodeData) (r : Row (Field.Of Child) k.fields) :
    (ofRow k d r).row = r := Fields.row_ofRow r

@[simp] theorem Tree.ofRow_row {k : Kind} (t : Tree k) : ofRow k t.data t.row = t := by
  cases t with
  | node d fs => simp [ofRow, row, data, fields]

end JavaText
