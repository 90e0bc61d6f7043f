import JavaText.Json.Parse
import JavaText.Json.Value
import JavaText.Json.NodeData

/-!
# Trees in JSON

A node is a record of its data and its fields, by the grammar. Where several kinds may stand the node
also carries its tag, as the member `kind` of its object or as the first item of its array.
-/

namespace JavaText

open Json (ReadError Mode Schema LoadError)

/-! ### Reading -/

/-- The kind that a tag names. A tag that has been taken in may also be the number of a variant. -/
def Category.readTag (c : Category) (m : Mode) : Json → Except ReadError Kind
  | .string (some s) => (Json.variant c.variants Prod.fst s).map Prod.snd
  | .number n =>
    match m, n.nat?.bind fun i => c.variants[i]? with
    | .buffered, some v => .ok v.2
    | _, _ => .error .mismatch
  | _ => .error .mismatch

/-- Whether a value can be taken in. -/
def Json.fits (m : Mode) (j : Json) : Bool :=
  match m with
  | .direct left => j.depth ≤ left && j.isPlain
  | .buffered => true

/-- Takes in the members of a tagged object and finds its kind. -/
def Category.scan (c : Category) (m : Mode) (found : Option Kind) :
    List (Json.Text × Json) → Except ReadError Kind
  | [] =>
    match found with
    | none => .error (.missingField "kind")
    | some k => .ok k
  | (name, j) :: rest =>
    match name with
    | none => .error .mismatch
    | some name =>
      if name = "kind" then
        match found with
        | some _ => .error (.duplicateField "kind")
        | none => (c.readTag m j).bind fun k => scan c m (some k) rest
      else if j.fits m then scan c m found rest
      else .error .mismatch

/-- Takes in the items of a tagged array and finds its kind. -/
def Category.scanItems (c : Category) (m : Mode) : List Json → Except ReadError Kind
  | [] => .error (.missingField "kind")
  | j :: js =>
    (c.readTag m j).bind fun k =>
      if js.all (Json.fits m) then .ok k else .error .mismatch

def Scalar.read (m : Mode) (j : Json) : (s : Scalar) → Except ReadError s.Carrier
  | .text => Json.readText j
  | .optText => Json.readOption Json.readText j
  | .flag => Json.readBool j
  | .modifiers =>
    (Json.readText j).bind fun s =>
      match Modifiers.read? s with
      | some mods => .ok mods
      | none => .error .mismatch
  | .primitive => Json.readWord Primitive.all Primitive.spelling m j
  | .assignOp => Json.readWord AssignOp.all AssignOp.spelling m j
  | .binaryOp => Json.readWord BinaryOp.all BinaryOp.spelling m j
  | .unaryOp => Json.readWord UnaryOp.all UnaryOp.spelling m j
  | .data => NodeData.read m j

/-- What a value gives when it is asked for the contents of a slot. -/
abbrev SlotReader := Mode → (s : Slot) → Except ReadError (s.Of Child)

/-- The fields of a node. One with a default may be missing; so may an option, but only in an
object. -/
def Field.schema : Schema (Field.Of Child) where
  name f := f.name
  absent f := if f.hasDefault || f.slot.isOptional then f.slot.empty? else none
  short f := if f.hasDefault then f.slot.empty? else none

/-- A value that has been opened: with it go the readers of the values directly inside it. -/
structure Opened where
  value : Json
  /-- Of an array. -/
  items : List SlotReader := []
  /-- Of an object. -/
  members : List (Json.Text × SlotReader) := []

namespace Opened

def readField (m : Mode) (r : SlotReader) (f : Field) : Except ReadError (f.Of Child) := r m f.slot

/-- The tree of kind `k` whose data and fields are given by the members of an object. -/
def treeOfMembers (k : Kind) (m : Mode) (members : List (Json.Text × SlotReader)) :
    Except ReadError (Tree k) :=
  (Field.schema.ofMembers (readField m) (.data :: k.fields) members).map fun (d, row) =>
    Tree.ofRow k d row

/-- The tree of kind `k` whose data and fields are given by the items of an array. -/
def treeOfItems (k : Kind) (m : Mode) (items : List SlotReader) : Except ReadError (Tree k) :=
  (Field.schema.ofItems (readField m) (.data :: k.fields) items).map fun (d, row) =>
    Tree.ofRow k d row

/-- The tree, if its kind may stand in the category. -/
def inCategory (c : Category) {k : Kind} (t : Tree k) : Except ReadError (Child (.any c)) :=
  if h : (Place.any c).admits k = true then .ok ⟨h, t⟩ else .error .mismatch

/-- The node in a place. -/
def place (o : Opened) (m : Mode) : (p : Place) → Except ReadError (Child p)
  | .only k =>
    match o.value with
    | .object _ => m.enter.bind fun m => (treeOfMembers k m o.members).map Tree.child
    | .array _ => m.enter.bind fun m => (treeOfItems k m o.items).map Tree.child
    | _ => .error .mismatch
  | .any c =>
    match o.value with
    | .object members =>
      m.enter.bind fun m => (c.scan m none members).bind fun k =>
        (treeOfMembers k .buffered o.members).bind (inCategory c)
    | .array items =>
      m.enter.bind fun m => (c.scanItems m items).bind fun k =>
        (treeOfItems k .buffered o.items.tail).bind (inCategory c)
    | _ => .error .mismatch

def list (o : Opened) (m : Mode) (p : Place) : Except ReadError (List (Child p)) :=
  match o.value with
  | .array _ => m.enter.bind fun m => o.items.mapM fun r => r m (.one p)
  | _ => .error .mismatch

inductive ArgumentsForm where
  | marker | single | pairs

def ArgumentsForm.all : List ArgumentsForm := [.marker, .single, .pairs]

def ArgumentsForm.spelling : ArgumentsForm → String
  | .marker => "Marker"
  | .single => "Single"
  | .pairs => "Pairs"

/-- An annotation's arguments of a given form, from the value beside the form's name. -/
def argumentsOf (m : Mode) (v : Json) (r : SlotReader) :
    ArgumentsForm → Except ReadError (Slot.arguments.Of Child)
  | .marker => if Json.isUnit m v then .ok .marker else .error .mismatch
  | .single => (r m (.one (.any .expr))).map .single
  | .pairs => (r m (.many (.only .memberValuePair))).map .pairs

/-- The arguments of an annotation: the name of their form, and beside it what they are. -/
def arguments (o : Opened) (m : Mode) : Except ReadError (Slot.arguments.Of Child) :=
  match o.value, o.members with
  | .string (some s), _ =>
    (Json.variant ArgumentsForm.all ArgumentsForm.spelling s).bind fun form =>
      match form with
      | .marker => .ok .marker
      | _ => .error .mismatch
  | .object ((some s, v) :: rest), (_, r) :: _ =>
    if m == .buffered && !rest.isEmpty then .error .mismatch
    else m.enter.bind fun m =>
      (Json.variant ArgumentsForm.all ArgumentsForm.spelling s).bind fun form =>
        (argumentsOf m v r form).bind fun args =>
          if rest.isEmpty then .ok args else .error .mismatch
  | _, _ => .error .mismatch

def slot (o : Opened) : SlotReader := fun m s =>
  match s with
  | .scalar s => s.read m o.value
  | .one p => o.place m p
  | .opt p => if o.value.isNull then .ok none else (o.place m p).map some
  | .many p => o.list m p
  | .optMany p => if o.value.isNull then .ok none else (o.list m p).map some
  | .arguments => o.arguments m

end Opened

namespace Json

mutual

/-- Reads the contents of a slot. -/
def readSlot : Json → SlotReader
  | .array items => Opened.slot { value := .array items, items := itemReaders items }
  | .object members =>
    Opened.slot { value := .object members, members := memberReaders members }
  | j => Opened.slot { value := j }

def itemReaders : List Json → List SlotReader
  | [] => []
  | j :: js => readSlot j :: itemReaders js

def memberReaders : List (Json.Text × Json) → List (Json.Text × SlotReader)
  | [] => []
  | (name, j) :: ms => (name, readSlot j) :: memberReaders ms

end

/-- Reads a node that is a text of its own. -/
def readChild (p : Place) (j : Json) : Except ReadError (Child p) := readSlot j .top (.one p)

/-- Reads a text. -/
def load {α : Type} (read : Json → Except ReadError α) (text : String) : Except LoadError α :=
  match parse text with
  | none => .error .syntactic
  | some j => (read j).mapError .data

end Json

/-! ### Writing -/

def Scalar.toJson : (s : Scalar) → s.Carrier → Json
  | .text, v => .text v
  | .optText, v => (v.map Json.text).getD .null
  | .flag, v => .bool v
  | .modifiers, v => .text v.text
  | .primitive, v => .text v.spelling
  | .assignOp, v => .text v.spelling
  | .binaryOp, v => .text v.spelling
  | .unaryOp, v => .text v.spelling
  | .data, v => v.toJson

/-- The object of a node in a place, with its tag first if the place takes several kinds. -/
def Place.object (p : Place) (k : Kind) (members : List (String × Json)) : Json :=
  match p with
  | .only _ => .record members
  | .any c => .record (("kind", .text ((c.tag? k).getD "")) :: members)

mutual

/-- The data and the fields of a node, in order. -/
def Tree.members : {k : Kind} → Tree k → List (String × Json)
  | _, .node d fs => ("data", d.toJson) :: Fields.members fs

def Fields.members : {fs : List Field} → Fields fs → List (String × Json)
  | _, .nil => []
  | _, .cons (f := f) v vs => (f.name, Value.toJson v) :: Fields.members vs

def Value.toJson : {s : Slot} → Value s → Json
  | _, .scalar (s := s) v => s.toJson v
  | _, .one (p := p) (k := k) _ t => p.object k (Tree.members t)
  | _, .absent => .null
  | _, .present (p := p) (k := k) _ t => p.object k (Tree.members t)
  | _, .many ts => .array (Forest.toJson ts)
  | _, .unlisted => .null
  | _, .listed ts => .array (Forest.toJson ts)
  | _, .marker => .text "Marker"
  | _, .single (k := k) _ t => .record [("Single", (Place.any .expr).object k (Tree.members t))]
  | _, .pairs ts => .record [("Pairs", .array (Forest.toJson ts))]

def Forest.toJson : {p : Place} → Forest p → List Json
  | _, .nil => []
  | _, .cons (p := p) (k := k) _ t ts => p.object k (Tree.members t) :: Forest.toJson ts

end

def Child.toJson {p : Place} (c : Child p) : Json := p.object c.kind c.tree.members

end JavaText
