import JavaText.Print.Printer

/-!
# Markup around decorated nodes

Each decorated node is put between the tags of an element whose `type` attribute says what the node is.
The style names the element, adds classes, and lists class types that stay bare in type positions. The
attributes of a tag come in a fixed order, each with a blank behind it: `<span type='class' >`.
-/

namespace JavaText

/-- An element, and the attributes that it has. -/
structure Tag where
  element : String
  id : Option String := none
  name : Option String := none
  /-- The `type` attribute. -/
  type : Option String := none
  classes : List String := []
deriving DecidableEq, Repr

namespace Tag

def addClasses (t : Tag) (cs : List String) : Tag := { t with classes := t.classes ++ cs }

def attributeText (name value : String) : String := name ++ "='" ++ value ++ "' "

def attributes (t : Tag) : List (String × String) :=
  (t.id.map fun v => ("id", v)).toList ++ (t.name.map fun v => ("name", v)).toList ++
    (t.type.map fun v => ("type", v)).toList ++
    if t.classes.isEmpty then [] else [("class", " ".intercalate t.classes)]

def opening (t : Tag) : String :=
  "<" ++ t.element ++ " " ++ String.join (t.attributes.map fun (n, v) => attributeText n v) ++ ">"

def closing (t : Tag) : String := "</" ++ t.element ++ ">"

end Tag

/-- Sorted by type, no type twice. -/
abbrev ClassTable.Sorted (es : List (String × List String)) : Prop :=
  es.Pairwise fun a b => a.1 < b.1

/-- The classes of each markup type that has any set. The table is kept sorted by type, each type at
most once, so a table has one written form and setting a type again replaces what it had. -/
structure ClassTable where
  entries : List (String × List String)
  sorted : ClassTable.Sorted entries
deriving DecidableEq, Repr

namespace ClassTable

def empty : ClassTable := ⟨[], .nil⟩

def get (t : ClassTable) (type : String) : List String :=
  ((t.entries.find? fun e => e.1 == type).map Prod.snd).getD []

/-- Puts the classes of a type where they belong among sorted entries. -/
def setEntry (type : String) (cs : List String) :
    List (String × List String) → List (String × List String)
  | [] => [(type, cs)]
  | e :: es =>
    if type = e.1 then (type, cs) :: es
    else if type < e.1 then (type, cs) :: e :: es
    else e :: setEntry type cs es

theorem mem_setEntry {type : String} {cs : List String} {es : List (String × List String)}
    {e : String × List String} (h : e ∈ setEntry type cs es) : e = (type, cs) ∨ e ∈ es := by
  induction es with
  | nil => simpa [setEntry] using h
  | cons d es ih => grind [setEntry]

theorem sorted_setEntry (type : String) (cs : List String) {es : List (String × List String)}
    (h : Sorted es) : Sorted (setEntry type cs es) := by
  induction es with
  | nil => simp [setEntry, Sorted]
  | cons d es ih =>
    obtain ⟨hd, hes⟩ := List.pairwise_cons.mp h
    rw [setEntry]
    split
    · next heq => exact List.pairwise_cons.mpr ⟨fun e he => by simpa [heq] using hd e he, hes⟩
    · next hne =>
      split
      · next hlt =>
        refine List.pairwise_cons.mpr ⟨fun e he => ?_, h⟩
        rcases List.mem_cons.mp he with rfl | he
        · exact hlt
        · exact String.lt_trans hlt (hd e he)
      · next hlt =>
        refine List.pairwise_cons.mpr ⟨fun e he => ?_, ih hes⟩
        rcases mem_setEntry he with rfl | he
        · exact Std.lt_of_le_of_ne (String.not_lt.mp hlt) (Ne.symm hne)
        · exact hd e he

def set (t : ClassTable) (type : String) (cs : List String) : ClassTable where
  entries := setEntry type cs t.entries
  sorted := sorted_setEntry type cs t.sorted

end ClassTable

/-- What a node in the role is, in the markup. -/
def Role.markupType : Role → String
  | .classDeclaration => "class_declare"
  | .methodDeclaration => "method_declare"
  | .methodCallTarget => "method_call"
  | .constructor => "constructor"
  | .typeReference => "class"
  | .newObjectType => "new"
  | .annotationUse => "use_annotation"
  | .parameter => "parameter"

structure MarkupStyle where
  tag : String := "span"
  /-- Class types left bare in type positions, by simple name. -/
  bareNames : List String := ["Map", "List", "ArrayList", "LinkedList"]
  /-- Further classes by markup type. -/
  classes : ClassTable := .empty
deriving DecidableEq, Repr

namespace MarkupStyle

def isBareName (s : MarkupStyle) (simpleName : String) : Bool := s.bareNames.contains simpleName

def classesFor (s : MarkupStyle) (type : String) : List String := s.classes.get type

def tagFor (s : MarkupStyle) (role : Role) : Tag :=
  { element := s.tag, type := some role.markupType, classes := s.classesFor role.markupType }

/-- Whether the node stays without tags: a class type in a type position, by its name. -/
def isBare (s : MarkupStyle) : Role → Node → Bool
  | .typeReference, .tree (k := .classType) t =>
    match t.row with
    | (_, _, name, _, ()) => s.isBareName name.sole.identifier
  | _, _ => false

def decorator (s : MarkupStyle) : Decorator := fun role n =>
  if s.isBare role n then .print .done
  else .write (s.tagFor role).opening (.print (.write (s.tagFor role).closing .done))

end MarkupStyle

end JavaText
