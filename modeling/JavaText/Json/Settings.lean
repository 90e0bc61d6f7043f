import JavaText.Json.Record
import JavaText.Markup.Style

/-!
# Settings in JSON

Options and styles in JSON. Every setting may be left out and then has its default.
-/

namespace JavaText

open Json (ReadError Mode Schema)

namespace PrintOptions

inductive Part where
  | indent | newLine | printComments

abbrev Part.Of : Part → Type
  | .indent | .newLine => String
  | .printComments => Bool

def part (o : PrintOptions) : (p : Part) → p.Of
  | .indent => o.indent
  | .newLine => o.newLine
  | .printComments => o.printComments

def schema : Schema Part.Of where
  name
    | .indent => "indent"
    | .newLine => "newLine"
    | .printComments => "printComments"
  absent p := some (part {} p)
  short p := some (part {} p)

def readPart (_ : Mode) (j : Json) : (p : Part) → Except ReadError p.Of
  | .indent | .newLine => Json.readText j
  | .printComments => Json.readBool j

def read (m : Mode) (j : Json) : Except ReadError PrintOptions :=
  (schema.read readPart [.indent, .newLine, .printComments] m j).map
    fun (indent, newLine, printComments, ()) => { indent, newLine, printComments }

def toJson (o : PrintOptions) : Json :=
  .record [("indent", .text o.indent), ("newLine", .text o.newLine),
    ("printComments", .bool o.printComments)]

end PrintOptions

namespace ClassTable

/-- Takes in the members in order, so a later one replaces an earlier one of the same name. -/
def readMembers (m : Mode) (t : ClassTable) :
    List (Json.Text × Json) → Except ReadError ClassTable
  | [] => .ok t
  | (none, _) :: _ => .error .mismatch
  | (some type, j) :: members =>
    (Json.readList (fun _ => Json.readText) m j).bind fun cs => readMembers m (t.set type cs) members

def read (m : Mode) : Json → Except ReadError ClassTable
  | .object members => m.enter.bind fun m => readMembers m .empty members
  | _ => .error .mismatch

def toJson (t : ClassTable) : Json :=
  .record (t.entries.map fun (type, cs) => (type, .array (cs.map .text)))

end ClassTable

namespace MarkupStyle

inductive Part where
  | tag | bareNames | classes

abbrev Part.Of : Part → Type
  | .tag => String
  | .bareNames => List String
  | .classes => ClassTable

def part (s : MarkupStyle) : (p : Part) → p.Of
  | .tag => s.tag
  | .bareNames => s.bareNames
  | .classes => s.classes

def schema : Schema Part.Of where
  name
    | .tag => "tag"
    | .bareNames => "classBlacklist"
    | .classes => "classes"
  absent p := some (part {} p)
  short p := some (part {} p)

def readPart (m : Mode) (j : Json) : (p : Part) → Except ReadError p.Of
  | .tag => Json.readText j
  | .bareNames => Json.readList (fun _ => Json.readText) m j
  | .classes => ClassTable.read m j

def read (m : Mode) (j : Json) : Except ReadError MarkupStyle :=
  (schema.read readPart [.tag, .bareNames, .classes] m j).map
    fun (tag, bareNames, classes, ()) => { tag, bareNames, classes }

def toJson (s : MarkupStyle) : Json :=
  .record [("tag", .text s.tag), ("classBlacklist", .array (s.bareNames.map .text)),
    ("classes", s.classes.toJson)]

end MarkupStyle

end JavaText
