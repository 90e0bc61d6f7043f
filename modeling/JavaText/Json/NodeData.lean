import JavaText.Json.Record

/-!
# Node data in JSON

Ranges, comments and the data of a node in JSON.
-/

namespace JavaText

open Json (ReadError Mode Schema)

namespace Range

inductive Part where
  | pos | stop

def schema : Schema (fun (_ : Part) => UInt32) where
  name
    | .pos => "pos"
    | .stop => "end"
  absent _ := none
  short _ := none

/-- An offset: a plain number below 2 ^ 32. -/
def readOffset : Json → Except ReadError UInt32
  | .number n =>
    match n.nat? with
    | some v => if v < 4294967296 then .ok (UInt32.ofNat v) else .error .mismatch
    | none => .error .mismatch
  | _ => .error .mismatch

def read (m : Mode) (j : Json) : Except ReadError Range :=
  (schema.read (fun _ j _ => readOffset j) [.pos, .stop] m j).map fun (pos, stop, ()) =>
    ⟨pos, stop⟩

def toJson (r : Range) : Json :=
  .record [("pos", .nat r.pos.toNat), ("end", .nat r.stop.toNat)]

end Range

namespace CommentKind

def read (m : Mode) (j : Json) : Except ReadError CommentKind := Json.readWord all spelling m j

end CommentKind

namespace Comment

inductive Part where
  | kind | content | range

abbrev Part.Of : Part → Type
  | .kind => CommentKind
  | .content => String
  | .range => Range

def schema : Schema Part.Of where
  name
    | .kind => "kind"
    | .content => "content"
    | .range => "range"
  absent
    | .range => some {}
    | .kind | .content => none
  short
    | .range => some {}
    | .kind | .content => none

def readPart (m : Mode) (j : Json) : (p : Part) → Except ReadError p.Of
  | .kind => CommentKind.read m j
  | .content => Json.readText j
  | .range => Range.read m j

def read (m : Mode) (j : Json) : Except ReadError Comment :=
  (schema.read readPart [.kind, .content, .range] m j).map fun (kind, content, range, ()) =>
    { kind, content, range }

def toJson (c : Comment) : Json :=
  .record [("kind", .text c.kind.spelling), ("content", .text c.content),
    ("range", c.range.toJson)]

end Comment

namespace NodeData

inductive Part where
  | range | comment | orphans

abbrev Part.Of : Part → Type
  | .range => Range
  | .comment => Option Comment
  | .orphans => List Comment

def default : (p : Part) → p.Of
  | .range => {}
  | .comment => none
  | .orphans => []

def schema : Schema Part.Of where
  name
    | .range => "range"
    | .comment => "comment"
    | .orphans => "orphanComments"
  absent p := some (default p)
  short p := some (default p)

def readPart (m : Mode) (j : Json) : (p : Part) → Except ReadError p.Of
  | .range => Range.read m j
  | .comment => Json.readOption (Comment.read m) j
  | .orphans => Json.readList Comment.read m j

def read (m : Mode) (j : Json) : Except ReadError NodeData :=
  (schema.read readPart [.range, .comment, .orphans] m j).map fun (range, comment, orphans, ()) =>
    { range, comment, orphans }

/-- The comments are left out where there are none. -/
def toJson (d : NodeData) : Json :=
  .record ([("range", d.range.toJson)] ++
    (d.comment.map fun c => ("comment", c.toJson)).toList ++
    if d.orphans.isEmpty then [] else [("orphanComments", .array (d.orphans.map Comment.toJson))])

end NodeData

end JavaText
