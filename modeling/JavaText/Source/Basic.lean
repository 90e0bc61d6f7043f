/-!
# Pieces of source text

Characters, where a piece of text stood, comments, and what every node carries besides its fields: its
range, the comment attached to it and the comments that stand inside it without belonging to one of its
children.
-/

namespace JavaText.Text

/-- The characters of Unicode's `White_Space` property. -/
def isBlank (c : Char) : Bool :=
  let n := c.toNat
  (0x09 ≤ n && n ≤ 0x0D) || n == 0x20 || n == 0x85 || n == 0xA0 || n == 0x1680 ||
    (0x2000 ≤ n && n ≤ 0x200A) || n == 0x2028 || n == 0x2029 || n == 0x202F || n == 0x205F ||
    n == 0x3000

/-- The text without the blanks at its two ends. -/
def trim (cs : List Char) : List Char :=
  ((cs.dropWhile isBlank).reverse.dropWhile isBlank).reverse

/-- The value of a hexadecimal digit, in either case. -/
def hexDigit? (c : Char) : Option Nat :=
  if '0' ≤ c ∧ c ≤ '9' then some (c.toNat - '0'.toNat)
  else if 'a' ≤ c ∧ c ≤ 'f' then some (c.toNat - 'a'.toNat + 10)
  else if 'A' ≤ c ∧ c ≤ 'F' then some (c.toNat - 'A'.toNat + 10)
  else none

/-- The number that hexadecimal digits spell, the most significant first, continuing from `n`. -/
def hexValue? (n : Nat) : List Char → Option Nat
  | [] => some n
  | c :: cs => (hexDigit? c).bind fun d => hexValue? (16 * n + d) cs

end JavaText.Text

namespace JavaText

/-- A stretch of source text, from the byte offset `pos` up to, not including, `stop`. Nothing
requires `pos ≤ stop`; only the order of the starts is ever used. -/
structure Range where
  pos : UInt32 := 0
  stop : UInt32 := 0
deriving DecidableEq, Repr

namespace Range

/-- The form used in messages, a half-open interval such as `[2, 7)`. -/
def text (r : Range) : String :=
  "[" ++ toString r.pos.toNat ++ ", " ++ toString r.stop.toNat ++ ")"

/-- The short form `2..7`. -/
def dotted (r : Range) : String :=
  toString r.pos.toNat ++ ".." ++ toString r.stop.toNat

end Range

inductive CommentKind where
  | line
  | block
  | doc
deriving DecidableEq, Repr

namespace CommentKind

def all : List CommentKind := [.line, .block, .doc]

def spelling : CommentKind → String
  | .line => "line"
  | .block => "block"
  | .doc => "doc"

/-- The name of a comment as a node. -/
def nodeName : CommentKind → String
  | .line => "LineComment"
  | .block => "BlockComment"
  | .doc => "JavadocComment"

end CommentKind

/-- A comment; `content` is the text between the delimiters. -/
structure Comment where
  kind : CommentKind
  content : String
  range : Range := {}
deriving DecidableEq, Repr

/-- The text of a line comment on one line: every line break in it becomes a blank. -/
def Comment.lineText (c : Comment) : String :=
  c.content.map fun ch => if ch = '\r' ∨ ch = '\n' then ' ' else ch

/-- What every node carries. An orphan is a comment inside the node that is attached to none of its
children. -/
structure NodeData where
  range : Range := {}
  comment : Option Comment := none
  orphans : List Comment := []
deriving DecidableEq, Repr

/-- The data without any comment. -/
def NodeData.bare (d : NodeData) : NodeData := { range := d.range }

end JavaText
