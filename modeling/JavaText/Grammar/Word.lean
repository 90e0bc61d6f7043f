import JavaText.Source.Basic

/-!
# Words, operators and modifiers

The words and operator signs that a node may hold. Each type lists its members in the order in which an
error message names them; `spelling` is the name in a written tree, `sign` what is printed.

Declaration modifiers are a set of sixteen bits. Eleven bits have a name and a keyword; the other five
have none, and are kept as they were read. The written form lists the names of the set in the order of
the bits and then the nameless rest in hexadecimal, parted by ` | `. Reading takes parts in any order and
unites them.
-/

namespace JavaText

inductive Primitive where
  | boolean | char | byte | short | int | long | float | double
deriving DecidableEq, Repr

namespace Primitive

def all : List Primitive := [.boolean, .char, .byte, .short, .int, .long, .float, .double]

/-- The keyword, which is also the spelling in a written tree. -/
def spelling : Primitive → String
  | .boolean => "boolean"
  | .char => "char"
  | .byte => "byte"
  | .short => "short"
  | .int => "int"
  | .long => "long"
  | .float => "float"
  | .double => "double"

end Primitive

inductive AssignOp where
  | assign | plus | minus | multiply | divide | and | or | xor | remainder | leftShift
  | signedRightShift | unsignedRightShift
deriving DecidableEq, Repr

namespace AssignOp

def all : List AssignOp :=
  [.assign, .plus, .minus, .multiply, .divide, .and, .or, .xor, .remainder, .leftShift,
    .signedRightShift, .unsignedRightShift]

def spelling : AssignOp → String
  | .assign => "assign"
  | .plus => "plus"
  | .minus => "minus"
  | .multiply => "multiply"
  | .divide => "divide"
  | .and => "and"
  | .or => "or"
  | .xor => "xor"
  | .remainder => "remainder"
  | .leftShift => "leftShift"
  | .signedRightShift => "signedRightShift"
  | .unsignedRightShift => "unsignedRightShift"

def sign : AssignOp → String
  | .assign => "="
  | .plus => "+="
  | .minus => "-="
  | .multiply => "*="
  | .divide => "/="
  | .and => "&="
  | .or => "|="
  | .xor => "^="
  | .remainder => "%="
  | .leftShift => "<<="
  | .signedRightShift => ">>="
  | .unsignedRightShift => ">>>="

end AssignOp

inductive BinaryOp where
  | or | and | binaryOr | binaryAnd | xor | equals | notEquals | less | greater | lessEquals
  | greaterEquals | leftShift | signedRightShift | unsignedRightShift | plus | minus | multiply
  | divide | remainder
deriving DecidableEq, Repr

namespace BinaryOp

def all : List BinaryOp :=
  [.or, .and, .binaryOr, .binaryAnd, .xor, .equals, .notEquals, .less, .greater, .lessEquals,
    .greaterEquals, .leftShift, .signedRightShift, .unsignedRightShift, .plus, .minus, .multiply,
    .divide, .remainder]

def spelling : BinaryOp → String
  | .or => "or"
  | .and => "and"
  | .binaryOr => "binaryOr"
  | .binaryAnd => "binaryAnd"
  | .xor => "xor"
  | .equals => "equals"
  | .notEquals => "notEquals"
  | .less => "less"
  | .greater => "greater"
  | .lessEquals => "lessEquals"
  | .greaterEquals => "greaterEquals"
  | .leftShift => "leftShift"
  | .signedRightShift => "signedRightShift"
  | .unsignedRightShift => "unsignedRightShift"
  | .plus => "plus"
  | .minus => "minus"
  | .multiply => "multiply"
  | .divide => "divide"
  | .remainder => "remainder"

def sign : BinaryOp → String
  | .or => "||"
  | .and => "&&"
  | .binaryOr => "|"
  | .binaryAnd => "&"
  | .xor => "^"
  | .equals => "=="
  | .notEquals => "!="
  | .less => "<"
  | .greater => ">"
  | .lessEquals => "<="
  | .greaterEquals => ">="
  | .leftShift => "<<"
  | .signedRightShift => ">>"
  | .unsignedRightShift => ">>>"
  | .plus => "+"
  | .minus => "-"
  | .multiply => "*"
  | .divide => "/"
  | .remainder => "%"

end BinaryOp

inductive UnaryOp where
  | plus | minus | preIncrement | preDecrement | logicalComplement | bitwiseComplement
  | postIncrement | postDecrement
deriving DecidableEq, Repr

namespace UnaryOp

def all : List UnaryOp :=
  [.plus, .minus, .preIncrement, .preDecrement, .logicalComplement, .bitwiseComplement,
    .postIncrement, .postDecrement]

def spelling : UnaryOp → String
  | .plus => "plus"
  | .minus => "minus"
  | .preIncrement => "preIncrement"
  | .preDecrement => "preDecrement"
  | .logicalComplement => "logicalComplement"
  | .bitwiseComplement => "bitwiseComplement"
  | .postIncrement => "postIncrement"
  | .postDecrement => "postDecrement"

def sign : UnaryOp → String
  | .plus => "+"
  | .minus => "-"
  | .preIncrement | .postIncrement => "++"
  | .preDecrement | .postDecrement => "--"
  | .logicalComplement => "!"
  | .bitwiseComplement => "~"

/-- Whether the sign stands after its operand. -/
def isTrailing : UnaryOp → Bool
  | .postIncrement | .postDecrement => true
  | _ => false

end UnaryOp

/-- A modifier with a name: its spelling in a written set, its keyword, its bit. -/
structure Flag where
  name : String
  keyword : String
  bit : Nat
deriving DecidableEq, Repr

structure Modifiers where
  bits : BitVec 16 := 0
deriving DecidableEq, Repr

namespace Modifiers

/-- The named modifiers, in the order in which they are printed. -/
def flags : List Flag :=
  [⟨"PUBLIC", "public", 0⟩, ⟨"PROTECTED", "protected", 1⟩, ⟨"PRIVATE", "private", 2⟩,
    ⟨"ABSTRACT", "abstract", 3⟩, ⟨"STATIC", "static", 4⟩, ⟨"FINAL", "final", 5⟩,
    ⟨"TRANSIENT", "transient", 6⟩, ⟨"VOLATILE", "volatile", 7⟩,
    ⟨"SYNCHRONIZED", "synchronized", 8⟩, ⟨"NATIVE", "native", 9⟩, ⟨"STRICTFP", "strictfp", 10⟩]

def empty : Modifiers := {}

def isEmpty (m : Modifiers) : Bool := m.bits == 0

def union (m n : Modifiers) : Modifiers := ⟨m.bits ||| n.bits⟩

/-- The set of one flag. -/
def ofFlag (f : Flag) : Modifiers := ⟨BitVec.twoPow 16 f.bit⟩

def has (m : Modifiers) (f : Flag) : Bool := m.bits.getLsbD f.bit

/-- The keywords of the set, in the order of `flags`. -/
def keywords (m : Modifiers) : List String := (flags.filter m.has).map Flag.keyword

/-- The bits without a name. -/
def nameless (m : Modifiers) : BitVec 16 := m.bits &&& 0xF800

/-- The hexadecimal digits of a word, four at most, without leading zeros. -/
def hexDigits (w : BitVec 16) : String :=
  String.ofList (Nat.toDigits 16 w.toNat)

def parts (m : Modifiers) : List String :=
  (flags.filter m.has).map Flag.name ++ if m.nameless = 0 then [] else ["0x" ++ hexDigits m.nameless]

/-- The written form, empty for the empty set. -/
def text (m : Modifiers) : String := " | ".intercalate m.parts

/-- A word in hexadecimal: at least one digit, perhaps behind a plus sign, and no more than sixteen
bits' worth. -/
def hexWord? (cs : List Char) : Option (BitVec 16) :=
  let digits := match cs with
    | '+' :: rest => rest
    | _ => cs
  if digits.isEmpty then none
  else (Text.hexValue? 0 digits).bind fun n => if n < 65536 then some (BitVec.ofNat 16 n) else none

/-- One part of a written set: `0x` and digits, or the name of a flag. -/
def part? (cs : List Char) : Option Modifiers :=
  match cs with
  | '0' :: 'x' :: digits => (hexWord? digits).map Modifiers.mk
  | _ => (flags.find? fun f => f.name.toList == cs).map ofFlag

/-- Reads parts between bars, each with blanks around it; a blank text is the empty set. -/
def read? (s : String) : Option Modifiers :=
  if (Text.trim s.toList).isEmpty then some empty
  else (s.toList.splitOn '|').foldlM (fun m cs => (part? (Text.trim cs)).map m.union) empty

end Modifiers

end JavaText
