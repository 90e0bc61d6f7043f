/-!
# JSON values and their written form

A value is kept as it is written: members keep their order and may repeat a name, a number keeps its
digits, and a text may be something that is not Unicode. The written form has no blanks. In a text only
quotes, backslashes and control characters are escaped, the latter by a letter where there is one and
otherwise by four digits.

Not every number can be held. A number is held in words: its first digits, as many as a word of 64 bits
takes, and the power of ten that goes with them. Both are taken as doubles, numbers with 53 significant
binary digits, and their product has to be one.
-/

namespace JavaText.Double

/-- How far apart doubles are where `n` is. -/
def unit (n : Nat) : Nat := Nat.pow 2 (n.log2 - 52)

/-- The double nearest to a whole number, in units of `unit n`: the one with an even last digit if two
are equally near. -/
def nearestUnits (n : Nat) : Nat :=
  let below := n / unit n
  let rest := n % unit n
  if unit n < 2 * rest ∨ (unit n = 2 * rest ∧ below % 2 = 1) then below + 1 else below

/-- The double nearest to a whole number. -/
def nearest (n : Nat) : Nat := nearestUnits n * unit n

/-- Half a unit above the largest double. Numbers from here on have no double near them. -/
def limit : Nat := Nat.pow 2 1024 - Nat.pow 2 970

/-- Whether the product of two whole doubles has a double near it. -/
def holdsProduct (a b : Nat) : Bool := a * b < limit

theorem nearest_of_unit_eq_one {n : Nat} (h : unit n = 1) : nearest n = n := by
  simp [nearest, nearestUnits, h, Nat.mod_one]

end JavaText.Double

namespace JavaText

/-- A number: whole part, digits of the fraction, exponent. -/
structure Number where
  negative : Bool := false
  whole : Nat
  /-- The digits after the point; none if there is no point. -/
  fraction : List Nat := []
  exponent : Option Int := none
deriving DecidableEq, Repr

namespace Number

/-- The number if it is written as a plain sequence of digits. -/
def nat? (n : Number) : Option Nat :=
  if !n.negative && n.fraction.isEmpty && n.exponent.isNone then some n.whole else none

def wholeDigits (n : Number) : List Nat :=
  (Nat.toDigits 10 n.whole).map fun c => c.toNat - '0'.toNat

/-- Whether a word can take a further digit. -/
def takes (word digit : Nat) : Bool := 10 * word + digit < UInt64.size

/-- Puts digits into a word; the digits from the first that it cannot take are only counted. -/
def takeWhole (word : Nat) : List Nat → Nat × Nat
  | [] => (word, 0)
  | d :: ds => if takes word d then takeWhole (10 * word + d) ds else (word, ds.length + 1)

/-- Puts digits behind the point into a word; the digits from the first that it cannot take are
dropped. With the word goes the number of digits that it took. -/
def takeFraction (word : Nat) : List Nat → Nat × Nat
  | [] => (word, 0)
  | d :: ds =>
    if takes word d then
      let (word, taken) := takeFraction (10 * word + d) ds
      (word, taken + 1)
    else (word, 0)

/-- The first digits of the number, as many as a word takes. -/
def significand (n : Number) : Nat :=
  (takeFraction (takeWhole 0 n.wholeDigits).1 n.fraction).1

/-- The power of ten that goes with the significand. -/
def scale (n : Number) : Int :=
  n.exponent.getD 0 + (takeWhole 0 n.wholeDigits).2 -
    (takeFraction (takeWhole 0 n.wholeDigits).1 n.fraction).2

/-- The largest power of ten that is held as a double. -/
def maxScale : Int := 308

/-- Whether the number can be held. Small numbers always can; they may come to nothing. -/
def fitsDouble (n : Number) : Bool :=
  n.significand == 0 || n.scale < 0 ||
    (n.scale ≤ maxScale &&
      Double.holdsProduct (Double.nearest n.significand)
        (Double.nearest (Nat.pow 10 n.scale.toNat)))

end Number

/-- A text, unless its escapes spell half of a surrogate pair. -/
abbrev Json.Text := Option String

inductive Json where
  | null
  | bool (b : Bool)
  | number (n : Number)
  | string (s : Json.Text)
  | array (items : List Json)
  | object (members : List (Json.Text × Json))

namespace Json

/-- A text value. -/
def text (s : String) : Json := .string (some s)

def nat (n : Nat) : Json := .number { whole := n }

/-- An object with the given members. -/
def record (ms : List (String × Json)) : Json := .object (ms.map fun (k, v) => (some k, v))

def isNull : Json → Bool
  | .null => true
  | _ => false

mutual

/-- How many arrays and objects are around the innermost value. -/
def depth : Json → Nat
  | .array js => depthItems js + 1
  | .object ms => depthMembers ms + 1
  | _ => 0

def depthItems : List Json → Nat
  | [] => 0
  | j :: js => max (depth j) (depthItems js)

def depthMembers : List (Json.Text × Json) → Nat
  | [] => 0
  | (_, j) :: ms => max (depth j) (depthMembers ms)

end

mutual

/-- Whether all numbers can be held as doubles and all texts are Unicode. -/
def isPlain : Json → Bool
  | .null | .bool _ => true
  | .number n => n.fitsDouble
  | .string s => s.isSome
  | .array js => isPlainItems js
  | .object ms => isPlainMembers ms

def isPlainItems : List Json → Bool
  | [] => true
  | j :: js => isPlain j && isPlainItems js

def isPlainMembers : List (Json.Text × Json) → Bool
  | [] => true
  | (k, j) :: ms => k.isSome && isPlain j && isPlainMembers ms

end

end Json

/-- The decimal digits of a number. -/
def decimal (n : Nat) : List Char := (toString n).toList

namespace Number

def exponentChars : Option Int → List Char
  | none => []
  | some (.ofNat e) => 'e' :: decimal e
  | some (.negSucc e) => 'e' :: '-' :: decimal (e + 1)

def chars (n : Number) : List Char :=
  (if n.negative then ['-'] else []) ++ decimal n.whole ++
    (if n.fraction.isEmpty then [] else '.' :: n.fraction.map Nat.digitChar) ++
    exponentChars n.exponent

end Number

namespace Json

/-- The two hexadecimal digits of a control character. -/
def hexPair (n : Nat) : List Char := [Nat.digitChar (n / 16), Nat.digitChar (n % 16)]

def escapeChar (c : Char) : List Char :=
  if c = '"' then ['\\', '"']
  else if c = '\\' then ['\\', '\\']
  else if c = '\n' then ['\\', 'n']
  else if c = '\r' then ['\\', 'r']
  else if c = '\t' then ['\\', 't']
  else if c = '\x08' then ['\\', 'b']
  else if c = '\x0c' then ['\\', 'f']
  else if c.toNat < 0x20 then ['\\', 'u', '0', '0'] ++ hexPair c.toNat
  else [c]

/-- A text between quotes. One that is not Unicode has no written form; it becomes an empty one. -/
def quoted (s : Json.Text) : List Char :=
  '"' :: ((s.getD "").toList.flatMap escapeChar ++ ['"'])

mutual

/-- The characters of the written form. -/
def chars : Json → List Char
  | .null => "null".toList
  | .bool true => "true".toList
  | .bool false => "false".toList
  | .number n => n.chars
  | .string s => quoted s
  | .array js => '[' :: ([','].intercalate (itemChars js) ++ [']'])
  | .object ms => '\x7b' :: ([','].intercalate (memberChars ms) ++ ['\x7d'])

def itemChars : List Json → List (List Char)
  | [] => []
  | j :: js => chars j :: itemChars js

def memberChars : List (Json.Text × Json) → List (List Char)
  | [] => []
  | (name, j) :: ms => (quoted name ++ ':' :: chars j) :: memberChars ms

end

/-- The written form. -/
def render (j : Json) : String := String.ofList j.chars

end Json

end JavaText
