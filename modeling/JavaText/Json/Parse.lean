import JavaText.Json.Value
import JavaText.Source.Basic

/-!
# Reading JSON texts

The tokens of a text are found in one sweep over the characters; between two characters the sweep only
remembers which token has begun and what has been read of it. Values are then made from the tokens, one
token at a time: the arrays and objects that are still open are kept on a stack, so nesting costs no
recursion.
-/

namespace JavaText.Json

inductive Token where
  | openBracket | closeBracket | openBrace | closeBrace | colon | comma
  | null
  | bool (b : Bool)
  | number (n : Number)
  | string (s : Json.Text)
deriving DecidableEq, Repr

/-- A text being read: the characters so far, the last one first. -/
structure Quoted where
  chars : List Char := []
  /-- The first half of a surrogate pair, if the second has yet to come. -/
  pending : Option Nat := none
  /-- Half of a pair stood alone. -/
  broken : Bool := false
deriving DecidableEq, Repr

namespace Quoted

/-- Adds a character that was not written as a number. -/
def push (q : Quoted) (c : Char) : Quoted :=
  { chars := c :: q.chars, broken := q.broken || q.pending.isSome }

def isHigh (n : Nat) : Bool := 0xD800 ≤ n && n < 0xDC00

def isLow (n : Nat) : Bool := 0xDC00 ≤ n && n < 0xE000

/-- Adds a sixteen-bit unit: a character, or half of one. -/
def pushUnit (q : Quoted) (n : Nat) : Quoted :=
  match q.pending with
  | some high =>
    if isLow n then
      { q with
        chars := Char.ofNat (0x10000 + (high - 0xD800) * 0x400 + (n - 0xDC00)) :: q.chars
        pending := none }
    else { q with pending := none, broken := true }
  | none =>
    if isHigh n then { q with pending := some n }
    else if isLow n then { q with broken := true }
    else { q with chars := Char.ofNat n :: q.chars }

def finish (q : Quoted) : Json.Text :=
  if q.broken || q.pending.isSome then none else some (String.ofList q.chars.reverse)

end Quoted

/-- What the characters so far have begun. -/
inductive Begun where
  | nothing
  /-- A word, its letters in reverse. -/
  | word (cs : List Char)
  /-- A number, its characters in reverse. -/
  | number (cs : List Char)
  | string (q : Quoted)
  /-- A text, just after a backslash. -/
  | escape (q : Quoted)
  /-- A text, inside a character number: digits to come, and the value so far. -/
  | unit (q : Quoted) (left value : Nat)
deriving DecidableEq, Repr

def isDigit (c : Char) : Bool := '0' ≤ c && c ≤ '9'

def digit (c : Char) : Nat := c.toNat - '0'.toNat

def natOf (cs : List Char) : Nat := cs.foldl (fun n c => 10 * n + digit c) 0

/-- The whole part: a zero, or digits that do not begin with one. -/
def whole? (cs : List Char) : Option (Nat × List Char) :=
  let digits := cs.takeWhile isDigit
  let rest := cs.dropWhile isDigit
  match digits with
  | [] => none
  | '0' :: _ :: _ => none
  | _ => some (natOf digits, rest)

/-- The fraction: nothing, or a point and at least one digit. -/
def fraction? (cs : List Char) : Option (List Nat × List Char) :=
  match cs with
  | '.' :: cs =>
    let digits := cs.takeWhile isDigit
    if digits.isEmpty then none else some (digits.map digit, cs.dropWhile isDigit)
  | _ => some ([], cs)

/-- The exponent: nothing, or a letter, perhaps a sign, and digits to the end. -/
def exponent? (cs : List Char) : Option (Option Int) :=
  match cs with
  | [] => some none
  | c :: cs =>
    if c = 'e' ∨ c = 'E' then
      let (negative, digits) := match cs with
        | '-' :: ds => (true, ds)
        | '+' :: ds => (false, ds)
        | ds => (false, ds)
      if digits.isEmpty || !digits.all isDigit then none
      else some (some (if negative then -(natOf digits : Int) else natOf digits))
    else none

/-- The number that the characters spell. -/
def number? (cs : List Char) : Option Number :=
  let (negative, cs) := match cs with
    | '-' :: ds => (true, ds)
    | ds => (false, ds)
  (whole? cs).bind fun (whole, cs) =>
    (fraction? cs).bind fun (fraction, cs) =>
      (exponent? cs).map fun exponent => { negative, whole, fraction, exponent }

def word? (cs : List Char) : Option Token :=
  if cs = "null".toList then some .null
  else if cs = "true".toList then some (.bool true)
  else if cs = "false".toList then some (.bool false)
  else none

namespace Begun

/-- Whether the character belongs to a number that has begun. -/
def extendsNumber (c : Char) : Bool :=
  isDigit c || c == '-' || c == '+' || c == '.' || c == 'e' || c == 'E'

def extendsWord (c : Char) : Bool := 'a' ≤ c && c ≤ 'z'

/-- Takes a character when no token has begun. -/
def start (c : Char) (ts : List Token) : Option (Begun × List Token) :=
  if c = ' ' ∨ c = '\t' ∨ c = '\n' ∨ c = '\r' then some (.nothing, ts)
  else if c = '[' then some (.nothing, .openBracket :: ts)
  else if c = ']' then some (.nothing, .closeBracket :: ts)
  else if c = '\x7b' then some (.nothing, .openBrace :: ts)
  else if c = '\x7d' then some (.nothing, .closeBrace :: ts)
  else if c = ':' then some (.nothing, .colon :: ts)
  else if c = ',' then some (.nothing, .comma :: ts)
  else if c = '"' then some (.string {}, ts)
  else if isDigit c || c == '-' then some (.number [c], ts)
  else if extendsWord c then some (.word [c], ts)
  else none

/-- The token of a backslash and one more character. -/
def escaped? (c : Char) : Option Char :=
  if c = '"' then some '"'
  else if c = '\\' then some '\\'
  else if c = '/' then some '/'
  else if c = 'b' then some '\x08'
  else if c = 'f' then some '\x0c'
  else if c = 'n' then some '\n'
  else if c = 'r' then some '\r'
  else if c = 't' then some '\t'
  else none

/-- Ends a word or a number, to which the next character does not belong. -/
def flush (b : Begun) (ts : List Token) : Option (List Token) :=
  match b with
  | .nothing => some ts
  | .word cs => (word? cs.reverse).map (· :: ts)
  | .number cs => (number? cs.reverse).map fun n => .number n :: ts
  | _ => none

/-- Takes one more character. The tokens so far are in reverse. -/
def step (b : Begun) (ts : List Token) (c : Char) : Option (Begun × List Token) :=
  match b with
  | .nothing => start c ts
  | .word cs =>
    if extendsWord c then some (.word (c :: cs), ts) else (flush b ts).bind (start c)
  | .number cs =>
    if extendsNumber c then some (.number (c :: cs), ts) else (flush b ts).bind (start c)
  | .string q =>
    if c = '"' then some (.nothing, .string q.finish :: ts)
    else if c = '\\' then some (.escape q, ts)
    else if c.toNat < 0x20 then none
    else some (.string (q.push c), ts)
  | .escape q =>
    if c = 'u' then some (.unit q 3 0, ts)
    else (escaped? c).map fun d => (.string (q.push d), ts)
  | .unit q left value =>
    (JavaText.Text.hexDigit? c).map fun d =>
      match left with
      | 0 => (.string (q.pushUnit (16 * value + d)), ts)
      | left + 1 => (.unit q left (16 * value + d), ts)

/-- Takes all characters. -/
def sweep (b : Begun) (ts : List Token) : List Char → Option (List Token)
  | [] => flush b ts
  | c :: cs =>
    match step b ts c with
    | none => none
    | some (b, ts) => sweep b ts cs

end Begun

/-- The tokens of a text. -/
def tokens (s : String) : Option (List Token) :=
  (Begun.sweep .nothing [] s.toList).map List.reverse

/-- An array or object that is still open; items and members are in reverse. -/
inductive Frame where
  | array (items : List Json)
  | object (members : List (Json.Text × Json)) (name : Json.Text)

/-- What has been read, and what may come next. -/
inductive Reading where
  /-- A value, or the end of the array if it is still empty. -/
  | value (empty : Bool) (stack : List Frame)
  /-- A name, or the end of the object if it is still empty. -/
  | key (empty : Bool) (members : List (Json.Text × Json)) (stack : List Frame)
  /-- The colon after a name. -/
  | colon (members : List (Json.Text × Json)) (name : Json.Text) (stack : List Frame)
  /-- What follows a complete value. -/
  | after (v : Json) (stack : List Frame)

namespace Reading

/-- Where a value is expected. -/
def begin (empty : Bool) (stack : List Frame) : Token → Option Reading
  | .null => some (.after .null stack)
  | .bool b => some (.after (.bool b) stack)
  | .number n => some (.after (.number n) stack)
  | .string s => some (.after (.string s) stack)
  | .openBracket => some (.value true (.array [] :: stack))
  | .openBrace => some (.key true [] stack)
  | .closeBracket =>
    match empty, stack with
    | true, .array [] :: stack => some (.after (.array []) stack)
    | _, _ => none
  | _ => none

/-- After a value, inside the innermost open array or object. -/
def close (v : Json) : List Frame → Token → Option Reading
  | .array items :: stack, .comma => some (.value false (.array (v :: items) :: stack))
  | .array items :: stack, .closeBracket => some (.after (.array (v :: items).reverse) stack)
  | .object members name :: stack, .comma => some (.key false ((name, v) :: members) stack)
  | .object members name :: stack, .closeBrace =>
    some (.after (.object ((name, v) :: members).reverse) stack)
  | _, _ => none

def step : Reading → Token → Option Reading
  | .value empty stack, t => begin empty stack t
  | .key _ members stack, .string name => some (.colon members name stack)
  | .key true _ stack, .closeBrace => some (.after (.object []) stack)
  | .key _ _ _, _ => none
  | .colon members name stack, .colon => some (.value false (.object members name :: stack))
  | .colon _ _ _, _ => none
  | .after v stack, t => close v stack t

def finish : Reading → Option Json
  | .after v [] => some v
  | _ => none

end Reading

def ofTokens (ts : List Token) : Option Json :=
  (ts.foldlM Reading.step (.value false [])).bind Reading.finish

/-- The value that the text spells. -/
def parse (s : String) : Option Json := (tokens s).bind ofTokens

end JavaText.Json
