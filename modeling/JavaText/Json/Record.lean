import JavaText.Json.Value
import JavaText.Tree.Basic

/-!
# Reading records

A record may be written as an object, with its fields in any order and further members that are passed
over, or as an array of its fields in order.

A value is read in one of two modes. Straight from the text, nesting is limited and a name or text has
to be Unicode only where it is looked at. The contents of a tagged value are read in the second mode,
after the whole value has been taken in; by then everything in it has been checked.
-/

namespace JavaText.Json

/-- Why a well-formed value is not what was asked for. -/
inductive ReadError where
  | missingField (name : String)
  | duplicateField (name : String)
  | unknownVariant (name : String) (expected : List String)
  /-- Anything else: another type, a number out of range, too deep, too long. -/
  | mismatch
deriving DecidableEq, Repr

namespace ReadError

def quoted (s : String) : String := "`" ++ s ++ "`"

/-- The text of the error; a mismatch has none. -/
def message? : ReadError → Option String
  | .missingField name => some ("missing field " ++ quoted name)
  | .duplicateField name => some ("duplicate field " ++ quoted name)
  | .unknownVariant name [a, b] =>
    some ("unknown variant " ++ quoted name ++ ", expected " ++ quoted a ++ " or " ++ quoted b)
  | .unknownVariant name expected =>
    some ("unknown variant " ++ quoted name ++ ", expected one of " ++
      ", ".intercalate (expected.map quoted))
  | .mismatch => none

end ReadError

/-- Why a text could not be loaded. -/
inductive LoadError where
  /-- The text is not JSON. -/
  | syntactic
  | data (e : ReadError)
deriving DecidableEq, Repr

/-- How a value is read. -/
inductive Mode where
  /-- From the text, with so many levels of nesting left. -/
  | direct (left : Nat)
  /-- After it has been taken in. -/
  | buffered
deriving DecidableEq, Repr

namespace Mode

/-- The mode for what is inside an array or object. -/
def enter : Mode → Except ReadError Mode
  | .direct 0 => .error .mismatch
  | .direct (left + 1) => .ok (.direct left)
  | .buffered => .ok .buffered

/-- The mode for a text of its own, which may be nested 127 levels deep. -/
def top : Mode := .direct 127

end Mode

/-- How the fields of a record are called, and what stands for a field that is not there. -/
structure Schema {φ : Type} (V : φ → Type) where
  name : φ → String
  /-- For a field that is not among the members of an object. -/
  absent : (f : φ) → Option (V f)
  /-- For a field beyond the end of an array. -/
  short : (f : φ) → Option (V f)

namespace Schema

variable {φ : Type} {V : φ → Type}

/-- The fields found so far. -/
abbrev Found (V : φ → Type) (fs : List φ) : Type := Row (fun f => Option (V f)) fs

def nothing : (fs : List φ) → Found V fs
  | [] => ()
  | _ :: fs => (none, nothing fs)

/-- Takes in a member. A field that was found before is an error; a name that is no field's is
passed over. -/
def put (sch : Schema V) (name : String) (read : (f : φ) → Except ReadError (V f)) :
    (fs : List φ) → Found V fs → Except ReadError (Found V fs)
  | [], found => .ok found
  | f :: fs, (v, vs) =>
    if sch.name f = name then
      match v with
      | some _ => .error (.duplicateField name)
      | none => (read f).map fun v => (some v, vs)
    else (put sch name read fs vs).map fun vs => (v, vs)

def putAll {R : Type} (sch : Schema V) (read : R → (f : φ) → Except ReadError (V f))
    (fs : List φ) (found : Found V fs) : List (Json.Text × R) → Except ReadError (Found V fs)
  | [] => .ok found
  | (none, _) :: _ => .error .mismatch
  | (some name, r) :: members =>
    (sch.put name (read r) fs found).bind fun found => putAll sch read fs found members

/-- The record, once all members have been taken in. -/
def complete (sch : Schema V) : (fs : List φ) → Found V fs → Except ReadError (Row V fs)
  | [], _ => .ok ()
  | f :: fs, (v, vs) =>
    match v.or (sch.absent f) with
    | none => .error (.missingField (sch.name f))
    | some v => (complete sch fs vs).map fun vs => (v, vs)

/-- The record from the members of an object; `read` reads a field from a member's value. -/
def ofMembers {R : Type} (sch : Schema V) (read : R → (f : φ) → Except ReadError (V f))
    (fs : List φ) (members : List (Json.Text × R)) : Except ReadError (Row V fs) :=
  (sch.putAll read fs (nothing fs) members).bind (sch.complete fs)

/-- The record from the items of an array. -/
def ofItems {R : Type} (sch : Schema V) (read : R → (f : φ) → Except ReadError (V f)) :
    (fs : List φ) → List R → Except ReadError (Row V fs)
  | [], [] => .ok ()
  | [], _ :: _ => .error .mismatch
  | f :: fs, [] =>
    match sch.short f with
    | none => .error .mismatch
    | some v => (ofItems sch read fs []).map fun vs => (v, vs)
  | f :: fs, r :: rs =>
    (read r f).bind fun v => (ofItems sch read fs rs).map fun vs => (v, vs)

/-- The record from a value. -/
def read (sch : Schema V) (field : Mode → Json → (f : φ) → Except ReadError (V f)) (fs : List φ)
    (m : Mode) : Json → Except ReadError (Row V fs)
  | .object members => m.enter.bind fun m => sch.ofMembers (field m) fs members
  | .array items => m.enter.bind fun m => sch.ofItems (field m) fs items
  | _ => .error .mismatch

end Schema

def readText : Json → Except ReadError String
  | .string (some s) => .ok s
  | _ => .error .mismatch

def readBool : Json → Except ReadError Bool
  | .bool b => .ok b
  | _ => .error .mismatch

/-- Null, or what `read` reads. -/
def readOption {α : Type} (read : Json → Except ReadError α) (j : Json) :
    Except ReadError (Option α) :=
  if j.isNull then .ok none else (read j).map some

def readList {α : Type} (read : Mode → Json → Except ReadError α) (m : Mode) :
    Json → Except ReadError (List α)
  | .array items => m.enter.bind fun m => items.mapM (read m)
  | _ => .error .mismatch

/-- The member of `all` with the given spelling. -/
def variant {α : Type} (all : List α) (spelling : α → String) (name : String) :
    Except ReadError α :=
  match all.find? fun a => spelling a == name with
  | some a => .ok a
  | none => .error (.unknownVariant name (all.map spelling))

/-- Whether the value may stand beside the name of a variant that has no contents. -/
def isUnit (m : Mode) : Json → Bool
  | .null => true
  | .object [] => m == .buffered
  | _ => false

/-- The name of a variant and what stands beside it: a text alone, or an object with one member.
In direct mode the members after the first are not looked at until the variant has been read. -/
def readWord {α : Type} (all : List α) (spelling : α → String) (m : Mode) :
    Json → Except ReadError α
  | .string (some s) => variant all spelling s
  | .object ((some s, v) :: rest) =>
    if m == .buffered && !rest.isEmpty then .error .mismatch
    else m.enter.bind fun _ => (variant all spelling s).bind fun a =>
      if isUnit m v && rest.isEmpty then .ok a else .error .mismatch
  | _ => .error .mismatch

end JavaText.Json
