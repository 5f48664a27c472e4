import Ocid.Lib.Text

/-!
# Lib — Json — values, their compact text, and reading records from them

`Json` is a parsed JSON value: an object is the list of its members, each name once.  `render` is
the compact encoding with the escapes JSON requires and no others.

`Json.struct` reads a record with named fields from a value: by name from an object, by position
from an array no longer than the record, where a field the array does not reach is absent.
-/

namespace Ocid

/-- A JSON value. The members of an object are in the order of the text. -/
inductive Json where
  | null
  | bool (b : Bool)
  /-- An unsigned integer of at most 64 bits. -/
  | nat (n : ℕ)
  /-- Any other number, by its text. -/
  | num (text : Str)
  | str (s : Str)
  | arr (items : List Json)
  | obj (members : List (Str × Json))

namespace Json

/-- The digit of a value below 16, in lower case. -/
def hexDigit (n : ℕ) : Char := if n < 10 then Char.ofNat (48 + n) else Char.ofNat (87 + n)

/-- A scalar value inside a string. -/
def escape (c : Char) : Str :=
  if c = '"' then ['\\', '"']
  else if c = '\\' then ['\\', '\\']
  else if c = '\x08' then ['\\', 'b']
  else if c = '\t' then ['\\', 't']
  else if c = '\n' then ['\\', 'n']
  else if c = '\x0c' then ['\\', 'f']
  else if c = '\r' then ['\\', 'r']
  else if c.toNat < 32 then ['\\', 'u', '0', '0', hexDigit (c.toNat / 16), hexDigit (c.toNat % 16)]
  else [c]

/-- A string with its quotes. -/
def quote (s : Str) : Str := '"' :: (s.flatMap escape ++ ['"'])

mutual

/-- The compact text of a value. -/
def render : Json → Str
  | .null => "null"
  | .bool b => if b then "true" else "false"
  | .nat n => Nat.toDigits 10 n
  | .num text => text
  | .str s => quote s
  | .arr items => '[' :: (renderItems items ++ [']'])
  | .obj members => Char.ofNat 0x7b :: (renderMembers members ++ [Char.ofNat 0x7d])

/-- The items of an array, with commas between them. -/
def renderItems : List Json → Str
  | [] => []
  | [j] => render j
  | j :: js => render j ++ ',' :: renderItems js

/-- The members of an object, with commas between them. -/
def renderMembers : List (Str × Json) → Str
  | [] => []
  | [(k, j)] => quote k ++ ':' :: render j
  | (k, j) :: ms => quote k ++ ':' :: (render j ++ ',' :: renderMembers ms)

end

/-- The member `k` of an object. -/
def get (k : Str) : Json → Option Json
  | .obj members => members.lookup k
  | _ => none

/-- The text of a string. -/
def asStr : Json → Option Str
  | .str s => some s
  | _ => none

/-- The value of an unsigned integer. -/
def asNat : Json → Option ℕ
  | .nat n => some n
  | _ => none

/-- The items of an array. -/
def asArr : Json → Option (List Json)
  | .arr items => some items
  | _ => none

/-- An object whose members are all strings. -/
def asStrMap : Json → Option (List (Str × Str))
  | .obj members => members.mapM fun m => (asStr m.2).map fun s => (m.1, s)
  | _ => none

/-- The fields of a record with the given field names. -/
def struct (names : List Str) : Json → Option (Str → Option Json)
  | .obj members => some fun k => members.lookup k
  | .arr items => if items.length ≤ names.length then some fun k => (names.zip items).lookup k
      else none
  | _ => none

/-- A field that may be absent or `null`. -/
def optional {α : Type} (read : Json → Option α) : Option Json → Option (Option α)
  | none | some .null => some none
  | some j => (read j).map some

/-- A field that may be absent, with the value it then has. -/
def defaulted {α : Type} (read : Json → Option α) (d : α) : Option Json → Option α
  | none => some d
  | some j => read j

end Json

end Ocid
