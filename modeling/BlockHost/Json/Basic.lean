import BlockHost.Decimal.Digits
import BlockHost.Text.Hex

/-!
# JSON

What a JSON text says, as data, and how numbers, texts and bytes are taken from it. A field that is
not there says as much as `null` does. An integer can also be given as a text of decimal digits, and
bytes are given as hexadecimal digits.
-/

namespace BlockHost.Json

/-- What a JSON text says. -/
inductive Data where
  | null
  | bool (b : Bool)
  /-- A number without a fraction and without an exponent. -/
  | int (n : Int)
  /-- The number `mantissa * 10 ^ exponent`. -/
  | real (mantissa exponent : Int)
  | text (s : String)
  | list (items : List Data)
  /-- Fields with their names, in the order in which they are written. -/
  | object (fields : List (String × Data))

namespace Data

/-- Whether nothing is said. -/
def isNull : Data → Bool
  | null => true
  | _ => false

/-- Whether it is the given text. -/
def isText (s : String) : Data → Bool
  | text t => t = s
  | _ => false

/-- Whether it is the truth value `true`. -/
def isTrue : Data → Bool
  | bool b => b
  | _ => false

/-- The field with a name. Of several, the last one counts. -/
def field (d : Data) (name : String) : Data :=
  match d with
  | object fields =>
      fields.foldl (fun found (key, d) => if key = name then d else found) null
  | _ => null

/-- The items of a list. -/
def items? : Data → Option (List Data)
  | list items => some items
  | null => some []
  | _ => none

/-- The item of a list at a position. -/
def item (d : Data) (position : Nat) : Data :=
  match d with
  | list items => items.getD position null
  | _ => null

/-- A truth value. -/
def bool? : Data → Option Bool
  | bool b => some b
  | _ => none

/-- A text. -/
def text? : Data → Option String
  | text s => some s
  | _ => none

/-- An integer. -/
def int? : Data → Option Int
  | int n => some n
  | text s => Decimal.int? s.toList
  | _ => none

/-- A natural number. -/
def nat? (d : Data) : Option Nat := do
  let n ← d.int?
  if n < 0 then none else some n.toNat

/-- An 8-bit number. -/
def uint8? (d : Data) : Option UInt8 :=
  d.nat?.map UInt8.ofNat

/-- A 32-bit number. -/
def uint32? (d : Data) : Option UInt32 :=
  d.nat?.map UInt32.ofNat

/-- A signed 32-bit number. -/
def int32? (d : Data) : Option Int32 :=
  d.int?.map Int32.ofInt

/-- A signed 64-bit number. -/
def int64? (d : Data) : Option Int64 :=
  d.int?.map Int64.ofInt

/-- Bytes in hexadecimal digits. -/
def bytes? (d : Data) : Option Bytes :=
  d.text?.bind Hex.decode

/-- A word in hexadecimal digits, the greatest first. -/
def word? (d : Data) : Option Nat :=
  d.text?.bind Hex.number?

end Data

end BlockHost.Json
