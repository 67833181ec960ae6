import BlockHost.Atom.Children
import BlockHost.Decimal.Positional
import BlockHost.Text.Utf8

/-!
# Values and their text

An atom that is not composite has a value, when its body is long enough to hold one. A composite
atom has none. Every atom has a text: that of its value, or the name of its kind in parentheses.
-/

namespace BlockHost

/-- What an atom that is not composite stands for. Floating-point values are kept as their words. -/
inductive Value where
  | int (n : Int32)
  | long (n : Int64)
  | float (bits : UInt32)
  | double (bits : UInt64)
  | bool (b : Bool)
  | urid (id : UInt32)
  | text (s : String)
  | literal (s : String) (datatype lang : UInt32)
  | bytes (bs : Bytes)
deriving DecidableEq, Repr

namespace Value

/-- The text that stands for a value. -/
def describe : Value → String
  | int n => toString n.toInt
  | long n => toString n.toInt
  | float bits => Decimal.singleText bits
  | double bits => Decimal.doubleText bits
  | bool b => if b then "true" else "false"
  | urid id => toString id.toNat
  | text s => s
  | literal s _ _ => s
  | bytes _ => "(nil)"

/-- The text inside a text or a literal. -/
def text? : Value → Option String
  | text s => some s
  | literal s _ _ => some s
  | _ => none

end Value

namespace Atom

/-- The size of the two words in front of a literal's text. -/
def literalHeaderSize : Nat := 8

/-- The value of an atom. -/
def value? (s : Schema) (a : Atom) : Option Value :=
  match s.kindOf a.type with
  | .int => (a.body.word32At? 0).map fun w => .int w.toInt32
  | .long => (a.body.int64At? 0).map .long
  | .float => (a.body.word32At? 0).map .float
  | .double => (a.body.word64At? 0).map .double
  | .bool => (a.body.word32At? 0).map fun w => .bool (w != 0)
  | .urid => (a.body.word32At? 0).map .urid
  | .string => some (.text (Utf8.untilNul a.body))
  | .literal => do
      let datatype ← a.body.word32At? 0
      let lang ← a.body.word32At? 4
      return .literal (Utf8.untilNul (a.body.drop literalHeaderSize)) datatype lang
  | .chunk => some (.bytes a.body)
  | .tuple | .object | .vector | .sequence => none

/-- The text of a string, a path, a URI or a literal. -/
def text? (s : Schema) (a : Atom) : Option String :=
  (a.value? s).bind Value.text?

/-- The byte of a chunk at a position. -/
def byte? (s : Schema) (a : Atom) (position : Nat) : Option UInt8 :=
  if s.kindOf a.type = .chunk then a.body[position]? else none

/-- The text that stands for an atom. -/
def describe (s : Schema) (a : Atom) : String :=
  match s.kindOf a.type with
  | .tuple => "(tuple)"
  | .object => "(object)"
  | .vector => "(vector)"
  | .sequence => "(sequence)"
  | .chunk => "(chunk)"
  | _ => ((a.value? s).map Value.describe).getD "(nil)"

/-- A form for reading by people, with the type, the size and the kind. -/
def outline (s : Schema) (a : Atom) : String :=
  "View \x7b type_id: " ++ toString a.type.toNat ++ ", size: " ++ toString a.size.toNat
    ++ ", driver: " ++ (s.kindOf a.type).name ++ " \x7d"

end Atom

end BlockHost
