import BlockHost.Text.Utf8
import BlockHost.Writer.Basic

/-!
# Writing values

One call for each kind of value that is not composite. A text is followed by a NUL, and a truth value
takes a 32-bit word.
-/

namespace BlockHost

/-- A number that fills the body of an atom. Floating-point numbers are given as their words. -/
inductive Scalar where
  | int (n : Int32)
  | long (n : Int64)
  | float (bits : UInt32)
  | double (bits : UInt64)
  | bool (b : Bool)
  | urid (id : UInt32)
deriving DecidableEq, Repr

namespace Scalar

/-- The term for the type of a number. -/
def term : Scalar → Term
  | int _ => .int
  | long _ => .long
  | float _ => .float
  | double _ => .double
  | bool _ => .bool
  | urid _ => .urid

/-- The bytes of a number. -/
def body : Scalar → Bytes
  | int n => Bytes.word32 n.toUInt32
  | long n => Bytes.int64 n
  | float bits => Bytes.word32 bits
  | double bits => Bytes.word64 bits
  | bool b => Bytes.word32 (if b then 1 else 0)
  | urid id => Bytes.word32 id

end Scalar

namespace Writer

/-- Appends an atom of a type of the vocabulary. -/
def putTerm (term : Term) (body : Bytes) : Write Unit := fun w =>
  put (w.vocabulary.id term) body w

/-- Appends a number. -/
def scalar (n : Scalar) : Write Unit :=
  putTerm n.term n.body

/-- The body of an atom that holds a text. -/
def textBody (text : String) : Bytes :=
  Utf8.encode text ++ [0]

/-- Appends a string. -/
def string (text : String) : Write Unit :=
  putTerm .string (textBody text)

/-- Appends a path. -/
def path (text : String) : Write Unit :=
  putTerm .path (textBody text)

/-- Appends a URI. -/
def uri (text : String) : Write Unit :=
  putTerm .uri (textBody text)

/-- Appends a text with a datatype and a language. -/
def literal (text : String) (datatype lang : UInt32) : Write Unit :=
  putTerm .literal (Bytes.word32 datatype ++ Bytes.word32 lang ++ textBody text)

/-- Appends opaque bytes. -/
def chunk (bs : Bytes) : Write Unit :=
  putTerm .chunk bs

/-- Appends an atom with the bytes of its body that are there. -/
def copy (a : Atom) : Write Unit :=
  put a.type a.body

end Writer

end BlockHost
