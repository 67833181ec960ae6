import BlockHost.Uri.Vocabulary

/-!
# Kinds of atoms

An atom's type is a number from the registry. How its body is laid out depends only on its kind:
seventeen types have one of thirteen kinds, and an atom of any other type is an opaque chunk.

A `Schema` is a vocabulary together with the table that gives each of its types a kind. The table is
in ascending order of type, with one row per type.
-/

namespace BlockHost

/-- How the body of an atom is laid out. -/
inductive Kind where
  | int
  | long
  | float
  | double
  | bool
  | urid
  | string
  | literal
  | tuple
  | object
  | vector
  | sequence
  | chunk
deriving DecidableEq, Repr

namespace Kind

/-- The name of a kind. -/
def name : Kind → String
  | int => "Int"
  | long => "Long"
  | float => "Float"
  | double => "Double"
  | bool => "Bool"
  | urid => "Urid"
  | string => "String"
  | literal => "Literal"
  | tuple => "Tuple"
  | object => "Object"
  | vector => "Vector"
  | sequence => "Sequence"
  | chunk => "Chunk"

/-- The size of the body, for the kinds that have a fixed one. -/
def fixedSize : Kind → Option Nat
  | int | float | bool | urid => some 4
  | long | double => some 8
  | _ => none

/-- Whether the body is a single number of fixed size. -/
def isScalar : Kind → Bool
  | int | long | float | double | bool | urid => true
  | _ => false

/-- Whether the body holds further atoms or elements. -/
def isComposite : Kind → Bool
  | tuple | object | vector | sequence => true
  | _ => false

/-- The types that have a kind of their own. -/
def ofTerm : List (Term × Kind) :=
  [(.int, int), (.long, long), (.float, float), (.double, double), (.bool, bool), (.urid, urid),
    (.string, string), (.path, string), (.uri, string), (.literal, literal), (.tuple, tuple),
    (.object, object), (.resource, object), (.blank, object), (.vector, vector),
    (.sequence, sequence), (.chunk, chunk)]

/-- A table with one more row, at its place in ascending order; a type that has a row keeps it. -/
def insertRow (type : UInt32) (kind : Kind) : List (UInt32 × Kind) → List (UInt32 × Kind)
  | [] => [(type, kind)]
  | row :: rest =>
      if type < row.1 then (type, kind) :: row :: rest
      else if type = row.1 then row :: rest
      else row :: insertRow type kind rest

/-- The kinds of a vocabulary's types, in ascending order of type. -/
def table (v : Vocabulary) : List (UInt32 × Kind) :=
  ofTerm.foldl (fun rows (t, kind) => insertRow (v.id t) kind rows) []

end Kind

/-- A vocabulary and the kinds of its types. -/
structure Schema where
  vocabulary : Vocabulary
  kinds : List (UInt32 × Kind)
  kinds_eq : kinds = Kind.table vocabulary := by rfl

namespace Schema

/-- The schema of a vocabulary. -/
def ofVocabulary (v : Vocabulary) : Schema where
  vocabulary := v
  kinds := Kind.table v

/-- Whether a type has a kind of its own. -/
def knows (s : Schema) (type : UInt32) : Bool :=
  (s.kinds.lookup type).isSome

/-- The kind of a type. -/
def kindOf (s : Schema) (type : UInt32) : Kind :=
  (s.kinds.lookup type).getD .chunk

/-- The type that a term names. -/
def id (s : Schema) (t : Term) : UInt32 :=
  s.vocabulary.id t

end Schema

end BlockHost
