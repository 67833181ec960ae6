import BlockHost.Atom.Basic
import BlockHost.Atom.Kind

/-!
# The children of a composite atom

A tuple, an object and a sequence hold their children one behind the other, each on the eight-byte
grid and with a key in front of it: nothing in a tuple, a property's key and context in an object, a
time in a sequence. Nothing in such a body can be trusted, so it is read greedily: from the left, as
long as the next key, header and declared body are all there (`Layout.parse`).

A vector holds bodies of one size without headers. It is read in two ways, by cutting one body after
the other (`Shape.cut`) and by computing where a body lies (`Shape.element?`).

A literal answers like an object with two properties, its datatype and its language.
-/

namespace BlockHost

/-- What a child is found under. -/
inductive Key where
  /-- The position in a tuple or a vector. -/
  | index (position : Nat)
  /-- The property of an object, or of a literal. -/
  | property (key context : UInt32)
  /-- The time in a sequence, in frames. -/
  | time (frames : Int64)
deriving DecidableEq, Repr

/-- How keys stand in front of children. -/
structure Layout where
  /-- The size of a key. -/
  keySize : Nat
  /-- The key at the start of some bytes, for the child at a position. -/
  key : (position : Nat) → Bytes → Option Key

namespace Layout

/-- Children are known by their position, which is not written. -/
def tuple : Layout where
  keySize := 0
  key position _ := some (.index position)

/-- In front of each child stand its key and its context. -/
def object : Layout where
  keySize := 8
  key _ bs := do
    let key ← bs.word32At? 0
    let context ← bs.word32At? 4
    return .property key context

/-- In front of each child stands its time. -/
def sequence : Layout where
  keySize := 8
  key _ bs := (bs.int64At? 0).map .time

/-- The child at the start of some bytes, with its key. -/
def head? (l : Layout) (position : Nat) (bs : Bytes) : Option (Key × Atom) := do
  let key ← l.key position bs
  let child ← Atom.parseWhole (bs.drop l.keySize)
  return (key, child)

theorem length_pos_of_head? {l : Layout} {position : Nat} {bs : Bytes} {key : Key} {child : Atom}
    (h : l.head? position bs = some (key, child)) : 0 < bs.length := by
  cases bs with
  | nil =>
      cases hk : l.key position [] <;>
        simp [head?, hk, Atom.parseWhole, Atom.parse, Bytes.word32At?, Bytes.slice?] at h
  | cons b bs => simp

/-- The children in some bytes, of which the first has the given position, up to the first one that
is not all there. -/
def parse (l : Layout) (position : Nat) (bs : Bytes) : List (Key × Atom) :=
  match _h : l.head? position bs with
  | none => []
  | some (key, child) =>
      (key, child) :: l.parse (position + 1) (bs.drop (l.keySize + child.paddedSize))
termination_by bs.length
decreasing_by
  have := length_pos_of_head? _h
  have := child.headerSize_le_paddedSize
  simp only [List.length_drop, Atom.headerSize] at *
  omega

end Layout

/-- What the first two words of a vector's body say. -/
structure Shape where
  /-- The type of the elements. -/
  type : UInt32
  /-- The size of one element. -/
  size : Nat
deriving DecidableEq, Repr

namespace Shape

/-- The size of the two words. -/
def headerSize : Nat := 8

/-- The shape at the start of a vector's body. -/
def parse (body : Bytes) : Option Shape := do
  let type ← body.word32At? 0
  let size ← body.word32At? 4
  return { type, size := size.toNat }

/-- How many elements are all there; none when elements have no size. -/
def count (shape : Shape) (body : Bytes) : Nat :=
  (body.length - headerSize) / shape.size

/-- The element at a position of a vector's body. -/
def element? (shape : Shape) (body : Bytes) (position : Nat) : Option Atom :=
  if position < shape.count body then
    (body.slice? (headerSize + position * shape.size) shape.size).map (Atom.ofBody shape.type)
  else none

/-- The elements in some bytes, of which the first has the given position. -/
def cut (shape : Shape) (position : Nat) (bs : Bytes) : List (Key × Atom) :=
  if _h : 0 < shape.size ∧ shape.size ≤ bs.length then
    (.index position, Atom.ofBody shape.type (bs.take shape.size))
      :: shape.cut (position + 1) (bs.drop shape.size)
  else []
termination_by bs.length
decreasing_by
  simp only [List.length_drop]
  omega

end Shape

namespace Atom

/-- The size of the two words in front of an object's children: its id and its own type. -/
def objectHeaderSize : Nat := 8

/-- The shape of a vector whose body has room for one. -/
def shape? (s : Schema) (a : Atom) : Option Shape :=
  if s.kindOf a.type = .vector then Shape.parse a.body else none

/-- One of a literal's two pseudo-properties. -/
def literalProperty? (s : Schema) (a : Atom) (key : UInt32) : Option Atom :=
  if key = s.id .literalDatatype then (a.body.slice? 0 4).map (ofBody (s.id .urid))
  else if key = s.id .literalLang then (a.body.slice? 4 4).map (ofBody (s.id .urid))
  else none

/-- The pseudo-properties of a literal that are there: the datatype, and then the language. -/
def literalProperties (s : Schema) (a : Atom) : List (Key × Atom) :=
  match a.literalProperty? s (s.id .literalDatatype) with
  | none => []
  | some datatype =>
      (.property (s.id .literalDatatype) 0, datatype) ::
        match a.literalProperty? s (s.id .literalLang) with
        | none => []
        | some lang => [(.property (s.id .literalLang) 0, lang)]

/-- The children of an atom with their keys, in order. -/
def children (s : Schema) (a : Atom) : List (Key × Atom) :=
  match s.kindOf a.type with
  | .tuple => Layout.tuple.parse 0 a.body
  | .object => Layout.object.parse 0 (a.body.drop objectHeaderSize)
  | .sequence => Layout.sequence.parse 0 a.body
  | .vector =>
      match Shape.parse a.body with
      | none => []
      | some shape => shape.cut 0 (a.body.drop Shape.headerSize)
  | .literal => a.literalProperties s
  | _ => []

/-- The children of an atom that have a time, with their times. -/
def events (s : Schema) (a : Atom) : List (Int64 × Atom) :=
  (a.children s).filterMap fun
    | (.time t, child) => some (t, child)
    | _ => none

/-- The number of children of a composite atom, and the declared size of any other. -/
def length (s : Schema) (a : Atom) : Nat :=
  match s.kindOf a.type with
  | .tuple | .object | .sequence => (a.children s).length
  | .vector =>
      match Shape.parse a.body with
      | none => 0
      | some shape => shape.count a.body
  | _ => a.size.toNat

/-- The child of a tuple, a sequence or a vector at a position. -/
def child? (s : Schema) (a : Atom) (position : Nat) : Option Atom :=
  match s.kindOf a.type with
  | .tuple | .sequence => (a.children s)[position]?.map Prod.snd
  | .vector => (Shape.parse a.body).bind fun shape => shape.element? a.body position
  | _ => none

/-- The first child of an object under a key, or a pseudo-property of a literal. -/
def property? (s : Schema) (a : Atom) (key : UInt32) : Option Atom :=
  match s.kindOf a.type with
  | .object =>
      (a.children s).findSome? fun
        | (.property found _, child) => if found = key then some child else none
        | _ => none
  | .literal => a.literalProperty? s key
  | _ => none

/-- The id of an object. -/
def objectId? (s : Schema) (a : Atom) : Option UInt32 :=
  if s.kindOf a.type = .object then a.body.word32At? 0 else none

/-- The type that an object itself declares. -/
def objectType? (s : Schema) (a : Atom) : Option UInt32 :=
  if s.kindOf a.type = .object then a.body.word32At? 4 else none

end Atom

end BlockHost
