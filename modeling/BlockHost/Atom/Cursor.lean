import BlockHost.Atom.Children

/-!
# Cursors

A reader does not hold the children of an atom. It holds a cursor, which knows where the next child
should begin, and asks it for one child after the other. A cursor that has found no child is done and
finds none from then on.
-/

namespace BlockHost

/-- Where the reading of children has got to. -/
structure Cursor where
  /-- Where in the body the next child should begin. -/
  position : Nat
  /-- How many children have been read. -/
  index : Nat
  /-- Whether there was no further child. -/
  done : Bool
deriving DecidableEq, Repr

namespace Cursor

/-- In front of the first child of an atom. -/
def start (s : Schema) (a : Atom) : Cursor where
  position :=
    match s.kindOf a.type with
    | .object => Atom.objectHeaderSize
    | .vector => Shape.headerSize
    | _ => 0
  index := 0
  done := false

/-- The child that begins in a body where the cursor is, and the cursor behind it. -/
def stepIn (l : Layout) (body : Bytes) (c : Cursor) : Option ((Key × Atom) × Cursor) := do
  let (key, child) ← l.head? c.index (body.drop c.position)
  let position := c.position + (l.keySize + child.paddedSize)
  return ((key, child), { c with position, index := c.index + 1 })

/-- The next child of an atom, if there is one, and the cursor behind it. -/
def step (s : Schema) (a : Atom) (c : Cursor) : Option ((Key × Atom) × Cursor) :=
  let behind : Cursor := { c with index := c.index + 1 }
  match s.kindOf a.type with
  | .tuple => c.stepIn .tuple a.body
  | .object => c.stepIn .object a.body
  | .sequence => c.stepIn .sequence a.body
  | .vector => (a.child? s c.index).map fun child => ((.index c.index, child), behind)
  | .literal => do
      let key ← [s.id .literalDatatype, s.id .literalLang][c.index]?
      let child ← a.property? s key
      return ((.property key 0, child), behind)
  | _ => none

/-- Asks for a child. -/
def next (s : Schema) (a : Atom) (c : Cursor) : Option (Key × Atom) × Cursor :=
  if c.done then (none, c)
  else
    match c.step s a with
    | none => (none, { c with done := true })
    | some (child, c) => (some child, c)

/-- What a cursor answers when it is asked so many times. -/
def answers (s : Schema) (a : Atom) : (count : Nat) → Cursor → List (Option (Key × Atom))
  | 0, _ => []
  | count + 1, c =>
      let (child, c) := c.next s a
      child :: answers s a count c

end Cursor

end BlockHost
