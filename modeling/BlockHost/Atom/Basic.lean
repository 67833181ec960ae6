import BlockHost.Bytes

/-!
# Atoms

An atom is a typed value in a buffer: a word with the size of its body, a word with its type, and
the body, the whole padded to the eight-byte grid. The size is what the header declares; the body
holds the bytes that are there, which are fewer when the buffer ends early.

`Atom.parse` takes the atom at the start of some bytes, `Atom.parseWhole` only one whose body is all
there. `parseWhole_encode` says that the bytes of an atom read back as that atom.
-/

namespace BlockHost

/-- A typed value as it lies in a buffer. -/
structure Atom where
  /-- The type's number. -/
  type : UInt32
  /-- The size of the body according to the header. -/
  size : UInt32
  /-- The bytes of the body that are there. -/
  body : Bytes
deriving DecidableEq, Repr

namespace Atom

/-- The size of the two words in front of a body. -/
def headerSize : Nat := 8

/-- The atom whose body is complete and given. -/
def ofBody (type : UInt32) (body : Bytes) : Atom where
  type := type
  size := UInt32.ofNat body.length
  body := body

/-- The atom at the start of some bytes, with as much of its body as is there. -/
def parse (bs : Bytes) : Option Atom := do
  let size ← bs.word32At? 0
  let type ← bs.word32At? 4
  return { type, size, body := (bs.drop headerSize).take size.toNat }

/-- Whether the header declares more bytes than are there. -/
def isTruncated (a : Atom) : Bool :=
  a.body.length < a.size.toNat

/-- The atom at the start of some bytes, when its body is all there. -/
def parseWhole (bs : Bytes) : Option Atom :=
  (parse bs).filter fun a => !a.isTruncated

/-- The size of the header and the declared body. -/
def totalSize (a : Atom) : Nat :=
  headerSize + a.size.toNat

/-- The room the atom takes on the eight-byte grid. -/
def paddedSize (a : Atom) : Nat :=
  padded a.totalSize

/-- The header of an atom. -/
def header (type size : UInt32) : Bytes :=
  Bytes.word32 size ++ Bytes.word32 type

/-- Header, body and padding of an atom with the given body. -/
def encode (type : UInt32) (body : Bytes) : Bytes :=
  let total := headerSize + body.length
  header type (UInt32.ofNat body.length) ++ body ++ Bytes.zeros (padded total - total)

@[simp] theorem length_header (type size : UInt32) : (header type size).length = 8 := by
  simp [header]

@[simp] theorem length_encode (type : UInt32) (body : Bytes) :
    (encode type body).length = padded (8 + body.length) := by
  have := le_padded (8 + body.length)
  simp only [encode, headerSize, List.length_append, length_header, Bytes.length_zeros]
  omega

theorem headerSize_le_paddedSize (a : Atom) : headerSize ≤ a.paddedSize := by
  have := le_padded a.totalSize
  simp only [paddedSize, totalSize] at *
  omega

/-- The atom that was written is the atom that is read, whatever follows it. -/
theorem parseWhole_encode (type : UInt32) (body after : Bytes) (h : body.length < 2 ^ 32) :
    parseWhole (encode type body ++ after) = some (ofBody type body) := by
  have hsize : (UInt32.ofNat body.length).toNat = body.length := by
    simp only [UInt32.toNat_ofNat']
    omega
  have hs := Bytes.word32At?_append []
    (Bytes.word32 type ++ body ++ Bytes.zeros (padded (headerSize + body.length)
      - (headerSize + body.length)) ++ after) (UInt32.ofNat body.length)
  have ht := Bytes.word32At?_append (Bytes.word32 (UInt32.ofNat body.length))
    (body ++ Bytes.zeros (padded (headerSize + body.length)
      - (headerSize + body.length)) ++ after) type
  simp only [List.nil_append, List.append_assoc, List.length_nil, Bytes.length_word32] at hs ht
  have hdrop : ∀ rest : Bytes, (Bytes.word32 (UInt32.ofNat body.length)
      ++ (Bytes.word32 type ++ rest)).drop headerSize = rest := by
    intro rest
    rw [← List.append_assoc, List.drop_left' (by simp [headerSize])]
  simp [parseWhole, parse, encode, header, ofBody, hs, ht, hdrop, isTruncated, hsize]

end Atom

end BlockHost
