import BlockHost.Atom.Basic
import BlockHost.Fault

/-!
# Buffers

A buffer is a run of bytes of fixed length, most of which may never be touched. Only the bytes in
front are kept one by one; those behind them are zero, however many they are. So a buffer can be as
long as an address allows, and costs no more than what has been put into it.

What a buffer is, is its bytes (`Buffer.bytes`): every operation comes with the law that says what it
does to them.
-/

namespace BlockHost

/-- A run of bytes that ends in zeros. -/
structure Buffer where
  /-- The bytes that may be other than zero. -/
  front : Bytes
  /-- How many bytes there are, those behind `front` included. -/
  length : Nat
  front_le : front.length ≤ length
deriving DecidableEq, Repr

namespace Buffer

/-- All bytes of a buffer. -/
def bytes (b : Buffer) : Bytes :=
  b.front ++ Bytes.zeros (b.length - b.front.length)

/-- The buffer of the given bytes. -/
def ofBytes (bs : Bytes) : Buffer :=
  ⟨bs, bs.length, Nat.le_refl _⟩

/-- A buffer of zeros. -/
def blank (length : Nat) : Buffer :=
  ⟨[], length, Nat.zero_le _⟩

/-- A buffer of zeros, when it can be addressed. -/
def create (length : Nat) : Except Fault Buffer := do
  Fault.addressable length
  return blank length

/-- A buffer of equal bytes, when it can be addressed. -/
def filled (byte : UInt8) (length : Nat) : Except Fault Buffer := do
  Fault.addressable length
  return ofBytes (List.replicate length byte)

/-- The first `n` bytes. -/
def take (b : Buffer) (n : Nat) : Bytes :=
  let part := b.front.take n
  part ++ Bytes.zeros (min n b.length - part.length)

/-- The buffer without its first `n` bytes. -/
def drop (b : Buffer) (n : Nat) : Buffer where
  front := b.front.drop n
  length := b.length - n
  front_le := by
    have := b.front_le
    simp only [List.length_drop]
    omega

/-- The buffer with more bytes in front of it. -/
def prepend (b : Buffer) (bs : Bytes) : Buffer where
  front := bs ++ b.front
  length := bs.length + b.length
  front_le := by
    have := b.front_le
    simp only [List.length_append]
    omega

/-- The buffer with other bytes at its start. -/
def startWith (b : Buffer) (bs : Bytes) : Buffer :=
  (b.drop bs.length).prepend bs

/-- The atom at the start of a buffer. No more of the buffer is looked at than the header declares. -/
def atom? (b : Buffer) : Option Atom := do
  let size ← (b.take 4).word32At? 0
  Atom.parse (b.take (Atom.headerSize + size.toNat))

/-! ## What the operations do to the bytes -/

@[simp] theorem length_bytes (b : Buffer) : b.bytes.length = b.length := by
  have := b.front_le
  simp only [bytes, List.length_append, Bytes.length_zeros]
  omega

@[simp] theorem bytes_ofBytes (bs : Bytes) : (ofBytes bs).bytes = bs := by
  simp [bytes, ofBytes, Bytes.zeros]

@[simp] theorem bytes_blank (length : Nat) : (blank length).bytes = Bytes.zeros length := by
  simp [bytes, blank]

theorem take_eq (b : Buffer) (n : Nat) : b.take n = b.bytes.take n := by
  have := b.front_le
  simp only [take, bytes, Bytes.zeros, List.take_append, List.take_replicate, List.length_take]
  congr 2
  omega

@[simp] theorem length_take (b : Buffer) (n : Nat) : (b.take n).length = min n b.length := by
  simp [take_eq]

@[simp] theorem bytes_drop (b : Buffer) (n : Nat) : (b.drop n).bytes = b.bytes.drop n := by
  have := b.front_le
  simp only [drop, bytes, Bytes.zeros, List.drop_append, List.drop_replicate, List.length_drop]
  congr 2
  omega

@[simp] theorem bytes_prepend (b : Buffer) (bs : Bytes) :
    (b.prepend bs).bytes = bs ++ b.bytes := by
  simp [prepend, bytes, Nat.add_sub_add_left]

@[simp] theorem bytes_startWith (b : Buffer) (bs : Bytes) :
    (b.startWith bs).bytes = bs ++ b.bytes.drop bs.length := by
  simp [startWith]

/-- The atom at the start of a buffer is the atom at the start of its bytes. -/
theorem atom?_eq (b : Buffer) : b.atom? = Atom.parse b.bytes := by
  simp only [atom?, take_eq]
  generalize b.bytes = bs
  have hword : ∀ n start : Nat, start + 4 ≤ n →
      Bytes.word32At? (bs.take n) start = bs.word32At? start := by
    intro n start h
    have hmin : min 4 (n - start) = 4 := by omega
    simp [Bytes.word32At?, Bytes.slice?, List.drop_take, List.take_take, hmin]
  rw [hword 4 0 (by omega)]
  cases hsize : bs.word32At? 0 with
  | none => simp [Atom.parse, hsize]
  | some size =>
      simp only [Option.bind_eq_bind, Option.bind_some, Atom.parse]
      rw [hword _ 0 (by simp [Atom.headerSize]; omega), hword _ 4 (by simp [Atom.headerSize]), hsize]
      simp [List.drop_take, List.take_take]

end Buffer

end BlockHost
