import BlockHost.Buffer
import BlockHost.Uri.Vocabulary

/-!
# The atom writer

A writer appends atoms to a buffer of fixed length. A composite atom is written as a frame: opening
it writes a header of size zero, closing it puts the size into that header. Frames close innermost
first, and at most eight are open at a time.

Everything is written through `Writer.emit`, which either has room for all of its bytes or writes
none of them. Running out of room is remembered: from then on every call is refused with
`WriteFailure.overflow`, until the writer is reset.

The buffer is kept in two parts, before and behind the offset, so that writing costs no more than what
is written. `Writer.buffer` is the whole of it and `Writer.written` the part before the offset.

A call is an action on the writer (`Write`), and an action that is refused still says which writer it
leaves behind.
-/

namespace BlockHost

/-- What an open frame is building. -/
inductive Composite where
  | tuple
  | object
  | vector (type size : UInt32)
  | sequence
deriving DecidableEq, Repr

/-- What opening a frame answers and closing it asks for. -/
structure Frame where
  /-- How many frames are open around this one. -/
  depth : Nat
  /-- Where its header lies. -/
  header : Nat
  kind : Composite
deriving DecidableEq, Repr

/-- A frame that is being built. -/
structure OpenFrame where
  header : Nat
  kind : Composite
  /-- The last time written into it, when it is a sequence. -/
  lastTime : Int64
deriving DecidableEq, Repr

/-- Whether an open frame, inside the given ones, is the one that a handle stands for. -/
def OpenFrame.isOf (top : OpenFrame) (outer : List OpenFrame) (frame : Frame) : Bool :=
  outer.length = frame.depth && top.header = frame.header

/-- A buffer that is being written. -/
structure Writer where
  vocabulary : Vocabulary
  /-- The bytes in front of the offset, the last one first. -/
  behind : Bytes
  /-- Where the next byte goes. -/
  offset : Nat
  offset_eq : offset = behind.length
  /-- The buffer from the offset on. -/
  ahead : Buffer
  /-- The open frames, innermost first. -/
  frames : List OpenFrame
  /-- Whether the room has run out. -/
  failed : Bool

/-- A call on the writer. -/
abbrev Write := EStateM WriteFailure Writer

namespace Writer

/-- How many frames can be open at a time. -/
def maxDepth : Nat := 8

/-- A writer that goes on at an offset of a buffer, with no frame open. -/
def startAt (vocabulary : Vocabulary) (buffer : Buffer) (offset : Nat) : Writer where
  vocabulary := vocabulary
  behind := (buffer.take offset).reverse
  offset := min offset buffer.length
  offset_eq := by simp
  ahead := buffer.drop offset
  frames := []
  failed := false

/-- A writer at the start of a buffer. -/
def start (vocabulary : Vocabulary) (buffer : Buffer) : Writer :=
  startAt vocabulary buffer 0

/-- The bytes in front of the offset. -/
def written (w : Writer) : Bytes :=
  w.behind.reverse

/-- The whole buffer. -/
def buffer (w : Writer) : Buffer :=
  w.ahead.prepend w.written

/-- The length of the buffer. -/
def capacity (w : Writer) : Nat :=
  w.offset + w.ahead.length

/-- Back at the start of the buffer, with no frame open and the failure forgotten. -/
def reset (w : Writer) : Writer :=
  start w.vocabulary w.buffer

/-- How many frames are open. -/
def depth (w : Writer) : Nat :=
  w.frames.length

/-- The number of bytes written, when the room sufficed and every frame is closed. -/
def finish (w : Writer) : Except WriteFailure Nat :=
  if w.failed then .error .overflow
  else if w.depth ≠ 0 then .error (.unbalanced w.depth)
  else .ok w.offset

/-- Appends bytes, all or none. -/
def emit (bs : Bytes) : Write Unit := fun w =>
  if w.failed then .error .overflow w
  else if bs.length ≤ w.ahead.length then
    .ok ()
      { w with behind := bs.reverse ++ w.behind
               offset := w.offset + bs.length
               offset_eq := by simp [w.offset_eq, Nat.add_comm]
               ahead := w.ahead.drop bs.length }
  else .error .overflow { w with failed := true }

/-- Appends zeros up to the eight-byte grid. -/
def pad : Write Unit := fun w =>
  emit (Bytes.zeros (padded w.offset - w.offset)) w

/-- Appends an atom. In a vector only the body is written, and only when it has the vector's
shape. -/
def put (type : UInt32) (body : Bytes) : Write Unit := fun w =>
  match w.frames with
  | ⟨_, .vector elementType elementSize, _⟩ :: _ =>
      if type = elementType ∧ body.length = elementSize.toNat then emit body w
      else .error .vectorMismatch w
  | _ => emit (Atom.encode type body) w

/-- Appends the key and the context of a property. -/
def key (key context : UInt32) : Write Unit :=
  emit (Bytes.word32 key ++ Bytes.word32 context)

/-- Whether the innermost open frame is a vector. -/
def inVector (w : Writer) : Bool :=
  match w.frames with
  | ⟨_, .vector _ _, _⟩ :: _ => true
  | _ => false

/-- Opens a frame: appends a header of size zero and the words that a frame of this kind begins
with. -/
def enter (term : Term) (kind : Composite) (head : Bytes) : Write Frame := fun w =>
  if w.failed then .error .overflow w
  else if w.inVector then .error .vectorMismatch w
  else if w.depth = maxDepth then .error .tooDeep w
  else
    match emit (Atom.header (w.vocabulary.id term) 0 ++ head) w with
    | .ok _ after =>
        .ok ⟨w.depth, w.offset, kind⟩ { after with frames := ⟨w.offset, kind, 0⟩ :: w.frames }
    | .error e after => .error e after

/-- Opens a tuple. -/
def openTuple : Write Frame :=
  enter .tuple .tuple []

/-- Opens an object with an id and a type of its own. -/
def openObject (id type : UInt32) : Write Frame :=
  enter .object .object (Bytes.word32 id ++ Bytes.word32 type)

/-- Opens a vector of elements of one type and size. -/
def openVector (type size : UInt32) : Write Frame :=
  enter .vector (.vector type size) (Bytes.word32 type ++ Bytes.word32 size)

/-- Opens a sequence. -/
def openSequence : Write Frame :=
  enter .sequence .sequence []

/-- The writer with a size in the header in front of the last `size` bytes. Seen from the offset, the
size stands behind the body and its type. -/
def putSize (w : Writer) (size : Nat) : Writer :=
  { w with behind := w.behind.overwrite (size + 4) (Bytes.word32 (UInt32.ofNat size)).reverse
           offset_eq := by simp [w.offset_eq] }

/-- Closes the innermost frame: puts its size into its header and pads. -/
def close (frame : Frame) : Write Unit := fun w =>
  if w.failed then .error .overflow w
  else
    match w.frames with
    | [] => .error .frameMismatch w
    | top :: outer =>
        if top.isOf outer frame then
          pad { w.putSize (w.offset - top.header - Atom.headerSize) with frames := outer }
        else .error .frameMismatch w

/-! ## The two parts -/

@[simp] theorem length_written (w : Writer) : w.written.length = w.offset := by
  simp [written, w.offset_eq]

@[simp] theorem length_buffer (w : Writer) : w.buffer.length = w.capacity := by
  simp [buffer, capacity, Buffer.prepend]

theorem take_offset_bytes (w : Writer) : w.buffer.bytes.take w.offset = w.written := by
  rw [buffer, Buffer.bytes_prepend, ← length_written, List.take_left]

@[simp] theorem bytes_buffer_startAt (vocabulary : Vocabulary) (buffer : Buffer) (offset : Nat) :
    (startAt vocabulary buffer offset).buffer.bytes = buffer.bytes := by
  simp [startAt, Writer.buffer, written, Buffer.take_eq]

/-- What is appended stands behind what had been written. -/
theorem written_emit {bs : Bytes} {w after : Writer} (h : emit bs w = .ok () after) :
    after.written = w.written ++ bs := by
  unfold emit at h
  split at h
  · cases h
  · split at h
    · cases h
      simp [written]
    · cases h

/-- Appending leaves the buffer behind the appended bytes as it was. -/
theorem bytes_buffer_emit {bs : Bytes} {w after : Writer} (h : emit bs w = .ok () after) :
    after.buffer.bytes = w.buffer.bytes.overwrite w.offset bs := by
  unfold emit at h
  split at h
  · cases h
  · split at h
    · next hroom =>
        cases h
        have hlen : w.offset + bs.length ≤ w.buffer.bytes.length := by
          rw [Buffer.length_bytes, length_buffer, capacity]
          omega
        rw [Bytes.overwrite_eq hlen, take_offset_bytes]
        simp only [buffer, written, Buffer.bytes_prepend, Buffer.bytes_drop, List.reverse_append,
          List.reverse_reverse, List.append_assoc]
        rw [← List.drop_drop, List.drop_left' (by simp [w.offset_eq])]
    · cases h

end Writer

end BlockHost
