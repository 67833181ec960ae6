import BlockHost.Atom.Children
import BlockHost.Fault
import BlockHost.Uri.Vocabulary

/-!
# Backlogs

While the engine is held elsewhere, the events of an input port are put aside, so that the script can
be shown them later. A backlog is a sequence on one time line: the events of a block stand behind
those of the blocks before it, later by the frames of those blocks.

A backlog has room for so many bytes. From the first event on that does not fit, or whose time would
leave the range of times, all events are dropped and counted, until the backlog is emptied.

The events are kept as they are, and written out when the script is shown them (`Backlog.sequence`).
`length_sequence` says that they take the bytes that have been counted, and so no more than there is
room for.
-/

namespace BlockHost

namespace Backlog

/-- The least room of a backlog. -/
def minCapacity : Nat := 64

/-- The greatest time. -/
def lastTime : Nat := 2 ^ 63 - 1

/-- An event as it stands in a sequence. -/
def encodeEvent (event : Int64 × Atom) : Bytes :=
  Bytes.int64 event.1 ++ Atom.encode event.2.type event.2.body

/-- The bytes that an event takes in a sequence. -/
def eventSize (event : Int64 × Atom) : Nat :=
  8 + padded (Atom.headerSize + event.2.body.length)

@[simp] theorem length_encodeEvent (event : Int64 × Atom) :
    (encodeEvent event).length = eventSize event := by
  simp [encodeEvent, eventSize, Atom.headerSize]

end Backlog

open Backlog in
/-- The events put aside for one port. -/
structure Backlog where
  schema : Schema
  /-- The room for the sequence of all events. -/
  capacity : Nat
  /-- The events, the last one first. -/
  backwards : List (Int64 × Atom)
  /-- How many bytes the sequence takes. -/
  size : Nat
  size_eq : size = Atom.headerSize + (backwards.map eventSize).sum
  size_le : size ≤ capacity
  /-- The frames of the blocks put aside. -/
  offset : Nat
  /-- How many blocks have been put aside. -/
  blocks : Nat
  /-- Whether an event has been dropped. -/
  failed : Bool
  /-- How many events have been dropped. -/
  dropped : Nat

namespace Backlog

/-- Without events, and with its losses forgotten. -/
def reset (b : Backlog) : Backlog where
  schema := b.schema
  capacity := b.capacity
  backwards := []
  size := Atom.headerSize
  size_eq := rfl
  size_le := by
    have := b.size_eq
    have := b.size_le
    omega
  offset := 0
  blocks := 0
  failed := false
  dropped := 0

/-- An empty backlog with room for so many bytes, at least `minCapacity`. -/
def create (schema : Schema) (capacity : Nat) : Except Fault Backlog := do
  Fault.addressable (max capacity minCapacity)
  return {
    schema
    capacity := max capacity minCapacity
    backwards := []
    size := Atom.headerSize
    size_eq := rfl
    size_le := by
      simp only [Atom.headerSize, minCapacity]
      omega
    offset := 0
    blocks := 0
    failed := false
    dropped := 0 }

/-- The events put aside, in order. -/
def events (b : Backlog) : List (Int64 × Atom) :=
  b.backwards.reverse

/-- The events put aside, as the bytes of one sequence. -/
def sequence (b : Backlog) : Bytes :=
  Atom.header (b.schema.id .sequence) (UInt32.ofNat (b.size - Atom.headerSize))
    ++ b.events.flatMap encodeEvent

/-- Whether blocks have been put aside. -/
def isPending (b : Backlog) : Bool :=
  0 < b.blocks

/-- Without one more event. -/
def drop (b : Backlog) : Backlog :=
  { b with failed := true, dropped := b.dropped + 1 }

/-- A time later by so many frames, when that is a time. -/
def shift (time : Int64) (frames : Nat) : Option Int64 :=
  let sum := time.toInt + frames
  if sum ≤ lastTime then some (Int64.ofInt sum) else none

/-- Puts an event aside, or drops it. -/
def add (b : Backlog) (event : Int64 × Atom) : Backlog :=
  if b.failed then b.drop
  else
    match shift event.1 b.offset with
    | none => b.drop
    | some time =>
        let event := (time, event.2)
        if h : b.size + eventSize event ≤ b.capacity then
          { b with backwards := event :: b.backwards
                   size := b.size + eventSize event
                   size_eq := by
                     simp only [b.size_eq, List.map_cons, List.sum_cons]
                     omega
                   size_le := h }
        else b.drop

/-- Puts the events of an atom aside, when it is a sequence. -/
def addAll (b : Backlog) (input : Atom) : Backlog :=
  if input.type = b.schema.id .sequence then (input.events b.schema).foldl add b else b

/-- Puts a block of so many frames aside. -/
def append (b : Backlog) (input : Option Atom) (frames : UInt32) : Except Fault Backlog :=
  let b :=
    match input with
    | none => b
    | some input => b.addAll input
  if b.blocks + 1 < 2 ^ 32 then
    .ok { b with offset := min (b.offset + frames.toNat) lastTime, blocks := b.blocks + 1 }
  else .error .addition

/-- The sequence takes the bytes that have been counted. -/
theorem length_sequence (b : Backlog) : b.sequence.length = b.size := by
  simp [sequence, events, List.length_flatMap, b.size_eq, Atom.headerSize]

end Backlog

end BlockHost
