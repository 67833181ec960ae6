import BlockHost.Fault

/-!
# Signals

The audio side cannot report at length what it does, so it leaves a number for each thing that
happens in a queue, and others draw their conclusions. A full queue loses what comes.
-/

namespace BlockHost

/-- Something that happened on the audio side. -/
inductive Signal where
  /-- The script ran over a block. -/
  | blockProcessed
  /-- A block was put aside. -/
  | blockStashed
  /-- Blocks that had been put aside were replayed. -/
  | stashReplayed
  /-- A backlog began to drop events. -/
  | stashOverflow
  /-- The heap ran dry. -/
  | oomBypass
  /-- An output ran out of room. -/
  | forgeOverflow
  /-- The script failed. -/
  | scriptError
  /-- The call came to its end. -/
  | callbackClean
  /-- The heap asked for a region. -/
  | growthRequested
deriving DecidableEq, Repr

namespace Signal

/-- The number of a signal. -/
def number : Signal → UInt8
  | blockProcessed => 1
  | blockStashed => 2
  | stashReplayed => 3
  | stashOverflow => 4
  | oomBypass => 5
  | forgeOverflow => 6
  | scriptError => 7
  | callbackClean => 8
  | growthRequested => 9

/-- The name of the signal with a number. -/
def nameOf (number : UInt8) : String :=
  match number with
  | 1 => "BLOCK_PROCESSED"
  | 2 => "BLOCK_STASHED"
  | 3 => "STASH_REPLAYED"
  | 4 => "STASH_OVERFLOW"
  | 5 => "OOM_BYPASS"
  | 6 => "FORGE_OVERFLOW"
  | 7 => "SCRIPT_ERROR"
  | 8 => "RT_CALLBACK_CLEAN"
  | 9 => "GROWTH_REQUESTED"
  | _ => "UNKNOWN"

/-- The numbers that occur, in ascending order, with how often they do. -/
def tally (numbers : List UInt8) : List (UInt8 × Nat) :=
  ((List.range 256).map fun n => (UInt8.ofNat n, numbers.count (UInt8.ofNat n))).filter
    fun row => row.2 ≠ 0

/-- A name put in its place among names in ascending order, unless it is there. -/
def insertName (name : String) : List String → List String
  | [] => [name]
  | first :: rest =>
      if name < first then name :: first :: rest
      else if name = first then first :: rest
      else first :: insertName name rest

/-- Checks that signals with all the required numbers were sent. -/
def contract (title : String) (sent required : List UInt8) : Except Fault Unit :=
  let missed := required.filter fun number => !sent.contains number
  if missed.isEmpty then .ok ()
  else
    .error (.signalsMissed title (missed.map nameOf)
      (sent.foldl (fun names number => insertName (nameOf number) names) []))

end Signal

/-- Numbers of signals on their way, oldest first. -/
structure SignalQueue where
  pending : List UInt8
deriving DecidableEq, Repr

namespace SignalQueue

/-- How many numbers a queue holds. -/
def capacity : Nat := 256

/-- A queue without numbers. -/
def empty : SignalQueue := ⟨[]⟩

/-- Adds a number, unless the queue is full. -/
def pushNumber (q : SignalQueue) (number : UInt8) : SignalQueue :=
  if q.pending.length < capacity then ⟨q.pending ++ [number]⟩ else q

/-- Adds a number so many times, until the queue is full. -/
def pushCopies (q : SignalQueue) (number : UInt8) (count : Nat) : SignalQueue :=
  ⟨q.pending ++ List.replicate (min count (capacity - q.pending.length)) number⟩

/-- Adds a signal, unless the queue is full. -/
def push (q : SignalQueue) (signal : Signal) : SignalQueue :=
  q.pushNumber signal.number

/-- All numbers, and the queue without them. -/
def drain (q : SignalQueue) : List UInt8 × SignalQueue :=
  (q.pending, empty)

theorem pushCopies_zero (q : SignalQueue) (number : UInt8) : q.pushCopies number 0 = q := by
  simp [pushCopies]

/-- Adding a number many times is adding it once and then the other times. -/
theorem pushCopies_succ (q : SignalQueue) (number : UInt8) (count : Nat) :
    q.pushCopies number (count + 1) = (q.pushNumber number).pushCopies number count := by
  unfold pushNumber
  split
  · next h =>
      have hmin : min (count + 1) (capacity - q.pending.length)
          = min count (capacity - (q.pending.length + 1)) + 1 := by omega
      simp [pushCopies, hmin, List.replicate_succ]
  · next h =>
      have hzero : capacity - q.pending.length = 0 := by omega
      simp [pushCopies, hzero]

end SignalQueue

end BlockHost
