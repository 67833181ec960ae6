import BlockHost.Proofs.Backlogs

/-!
# Backlogs in memory

A backlog is kept as a list of events. Here is what the same backlog is as bytes: a buffer whose
first `size` bytes are the sequence, written by a writer that goes on behind them. Each event is
written in two steps, its time and then its atom. The second step can run out of room when the first
did not; then there is a time behind the sequence that belongs to no event, and the next writer goes
over it. The size in the header is put right only when all events of a block have been seen.

`Shelf.append_holds` says that none of this can be seen from outside. A shelf that holds a backlog
holds it after every block, byte for byte, and with the same counts.
-/

namespace BlockHost

/-! ## What a refused call leaves alone -/

namespace Writer

/-- Nothing in front of the offset has changed, and the buffer is as long as it was. -/
def Extends (w w' : Writer) : Prop :=
  w.written <+: w'.written ∧ w'.capacity = w.capacity

instance : IsPreorder Writer Extends where
  refl _ := ⟨List.prefix_refl _, rfl⟩
  trans _ _ _ h h' := ⟨h.1.trans h'.1, h'.2.trans h.2⟩

theorem emit_extends (bs : Bytes) : Action.Keeps Extends (emit bs) := by
  intro w
  unfold emit
  split
  · exact refl w
  · split
    · next hroom =>
        refine ⟨?_, ?_⟩
        · simp only [Action.left, written, List.reverse_append, List.reverse_reverse]
          exact List.prefix_append _ _
        · simp only [Action.left, capacity, Buffer.drop]
          omega
    · exact ⟨List.prefix_refl _, rfl⟩

theorem put_extends (type : UInt32) (body : Bytes) : Action.Keeps Extends (put type body) := by
  intro w
  unfold put
  split
  · split
    · exact emit_extends body w
    · exact refl w
  · exact emit_extends _ w

theorem capacity_append {w : Writer} {bs : Bytes} (h : bs.length ≤ w.room) :
    (w.append bs).capacity = w.capacity := by
  have hcapacity : ∀ w : Writer, w.capacity = w.offset + w.room := fun _ => rfl
  rw [hcapacity, hcapacity, offset_append, room_append]
  omega

theorem take_buffer {w w' : Writer} (h : Extends w w') :
    w'.buffer.take w.offset = w.buffer.take w.offset := by
  have htake : w'.buffer.bytes.take w.offset = w.written := by
    rw [bytes_buffer, ← length_written, List.take_append_of_le_length h.1.length_le]
    exact (List.prefix_iff_eq_take.1 h.1).symm
  rw [Buffer.take_eq, Buffer.take_eq, htake, take_offset_bytes]

/-- Writes an event: its time, and then its atom. -/
def event (t : Int64) (a : Atom) : Write Unit := do
  emit (Bytes.int64 t)
  copy a

theorem event_extends (t : Int64) (a : Atom) : Action.Keeps Extends (event t a) :=
  (emit_extends _).bind fun _ => put_extends a.type a.body

theorem appends_event {w : Writer} (hw : w.failed = false) (hv : w.inVector = false) (t : Int64)
    (a : Atom) :
    Appends w (Backlog.encodeEvent (t, a)) () (w.append (Backlog.encodeEvent (t, a)))
      (event t a w) := by
  have htime := appends_emit hw (Bytes.int64 t)
  have hatom := appends_put (w := w.append (Bytes.int64 t)) hw hv a.type a.body
  have hboth := htime.bind (f := fun _ => copy a) rfl fun _ => hatom
  rw [append_append] at hboth
  exact hboth

end Writer

/-! ## A shelf -/

/-- The events put aside for one port, as bytes. -/
structure Shelf where
  schema : Schema
  /-- The sequence, and behind it whatever was left there. -/
  buffer : Buffer
  /-- How many bytes the sequence takes. -/
  size : Nat
  offset : Nat
  blocks : Nat
  failed : Bool
  dropped : Nat

namespace Shelf

/-- The events put aside, as the bytes of one sequence. -/
def sequence (s : Shelf) : Bytes :=
  s.buffer.take s.size

/-- Without events and without losses. The bytes of former events stay where they are. -/
def reset (s : Shelf) : Shelf where
  schema := s.schema
  buffer := s.buffer.startWith (Atom.header (s.schema.id .sequence) 0)
  size := Atom.headerSize
  offset := 0
  blocks := 0
  failed := false
  dropped := 0

/-- Without one more event. -/
def drop (s : Shelf) : Shelf :=
  { s with failed := true, dropped := s.dropped + 1 }

/-- Puts an event aside, or drops it. Only what has been written in full is counted. -/
def add (s : Shelf) (event : Int64 × Atom) : Shelf :=
  if s.failed then s.drop
  else
    match Backlog.shift event.1 s.offset with
    | none => s.drop
    | some time =>
        match Writer.event time event.2
            (Writer.startAt s.schema.vocabulary s.buffer s.size) with
        | .ok _ w => { s with buffer := w.buffer, size := w.offset }
        | .error _ w => { s with buffer := w.buffer }.drop

/-- Puts the size of the sequence into its header. -/
def putSize (s : Shelf) : Shelf :=
  { s with buffer :=
      s.buffer.startWith (Bytes.word32 (UInt32.ofNat (s.size - Atom.headerSize))) }

/-- Puts the events of an atom aside, when it is a sequence. -/
def addAll (s : Shelf) (input : Atom) : Shelf :=
  if input.type = s.schema.id .sequence then
    ((input.events s.schema).foldl add s).putSize
  else s

/-- Puts a block of so many frames aside. -/
def append (s : Shelf) (input : Option Atom) (frames : UInt32) : Except Fault Shelf :=
  let s :=
    match input with
    | none => s
    | some input => s.addAll input
  if s.blocks + 1 < 2 ^ 32 then
    .ok { s with offset := min (s.offset + frames.toNat) Backlog.lastTime
                 blocks := s.blocks + 1 }
  else .error .addition

/-- The shelf has the room and the counts of the backlog and begins with its events, behind a header
with some size. -/
structure Stores (s : Shelf) (n : UInt32) (b : Backlog) : Prop where
  schema_eq : s.schema = b.schema
  length_eq : s.buffer.length = b.capacity
  size_eq : s.size = b.size
  offset_eq : s.offset = b.offset
  blocks_eq : s.blocks = b.blocks
  failed_eq : s.failed = b.failed
  dropped_eq : s.dropped = b.dropped
  sequence_eq : s.sequence = Atom.header (b.schema.id .sequence) n ++ encodeEvents b.events

/-- The shelf holds the backlog: the size in the header is the right one as well. -/
def Holds (s : Shelf) (b : Backlog) : Prop :=
  s.Stores (UInt32.ofNat (b.size - Atom.headerSize)) b

section Stores

variable {s : Shelf} {n : UInt32} {b : Backlog}

theorem Holds.sequence_eq (h : s.Holds b) : s.sequence = b.sequence :=
  Stores.sequence_eq h

theorem Stores.drop (h : s.Stores n b) : s.drop.Stores n b.drop where
  schema_eq := h.schema_eq
  length_eq := h.length_eq
  size_eq := h.size_eq
  offset_eq := h.offset_eq
  blocks_eq := h.blocks_eq
  failed_eq := rfl
  dropped_eq := congrArg (· + 1) h.dropped_eq
  sequence_eq := h.sequence_eq

theorem Stores.writer (h : s.Stores n b) :
    (Writer.startAt s.schema.vocabulary s.buffer s.size).offset = s.size ∧
      (Writer.startAt s.schema.vocabulary s.buffer s.size).room = b.capacity - b.size ∧
      (Writer.startAt s.schema.vocabulary s.buffer s.size).capacity = b.capacity := by
  have hle : s.size ≤ s.buffer.length := by
    rw [h.size_eq, h.length_eq]
    exact b.size_le
  have hoffset : (Writer.startAt s.schema.vocabulary s.buffer s.size).offset = s.size :=
    Nat.min_eq_left hle
  have hroom : (Writer.startAt s.schema.vocabulary s.buffer s.size).room
      = s.buffer.length - s.size := rfl
  refine ⟨hoffset, ?_, ?_⟩
  · rw [hroom, h.length_eq, h.size_eq]
  · have hcapacity : (Writer.startAt s.schema.vocabulary s.buffer s.size).capacity
        = (Writer.startAt s.schema.vocabulary s.buffer s.size).offset
          + (Writer.startAt s.schema.vocabulary s.buffer s.size).room := rfl
    rw [hcapacity, hoffset, hroom, ← h.length_eq]
    omega

/-- An event of which only the time fits is written over what nobody looks at. -/
theorem Stores.torn (h : s.Stores n b) {w : Writer}
    (hw : Writer.Extends (Writer.startAt s.schema.vocabulary s.buffer s.size) w) :
    ({ s with buffer := w.buffer } : Shelf).Stores n b := by
  obtain ⟨hoffset, -, hcapacity⟩ := h.writer
  have htake : w.buffer.take s.size = s.buffer.take s.size := by
    have hsame := Writer.take_buffer hw
    rw [hoffset] at hsame
    rw [hsame, Buffer.take_eq, Writer.bytes_buffer_startAt, ← Buffer.take_eq]
  exact { h with
    length_eq := (Writer.length_buffer w).trans (hw.2.trans hcapacity)
    sequence_eq := htake.trans h.sequence_eq }

/-- An event that has been written in full stands behind the sequence. -/
theorem Stores.written (h : s.Stores n b) (time : Int64) (a : Atom)
    (hfit : b.size + Backlog.eventSize (time, a) ≤ b.capacity) :
    ({ s with
        buffer := ((Writer.startAt s.schema.vocabulary s.buffer s.size).append
          (Backlog.encodeEvent (time, a))).buffer
        size := ((Writer.startAt s.schema.vocabulary s.buffer s.size).append
          (Backlog.encodeEvent (time, a))).offset } : Shelf).Stores n
      { b with backwards := (time, a) :: b.backwards
               size := b.size + Backlog.eventSize (time, a)
               size_eq := by
                 simp only [b.size_eq, List.map_cons, List.sum_cons]
                 omega
               size_le := hfit } := by
  obtain ⟨hoffset, hroom, hcapacity⟩ := h.writer
  have hwritten : (Writer.startAt s.schema.vocabulary s.buffer s.size).written = s.sequence :=
    List.reverse_reverse _
  have hevents : encodeEvents ((time, a) :: b.backwards).reverse
      = encodeEvents b.events ++ Backlog.encodeEvent (time, a) := by
    rw [List.reverse_cons, encodeEvents_append]
    exact congrArg _ (List.append_nil _)
  exact { h with
    length_eq := by
      have hle : (Backlog.encodeEvent (time, a)).length
          ≤ (Writer.startAt s.schema.vocabulary s.buffer s.size).room := by
        rw [hroom, Backlog.length_encodeEvent]
        omega
      exact (Writer.length_buffer _).trans ((Writer.capacity_append hle).trans hcapacity)
    size_eq := by
      show _ + (Backlog.encodeEvent (time, a)).length = b.size + Backlog.eventSize (time, a)
      rw [hoffset, h.size_eq, Backlog.length_encodeEvent]
    sequence_eq := by
      rw [sequence, Buffer.take_eq, Writer.take_offset_bytes, Writer.written_append, hwritten,
        h.sequence_eq, List.append_assoc, ← hevents]
      rfl }

theorem Stores.add (h : s.Stores n b) (e : Int64 × Atom) : (s.add e).Stores n (b.add e) := by
  have hsize : ∀ t, Backlog.eventSize (t, e.2) = Backlog.eventSize e := fun t => rfl
  have hshift : Backlog.shift e.1 s.offset = Backlog.shift e.1 b.offset := by rw [h.offset_eq]
  unfold Shelf.add Backlog.add
  by_cases hfailed : b.failed = true
  · rw [if_pos hfailed, if_pos (h.failed_eq.trans hfailed)]
    exact h.drop
  · rw [if_neg hfailed, if_neg (h.failed_eq ▸ hfailed), hshift]
    cases Backlog.shift e.1 b.offset with
    | none => exact h.drop
    | some time =>
        obtain ⟨hoffset, hroom, hcapacity⟩ := h.writer
        have happends := Writer.appends_event
          (w := Writer.startAt s.schema.vocabulary s.buffer s.size) rfl rfl time e.2
        have hextends := Writer.event_extends time e.2
        rw [Writer.Appends, hroom, Backlog.length_encodeEvent, hsize] at happends
        have hfits : b.size + Backlog.eventSize e ≤ b.capacity ↔
            Backlog.eventSize e ≤ b.capacity - b.size := by
          have hle := b.size_le
          omega
        simp only [hsize]
        by_cases hfit : Backlog.eventSize e ≤ b.capacity - b.size
        · rw [dif_pos (hfits.2 hfit), happends.1 hfit]
          exact h.written time e.2 (hfits.2 hfit)
        · obtain ⟨w, herror⟩ := happends.2 (Nat.not_le.1 hfit)
          rw [dif_neg (mt hfits.1 hfit), herror]
          exact (h.torn (hextends.of_error herror)).drop

theorem Stores.foldl (h : s.Stores n b) (events : List (Int64 × Atom)) :
    (events.foldl Shelf.add s).Stores n (events.foldl Backlog.add b) := by
  induction events generalizing s b with
  | nil => exact h
  | cons e rest ih => exact ih (h.add e)

/-- Any bytes can stand behind the sequence: only the first word is replaced. -/
theorem Stores.putSize (h : s.Stores n b) : s.putSize.Holds b := by
  have hsize := b.size_eq
  have hle := b.size_le
  have hlength : ∀ m : UInt32, (Bytes.word32 m).length = 4 := Bytes.length_word32
  have hbytes : s.buffer.bytes.take s.size
      = Bytes.word32 n ++ (Bytes.word32 (b.schema.id .sequence) ++ encodeEvents b.events) := by
    rw [← Buffer.take_eq, ← List.append_assoc]
    exact h.sequence_eq
  exact { h with
    length_eq := by
      show (Bytes.word32 _).length + (s.buffer.length - (Bytes.word32 _).length) = b.capacity
      rw [hlength, ← h.length_eq]
      have hroom := h.length_eq
      unfold Atom.headerSize at hsize
      omega
    sequence_eq := by
      have hdrop : (s.buffer.bytes.drop 4).take (s.size - 4)
          = Bytes.word32 (b.schema.id .sequence) ++ encodeEvents b.events := by
        rw [← List.drop_take, hbytes, List.drop_left' (hlength n)]
      have hfour : 4 ≤ s.size := by
        rw [h.size_eq]
        unfold Atom.headerSize at hsize
        omega
      show (s.buffer.startWith _).take s.size = _
      rw [Buffer.take_eq, Buffer.bytes_startWith, List.take_append, hlength, hdrop,
        List.take_of_length_le (Nat.le_trans (Nat.le_of_eq (hlength _)) hfour), h.size_eq,
        Atom.header, List.append_assoc] }

theorem Holds.addAll (h : s.Holds b) (input : Atom) : (s.addAll input).Holds (b.addAll input) := by
  unfold Shelf.addAll Backlog.addAll
  rw [Stores.schema_eq h]
  split
  · exact (Stores.foldl h _).putSize
  · exact h

end Stores

/-- A shelf that is emptied holds an empty backlog, whatever its buffer was. -/
theorem reset_holds {s : Shelf} {b : Backlog} (hschema : s.schema = b.schema)
    (hlength : s.buffer.length = b.capacity) : s.reset.Holds b.reset where
  schema_eq := hschema
  length_eq := by
    have hsize := b.size_eq
    have hle := b.size_le
    show (Atom.header _ _).length + (s.buffer.length - (Atom.header _ _).length) = b.capacity
    rw [Atom.length_header, ← hlength]
    unfold Atom.headerSize at hsize
    omega
  size_eq := rfl
  offset_eq := rfl
  blocks_eq := rfl
  failed_eq := rfl
  dropped_eq := rfl
  sequence_eq := by
    show (s.buffer.startWith _).take Atom.headerSize = _
    rw [Buffer.take_eq, Buffer.bytes_startWith,
      List.take_left' (by rw [Atom.length_header, Atom.headerSize]), hschema]
    exact (List.append_nil _).symm

/-- Both put the block aside and still agree, or there are too many blocks for both. -/
theorem append_holds {s : Shelf} {b : Backlog} (h : s.Holds b) (input : Option Atom)
    (frames : UInt32) :
    (∃ s' b', s.append input frames = .ok s' ∧ b.append input frames = .ok b' ∧ s'.Holds b') ∨
      s.append input frames = .error .addition ∧ b.append input frames = .error .addition := by
  have hcount : ∀ {s : Shelf} {b : Backlog}, s.Holds b →
      Shelf.Holds
        { s with offset := min (s.offset + frames.toNat) Backlog.lastTime, blocks := s.blocks + 1 }
        { b with offset := min (b.offset + frames.toNat) Backlog.lastTime
                 blocks := b.blocks + 1 } := by
    intro s b h
    exact { h with
      offset_eq := congrArg (fun n => min (n + frames.toNat) Backlog.lastTime) h.offset_eq
      blocks_eq := congrArg (· + 1) h.blocks_eq }
  have hinput : ∃ (s' : Shelf) (b' : Backlog), s'.Holds b' ∧
      s.append input frames = (if s'.blocks + 1 < 2 ^ 32 then
        .ok { s' with offset := min (s'.offset + frames.toNat) Backlog.lastTime
                      blocks := s'.blocks + 1 }
        else .error .addition) ∧
      b.append input frames = (if b'.blocks + 1 < 2 ^ 32 then
        .ok { b' with offset := min (b'.offset + frames.toNat) Backlog.lastTime
                      blocks := b'.blocks + 1 }
        else .error .addition) := by
    cases input with
    | none => exact ⟨s, b, h, rfl, rfl⟩
    | some a => exact ⟨s.addAll a, b.addAll a, h.addAll a, rfl, rfl⟩
  obtain ⟨s', b', h', hs, hb⟩ := hinput
  have hsame := Stores.blocks_eq h'
  rw [hs, hb]
  by_cases hblocks : b'.blocks + 1 < 2 ^ 32
  · rw [if_pos hblocks, if_pos (hsame ▸ hblocks)]
    exact .inl ⟨_, _, rfl, rfl, hcount h'⟩
  · rw [if_neg hblocks, if_neg (hsame ▸ hblocks)]
    exact .inr ⟨rfl, rfl⟩

end Shelf

end BlockHost
