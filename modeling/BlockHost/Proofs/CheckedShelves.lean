import BlockHost.Proofs.CheckedWriting

/-!
# Backlogs in memory, with every sum and range checked

Here a block is put aside, and a backlog emptied, as it is done on words of 64 bits
(`Checked.append`, `Checked.reset`). As long as the number of lost events stays a word, nothing is
brought down, and a shelf that holds a backlog holds it afterwards.

What a shelf is made of is bytes, so it does not matter how many of its zeros are kept as such
(`Shelf.Stores.relaid`).
-/

namespace BlockHost

namespace Checked

/-! ## Calls on a shelf -/

/-- Without one more event. -/
def drop (s : Shelf) : Except Fault Shelf := do
  let dropped ← Fault.checkedAdd s.dropped 1
  return { s with failed := true, dropped }

/-- Puts an event aside, or drops it. -/
def add (s : Shelf) (event : Int64 × Atom) : Except Fault Shelf :=
  if s.failed then drop s
  else
    match Backlog.shift event.1 s.offset with
    | none => drop s
    | some time =>
        let write : Forging Unit := do
          Forge.raw (Bytes.int64 time)
          Forge.typed event.2.type event.2.body
        match write (Forge.resume s.schema.vocabulary s.buffer.bytes s.size) with
        | .ok _ f => .ok { s with buffer := .ofBytes f.buffer, size := f.offset }
        | .error (.refused _) f => drop { s with buffer := .ofBytes f.buffer }
        | .error (.crashed fault) _ => .error fault

/-- Puts the size of the sequence into its header. -/
def putSize (s : Shelf) : Except Fault Shelf := do
  let size ← sub s.size Atom.headerSize
  let bytes ← store s.buffer.bytes 0 (Bytes.word32 (UInt32.ofNat size))
  return { s with buffer := .ofBytes bytes }

/-- Puts the events of an atom aside, when it is a sequence. -/
def addAll (s : Shelf) (input : Atom) : Except Fault Shelf := do
  if input.type = s.schema.id .sequence then
    putSize (← (← events s.schema input).foldlM add s)
  else return s

/-- What lies at an input. -/
def view (schema : Schema) : Option Bytes → Except Fault (Option Atom)
  | none => .ok none
  | some bs => do
      match ← parse bs with
      | none => return none
      | some a =>
          let _ ← kindOf schema a.type
          return some a

/-- Puts the events of what lies at an input aside. -/
def addInput (s : Shelf) : Option Atom → Except Fault Shelf
  | none => .ok s
  | some a => addAll s a

/-- Puts a block of so many frames aside. -/
def append (s : Shelf) (input : Option Bytes) (frames : UInt32) : Except Fault Shelf := do
  let s ← addInput s (← view s.schema input)
  if s.blocks + 1 < 2 ^ 32 then
    return { s with offset := min (s.offset + frames.toNat) Backlog.lastTime
                    blocks := s.blocks + 1 }
  else throw .addition

/-- Without events and without losses. -/
def reset (s : Shelf) : Except Fault Shelf := do
  let bytes ← store s.buffer.bytes 0 (Bytes.word32 0)
  let bytes ← store bytes 4 (Bytes.word32 (s.schema.id .sequence))
  return {
    schema := s.schema
    buffer := .ofBytes bytes
    size := Atom.headerSize
    offset := 0
    blocks := 0
    failed := false
    dropped := 0 }

theorem view_eq (schema : Schema) (input : Option Buffer) :
    view schema (input.map Buffer.bytes) = .ok (input.bind Buffer.atom?) := by
  cases input with
  | none => rfl
  | some buffer =>
      rw [Option.map_some, view, parse_eq, Option.bind_some, buffer.atom?_eq]
      cases Atom.parse buffer.bytes with
      | none => rfl
      | some a =>
          simp only [bind, Except.bind, kindOf_eq]
          rfl

end Checked

/-! ## What they come to -/

namespace Shelf

variable {s : Shelf} {n : UInt32} {b : Backlog}

theorem Stores.relaid (h : s.Stores n b) (buffer : Buffer) (hbytes : buffer.bytes = s.buffer.bytes) :
    ({ s with buffer } : Shelf).Stores n b := by
  have hlength : buffer.length = s.buffer.length := by
    rw [← Buffer.length_bytes, hbytes, Buffer.length_bytes]
  have hsequence : ({ s with buffer } : Shelf).sequence = s.sequence := by
    rw [sequence, sequence, Buffer.take_eq, Buffer.take_eq, hbytes]
  exact { h with
    length_eq := hlength.trans h.length_eq
    sequence_eq := hsequence.trans h.sequence_eq }

theorem checked_drop_eq (h : s.dropped + 1 < 2 ^ 64) : Checked.drop s = .ok s.drop := by
  rw [Checked.drop, Checked.add_eq h]
  rfl

theorem event_follows (t : Int64) {a : Atom} (hbody : a.body.length < 2 ^ 32) :
    Checked.Forge.Follows (do
      Checked.Forge.raw (Bytes.int64 t)
      Checked.Forge.typed a.type a.body) (Writer.event t a) :=
  (Checked.Forge.raw_follows _).bind fun _ => Checked.Forge.typed_follows a.type hbody

theorem Stores.checked_add (h : s.Stores n b) {e : Int64 × Atom} (hbody : e.2.body.length < 2 ^ 32)
    (hcapacity : b.capacity < 2 ^ 64) (hdropped : b.dropped + 1 < 2 ^ 64) :
    ∃ s', Checked.add s e = .ok s' ∧ s'.Stores n (b.add e) := by
  have hadd := h.add e
  rw [← h.dropped_eq] at hdropped
  unfold Checked.add
  unfold Shelf.add at hadd
  by_cases hfailed : s.failed = true
  · rw [if_pos hfailed] at hadd ⊢
    exact ⟨s.drop, checked_drop_eq hdropped, hadd⟩
  · rw [if_neg hfailed] at hadd ⊢
    cases hshift : Backlog.shift e.1 s.offset with
    | none =>
        rw [hshift] at hadd
        exact ⟨s.drop, checked_drop_eq hdropped, hadd⟩
    | some time =>
        rw [hshift] at hadd
        obtain ⟨-, -, hroom⟩ := h.writer
        obtain ⟨hwrite, -, -⟩ := event_follows time hbody
          (Writer.startAt s.schema.vocabulary s.buffer s.size) rfl (hroom ▸ hcapacity)
        rw [Checked.Forge.of_startAt] at hwrite
        simp only [hwrite] at hadd ⊢
        cases hevent : Writer.event time e.2
            (Writer.startAt s.schema.vocabulary s.buffer s.size) with
        | ok _ w =>
            rw [hevent] at hadd
            exact ⟨_, rfl, hadd.relaid _ (Buffer.bytes_ofBytes _)⟩
        | error cause w =>
            rw [hevent] at hadd
            exact ⟨_, checked_drop_eq hdropped, hadd.relaid _ (Buffer.bytes_ofBytes _)⟩

theorem dropped_add_le (b : Backlog) (e : Int64 × Atom) : (b.add e).dropped ≤ b.dropped + 1 := by
  unfold Backlog.add
  split
  · exact Nat.le_refl _
  · split
    · exact Nat.le_refl _
    · dsimp only
      split
      · exact Nat.le_succ _
      · exact Nat.le_refl _

theorem Stores.checked_foldl (h : s.Stores n b) {events : List (Int64 × Atom)}
    (hwhole : Whole events) (hcapacity : b.capacity < 2 ^ 64)
    (hdropped : b.dropped + events.length < 2 ^ 64) :
    ∃ s', events.foldlM Checked.add s = .ok s' ∧ s'.Stores n (events.foldl Backlog.add b) := by
  induction events generalizing s b with
  | nil => exact ⟨s, rfl, h⟩
  | cons e rest ih =>
      have hone := dropped_add_le b e
      rw [List.length_cons] at hdropped
      obtain ⟨s', hadd, hs'⟩ := h.checked_add (hwhole.length_lt e List.mem_cons_self) hcapacity
        (by omega)
      rw [List.foldlM_cons, hadd]
      exact ih hs' (fun e he => hwhole e (List.mem_cons_of_mem _ he))
        ((Backlog.frame_add b e).2.2.2 ▸ hcapacity) (by omega)

theorem store_start {buffer : Buffer} {part : Bytes} (h : part.length ≤ buffer.length)
    (hrange : part.length < 2 ^ 64) :
    Checked.store buffer.bytes 0 part = .ok (buffer.startWith part).bytes := by
  rw [Checked.store_eq (by rw [Buffer.length_bytes, Nat.zero_add]; exact h)
      (by rw [Nat.zero_add]; exact hrange),
    Bytes.overwrite_eq (by rw [Buffer.length_bytes, Nat.zero_add]; exact h), Nat.zero_add,
    Buffer.bytes_startWith]
  rfl

theorem Stores.headerSize_le (h : s.Stores n b) : Atom.headerSize ≤ s.buffer.length := by
  have hsize := b.size_eq
  have hle := b.size_le
  rw [h.length_eq]
  omega

theorem Stores.checked_putSize (h : s.Stores n b) :
    ∃ s', Checked.putSize s = .ok s' ∧ s'.Holds b := by
  have hsize := b.size_eq
  have hlength := h.headerSize_le
  have hheader : Atom.headerSize = 8 := rfl
  have hword := Bytes.length_word32 (UInt32.ofNat (s.size - Atom.headerSize))
  have hstore : Checked.store s.buffer.bytes 0
      (Bytes.word32 (UInt32.ofNat (s.size - Atom.headerSize))) = .ok s.putSize.buffer.bytes :=
    store_start (by omega) (by omega)
  refine ⟨_, ?_, h.putSize.relaid (.ofBytes s.putSize.buffer.bytes) (Buffer.bytes_ofBytes _)⟩
  rw [Checked.putSize, Checked.sub_eq (by rw [h.size_eq]; omega)]
  simp only [bind, Except.bind, hstore]
  rfl

/-- What is read into a shelf is a sequence, whose events are kept or dropped one by one. -/
theorem Holds.checked_addAll (h : s.Holds b) {input : Atom}
    (hkind : b.schema.kindOf (b.schema.id .sequence) = .sequence)
    (hbody : input.body.length < 2 ^ 32) (hcapacity : b.capacity < 2 ^ 64)
    (hdropped : b.dropped + (input.events b.schema).length < 2 ^ 64) :
    ∃ s', Checked.addAll s input = .ok s' ∧ s'.Holds (b.addAll input) := by
  have hschema : s.schema = b.schema := Stores.schema_eq h
  unfold Checked.addAll Backlog.addAll
  rw [hschema]
  by_cases htype : input.type = b.schema.id .sequence
  · rw [if_pos htype, if_pos htype, Checked.events_eq (htype ▸ hkind) hbody]
    obtain ⟨s', hfold, hs'⟩ := Stores.checked_foldl h (input.whole_events _) hcapacity hdropped
    obtain ⟨s'', hsize, hs''⟩ := hs'.checked_putSize
    refine ⟨s'', ?_, hs''⟩
    simp only [bind, Except.bind, hfold]
    exact hsize
  · rw [if_neg htype, if_neg htype]
    exact ⟨s, rfl, h⟩

theorem Holds.counted (h : s.Holds b) (frames : UInt32) :
    Shelf.Holds
      { s with offset := min (s.offset + frames.toNat) Backlog.lastTime, blocks := s.blocks + 1 }
      { b with offset := min (b.offset + frames.toNat) Backlog.lastTime, blocks := b.blocks + 1 } :=
  { h with
    offset_eq := congrArg (fun n => min (n + frames.toNat) Backlog.lastTime) (Stores.offset_eq h)
    blocks_eq := congrArg (· + 1) (Stores.blocks_eq h) }

/-- A block that can be put aside at all is put aside without a fault. -/
theorem Holds.checked_append (h : s.Holds b) {input : Option Buffer} {frames : UInt32} {b' : Backlog}
    (hkind : b.schema.kindOf (b.schema.id .sequence) = .sequence) (hcapacity : b.capacity < 2 ^ 64)
    (hdropped : b.dropped + 2 ^ 28 < 2 ^ 64)
    (happend : b.append (input.bind Buffer.atom?) frames = .ok b') :
    ∃ s', Checked.append s (input.map Buffer.bytes) frames = .ok s' ∧ s'.Holds b' := by
  have hevents := length_eventsOf_lt b.schema input
  -- The events are put aside first; then the block is counted.
  have hadded : ∃ s₁ b₁, s₁.Holds b₁ ∧ Checked.addInput s (input.bind Buffer.atom?) = .ok s₁ ∧
      b.append (input.bind Buffer.atom?) frames =
        (if b₁.blocks + 1 < 2 ^ 32 then
          .ok { b₁ with offset := min (b₁.offset + frames.toNat) Backlog.lastTime
                        blocks := b₁.blocks + 1 }
        else .error .addition) := by
    cases ha : input.bind Buffer.atom? with
    | none => exact ⟨s, b, h, rfl, rfl⟩
    | some a =>
        obtain ⟨buffer, -, hparse⟩ := Option.bind_eq_some_iff.1 ha
        rw [ha, eventsOf] at hevents
        obtain ⟨s₁, hadd, hs₁⟩ := h.checked_addAll hkind
          (Atom.length_body_lt (buffer.atom?_eq ▸ hparse)) hcapacity (by omega)
        exact ⟨s₁, b.addAll a, hs₁, hadd, rfl⟩
  obtain ⟨s₁, b₁, h₁, hadd, hsplit⟩ := hadded
  rw [happend] at hsplit
  split at hsplit
  · next hblocks =>
      cases hsplit
      refine ⟨_, ?_, h₁.counted frames⟩
      unfold Checked.append
      simp only [Checked.view_eq, bind, Except.bind, hadd]
      exact if_pos (Stores.blocks_eq h₁ ▸ hblocks)
  · cases hsplit

theorem Holds.checked_reset (h : s.Holds b) :
    ∃ s', Checked.reset s = .ok s' ∧ s'.Holds b.reset := by
  have hlength := Stores.headerSize_le h
  have hheader : Atom.headerSize = 8 := rfl
  have hroom : s.buffer.bytes.length = s.buffer.length := s.buffer.length_bytes
  have hsize : (Bytes.word32 0).length = 4 := Bytes.length_word32 0
  have htype := Bytes.length_word32 (s.schema.id .sequence)
  have hfirst : Checked.store s.buffer.bytes 0 (Bytes.word32 0)
      = .ok (s.buffer.bytes.overwrite 0 (Bytes.word32 0)) :=
    Checked.store_eq (by omega) (by omega)
  have hsecond : Checked.store (s.buffer.bytes.overwrite 0 (Bytes.word32 0)) 4
      (Bytes.word32 (s.schema.id .sequence)) = .ok s.reset.buffer.bytes := by
    rw [Checked.store_eq (by rw [Bytes.length_overwrite]; omega) (by omega),
      Checked.overwrite_overwrite (by omega) (by omega),
      Bytes.overwrite_eq (by rw [List.length_append]; omega), Nat.zero_add]
    exact congrArg Except.ok (Buffer.bytes_startWith s.buffer _).symm
  have hreset : s.reset.Holds b.reset :=
    reset_holds (Stores.schema_eq h) (Stores.length_eq h)
  refine ⟨_, ?_, Stores.relaid hreset (.ofBytes s.reset.buffer.bytes) (Buffer.bytes_ofBytes _)⟩
  rw [Checked.reset]
  simp only [bind, Except.bind, hfirst, hsecond]
  rfl

end Shelf

end BlockHost
