import BlockHost.Proofs.Shelves

/-!
# What a backlog holds

A backlog holds the longest prefix of what it was offered that fits: all events up to the first one
whose time would not be a time, or which finds no room. An event is dropped for one of these two
reasons only once. After that the latch drops everything, and so the events that are kept are a
prefix over all blocks, not block by block.

The proof follows one split of the events seen so far, into those that are kept and those that are
lost (`Backlog.Splits`). What does not fit is the first of the lost ones, behind all that are kept;
since a list of events that fits has only prefixes that fit, no longer prefix can fit
(`LongestFitting.of_first`). The same is said of the bytes, by what `Shelf.append_holds` says of
each block.

Two bounds are those of words. The sequence declares its size in 32 bits, so events of 2 ^ 32 bytes
are all there but are not read; and the frames of all blocks are added up to the last time at most,
so from there on events are later by less than the plain sum.
-/

namespace BlockHost

/-! ## Lists of events that fit -/

/-- Events with times that can be any numbers. -/
abbrev Offers := List (Int × Atom)

/-- All times are times, and there is room for the whole sequence. -/
structure Fits (capacity : Nat) (events : Offers) : Prop where
  times : ∀ e ∈ events, e.1 ≤ Backlog.lastTime
  room : Atom.headerSize
    + (events.map fun e => 8 + padded (Atom.headerSize + e.2.body.length)).sum ≤ capacity

/-- Of all prefixes that fit, the longest. -/
structure LongestFitting (capacity : Nat) (offered kept : Offers) : Prop where
  begins : kept <+: offered
  fits : Fits capacity kept
  longest : ∀ other, other <+: offered → Fits capacity other → other <+: kept

section Fits

variable {capacity : Nat} {kept lost other : Offers}

theorem Fits.of_begins (h : Fits capacity kept) (hbegins : other <+: kept) :
    Fits capacity other := by
  obtain ⟨rest, rfl⟩ := hbegins
  have hroom := h.room
  rw [List.map_append, List.sum_append] at hroom
  exact ⟨fun e he => h.times e (List.mem_append_left rest he), by omega⟩

/-- When the first event behind a prefix that fits does not fit, no longer prefix does. -/
theorem LongestFitting.of_first (hfits : Fits capacity kept)
    (hfirst : ∀ e ∈ lost.head?, ¬ Fits capacity (kept ++ [e])) :
    LongestFitting capacity (kept ++ lost) kept := by
  refine ⟨List.prefix_append kept lost, hfits, fun other hother hfit => ?_⟩
  rcases List.prefix_or_prefix_of_prefix hother (List.prefix_append kept lost) with h | ⟨more, rfl⟩
  · exact h
  · cases more with
    | nil => exact ⟨[], by rw [List.append_nil, List.append_nil]⟩
    | cons e rest =>
        obtain ⟨behind, rfl⟩ := (List.prefix_append_right_inj kept).1 hother
        have hone : kept ++ [e] <+: kept ++ e :: rest :=
          (List.prefix_append_right_inj kept).2 (List.prefix_append [e] rest)
        exact absurd (hfit.of_begins hone) (hfirst e rfl)

end Fits

/-- Events with their times, which are words of 64 bits, as integers. -/
def intTimed (events : List (Int64 × Atom)) : Offers :=
  events.map fun e => (e.1.toInt, e.2)

/-- The same events, later by so many frames. -/
def shifted (delay : Nat) (events : List (Int64 × Atom)) : Offers :=
  events.map fun e => (e.1.toInt + delay, e.2)

/-- The events of blocks in a row, each later by what `delay` makes of the frames before its block.
-/
def offers (s : Schema) (delay : Nat → Nat) : (before : Nat) → List (Option Atom × UInt32) → Offers
  | _, [] => []
  | before, (input, frames) :: blocks =>
      shifted (delay before) (eventsOf s input) ++ offers s delay (before + frames.toNat) blocks

/-- The frames of blocks in a row. -/
def totalFrames (blocks : List (Option Atom × UInt32)) : Nat :=
  (blocks.map fun block => block.2.toNat).sum

/-- A sum of frames, which stays where times end. -/
def saturated (frames : Nat) : Nat :=
  min frames Backlog.lastTime

/-- As long as the sum of the frames is a time, every delay is the plain sum. -/
theorem offers_saturated {s : Schema} {before : Nat} {blocks : List (Option Atom × UInt32)}
    (h : before + totalFrames blocks ≤ Backlog.lastTime) :
    offers s saturated before blocks = offers s id before blocks := by
  induction blocks generalizing before with
  | nil => rfl
  | cons block blocks ih =>
      obtain ⟨input, frames⟩ := block
      rw [totalFrames, List.map_cons, List.sum_cons] at h
      have hdelay : saturated before = id before := Nat.min_eq_left (by omega)
      have hrest := @ih (before + frames.toNat) (by rwa [totalFrames, Nat.add_assoc])
      rw [offers, offers, hdelay, hrest]

/-! ## One sequence read back -/

/-- The bytes are one atom, a sequence, which is all there and is read to its end as these events.
-/
def IsSequence (s : Schema) (bs : Bytes) (events : Offers) : Prop :=
  ∃ (a : Atom) (found : List (Int64 × Atom)),
    Atom.parseWhole bs = some a ∧ a.type = s.id .sequence ∧ a.totalSize = bs.length ∧
      a.children s = (found.map fun e => (.time e.1, e.2)) ∧
      (encodeEvents found).length = a.body.length ∧ intTimed found = events

theorem Atom.children_ofBody_nil (s : Schema) (type : UInt32) :
    (ofBody type []).children s = [] := by
  have hslice : ∀ start, Bytes.slice? [] start 4 = none := by
    intro start
    rw [Bytes.slice?, List.drop_nil]
    rfl
  have hproperty : ∀ key, (ofBody type []).literalProperty? s key = none := by
    intro key
    unfold literalProperty? ofBody
    simp only [hslice, Option.map_none, ite_self]
  unfold children
  cases s.kindOf (ofBody type []).type with
  | literal => simp only [literalProperties, hproperty]
  | tuple => exact Layout.parse_nil _ _
  | object => exact Layout.parse_nil _ _
  | sequence => exact Layout.parse_nil _ _
  | _ => rfl

/-- The atom of a sequence of whole events is read to its end as these events. That the type of a
sequence has the kind of one matters only when there are events. -/
theorem isSequence_encode {s : Schema} {events : List (Int64 × Atom)} (hwhole : Whole events)
    (hkind : events = [] ∨ s.kindOf (s.id .sequence) = .sequence)
    (hsize : (encodeEvents events).length < 2 ^ 32) :
    IsSequence s (Atom.encode (s.id .sequence) (encodeEvents events)) (intTimed events) := by
  have hparse := Atom.parseWhole_encode (s.id .sequence) (encodeEvents events) [] hsize
  rw [List.append_nil] at hparse
  refine ⟨_, events, hparse, rfl, ?_, ?_, rfl, rfl⟩
  · have hmod := length_encodeEvents_mod events
    rw [Atom.totalSize, Atom.ofBody, UInt32.toNat_ofNat', Nat.mod_eq_of_lt hsize,
      Atom.length_encode]
    unfold padded Atom.headerSize
    omega
  · rcases hkind with hnone | hkind
    · rw [hnone]
      exact Atom.children_ofBody_nil _ _
    · rw [Atom.children, Atom.type_ofBody, hkind]
      exact Layout.parse_encodeEvents hwhole 0

namespace Backlog

theorem isSequence {b : Backlog} (hwhole : Whole b.events)
    (hkind : b.events = [] ∨ b.schema.kindOf (b.schema.id .sequence) = .sequence)
    (hsize : b.size < Atom.headerSize + 2 ^ 32) :
    IsSequence b.schema b.sequence (intTimed b.events) := by
  have hlength := b.length_events
  have hleast := b.size_eq
  rw [sequence_eq]
  exact isSequence_encode hwhole hkind (by omega)

/-- A sequence of 2 ^ 32 bytes says that it has none. -/
theorem not_isSequence_of_wrapped {b : Backlog} (hsize : b.size = Atom.headerSize + 2 ^ 32)
    (events : Offers) : ¬ IsSequence b.schema b.sequence events := by
  rintro ⟨a, found, hparse, -, htotal, -⟩
  have hlength : (encodeEvents b.events).length = 2 ^ 32 := by
    rw [b.length_events, hsize, Nat.add_sub_cancel_left]
  have hempty := Atom.parse_encode_wrapped (b.schema.id .sequence) hlength []
  rw [List.append_nil, ← sequence_eq] at hempty
  have hfound := (Option.filter_eq_some_iff.1 hparse).1
  rw [hempty] at hfound
  cases hfound
  rw [length_sequence, hsize] at htotal
  exact absurd htotal (by decide : ¬ Atom.headerSize + 0 = Atom.headerSize + 2 ^ 32)

/-! ## One event, one block -/

theorem add_of_dropped {b : Backlog} {e : Int64 × Atom} (h : (b.add e).failed = true) :
    b.add e = b.drop := by
  unfold add at h ⊢
  by_cases hfailed : b.failed = true
  · rw [if_pos hfailed]
  · rw [if_neg hfailed] at h ⊢
    cases hshift : shift e.1 b.offset with
    | none => rfl
    | some time =>
        rw [hshift] at h
        dsimp only at h ⊢
        split
        · next hsize =>
            rw [dif_pos hsize] at h
            exact absurd h hfailed
        · rfl

theorem dropped_of_kept {b : Backlog} {e : Int64 × Atom} (h : (b.add e).failed = false) :
    (b.add e).dropped = b.dropped := by
  obtain ⟨hgood, htime, hsize⟩ := (failed_add_iff b e).1 h
  have hsame : eventSize (Int64.ofInt (e.1.toInt + b.offset), e.2) = eventSize e := rfl
  unfold add
  rw [if_neg (by rw [hgood]; exact Bool.false_ne_true), shift, if_pos htime]
  simp only [hsame]
  rw [dif_pos hsize]

/-- Of the events that were seen, the backlog holds the first ones and has lost the others, because
the first of those does not fit. -/
structure Splits (b : Backlog) (seen lost : Offers) : Prop where
  seen_eq : seen = intTimed b.events ++ lost
  fits : Fits b.capacity (intTimed b.events)
  first : ∀ e ∈ lost.head?, ¬ Fits b.capacity (intTimed b.events ++ [e])
  dropped_eq : b.dropped = lost.length
  failed_iff : b.failed = true ↔ lost ≠ []
  whole : Whole b.events

/-- The bytes that have been counted are those of the events. -/
theorem size_eq_offers (b : Backlog) : b.size = Atom.headerSize
    + ((intTimed b.events).map fun e => 8 + padded (Atom.headerSize + e.2.body.length)).sum := by
  rw [intTimed, List.map_map, events, List.map_reverse, List.sum_reverse, b.size_eq]
  rfl

/-- Behind the events of a backlog, one more fits on the same terms on which it is kept. -/
theorem fits_snoc {b : Backlog} (h : Fits b.capacity (intTimed b.events)) (t : Int) (a : Atom) :
    Fits b.capacity (intTimed b.events ++ [(t, a)]) ↔
      t ≤ lastTime ∧ b.size + eventSize (0, a) ≤ b.capacity := by
  have hsize := b.size_eq_offers
  have hone : eventSize (0, a) = 8 + padded (Atom.headerSize + a.body.length) := rfl
  constructor
  · intro hfits
    have hroom := hfits.room
    rw [List.map_append, List.sum_append, List.map_singleton, List.sum_singleton] at hroom
    dsimp only at hroom
    refine ⟨hfits.times (t, a) (List.mem_append_right _ List.mem_cons_self), ?_⟩
    rw [hsize, hone]
    omega
  · rintro ⟨htime, hroom⟩
    refine ⟨fun e he => ?_, ?_⟩
    · rcases List.mem_append.1 he with he | he
      · exact h.times e he
      · rw [List.mem_singleton.1 he]
        exact htime
    · rw [List.map_append, List.sum_append, List.map_singleton, List.sum_singleton]
      rw [hsize, hone] at hroom
      dsimp only
      omega

theorem reset_splits (b : Backlog) : b.reset.Splits [] [] where
  seen_eq := rfl
  fits := ⟨fun e he => absurd he List.not_mem_nil, b.reset.size_le⟩
  first := fun e he => by cases he
  dropped_eq := rfl
  failed_iff := ⟨fun h => (by cases h), fun h => absurd rfl h⟩
  whole := fun e he => absurd he List.not_mem_nil

theorem Splits.add {b : Backlog} {seen lost : Offers} (h : b.Splits seen lost) {e : Int64 × Atom}
    (he : e.2.body.length = e.2.size.toNat) :
    ∃ lost', (b.add e).Splits (seen ++ [(e.1.toInt + b.offset, e.2)]) lost' := by
  have hsnoc := fits_snoc h.fits (e.1.toInt + b.offset) e.2
  obtain ⟨-, -, -, hcapacity⟩ := frame_add b e
  cases hfailed : (b.add e).failed with
  | false =>
      obtain ⟨hgood, htime, hroom⟩ := (failed_add_iff b e).1 hfailed
      have hlost : lost = [] := by
        cases lost with
        | nil => rfl
        | cons first rest =>
            have hbad := h.failed_iff.2 (List.cons_ne_nil first rest)
            rw [hgood] at hbad
            cases hbad
      have hevents := (add_of_kept hfailed).2
      have hintTimed : intTimed (b.add e).events
          = intTimed b.events ++ [(e.1.toInt + b.offset, e.2)] := by
        rw [hevents, intTimed, List.map_append, later, List.map_singleton, List.map_singleton,
          toInt_later htime]
        rfl
      refine ⟨[], ?_, ?_, fun e he => (by cases he), ?_, ?_, ?_⟩
      · rw [h.seen_eq, hlost, hintTimed, List.append_nil, List.append_nil]
      · rw [hcapacity, hintTimed]
        exact hsnoc.2 ⟨htime, hroom⟩
      · rw [dropped_of_kept hfailed, h.dropped_eq, hlost]
      · rw [hfailed]
        exact ⟨fun h => (by cases h), fun h => absurd rfl h⟩
      · rw [hevents]
        refine h.whole.append fun e' he' => ?_
        rw [List.mem_singleton.1 he']
        exact he
  | true =>
      rw [add_of_dropped hfailed]
      refine ⟨lost ++ [(e.1.toInt + b.offset, e.2)], ?_, h.fits, ?_, ?_, ?_, h.whole⟩
      · rw [h.seen_eq, List.append_assoc]
        rfl
      · intro first hmem hfits
        cases lost with
        | cons e' rest => exact h.first first hmem hfits
        | nil =>
            cases hmem
            obtain ⟨htime, hroom⟩ := hsnoc.1 hfits
            have hgood : b.failed = false :=
              Bool.eq_false_iff.2 fun hbad => h.failed_iff.1 hbad rfl
            rw [(failed_add_iff b e).2 ⟨hgood, htime, hroom⟩] at hfailed
            cases hfailed
      · rw [List.length_append, ← h.dropped_eq]
        rfl
      · exact ⟨fun _ hnil => (by cases (List.append_eq_nil_iff.1 hnil).2), fun _ => rfl⟩

theorem Splits.foldl {b : Backlog} {seen lost : Offers} (h : b.Splits seen lost)
    {events : List (Int64 × Atom)} (hwhole : Whole events) :
    ∃ lost', (events.foldl Backlog.add b).Splits (seen ++ shifted b.offset events) lost' := by
  induction events generalizing b seen lost with
  | nil =>
      rw [shifted, List.map_nil, List.append_nil]
      exact ⟨lost, h⟩
  | cons e rest ih =>
      obtain ⟨lost', hone⟩ := h.add (hwhole e List.mem_cons_self)
      obtain ⟨lost'', hrest⟩ := ih hone fun e he => hwhole e (List.mem_cons_of_mem _ he)
      rw [(frame_add b e).1, List.append_assoc] at hrest
      exact ⟨lost'', hrest⟩

/-! ## Block after block -/

theorem Splits.append {b : Backlog} {seen lost : Offers} (h : b.Splits seen lost)
    {input : Option Atom} {frames : UInt32} {b' : Backlog}
    (happend : b.append input frames = .ok b') :
    b'.offset = min (b.offset + frames.toNat) lastTime ∧ b'.blocks = b.blocks + 1 ∧
      b'.schema = b.schema ∧ b'.capacity = b.capacity ∧
      ∃ lost', b'.Splits (seen ++ shifted b.offset (eventsOf b.schema input)) lost' := by
  rw [append_eq] at happend
  split at happend
  · cases happend
    obtain ⟨lost', hadded⟩ := h.foldl (whole_eventsOf b.schema input)
    obtain ⟨-, -, hschema, hcapacity⟩ := frame_foldl b (eventsOf b.schema input)
    exact ⟨rfl, rfl, hschema, hcapacity, lost', hadded.seen_eq, hadded.fits, hadded.first,
      hadded.dropped_eq, hadded.failed_iff, hadded.whole⟩
  · cases happend

/-- Puts blocks into a backlog, one behind the other, as long as no count leaves its word. -/
def appendAll (b : Backlog) (blocks : List (Option Atom × UInt32)) : Except Fault Backlog :=
  blocks.foldlM (fun b block => b.append block.1 block.2) b

theorem appendAll_cons (b : Backlog) (block : Option Atom × UInt32)
    (blocks : List (Option Atom × UInt32)) :
    b.appendAll (block :: blocks)
      = (b.append block.1 block.2).bind fun b => b.appendAll blocks := rfl

theorem Splits.appendAll {b : Backlog} {seen lost : Offers} (h : b.Splits seen lost) {before : Nat}
    (hoffset : b.offset = saturated before) (blocks : List (Option Atom × UInt32)) {b' : Backlog}
    (hrun : b.appendAll blocks = .ok b') :
    b'.offset = saturated (before + totalFrames blocks) ∧ b'.blocks = b.blocks + blocks.length ∧
      b'.schema = b.schema ∧ b'.capacity = b.capacity ∧
      ∃ lost', b'.Splits (seen ++ offers b.schema saturated before blocks) lost' := by
  induction blocks generalizing b seen lost before with
  | nil =>
      cases hrun
      refine ⟨hoffset, rfl, rfl, rfl, lost, ?_⟩
      rw [offers, List.append_nil]
      exact h
  | cons block blocks ih =>
      rw [appendAll_cons] at hrun
      cases hone : b.append block.1 block.2 with
      | error fault =>
          rw [hone] at hrun
          cases hrun
      | ok mid =>
          rw [hone] at hrun
          obtain ⟨hoffset', hblocks', hschema', hcapacity', lost', hmid⟩ := h.append hone
          have hsum : mid.offset = saturated (before + block.2.toNat) := by
            rw [hoffset', hoffset]
            unfold saturated
            omega
          obtain ⟨hoffset'', hblocks'', hschema'', hcapacity'', lost'', hrest⟩ := ih hmid hsum hrun
          refine ⟨?_, ?_, hschema''.trans hschema', hcapacity''.trans hcapacity', lost'', ?_⟩
          · rw [hoffset'', totalFrames, totalFrames, List.map_cons, List.sum_cons, Nat.add_assoc]
          · rw [hblocks'', hblocks', List.length_cons]
            omega
          · rw [hschema', hoffset, List.append_assoc] at hrest
            exact hrest

/-- What is left when blocks have been put aside: the longest prefix that fits, as the events of one
sequence, and the counts. -/
structure Remains (schema : Schema) (capacity : Nat) (blocks : List (Option Atom × UInt32))
    (b : Backlog) : Prop where
  longest : LongestFitting capacity (offers schema saturated 0 blocks) (intTimed b.events)
  encoded : b.sequence = Atom.encode (schema.id .sequence) (encodeEvents b.events)
  inside : b.sequence.length ≤ capacity
  /-- The size in a header is a number of 32 bits. -/
  readable : b.sequence.length < Atom.headerSize + 2 ^ 32 →
    IsSequence schema b.sequence (intTimed b.events)
  dropped_eq : b.dropped = (offers schema saturated 0 blocks).length - (intTimed b.events).length
  failed_iff : b.failed = true ↔ 0 < b.dropped
  offset_eq : b.offset = saturated (totalFrames blocks)
  blocks_eq : b.blocks = blocks.length

/-- A backlog is made with the room that is asked for, and with no less than the least. -/
theorem exists_create (s : Schema) (room : Nat) (hroom : max room minCapacity ≤ Fault.maxLength) :
    ∃ fresh, create s room = .ok fresh ∧ fresh.capacity = max room minCapacity ∧
      fresh.schema = s ∧ fresh.reset = fresh := by
  unfold create
  rw [Fault.addressable, if_pos hroom]
  exact ⟨_, rfl, rfl, rfl, rfl⟩

theorem exists_appendAll {b : Backlog} {blocks : List (Option Atom × UInt32)}
    (hfew : b.blocks + blocks.length < 2 ^ 32) : ∃ b', b.appendAll blocks = .ok b' := by
  induction blocks generalizing b with
  | nil => exact ⟨b, rfl⟩
  | cons block blocks ih =>
      rw [List.length_cons] at hfew
      rw [appendAll_cons, append_eq, if_pos (by omega)]
      refine ih ?_
      have hblocks : (b.appended (eventsOf b.schema block.1) block.2).blocks = b.blocks + 1 := rfl
      omega

/-- Events that fit are all kept. -/
theorem exists_kept {b : Backlog} (hreset : b.reset = b) {blocks : List (Option Atom × UInt32)}
    (hfew : blocks.length < 2 ^ 32)
    (hfits : Fits b.capacity (offers b.schema saturated 0 blocks)) :
    ∃ b', b.appendAll blocks = .ok b' ∧ b'.schema = b.schema ∧
      intTimed b'.events = offers b.schema saturated 0 blocks := by
  rw [← hreset] at hfits ⊢
  have hblocks : b.reset.blocks + blocks.length = blocks.length := Nat.zero_add _
  obtain ⟨b', hrun⟩ := exists_appendAll (b := b.reset) (by rwa [hblocks])
  obtain ⟨-, -, hschema, hcapacity, lost, hsplits⟩ :=
    b.reset_splits.appendAll (show b.reset.offset = saturated 0 from rfl) blocks hrun
  refine ⟨b', hrun, hschema, ?_⟩
  rw [List.nil_append] at hsplits
  cases lost with
  | nil => rw [hsplits.seen_eq, List.append_nil]
  | cons e rest =>
      have hbegins : intTimed b'.events ++ [e] <+: offers b.reset.schema saturated 0 blocks := by
        rw [hsplits.seen_eq]
        exact (List.prefix_append_right_inj _).2 (List.prefix_append [e] rest)
      exact absurd (hcapacity ▸ hfits.of_begins hbegins) (hsplits.first e rfl)

theorem kindOf_sequence_of_mem_offers {s : Schema} {delay : Nat → Nat} {before : Nat}
    {blocks : List (Option Atom × UInt32)} {e : Int × Atom}
    (he : e ∈ offers s delay before blocks) :
    s.kindOf (s.id .sequence) = .sequence := by
  induction blocks generalizing before with
  | nil => cases he
  | cons block blocks ih =>
      rcases List.mem_append.1 he with hmem | hmem
      · obtain ⟨e', hevent, -⟩ := List.mem_map.1 hmem
        cases hinput : block.1 with
        | none =>
            rw [hinput] at hevent
            cases hevent
        | some a =>
            rw [hinput] at hevent
            have hkind := (Atom.mem_events hevent).1
            rwa [Schema.eq_of_kindOf_sequence hkind] at hkind
      · exact ih hmem

theorem Splits.remains {b : Backlog} {capacity : Nat} {schema : Schema}
    {blocks : List (Option Atom × UInt32)} {lost : Offers}
    (h : b.Splits (offers schema saturated 0 blocks) lost) (hschema : b.schema = schema)
    (hcapacity : b.capacity = capacity) (hoffset : b.offset = saturated (totalFrames blocks))
    (hblocks : b.blocks = blocks.length) : Remains schema capacity blocks b where
  longest := by
    rw [h.seen_eq, ← hcapacity]
    exact .of_first h.fits h.first
  encoded := hschema ▸ b.sequence_eq
  inside := by
    rw [length_sequence, ← hcapacity]
    exact b.size_le
  readable := by
    intro hsize
    rw [length_sequence] at hsize
    rw [← hschema]
    refine isSequence h.whole ?_ hsize
    cases hevents : b.events with
    | nil => exact .inl rfl
    | cons e rest =>
        right
        have hmem : (e.1.toInt, e.2) ∈ offers schema saturated 0 blocks := by
          rw [h.seen_eq, intTimed, hevents]
          exact List.mem_append_left _ List.mem_cons_self
        rw [hschema]
        exact kindOf_sequence_of_mem_offers hmem
  dropped_eq := by
    rw [h.seen_eq, List.length_append, h.dropped_eq]
    omega
  failed_iff := by
    rw [h.failed_iff, h.dropped_eq, List.length_pos_iff]
  offset_eq := hoffset
  blocks_eq := hblocks

end Backlog

namespace Shelf

/-- Puts blocks onto a shelf, one behind the other, as long as no count leaves its word. -/
def appendAll (s : Shelf) (blocks : List (Option Atom × UInt32)) : Except Fault Shelf :=
  blocks.foldlM (fun s block => s.append block.1 block.2) s

theorem appendAll_holds {s : Shelf} {b : Backlog} (h : s.Holds b)
    (blocks : List (Option Atom × UInt32)) :
    (∃ s' b', s.appendAll blocks = .ok s' ∧ b.appendAll blocks = .ok b' ∧ s'.Holds b') ∨
      s.appendAll blocks = .error .addition ∧ b.appendAll blocks = .error .addition := by
  induction blocks generalizing s b with
  | nil => exact .inl ⟨s, b, rfl, rfl, h⟩
  | cons block blocks ih =>
      have hcons : s.appendAll (block :: blocks)
          = (s.append block.1 block.2).bind fun s => s.appendAll blocks := rfl
      rw [hcons, Backlog.appendAll_cons]
      rcases append_holds h block.1 block.2 with ⟨s', b', hs, hb, h'⟩ | ⟨hs, hb⟩
      · rw [hs, hb]
        exact ih h'
      · rw [hs, hb]
        exact .inr ⟨rfl, rfl⟩

end Shelf

namespace Backlog

/-- Only too many blocks keep a block from being put aside. -/
theorem appendAll_error_iff {b : Backlog} (hb : b.blocks < 2 ^ 32)
    (blocks : List (Option Atom × UInt32)) :
    b.appendAll blocks = .error .addition ↔ 2 ^ 32 ≤ b.blocks + blocks.length := by
  induction blocks generalizing b with
  | nil =>
      refine ⟨fun h => (by cases h), fun h => ?_⟩
      rw [List.length_nil, Nat.add_zero] at h
      exact absurd hb (Nat.not_lt.2 h)
  | cons block blocks ih =>
      rw [appendAll_cons, append_eq, List.length_cons]
      by_cases hlt : b.blocks + 1 < 2 ^ 32
      · rw [if_pos hlt]
        have hrest := @ih (b.appended (eventsOf b.schema block.1) block.2) hlt
        have hblocks : (b.appended (eventsOf b.schema block.1) block.2).blocks
            = b.blocks + 1 := rfl
        rw [hblocks] at hrest
        refine hrest.trans ?_
        omega
      · rw [if_neg hlt]
        refine ⟨fun _ => ?_, fun _ => rfl⟩
        omega

/-- A new backlog is empty, and has the room that is asked for or the least. From an emptied backlog
on, blocks are put aside until there are too many of them. What is left is the longest prefix of
their events that fits, and the same bytes lie on a shelf, whatever lay there before. Delays are
plain sums of frames as long as these are times. -/
theorem longest_prefix_kept {b : Backlog} {s : Shelf} (hschema : s.schema = b.schema)
    (hlength : s.buffer.length = b.capacity) (blocks : List (Option Atom × UInt32)) :
    (∀ room, max room minCapacity ≤ Fault.maxLength → ∃ fresh, create b.schema room = .ok fresh ∧
      fresh.capacity = max room minCapacity ∧ fresh.schema = b.schema ∧ fresh.reset = fresh) ∧
    ((2 ^ 32 ≤ blocks.length ∧ b.reset.appendAll blocks = .error .addition ∧
      s.reset.appendAll blocks = .error .addition) ∨
    (blocks.length < 2 ^ 32 ∧ ∃ (b' : Backlog) (s' : Shelf),
      b.reset.appendAll blocks = .ok b' ∧ s.reset.appendAll blocks = .ok s' ∧
        Remains b.schema b.capacity blocks b' ∧ s'.Holds b' ∧ s'.sequence = b'.sequence ∧
        (totalFrames blocks ≤ lastTime →
          offers b.schema saturated 0 blocks = offers b.schema id 0 blocks))) := by
  refine ⟨fun room hroom => exists_create b.schema room hroom, ?_⟩
  have herror := appendAll_error_iff (b := b.reset) (Nat.two_pow_pos 32) blocks
  have hblocks : b.reset.blocks + blocks.length = blocks.length := Nat.zero_add _
  rw [hblocks] at herror
  rcases Shelf.appendAll_holds (Shelf.reset_holds hschema hlength) blocks with
    ⟨s', b', hs, hb, hholds⟩ | ⟨hs, hb⟩
  · right
    have hfew : blocks.length < 2 ^ 32 := by
      refine Nat.not_le.1 fun hmany => ?_
      rw [herror.2 hmany] at hb
      cases hb
    obtain ⟨hoffset, hcount, hschema', hcapacity', lost, hsplits⟩ :=
      b.reset_splits.appendAll (show b.reset.offset = saturated 0 from rfl) blocks hb
    refine ⟨hfew, b', s', hb, hs, ?_, hholds, hholds.sequence_eq, fun hsum => ?_⟩
    · rw [Nat.zero_add] at hoffset
      rw [hblocks] at hcount
      exact hsplits.remains hschema' hcapacity' hoffset hcount
    · exact offers_saturated (by rwa [Nat.zero_add])
  · exact .inl ⟨herror.1 hb, hb, hs⟩

/-- A backlog with room for two numbers, in a buffer full of ones, and blocks with three: the time
of the last one is no time any more. -/
theorem longest_prefix_kept_late :
    let schema := Schema.ofVocabulary ⟨fun t => UInt32.ofNat (Term.all.idxOf t)⟩
    let b : Backlog := ⟨schema, 64, [], 8, rfl, by decide, 7, 2, true, 3⟩
    let s : Shelf := ⟨schema, .ofBytes (List.replicate 64 0xFF), 64, 7, 2, true, 3⟩
    let note (t : Int64) : Option Atom × UInt32 :=
      (some (.ofBody (schema.id .sequence)
        (encodeEvents [(t, .ofBody (schema.id .int) (Bytes.word32 7))])), 16)
    let blocks := [note (-5), note 3, note Int64.maxValue]
    ∃ (b' : Backlog) (s' : Shelf),
      b.reset.appendAll blocks = .ok b' ∧ s.reset.appendAll blocks = .ok s' ∧
        Remains b.schema b.capacity blocks b' ∧ s'.Holds b' ∧ s'.sequence = b'.sequence ∧
        offers b.schema saturated 0 blocks = offers b.schema id 0 blocks := by
  intro schema b s note blocks
  rcases (longest_prefix_kept (b := b) (s := s) rfl rfl blocks).2 with
    ⟨hmany, -⟩ | ⟨-, b', s', hb, hs, hremains, hholds, hsame, hplain⟩
  · exact absurd hmany (by decide)
  · exact ⟨b', s', hb, hs, hremains, hholds, hsame, hplain (by decide)⟩

/-- A block of sixteen frames that shows the given events. -/
def eventsBlock (s : Schema) (events : List (Int64 × Atom)) : Option Atom × UInt32 :=
  (some (.ofBody (s.id .sequence) (encodeEvents events)), 16)

section Offers

variable {s : Schema} {events : List (Int64 × Atom)} {delay : Nat → Nat} {before : Nat}

theorem offers_eventsBlock (hkind : s.kindOf (s.id .sequence) = .sequence) (hwhole : Whole events)
    (blocks : List (Option Atom × UInt32)) :
    offers s delay before (eventsBlock s events :: blocks)
      = shifted (delay before) events ++ offers s delay (before + 16) blocks := by
  have hevents : eventsOf s (eventsBlock s events).1 = events := Atom.events_sequence hkind hwhole
  rw [eventsBlock] at hevents ⊢
  rw [offers, hevents]
  rfl

theorem offers_idle (n : Nat) (frames : UInt32) (blocks : List (Option Atom × UInt32)) :
    offers s delay before (List.replicate n (none, frames) ++ blocks)
      = offers s delay (before + n * frames.toNat) blocks := by
  induction n generalizing before with
  | zero => rw [Nat.zero_mul]; rfl
  | succ n ih =>
      have hnone : shifted (delay before) (eventsOf s none) = [] := rfl
      rw [List.replicate_succ, List.cons_append, offers, hnone, List.nil_append, ih, Nat.add_mul,
        Nat.one_mul, Nat.add_assoc, Nat.add_comm frames.toNat]

end Offers

/-- Two events do not fit into 32 bytes, and are kept by a backlog for which 32 bytes were asked. A
sequence of 2 ^ 32 bytes holds all events, and is not read as one. An event behind so many frames
that their sum is no time is kept. More room than can be addressed is refused, and so are more blocks
than can be counted. -/
theorem longest_prefix_missed :
    let s := Schema.ofVocabulary ⟨fun t => UInt32.ofNat (Term.all.idxOf t)⟩
    let note (t : Int64) := [(t, Atom.ofBody (s.id .int) (Bytes.word32 7))]
    let pair := [eventsBlock s (note 3), eventsBlock s (note 4)]
    let zeros := [eventsBlock s (zerosAt s (2 ^ 31 - 16)), eventsBlock s (zerosAt s (2 ^ 31 - 16))]
    let idle := List.replicate (2 ^ 31 + 2) (none, 4294967295) ++ [eventsBlock s (note (-5))]
    (∃ b b', create s 32 = .ok b ∧ b.appendAll pair = .ok b' ∧
      ¬ LongestFitting 32 (offers s id 0 pair) (intTimed b'.events)) ∧
    (∃ b b', create s (2 ^ 32 + 8) = .ok b ∧ b.appendAll zeros = .ok b' ∧
      LongestFitting (2 ^ 32 + 8) (offers s id 0 zeros) (intTimed b'.events) ∧
      ∀ events, ¬ IsSequence s b'.sequence events) ∧
    (∃ b b', create s 64 = .ok b ∧ b.appendAll idle = .ok b' ∧
      ¬ LongestFitting 64 (offers s id 0 idle) (intTimed b'.events)) ∧
    create s (2 ^ 63) = .error .capacity ∧
    ∃ b, create s 64 = .ok b ∧
      b.appendAll (List.replicate (2 ^ 32) (none, 16)) = .error .addition := by
  intro s note pair zeros idle
  have hkind : s.kindOf (s.id .sequence) = .sequence := by decide
  have hnote : ∀ t, Whole (note t) := fun t =>
    whole_single t _ (by rw [Bytes.length_word32]; decide)
  have hzeros : Whole (zerosAt s (2 ^ 31 - 16)) :=
    whole_single 0 _ (by rw [Bytes.length_zeros]; decide)
  refine ⟨?_, ?_, ?_, ?_, ?_⟩
  · obtain ⟨b, hcreate, hcapacity, hschema, hreset⟩ := exists_create s 32 (by decide)
    have hoffers : ∀ delay : Nat → Nat, delay 0 = 0 → delay 16 = 16 → offers s delay 0 pair
        = [(3, .ofBody (s.id .int) (Bytes.word32 7)), (20, .ofBody (s.id .int) (Bytes.word32 7))] := by
      intro delay hfirst hsecond
      rw [offers_eventsBlock hkind (hnote 3), offers_eventsBlock hkind (hnote 4), Nat.zero_add,
        hfirst, hsecond]
      rfl
    have hfits : Fits b.capacity (offers b.schema saturated 0 pair) := by
      rw [hcapacity, hschema, hoffers saturated rfl rfl]
      exact ⟨by decide, by decide⟩
    obtain ⟨b', hrun, -, hkept⟩ := exists_kept hreset (by decide) hfits
    refine ⟨b, b', hcreate, hrun, fun hlongest => ?_⟩
    have hroom := hlongest.fits.room
    rw [hkept, hschema, hoffers saturated rfl rfl] at hroom
    exact absurd hroom (by decide)
  · obtain ⟨b, hcreate, hcapacity, hschema, hreset⟩ :=
      exists_create s (2 ^ 32 + 8) (by decide)
    have hoffers : ∀ delay : Nat → Nat, delay 0 = 0 → delay 16 = 16 → offers s delay 0 zeros
        = [(0, .ofBody (s.id .chunk) (Bytes.zeros (2 ^ 31 - 16))),
          (16, .ofBody (s.id .chunk) (Bytes.zeros (2 ^ 31 - 16)))] := by
      intro delay hfirst hsecond
      rw [offers_eventsBlock hkind hzeros, offers_eventsBlock hkind hzeros, Nat.zero_add,
        hfirst, hsecond]
      rfl
    have hsum : ((offers s saturated 0 zeros).map
        fun e => 8 + padded (Atom.headerSize + e.2.body.length)).sum = 2 ^ 32 := by
      rw [hoffers saturated rfl rfl, List.map_cons, List.map_singleton, List.sum_cons,
        List.sum_singleton]
      simp only [Atom.body_ofBody, Bytes.length_zeros]
      decide
    have hfits : Fits b.capacity (offers b.schema saturated 0 zeros) := by
      rw [hcapacity, hschema]
      refine ⟨?_, Nat.le_of_eq ((congrArg _ hsum).trans rfl)⟩
      rw [hoffers saturated rfl rfl]
      intro e he
      rcases List.mem_cons.1 he with rfl | he
      · decide
      · rw [List.mem_singleton.1 he]
        decide
    obtain ⟨b', hrun, hschema', hkept⟩ := exists_kept hreset (by decide) hfits
    have hsame : offers s id 0 zeros = intTimed b'.events := by
      rw [hkept, hschema, hoffers id rfl rfl, hoffers saturated rfl rfl]
    refine ⟨b, b', hcreate, hrun, ?_, ?_⟩
    · rw [hsame]
      refine ⟨List.prefix_rfl, ?_, fun other hother _ => hother⟩
      rw [hkept]
      rw [hcapacity] at hfits
      exact hfits
    · have hsize : b'.size = Atom.headerSize + 2 ^ 32 := by
        rw [b'.size_eq_offers, hkept, hschema, hsum]
      rw [← hschema, ← hschema']
      exact not_isSequence_of_wrapped hsize
  · obtain ⟨b, hcreate, hcapacity, hschema, hreset⟩ := exists_create s 64 (by decide)
    have hoffers : ∀ delay : Nat → Nat, offers s delay 0 idle
        = shifted (delay ((2 ^ 31 + 2) * 4294967295)) (note (-5)) := by
      intro delay
      rw [offers_idle, Nat.zero_add, offers_eventsBlock hkind (hnote (-5))]
      exact List.append_nil _
    have hfits : Fits b.capacity (offers b.schema saturated 0 idle) := by
      rw [hcapacity, hschema, hoffers]
      exact ⟨by decide, by decide⟩
    obtain ⟨b', hrun, -, hkept⟩ := exists_kept hreset (by
      rw [List.length_append, List.length_replicate]
      decide) hfits
    refine ⟨b, b', hcreate, hrun, fun hlongest => ?_⟩
    -- What is kept is at the last time of all, and no prefix of what the plain sum makes of it.
    obtain ⟨rest, hbegins⟩ := hlongest.begins
    rw [hkept, hschema, hoffers, hoffers] at hbegins
    cases hbegins
  · unfold create
    rw [Fault.addressable, if_neg (by decide)]
    rfl
  · obtain ⟨b, hcreate, -, -, hreset⟩ := exists_create s 64 (by decide)
    have hblocks : b.blocks = 0 := (congrArg Backlog.blocks hreset).symm
    refine ⟨b, hcreate, (appendAll_error_iff (by rw [hblocks]; decide) _).2 ?_⟩
    rw [List.length_replicate]
    exact Nat.le_add_left _ _

end Backlog

end BlockHost
