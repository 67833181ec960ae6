import BlockHost.Backlog
import BlockHost.Proofs.Appending
import BlockHost.Proofs.Cursors

/-!
# Events on their way through a writer

An output that is being filled holds a sequence which is still open, and in it so many events.
This is all there is to know about it (`Writer.holding`), and every call that a block makes on
an output leads from one such writer to another: `Writer.events` puts events behind those that
are there, when their times go on from the last one (`appends_events`), `Writer.restartTimes`
sets all times to zero (`restartTimes_holding`), and closing makes the atom of the sequence
(`close_holding`), in which the same events are read again (`events_sequence`).

Times are put to zero in the bytes, by a walk from header to header. The walk meets exactly the
times because each atom is all there: the size in its header is the length of its body.
-/

namespace BlockHost

/-- The events of an atom all of whose children are there are themselves all there. -/
def Whole (events : List (Int64 × Atom)) : Prop :=
  ∀ e ∈ events, e.2.body.length = e.2.size.toNat

/-- Times that do not decrease, the first of them not before the given one. -/
def Ordered (first : Int64) (events : List (Int64 × Atom)) : Prop :=
  (first :: events.map Prod.fst).Pairwise (· ≤ ·)

/-- The last time, and the given one if there is none. -/
def lastTime (first : Int64) (events : List (Int64 × Atom)) : Int64 :=
  (events.getLast?.map Prod.fst).getD first

/-- The same events, all of them at time zero. -/
def atZero (events : List (Int64 × Atom)) : List (Int64 × Atom) :=
  events.map fun e => (0, e.2)

/-- Events as they stand in the body of a sequence. -/
def encodeEvents (events : List (Int64 × Atom)) : Bytes :=
  events.flatMap Backlog.encodeEvent

section Events

variable {first t : Int64} {a : Atom} {events rest : List (Int64 × Atom)}

theorem Whole.length_lt (h : Whole events) : ∀ e ∈ events, e.2.body.length < 2 ^ 32 := by
  intro e he
  rw [h e he]
  exact e.2.size.toNat_lt

theorem Whole.append (h : Whole events) (hrest : Whole rest) : Whole (events ++ rest) := by
  intro e he
  rcases List.mem_append.1 he with he | he
  · exact h e he
  · exact hrest e he

theorem Whole.atZero (h : Whole events) : Whole (atZero events) := by
  intro e he
  obtain ⟨e, hmem, rfl⟩ := List.mem_map.1 he
  exact h e hmem

theorem Whole.of_atZero (h : Whole (BlockHost.atZero events)) : Whole events :=
  fun e he => h (0, e.2) (List.mem_map.2 ⟨e, he, rfl⟩)

theorem Ordered.cons (h : Ordered first ((t, a) :: rest)) : first ≤ t ∧ Ordered t rest := by
  obtain ⟨hfirst, hrest⟩ := List.pairwise_cons.1 h
  exact ⟨hfirst t List.mem_cons_self, hrest⟩

theorem Ordered.nonneg (h : Ordered 0 events) : ∀ e ∈ events, 0 ≤ e.1.toInt := by
  intro e he
  have hle := (List.pairwise_cons.1 h).1 e.1 (List.mem_map_of_mem he)
  rwa [Int64.le_iff_toInt_le, Int64.toInt_zero] at hle

theorem ordered_nil (first : Int64) : Ordered first [] :=
  List.pairwise_singleton _ _

theorem Ordered.append (h : Ordered first events) (hrest : Ordered first rest)
    (hle : ∀ e ∈ events, ∀ e' ∈ rest, e.1.toInt ≤ e'.1.toInt) : Ordered first (events ++ rest) := by
  obtain ⟨hfirst, hevents⟩ := List.pairwise_cons.1 h
  obtain ⟨hfirst', hrest⟩ := List.pairwise_cons.1 hrest
  refine List.pairwise_cons.2 ⟨fun t ht => ?_, ?_⟩
  · rw [List.map_append] at ht
    rcases List.mem_append.1 ht with ht | ht
    · exact hfirst t ht
    · exact hfirst' t ht
  · rw [List.map_append]
    refine List.pairwise_append.2 ⟨hevents, hrest, fun t ht t' ht' => ?_⟩
    obtain ⟨e, he, rfl⟩ := List.mem_map.1 ht
    obtain ⟨e', he', rfl⟩ := List.mem_map.1 ht'
    exact Int64.le_iff_toInt_le.2 (hle e he e' he')

theorem lastTime_nil (first : Int64) : lastTime first [] = first := rfl

theorem lastTime_cons (first t : Int64) (a : Atom) (rest : List (Int64 × Atom)) :
    lastTime first ((t, a) :: rest) = lastTime t rest := by
  rw [lastTime, lastTime, List.getLast?_cons]
  cases rest.getLast? <;> rfl

theorem lastTime_append (first : Int64) (events rest : List (Int64 × Atom)) :
    lastTime first (events ++ rest) = lastTime (lastTime first events) rest := by
  induction events generalizing first with
  | nil => rfl
  | cons e events ih => rw [List.cons_append, lastTime_cons, lastTime_cons, ih]

theorem atZero_append (events rest : List (Int64 × Atom)) :
    atZero (events ++ rest) = atZero events ++ atZero rest :=
  List.map_append

theorem lastTime_atZero (events : List (Int64 × Atom)) : lastTime 0 (atZero events) = 0 := by
  induction events with
  | nil => rfl
  | cons e events ih => exact (lastTime_cons 0 0 e.2 (atZero events)).trans ih

theorem encodeEvents_nil : encodeEvents [] = [] := rfl

theorem encodeEvents_cons (t : Int64) (a : Atom) (rest : List (Int64 × Atom)) :
    encodeEvents ((t, a) :: rest)
      = Bytes.int64 t ++ Atom.encode a.type a.body ++ encodeEvents rest := rfl

theorem encodeEvents_append (events rest : List (Int64 × Atom)) :
    encodeEvents (events ++ rest) = encodeEvents events ++ encodeEvents rest :=
  List.flatMap_append

theorem length_encodeEvents (events : List (Int64 × Atom)) :
    (encodeEvents events).length = (events.map Backlog.eventSize).sum := by
  rw [encodeEvents, List.length_flatMap]
  congr 1
  exact List.map_congr_left fun e _ => Backlog.length_encodeEvent e

theorem length_encodeEvents_mod (events : List (Int64 × Atom)) :
    (encodeEvents events).length % 8 = 0 := by
  induction events with
  | nil => rfl
  | cons e events ih =>
      have hpadded := padded_mod (8 + e.2.body.length)
      rw [encodeEvents_cons e.1 e.2, List.length_append, List.length_append, Bytes.length_int64,
        Atom.length_encode]
      omega

theorem length_encodeEvents_atZero (events : List (Int64 × Atom)) :
    (encodeEvents (atZero events)).length = (encodeEvents events).length := by
  rw [length_encodeEvents, length_encodeEvents, atZero, List.map_map]
  rfl

/-- One event, of so many zeros, at time zero. -/
def zerosAt (s : Schema) (size : Nat) : List (Int64 × Atom) :=
  [(0, .ofBody (s.id .chunk) (Bytes.zeros size))]

theorem length_zerosAt (s : Schema) (size : Nat) :
    (encodeEvents (zerosAt s size)).length = 8 + padded (8 + size) := by
  rw [length_encodeEvents, zerosAt, List.map_singleton, List.sum_singleton, Backlog.eventSize,
    Atom.body_ofBody, Bytes.length_zeros]
  rfl

theorem whole_single (t : Int64) (type : UInt32) {body : Bytes} (hsize : body.length < 2 ^ 32) :
    Whole [(t, .ofBody type body)] := by
  intro e he
  rw [List.mem_singleton.1 he, Atom.body_ofBody]
  exact (Nat.mod_eq_of_lt hsize).symm

end Events

/-! ## Reading -/

/-- The events of a body are read as they were written. -/
theorem Layout.parse_encodeEvents {events : List (Int64 × Atom)} (h : Whole events)
    (position : Nat) :
    Layout.sequence.parse position (encodeEvents events)
      = events.map fun e => (.time e.1, e.2) := by
  induction events generalizing position with
  | nil => exact Layout.parse_nil _ _
  | cons e events ih =>
      have hbody := h.length_lt e List.mem_cons_self
      have hevents := ih (fun e he => h e (List.mem_cons_of_mem _ he)) (position + 1)
      rw [encodeEvents_cons e.1 e.2,
        Layout.parse_append (Layout.marks_sequence position e.1) e.2.type hbody, hevents,
        Atom.ofBody_of_whole (h e List.mem_cons_self)]
      rfl

theorem Atom.children_sequence {s : Schema} {type : UInt32} (hkind : s.kindOf type = .sequence)
    {events : List (Int64 × Atom)} (h : Whole events) :
    (ofBody type (encodeEvents events)).children s = events.map fun e => (.time e.1, e.2) := by
  rw [children, type_ofBody, hkind]
  exact Layout.parse_encodeEvents h 0

theorem Atom.events_sequence {s : Schema} {type : UInt32} (hkind : s.kindOf type = .sequence)
    {events : List (Int64 × Atom)} (h : Whole events) :
    (ofBody type (encodeEvents events)).events s = events := by
  rw [Atom.events, children_sequence hkind h, List.filterMap_map]
  exact List.filterMap_some

theorem Atom.parse_encode (type : UInt32) (body after : Bytes) (h : body.length < 2 ^ 32) :
    parse (encode type body ++ after) = some (ofBody type body) :=
  (Option.filter_eq_some_iff.1 (parseWhole_encode type body after h)).1

/-- An atom declares its size in one word, and what is read is as much of its body as that. -/
theorem Atom.parse_encode_take (type : UInt32) (body after : Bytes) :
    parse (encode type body ++ after) = some ⟨type, UInt32.ofNat body.length,
      body.take (UInt32.ofNat body.length).toNat⟩ := by
  let padding := Bytes.zeros (padded (headerSize + body.length) - (headerSize + body.length))
  let size := UInt32.ofNat body.length
  have hbytes : encode type body ++ after
      = Bytes.word32 size ++ (Bytes.word32 type ++ (body ++ (padding ++ after))) := by
    simp only [encode, header, List.append_assoc, padding, size]
  have hsize := Bytes.word32At?_append [] (Bytes.word32 type ++ (body ++ (padding ++ after))) size
  have htype := Bytes.word32At?_append (Bytes.word32 size) (body ++ (padding ++ after)) type
  simp only [List.nil_append, List.append_assoc, List.length_nil, Bytes.length_word32]
    at hsize htype
  have hdrop : (encode type body ++ after).drop headerSize = body ++ (padding ++ after) := by
    rw [hbytes, ← List.append_assoc, List.drop_left' (by simp [headerSize])]
  have hle : size.toNat ≤ body.length := by
    rw [UInt32.toNat_ofNat']
    exact Nat.mod_le _ _
  rw [parse, hdrop, hbytes, hsize, htype]
  simp only [Option.bind_eq_bind, Option.bind_some, List.take_append_of_le_length hle]
  rfl

/-- A body of so many bytes is declared to be empty. -/
theorem Atom.parse_encode_wrapped (type : UInt32) {body : Bytes} (h : body.length = 2 ^ 32)
    (after : Bytes) : parse (encode type body ++ after) = some (ofBody type []) := by
  rw [parse_encode_take, h]
  rfl

theorem Layout.of_mem_parse (l : Layout) {position : Nat} {bs : Bytes} {key : Key} {child : Atom}
    (h : (key, child) ∈ l.parse position bs) :
    (∃ i from', l.key i from' = some key) ∧ child.body.length = child.size.toNat := by
  fun_induction Layout.parse l position bs with
  | case1 => cases h
  | case2 position bs first other hhead ih =>
      rcases List.mem_cons.1 h with heq | hmem
      · cases heq
        obtain ⟨_, hkey, hrest⟩ := Option.bind_eq_some_iff.1 hhead
        obtain ⟨_, hwhole, heq⟩ := Option.bind_eq_some_iff.1 hrest
        cases heq
        exact ⟨⟨position, bs, hkey⟩, Atom.whole_of_parseWhole hwhole⟩
      · exact ih hmem

/-- Only a sequence has events. -/
theorem Atom.mem_events {s : Schema} {a : Atom} {e : Int64 × Atom} (h : e ∈ a.events s) :
    s.kindOf a.type = .sequence ∧ e.2.body.length = e.2.size.toNat := by
  obtain ⟨⟨key, child⟩, hmem, hevent⟩ := List.mem_filterMap.1 h
  cases key with
  | time t =>
      cases hevent
      rw [children] at hmem
      cases hkind : s.kindOf a.type with
      | sequence =>
          rw [hkind] at hmem
          exact ⟨rfl, (Layout.sequence.of_mem_parse hmem).2⟩
      | tuple =>
          rw [hkind] at hmem
          obtain ⟨⟨_, _, hkey⟩, _⟩ := Layout.tuple.of_mem_parse hmem
          cases hkey
      | object =>
          rw [hkind] at hmem
          obtain ⟨⟨_, _, hkey⟩, _⟩ := Layout.object.of_mem_parse hmem
          obtain ⟨_, _, hrest⟩ := Option.bind_eq_some_iff.1 hkey
          obtain ⟨_, _, heq⟩ := Option.bind_eq_some_iff.1 hrest
          cases heq
      | vector =>
          obtain ⟨i, hi⟩ := List.mem_iff_getElem?.1 hmem
          rw [← children, getElem?_children_vector hkind] at hi
          obtain ⟨_, _, heq⟩ := Option.map_eq_some_iff.1 hi
          cases heq
      | literal =>
          rw [hkind] at hmem
          obtain ⟨i, hi⟩ := List.mem_iff_getElem?.1 hmem
          rw [getElem?_literalProperties] at hi
          obtain ⟨_, _, hmap⟩ := Option.bind_eq_some_iff.1 hi
          obtain ⟨_, _, heq⟩ := Option.map_eq_some_iff.1 hmap
          cases heq
      | _ =>
          rw [hkind] at hmem
          cases hmem
  | _ => cases hevent

theorem Atom.whole_events (s : Schema) (a : Atom) : Whole (a.events s) :=
  fun _ he => (mem_events he).2

/-- The events of what lies at an input, none when nothing does. -/
def eventsOf (s : Schema) (input : Option Atom) : List (Int64 × Atom) :=
  match input with
  | none => []
  | some a => a.events s

theorem whole_eventsOf (s : Schema) (input : Option Atom) : Whole (eventsOf s input) := by
  cases input with
  | none => exact fun _ he => absurd he List.not_mem_nil
  | some a => exact a.whole_events s

/-- A buffer that holds a sequence is read as the events of the sequence. -/
theorem eventsOf_ofBytes {s : Schema} (hdistinct : s.vocabulary.Distinct)
    {events : List (Int64 × Atom)} (hwhole : Whole events)
    (hsize : (encodeEvents events).length < 2 ^ 32) :
    eventsOf s (Buffer.ofBytes (Atom.encode (s.id .sequence) (encodeEvents events))).atom?
      = events := by
  have hparse := Atom.parse_encode (s.id .sequence) (encodeEvents events) [] hsize
  rw [List.append_nil] at hparse
  rw [Buffer.atom?_eq, Buffer.bytes_ofBytes, hparse]
  exact Atom.events_sequence (Schema.kindOf_id hdistinct (by decide)) hwhole

/-! ## Writing -/

namespace Writer

/-- The writer of an output that is being filled: its sequence is open and holds so many events.
-/
def holding (v : Vocabulary) (buffer : Buffer) (events : List (Int64 × Atom)) : Writer :=
  ((start v buffer).append (Atom.header (v.id .sequence) 0 ++ encodeEvents events)).withFrames
    [⟨0, .sequence, lastTime 0 events⟩]

/-- The handle of the only sequence at the start of a buffer. -/
def firstFrame : Frame := ⟨0, 0, .sequence⟩

section Holding

variable (v : Vocabulary) (buffer : Buffer) (events more : List (Int64 × Atom))

@[simp] theorem offset_start : (start v buffer).offset = 0 :=
  Nat.zero_min _

@[simp] theorem room_start : (start v buffer).room = buffer.length :=
  Nat.sub_zero _

theorem room_holding : (holding v buffer events).room
    = buffer.length - (Atom.headerSize + (encodeEvents events).length) := by
  rw [holding, room_withFrames, room_append, room_start, List.length_append, Atom.length_header]
  rfl

theorem holding_step (t : Int64) (a : Atom) :
    ((holding v buffer events).append
      (Bytes.int64 t ++ Atom.encode a.type a.body)).withFrames [⟨0, .sequence, t⟩]
        = holding v buffer (events ++ [(t, a)]) := by
  have hlast : lastTime 0 (events ++ [(t, a)]) = t := by
    rw [lastTime_append, lastTime_cons, lastTime_nil]
  rw [holding, holding, hlast, encodeEvents_append, encodeEvents_cons, encodeEvents_nil,
    append_withFrames, withFrames_withFrames, append_append, List.append_nil, List.append_assoc]

variable {v buffer events more}

theorem openSequence_start (hfit : Atom.headerSize ≤ buffer.length) :
    openSequence (start v buffer) = .ok firstFrame (holding v buffer []) := by
  have hopen :=
    appends_enter (w := start v buffer) rfl rfl (Nat.zero_lt_succ 7) .sequence .sequence []
  have hok := hopen.1 (by rw [room_start, List.append_nil, Atom.length_header]; exact hfit)
  rw [openSequence, hok, opened, offset_start, firstFrame, holding]
  rfl

/-- Events whose times go on are put behind those that are there, when there is room for them. -/
theorem appends_events (hordered : Ordered (lastTime 0 events) more) :
    Appends (holding v buffer events) (encodeEvents more) () (holding v buffer (events ++ more))
      (Writer.events more (holding v buffer events)) := by
  induction more generalizing events with
  | nil =>
      rw [List.append_nil]
      exact appends_pure
  | cons e more ih =>
      obtain ⟨t, a⟩ := e
      obtain ⟨hle, hrest⟩ := hordered.cons
      have htime := appends_time (w := holding v buffer events) rfl rfl hle
      have hcopy := appends_put (w := ((holding v buffer events).append (Bytes.int64 t)).withFrames
        [⟨0, .sequence, t⟩]) rfl rfl a.type a.body
      have hone := htime.bind (f := fun _ => copy a) rfl fun _ => hcopy
      rw [append_withFrames, append_append, holding_step] at hone
      have hmore := @ih (events ++ [(t, a)]) (by
        rw [lastTime_append, lastTime_cons, lastTime_nil]
        exact hrest)
      have hroom : (holding v buffer (events ++ [(t, a)])).room = (holding v buffer events).room
          - (Bytes.int64 t ++ Atom.encode a.type a.body).length := by
        rw [← holding_step, room_withFrames, room_append]
      have hall := hone.bind (f := fun _ => Writer.events more) hroom fun _ => hmore
      rw [List.append_assoc, List.append_assoc events, List.singleton_append] at hall
      rw [encodeEvents_cons, List.append_assoc]
      exact hall

end Holding

/-! ## Times put to zero -/

theorem clearTimes_nil : clearTimes [] = [] := by
  rw [clearTimes]
  rfl

/-- The size in the header of a whole atom leads the walk behind it. -/
theorem clearTimes_append (t : Int64) (type : UInt32) {body : Bytes} (hbody : body.length < 2 ^ 32)
    (rest : Bytes) :
    clearTimes (Bytes.int64 t ++ Atom.encode type body ++ rest)
      = Bytes.int64 0 ++ Atom.encode type body ++ clearTimes rest := by
  have hlength : (Atom.encode type body).length = padded (Atom.headerSize + body.length) := by
    rw [Atom.length_encode, Atom.headerSize]
  have hroom := le_padded (Atom.headerSize + body.length)
  have hhead : ((Bytes.int64 t ++ Atom.encode type body ++ rest).take
      (timeSize + Atom.headerSize)).length = timeSize + Atom.headerSize := by
    rw [List.length_take, List.length_append, List.length_append, Bytes.length_int64, hlength]
    unfold timeSize
    omega
  have hdrop : (Bytes.int64 t ++ Atom.encode type body ++ rest).drop timeSize
      = Atom.encode type body ++ rest := by
    rw [List.append_assoc]
    exact List.drop_left' (Bytes.length_int64 t)
  have hread : (Atom.encode type body ++ rest).word32At? 0 = some (UInt32.ofNat body.length) := by
    have hword := Bytes.word32At?_append [] (Bytes.word32 type ++ body ++
      Bytes.zeros (padded (Atom.headerSize + body.length) - (Atom.headerSize + body.length))
        ++ rest)
      (UInt32.ofNat body.length)
    simp only [List.nil_append, List.length_nil, ← List.append_assoc] at hword
    exact hword
  have hsize : padded (Atom.headerSize
      + (((Atom.encode type body ++ rest).word32At? 0).getD 0).toNat)
        = (Atom.encode type body).length := by
    rw [hread, Option.getD_some, UInt32.toNat_ofNat', Nat.mod_eq_of_lt hbody, hlength]
  rw [clearTimes, dif_pos hhead]
  simp only [hdrop, hsize, List.take_left, List.drop_left]

theorem clearTimes_encodeEvents {events : List (Int64 × Atom)} (h : Whole events) :
    clearTimes (encodeEvents events) = encodeEvents (atZero events) := by
  induction events with
  | nil => exact clearTimes_nil
  | cons e events ih =>
      obtain ⟨t, a⟩ := e
      have hevents := ih fun e he => h e (List.mem_cons_of_mem _ he)
      rw [encodeEvents_cons, clearTimes_append t a.type (h.length_lt (t, a) List.mem_cons_self),
        hevents]
      rfl

theorem revise_append (w : Writer) (head body : Bytes) (frames : List OpenFrame) (f : Bytes → Bytes)
    (hf : ∀ bs, (f bs).length = bs.length) :
    ((w.append (head ++ body)).withFrames frames).revise body.length f hf
      = (w.append (head ++ f body)).withFrames frames := by
  have htake : (body.reverse ++ (head.reverse ++ w.behind)).take body.length = body.reverse :=
    List.take_left' List.length_reverse
  have hdrop : (body.reverse ++ (head.reverse ++ w.behind)).drop body.length
      = head.reverse ++ w.behind :=
    List.drop_left' List.length_reverse
  simp only [revise, append, withFrames, List.reverse_append, List.append_assoc, htake, hdrop,
    List.reverse_reverse, List.length_append, hf]

theorem restartTimes_holding (v : Vocabulary) (buffer : Buffer) {events : List (Int64 × Atom)}
    (h : Whole events) :
    restartTimes firstFrame (holding v buffer events)
      = .ok () (holding v buffer (atZero events)) := by
  have hsize : (holding v buffer events).offset - 0 - Atom.headerSize
      = (encodeEvents events).length := by
    rw [holding, offset_withFrames, offset_append, offset_start, List.length_append,
      Atom.length_header, Atom.headerSize]
    omega
  have hrun : restartTimes firstFrame (holding v buffer events) = .ok ()
      (((holding v buffer events).revise ((holding v buffer events).offset - 0 - Atom.headerSize)
        clearTimes length_clearTimes).withFrames [⟨0, .sequence, 0⟩]) := rfl
  rw [hrun, hsize, holding, revise_append, withFrames_withFrames, clearTimes_encodeEvents h,
    holding, lastTime_atZero]

/-! ## The sequence closed -/

/-- Events end on the grid, so that closing needs no more room. -/
theorem close_holding (v : Vocabulary) (buffer : Buffer) (events : List (Int64 × Atom)) :
    close firstFrame (holding v buffer events)
      = .ok () ((start v buffer).append (Atom.encode (v.id .sequence) (encodeEvents events))) := by
  have hmod := length_encodeEvents_mod events
  have hpad : padded (Atom.headerSize + (encodeEvents events).length)
      - (Atom.headerSize + (encodeEvents events).length) = 0 := by
    unfold padded Atom.headerSize
    omega
  have hclose := appends_close (w := start v buffer) rfl (by rw [offset_start]) firstFrame rfl
    (offset_start v buffer).symm (v.id .sequence) (encodeEvents events) .sequence
    (lastTime 0 events)
  rw [hpad, offset_start] at hclose
  exact hclose.1 (Nat.zero_le _)

theorem atom?_closed (v : Vocabulary) {buffer : Buffer} {events : List (Int64 × Atom)}
    (hsize : (encodeEvents events).length < 2 ^ 32) :
    (((start v buffer).append (Atom.encode (v.id .sequence) (encodeEvents events))).buffer).atom?
      = some (Atom.ofBody (v.id .sequence) (encodeEvents events)) := by
  rw [Buffer.atom?_eq, bytes_buffer, written_append]
  exact Atom.parse_encode _ _ _ hsize

end Writer

end BlockHost
