import BlockHost.Proofs.Appending
import BlockHost.Writer.Call

/-!
# How far a call on a writer reaches

Callers give a writer any calls in any order, with frames that may have been closed long ago, and
bytes that are no atoms. Whatever they do, the writer stays inside its buffer, and a call changes
only the bytes that it has to. Most calls append: they change what lies between the old and the new
offset (`Appending`). Two calls go back. Closing a frame puts a size into a header, and moving events
to the start of their sequence rewrites the content of the innermost frame. Both look up where they
go in the open frames, and so all of it rests on one invariant: the header of every open frame lies
in front of the offset (`Framed`).

When the room has run out the writer is frozen. A frozen writer refuses every call that would write
and does not change, until it is reset (`Desk.after_of_failed`).
-/

namespace BlockHost.Writer

/-! ## Calls that append -/

/-- The header of every open frame lies in front of the offset. -/
def Framed (w : Writer) : Prop :=
  ∀ f ∈ w.frames, f.header + Atom.headerSize ≤ w.offset

section Framed

variable {w : Writer} {top : OpenFrame} {outer : List OpenFrame}

theorem Framed.head (h : w.Framed) (hframes : w.frames = top :: outer) :
    top.header + Atom.headerSize ≤ w.offset :=
  h top (hframes ▸ List.mem_cons_self)

theorem Framed.tail (h : w.Framed) (hframes : w.frames = top :: outer) :
    ∀ f ∈ outer, f.header + Atom.headerSize ≤ w.offset :=
  fun f hf => h f (hframes ▸ List.mem_cons_of_mem top hf)

end Framed

/-- Bytes have been appended, and frames may have been opened in them. -/
structure Appending (w w' : Writer) : Prop where
  grown : ∃ bs, bs.length ≤ w.room ∧ w'.written = w.written ++ bs ∧
    w'.ahead = w.ahead.drop bs.length
  framed : w.Framed → w'.Framed

theorem Appending.of_same {w w' : Writer} (hwritten : w'.written = w.written)
    (hahead : w'.ahead = w.ahead) (hframed : w.Framed → w'.Framed) : Appending w w' := by
  refine ⟨⟨[], Nat.zero_le _, ?_, ?_⟩, hframed⟩
  · rw [hwritten, List.append_nil]
  · rw [hahead, List.length_nil]
    simp only [Buffer.drop, List.drop_zero, Nat.sub_zero]

instance : IsPreorder Writer Appending where
  refl _ := .of_same rfl rfl id
  trans := by
    rintro u v w ⟨⟨bs, hbs, hwritten, hahead⟩, hframed⟩ ⟨⟨cs, hcs, hwritten', hahead'⟩, hframed'⟩
    refine ⟨⟨bs ++ cs, ?_, ?_, ?_⟩, hframed' ∘ hframed⟩
    · have hroom : v.room = u.room - bs.length := by rw [room, hahead]; rfl
      rw [List.length_append]
      omega
    · rw [hwritten', hwritten, List.append_assoc]
    · rw [hahead', hahead, Buffer.drop_drop, List.length_append]

section Appending

variable {w w' : Writer}

theorem Appending.offset_le (h : Appending w w') : w.offset ≤ w'.offset := by
  obtain ⟨bs, -, hwritten, -⟩ := h.grown
  rw [← length_written, ← length_written, hwritten, List.length_append]
  exact Nat.le_add_right _ _

theorem Appending.capacity_eq (h : Appending w w') : w'.capacity = w.capacity := by
  obtain ⟨bs, hbs, hwritten, hahead⟩ := h.grown
  have hoffset : w'.offset = w.offset + bs.length := by
    rw [← length_written, hwritten, List.length_append, length_written]
  have hlength : w'.ahead.length = w.ahead.length - bs.length := by rw [hahead]; rfl
  unfold room at hbs
  rw [capacity, capacity, hoffset, hlength]
  omega

/-- Only what lies between the two offsets has changed. -/
theorem Appending.getElem?_bytes (h : Appending w w') {i : Nat}
    (hi : ¬ (w.offset ≤ i ∧ i < w'.offset)) :
    w'.buffer.bytes[i]? = w.buffer.bytes[i]? := by
  obtain ⟨bs, hbs, hwritten, hahead⟩ := h.grown
  have hoffset : w'.offset = w.offset + bs.length := by
    rw [← length_written, hwritten, List.length_append, length_written]
  rw [bytes_buffer, bytes_buffer]
  rcases Nat.lt_or_ge i w.offset with hlt | hge
  · rw [hwritten, List.append_assoc, List.getElem?_append_left (by rwa [length_written]),
      List.getElem?_append_left (by rwa [length_written])]
  · have hle : w'.offset ≤ i := by omega
    rw [List.getElem?_append_right (by rwa [length_written]), length_written,
      List.getElem?_append_right (by rwa [length_written]), length_written, hahead,
      Buffer.bytes_drop, List.getElem?_drop]
    congr 1
    omega

end Appending

theorem emit_appending (bs : Bytes) : Action.Keeps Appending (emit bs) := by
  intro w
  unfold emit
  split
  · exact refl w
  · split
    · next hroom =>
        refine ⟨⟨bs, hroom, ?_, rfl⟩, ?_⟩
        · simp only [Action.left, written, List.reverse_append, List.reverse_reverse]
        · intro hframed f hf
          exact Nat.le_trans (hframed f hf) (Nat.le_add_right _ _)
    · exact .of_same rfl rfl id

theorem put_appending (type : UInt32) (body : Bytes) : Action.Keeps Appending (put type body) := by
  intro w
  unfold put
  split
  · split
    · exact emit_appending body w
    · exact refl w
  · exact emit_appending _ w

theorem putTerm_appending (term : Term) (body : Bytes) :
    Action.Keeps Appending (putTerm term body) :=
  fun w => put_appending _ body w

theorem time_appending (t : Int64) : Action.Keeps Appending (time t) := by
  intro w
  unfold time
  split
  · exact refl w
  · split
    · next header lastTime outer hframes =>
        split
        · exact refl w
        · have hemit := emit_appending (Bytes.int64 t) w
          cases h : emit (Bytes.int64 t) w with
          | error e after =>
              rw [h] at hemit
              exact hemit
          | ok _ after =>
              rw [h] at hemit
              -- The frame whose last time is put down keeps its header.
              refine ⟨hemit.grown, fun hframed f hf => ?_⟩
              rcases List.mem_cons.1 hf with rfl | hf
              · have hhead := hframed.head hframes
                exact Nat.le_trans hhead hemit.offset_le
              · exact Nat.le_trans (hframed.tail hframes f hf) hemit.offset_le
    · exact refl w

theorem enter_appending (term : Term) (kind : Composite) (head : Bytes) :
    Action.Keeps Appending (enter term kind head) := by
  intro w
  unfold enter
  split
  · exact refl w
  · split
    · exact refl w
    · split
      · exact refl w
      · have hemit := emit_appending (Atom.header (w.vocabulary.id term) 0 ++ head) w
        cases h : emit (Atom.header (w.vocabulary.id term) 0 ++ head) w with
        | error e after =>
            rw [h] at hemit
            exact hemit
        | ok _ after =>
            rw [h] at hemit
            refine ⟨hemit.grown, fun hframed f hf => ?_⟩
            -- The offset is behind the header that has just been written.
            have hoffset : w.offset + Atom.headerSize ≤ after.offset := by
              have hwritten := congrArg List.length (written_emit h)
              rw [List.length_append, List.length_append, Atom.length_header, length_written,
                length_written] at hwritten
              unfold Atom.headerSize
              omega
            rcases List.mem_cons.1 hf with rfl | hf
            · exact hoffset
            · exact Nat.le_trans (hframed f hf) hemit.offset_le

/-! ## Calls that go back -/

section Back

variable {w : Writer}

theorem length_take_written {n : Nat} (h : n ≤ w.offset) : (w.written.take n).length = n := by
  rw [List.length_take, length_written, Nat.min_eq_left h]

theorem left_done (x : Write Unit) : Action.left (done x w) = Action.left (x w) := by
  cases h : x w with
  | ok _ after => exact congrArg Action.left (Action.bind_ok h)
  | error e after => exact congrArg Action.left (Action.bind_error h)

/-- A size goes into the first half of the header for which it is meant. -/
theorem written_putSize {header : Nat} (h : header + Atom.headerSize ≤ w.offset) :
    (w.putSize (w.offset - header - Atom.headerSize)).written
      = w.written.overwrite header
          (Bytes.word32 (UInt32.ofNat (w.offset - header - Atom.headerSize))) := by
  have hlength : w.behind.length = w.offset := w.offset_eq.symm
  unfold Atom.headerSize at h ⊢
  -- The bytes in front of the offset are kept the last one first.
  show (w.behind.overwrite (w.offset - header - 8 + 4) _).reverse
    = Bytes.overwrite w.behind.reverse header _
  rw [Bytes.overwrite_eq (by rw [List.length_reverse, hlength, Bytes.length_word32]; omega),
    Bytes.overwrite_eq (by rw [List.length_reverse, hlength, Bytes.length_word32]; omega)]
  simp only [List.reverse_append, List.reverse_reverse, List.length_reverse, Bytes.length_word32,
    List.reverse_drop, List.reverse_take, hlength, List.append_assoc]
  congr 2
  · omega
  · congr 2
    omega

/-- What is put in stands where it was put, and nothing else has changed. -/
theorem getElem?_overwrite {bs patch : Bytes} {start i : Nat}
    (h : start + patch.length ≤ bs.length) (hi : ¬ (start ≤ i ∧ i < start + patch.length)) :
    (bs.overwrite start patch)[i]? = bs[i]? := by
  rw [Bytes.overwrite_eq h]
  have hfront : (bs.take start).length = start := by
    rw [List.length_take]
    omega
  rcases Nat.lt_or_ge i start with hlt | hge
  · rw [List.append_assoc, List.getElem?_append_left (by rwa [hfront]),
      List.getElem?_take_of_lt hlt]
  · have hbehind : (bs.take start ++ patch).length ≤ i := by
      rw [List.length_append, hfront]
      omega
    rw [List.getElem?_append_right hbehind, List.getElem?_drop, List.length_append, hfront]
    congr 1
    omega

theorem getElem?_putSize {header : Nat} (h : header + Atom.headerSize ≤ w.offset) {i : Nat}
    (hi : ¬ (header ≤ i ∧ i < header + 4)) :
    (w.putSize (w.offset - header - Atom.headerSize)).buffer.bytes[i]? = w.buffer.bytes[i]? := by
  rw [bytes_buffer, bytes_buffer, written_putSize h]
  show (Bytes.overwrite w.written header _ ++ w.ahead.bytes)[i]? = _
  unfold Atom.headerSize at h ⊢
  have hinside : header + (Bytes.word32 (UInt32.ofNat (w.offset - header - 8))).length
      ≤ w.written.length := by
    rw [Bytes.length_word32, length_written]
    omega
  rcases Nat.lt_or_ge i w.offset with hlt | hge
  · rw [List.getElem?_append_left (by rwa [Bytes.length_overwrite, length_written]),
      List.getElem?_append_left (by rwa [length_written]),
      getElem?_overwrite hinside (by rwa [Bytes.length_word32])]
  · rw [List.getElem?_append_right (by rwa [Bytes.length_overwrite, length_written]),
      List.getElem?_append_right (by rwa [length_written]), Bytes.length_overwrite]

/-- Revising the last bytes leaves those in front of them. -/
theorem written_revise (size : Nat) {f : Bytes → Bytes} (hf : ∀ bs, (f bs).length = bs.length) :
    (w.revise size f hf).written
      = w.written.take (w.offset - size) ++ f (w.written.drop (w.offset - size)) := by
  have hlength : w.behind.length = w.offset := w.offset_eq.symm
  show List.reverse (_ ++ _) = List.take _ w.behind.reverse ++ f (List.drop _ w.behind.reverse)
  rw [List.reverse_append, List.reverse_reverse, List.reverse_drop, List.reverse_take, hlength]

/-- So it does with those behind the offset. -/
theorem getElem?_revise {size : Nat} {f : Bytes → Bytes} (hf : ∀ bs, (f bs).length = bs.length)
    (h : size ≤ w.offset) {i : Nat} (hi : ¬ (w.offset - size ≤ i ∧ i < w.offset)) :
    (w.revise size f hf).buffer.bytes[i]? = w.buffer.bytes[i]? := by
  have hsame : (w.revise size f hf).written.length = w.written.length := by
    rw [length_written, length_written]
    rfl
  rw [bytes_buffer, bytes_buffer]
  show (_ ++ w.ahead.bytes)[i]? = _
  rcases Nat.lt_or_ge i w.offset with hlt | hge
  · have hfront : i < w.offset - size := by omega
    rw [List.getElem?_append_left (by rwa [hsame, length_written]),
      List.getElem?_append_left (by rwa [length_written]), written_revise,
      List.getElem?_append_left (by
        rw [List.length_take, length_written]
        omega), List.getElem?_take_of_lt hfront]
  · rw [List.getElem?_append_right (by rwa [hsame, length_written]),
      List.getElem?_append_right (by rwa [length_written]), hsame]

end Back

/-! ## Calls on a frame -/

section OnFrame

variable {frames : List Frame} {number : Nat} {frame : Frame}

theorem run_close (h : frames[number]? = some frame) :
    (Call.close number).run frames = done (close frame) := by
  simp only [Call.run, onFrame, h]

theorem run_restartTimes (h : frames[number]? = some frame) :
    (Call.restartTimes number).run frames = done (restartTimes frame) := by
  simp only [Call.run, onFrame, h]

end OnFrame

/-! ## What one call changes -/

/-- The buffer keeps its length, the open frames still lie in front of the offset, and only bytes
within reach have changed. -/
structure Contained (reach : Nat → Prop) (w w' : Writer) : Prop where
  capacity_eq : w'.capacity = w.capacity
  framed : w'.Framed
  same : ∀ i, ¬ reach i → w'.buffer.bytes[i]? = w.buffer.bytes[i]?

/-- The bytes that a call may change, when it finds the given writer and leaves it at an offset.
Closing has the size of the innermost frame and the padding up to the next multiple of eight,
restarting the times has the content of its frame, and every other call has what it appends. -/
def Call.Reaches (frames : List Frame) (w : Writer) (offset i : Nat) : Call → Prop
  | .close _ => (∃ top ∈ w.frames.head?, top.header ≤ i ∧ i < top.header + 4) ∨
      w.offset ≤ i ∧ i < offset ∧ i < padded w.offset
  | .restartTimes number =>
      ∃ frame ∈ frames[number]?, frame.header + Atom.headerSize ≤ i ∧ i < w.offset
  | _ => w.offset ≤ i ∧ i < offset

section Step

variable {w : Writer} {frames : List Frame}

theorem Contained.refl {reach : Nat → Prop} (h : w.Framed) : Contained reach w w :=
  ⟨rfl, h, fun _ _ => rfl⟩

theorem offset_pad_le : (Action.left (pad w)).offset ≤ padded w.offset := by
  have hle := le_padded w.offset
  unfold pad emit
  split
  · exact hle
  · split
    · show w.offset + (Bytes.zeros _).length ≤ _
      rw [Bytes.length_zeros]
      omega
    · exact hle

theorem pad_appending : Action.Keeps Appending pad :=
  fun w => emit_appending _ w

/-- Only the innermost frame can be closed, and closing any other changes nothing. -/
theorem close_contained (h : w.Framed) (frame : Frame) :
    Contained
      (fun i => (∃ top ∈ w.frames.head?, top.header ≤ i ∧ i < top.header + 4) ∨
        w.offset ≤ i ∧ i < (Action.left (close frame w)).offset ∧ i < padded w.offset)
      w (Action.left (close frame w)) := by
  unfold close
  split
  · exact .refl h
  · split
    · exact .refl h
    · next top outer hframes =>
        split
        · -- The padded writer has the size put in, and the frame taken off.
          have hin := h.head hframes
          let sized := (w.putSize (w.offset - top.header - Atom.headerSize)).withFrames outer
          have hpad : Appending sized (Action.left (pad sized)) := pad_appending sized
          have hle : (Action.left (pad sized)).offset ≤ padded w.offset := offset_pad_le
          refine ⟨hpad.capacity_eq, hpad.framed (h.tail hframes), fun i hi => ?_⟩
          obtain ⟨hsize, hpadding⟩ := not_or.1 hi
          have hout : ¬ (top.header ≤ i ∧ i < top.header + 4) := fun hi =>
            hsize ⟨top, by rw [hframes]; rfl, hi⟩
          have hbehind : ¬ (w.offset ≤ i ∧ i < (Action.left (pad sized)).offset) := fun hi =>
            hpadding ⟨hi.1, hi.2, Nat.lt_of_lt_of_le hi.2 hle⟩
          exact (hpad.getElem?_bytes hbehind).trans (getElem?_putSize hin hout)
        · exact .refl h

/-- The times that are restarted stand in the content of the frame that was asked for. -/
theorem restartTimes_contained (h : w.Framed) (frame : Frame) :
    Contained (fun i => frame.header + Atom.headerSize ≤ i ∧ i < w.offset)
      w (Action.left (restartTimes frame w)) := by
  unfold restartTimes
  split
  · exact .refl h
  · split
    · next header lastTime outer hframes =>
        split
        · next htop =>
            have hheader : header = frame.header := (OpenFrame.isOf_iff.1 htop).2
            have hin : header + Atom.headerSize ≤ w.offset := h.head hframes
            refine ⟨rfl, fun f hf => ?_, fun i hi => ?_⟩
            · rcases List.mem_cons.1 hf with rfl | hf
              · exact hin
              · exact h.tail hframes f hf
            · refine getElem?_revise length_clearTimes (by omega) ?_
              rw [← hheader] at hi
              omega
        · exact .refl h
    · exact .refl h

theorem reset_contained {reach : Nat → Prop} : Contained reach w w.reset := by
  refine ⟨?_, ?_, fun i _ => ?_⟩
  · rw [← length_buffer, ← length_buffer, ← Buffer.length_bytes, reset, start, bytes_buffer_startAt,
      Buffer.length_bytes]
  · intro f hf
    cases hf
  · rw [reset, start, bytes_buffer_startAt]

theorem done_appending {x : Write Unit} (hx : Action.Keeps Appending x) :
    Action.Keeps Appending (done x) :=
  hx.bind fun _ => Action.keeps_pure _

theorem opening_appending (term : Term) (kind : Composite) (head : Bytes) :
    Action.Keeps Appending (opening (enter term kind head)) :=
  (enter_appending term kind head).bind fun _ => Action.keeps_pure _

theorem Contained.of_appending {w' : Writer} (h : w.Framed) (happ : Appending w w') :
    Contained (fun i => w.offset ≤ i ∧ i < w'.offset) w w' :=
  ⟨happ.capacity_eq, happ.framed h, fun _ hi => happ.getElem?_bytes hi⟩

/-- One call, whatever it is and whatever becomes of it, changes only what is within its reach. -/
theorem run_contained (h : w.Framed) (c : Call) :
    Contained (fun i => c.Reaches frames w (Action.left (c.run frames w)).offset i)
      w (Action.left (c.run frames w)) := by
  have happ : ∀ {x : Write Answer}, Action.Keeps Appending x →
      Contained (fun i => w.offset ≤ i ∧ i < (Action.left (x w)).offset) w (Action.left (x w)) :=
    fun hx => .of_appending h (hx w)
  cases c with
  | scalar n => exact happ (done_appending (putTerm_appending _ _))
  | string text => exact happ (done_appending (putTerm_appending _ _))
  | path text => exact happ (done_appending (putTerm_appending _ _))
  | uri text => exact happ (done_appending (putTerm_appending _ _))
  | literal text datatype lang => exact happ (done_appending (putTerm_appending _ _))
  | chunk bs => exact happ (done_appending (putTerm_appending _ _))
  | typed type body => exact happ (done_appending (put_appending _ _))
  | copy bs =>
      cases hparse : Atom.parse bs with
      | none =>
          simp only [Call.run, hparse]
          exact .refl h
      | some a =>
          have hrun : Call.run frames (.copy bs) = done (Writer.copy a) := by
            simp only [Call.run, hparse]
          rw [hrun]
          exact happ (done_appending (put_appending _ _))
  | raw bs => exact happ (done_appending (emit_appending bs))
  | pad => exact happ (done_appending pad_appending)
  | key k context => exact happ (done_appending (emit_appending _))
  | time t => exact happ (done_appending (time_appending t))
  | openTuple => exact happ (opening_appending _ _ _)
  | openSequence => exact happ (opening_appending _ _ _)
  | openObject id type => exact happ (opening_appending _ _ _)
  | openVector type size => exact happ (opening_appending _ _ _)
  | close number =>
      cases hframe : frames[number]? with
      | none =>
          simp only [Call.run, onFrame, hframe]
          exact .refl h
      | some frame =>
          rw [run_close hframe, left_done]
          exact close_contained h frame
  | restartTimes number =>
      cases hframe : frames[number]? with
      | none =>
          simp only [Call.run, onFrame, hframe]
          exact .refl h
      | some frame =>
          rw [run_restartTimes hframe, left_done]
          obtain ⟨hcapacity, hframed, hsame⟩ := restartTimes_contained h frame
          exact ⟨hcapacity, hframed, fun i hi => hsame i fun hin => hi ⟨frame, hframe, hin⟩⟩
  | reset => exact reset_contained
  | finish =>
      have hrun : Action.left (Call.run frames .finish w) = w := by
        simp only [Call.run, Action.get_bind]
        cases w.finish <;> rfl
      rw [hrun]
      exact .refl h
  | written => exact .refl h

end Step

/-! ## The frozen writer -/

/-- Whether a call asks the writer to write something. -/
def Call.writes (frames : List Frame) : Call → Bool
  | .reset | .finish | .written => false
  | .close number | .restartTimes number => number < frames.length
  | .copy bs => (Atom.parse bs).isSome
  | _ => true

section Frozen

variable {w : Writer} {frames : List Frame}

theorem emit_frozen (hw : w.failed = true) (bs : Bytes) : emit bs w = .error .overflow w := by
  unfold emit
  exact if_pos hw

/-- In a vector the shape is checked first, but the call is refused in any case. -/
theorem put_frozen (hw : w.failed = true) (type : UInt32) (body : Bytes) :
    ∃ cause, put type body w = .error cause w := by
  unfold put
  split
  · split
    · exact ⟨_, emit_frozen hw body⟩
    · exact ⟨_, rfl⟩
  · exact ⟨_, emit_frozen hw _⟩

theorem enter_frozen (hw : w.failed = true) (term : Term) (kind : Composite) (head : Bytes) :
    enter term kind head w = .error .overflow w := by
  unfold enter
  exact if_pos hw

theorem time_frozen (hw : w.failed = true) (t : Int64) : time t w = .error .overflow w := by
  unfold time
  exact if_pos hw

theorem close_frozen (hw : w.failed = true) (frame : Frame) :
    close frame w = .error .overflow w := by
  unfold close
  exact if_pos hw

theorem restartTimes_frozen (hw : w.failed = true) (frame : Frame) :
    restartTimes frame w = .error .overflow w := by
  unfold restartTimes
  exact if_pos hw

/-- A frozen writer refuses whatever would write, and stays what it is. -/
theorem run_frozen (hw : w.failed = true) (c : Call) (hc : c.writes frames = true) :
    ∃ cause, c.run frames w = .error cause w := by
  have hdone : ∀ {x : Write Unit}, (∃ cause, x w = .error cause w) →
      ∃ cause, done x w = .error cause w := by
    rintro x ⟨cause, hx⟩
    exact ⟨cause, Action.bind_error hx⟩
  have hopening : ∀ term kind head,
      ∃ cause, opening (enter term kind head) w = .error cause w := by
    intro term kind head
    exact ⟨_, Action.bind_error (enter_frozen hw term kind head)⟩
  cases c with
  | scalar n => exact hdone (put_frozen hw _ _)
  | string text => exact hdone (put_frozen hw _ _)
  | path text => exact hdone (put_frozen hw _ _)
  | uri text => exact hdone (put_frozen hw _ _)
  | literal text datatype lang => exact hdone (put_frozen hw _ _)
  | chunk bs => exact hdone (put_frozen hw _ _)
  | typed type body => exact hdone (put_frozen hw _ _)
  | copy bs =>
      obtain ⟨a, hparse⟩ := Option.isSome_iff_exists.1 hc
      simp only [Call.run, hparse]
      exact hdone (put_frozen hw _ _)
  | raw bs => exact hdone ⟨_, emit_frozen hw bs⟩
  | pad => exact hdone ⟨_, emit_frozen hw _⟩
  | key k context => exact hdone ⟨_, emit_frozen hw _⟩
  | time t => exact hdone ⟨_, time_frozen hw t⟩
  | openTuple => exact hopening _ _ _
  | openSequence => exact hopening _ _ _
  | openObject id type => exact hopening _ _ _
  | openVector type size => exact hopening _ _ _
  | close number =>
      have hnumber : number < frames.length := of_decide_eq_true hc
      rw [run_close (List.getElem?_eq_getElem hnumber)]
      exact hdone ⟨_, close_frozen hw _⟩
  | restartTimes number =>
      have hnumber : number < frames.length := of_decide_eq_true hc
      rw [run_restartTimes (List.getElem?_eq_getElem hnumber)]
      exact hdone ⟨_, restartTimes_frozen hw _⟩
  | reset => cases hc
  | finish => cases hc
  | written => cases hc

/-- What neither writes nor resets leaves the writer alone and opens no frame. -/
theorem run_idle {c : Call} (hc : c.writes frames = false) (hreset : c ≠ .reset) :
    (∃ cause, c.run frames w = .error cause w) ∨
      ∃ answer, c.run frames w = .ok answer w ∧ answer.frame? = none := by
  cases c with
  | copy bs =>
      have hparse : Atom.parse bs = none := Option.not_isSome_iff_eq_none.1 (Bool.not_eq_true _ ▸ hc)
      simp only [Call.run, hparse]
      exact .inr ⟨_, rfl, rfl⟩
  | close number =>
      have hnone : frames[number]? = none :=
        List.getElem?_eq_none (Nat.le_of_not_lt (of_decide_eq_false hc))
      simp only [Call.run, onFrame, hnone]
      exact .inr ⟨_, rfl, rfl⟩
  | restartTimes number =>
      have hnone : frames[number]? = none :=
        List.getElem?_eq_none (Nat.le_of_not_lt (of_decide_eq_false hc))
      simp only [Call.run, onFrame, hnone]
      exact .inr ⟨_, rfl, rfl⟩
  | finish =>
      simp only [Call.run, Action.get_bind]
      cases w.finish with
      | ok n => exact .inr ⟨_, rfl, rfl⟩
      | error cause => exact .inl ⟨_, rfl⟩
  | written => exact .inr ⟨_, rfl, rfl⟩
  | reset => exact absurd rfl hreset
  | _ => cases hc

end Frozen

/-! ## Runs of calls -/

/-- A writer on which calls are made, with all frames that it has ever opened. -/
structure Desk where
  writer : Writer
  frames : List Frame

namespace Desk

/-- The desk after a call, whether it answered or was refused. -/
def step (d : Desk) (c : Call) : Desk :=
  match c.run d.frames d.writer with
  | .ok answer after => ⟨after, d.frames ++ answer.frame?.toList⟩
  | .error _ after => ⟨after, d.frames⟩

/-- The desk after calls. -/
def after (d : Desk) (calls : List Call) : Desk :=
  calls.foldl step d

variable {d : Desk}

theorem writer_step (c : Call) : (d.step c).writer = Action.left (c.run d.frames d.writer) := by
  unfold step
  split
  · next hrun => rw [hrun, Action.left]
  · next hrun => rw [hrun, Action.left]

theorem step_contained (h : d.writer.Framed) (c : Call) :
    Contained (fun i => c.Reaches d.frames d.writer (d.step c).writer.offset i)
      d.writer (d.step c).writer := by
  rw [writer_step]
  exact run_contained h c

/-- What holds from the first call on: the buffer keeps its length, and the open frames lie in front
of the offset. -/
theorem after_framed (h : d.writer.Framed) (calls : List Call) :
    (d.after calls).writer.Framed ∧ (d.after calls).writer.capacity = d.writer.capacity := by
  induction calls generalizing d with
  | nil => exact ⟨h, rfl⟩
  | cons c calls ih =>
      have hstep := step_contained h c
      obtain ⟨hframed, hcapacity⟩ := ih hstep.framed
      exact ⟨hframed, hcapacity.trans hstep.capacity_eq⟩

theorem step_frozen (hw : d.writer.failed = true) {c : Call} (hc : c ≠ .reset) :
    d.step c = d := by
  unfold step
  cases hwrites : c.writes d.frames with
  | true =>
      obtain ⟨cause, hrun⟩ := run_frozen hw c hwrites
      rw [hrun]
  | false =>
      rcases run_idle (w := d.writer) hwrites hc with ⟨cause, hrun⟩ | ⟨answer, hrun, hframe⟩
      · rw [hrun]
      · rw [hrun]
        simp only [hframe, Option.toList_none, List.append_nil]

theorem after_of_failed (hw : d.writer.failed = true) (calls : List Call)
    (hcalls : .reset ∉ calls) : d.after calls = d := by
  induction calls with
  | nil => rfl
  | cons c calls ih =>
      obtain ⟨hc, hrest⟩ := List.ne_and_not_mem_of_not_mem_cons hcalls
      show (d.step c).after calls = d
      rw [step_frozen hw hc.symm]
      exact ih hrest

end Desk

/-- Any calls in any order stay inside the buffer and keep the open frames in front of the offset,
the next call changes no byte beyond its reach, and once the room has run out nothing at all
changes until the writer is reset. -/
theorem calls_contained (vocabulary : Vocabulary) (buffer : Buffer) (offset : Nat)
    (calls : List Call) :
    let d := (Desk.mk (startAt vocabulary buffer offset) []).after calls
    d.writer.offset ≤ buffer.length ∧ d.writer.buffer.length = buffer.length ∧
      (∀ f ∈ d.writer.frames, f.header + Atom.headerSize ≤ d.writer.offset) ∧
      (∀ c i, ¬ c.Reaches d.frames d.writer (d.step c).writer.offset i →
        (d.step c).writer.buffer.bytes[i]? = d.writer.buffer.bytes[i]?) ∧
      (d.writer.failed = true →
        (∀ c : Call, c.writes d.frames = true →
          ∃ cause, c.run d.frames d.writer = .error cause d.writer) ∧
        ∀ later, .reset ∉ later → d.after later = d) := by
  intro d
  have hstart : (startAt vocabulary buffer offset).Framed := by
    intro f hf
    cases hf
  obtain ⟨hframed, hkept⟩ := Desk.after_framed (d := ⟨startAt vocabulary buffer offset, []⟩) hstart
    calls
  have hcapacity : d.writer.capacity = buffer.length := by
    rw [hkept, ← length_buffer, ← Buffer.length_bytes, bytes_buffer_startAt, Buffer.length_bytes]
  refine ⟨?_, ?_, hframed, ?_, ?_⟩
  · rw [← hcapacity]
    exact Nat.le_add_right _ _
  · rw [length_buffer, hcapacity]
  · intro c
    exact (Desk.step_contained hframed c).same
  · intro hw
    exact ⟨run_frozen hw, Desk.after_of_failed hw⟩

/-- A chunk that does not fit behind an open sequence freezes the writer, also for the frame that is
still open. -/
theorem calls_contained_frozen :
    let d := (Desk.mk (startAt ⟨fun t => UInt32.ofNat (Term.all.idxOf t)⟩ (.blank 20) 0) []).after
      [.openSequence, .time 3, .chunk [1, 2]]
    d.writer.failed = true ∧ d.writer.offset = 16 ∧ d.frames = [⟨0, 0, .sequence⟩] ∧
      (∃ cause, (Call.close 0).run d.frames d.writer = .error cause d.writer) ∧
      d.after [.restartTimes 0, .pad, .finish] = d := by
  intro d
  have hfailed : d.writer.failed = true := by decide
  obtain ⟨-, -, -, -, hfrozen⟩ := calls_contained
    ⟨fun t => UInt32.ofNat (Term.all.idxOf t)⟩ (.blank 20) 0 [.openSequence, .time 3, .chunk [1, 2]]
  obtain ⟨hrefused, hkept⟩ := hfrozen hfailed
  exact ⟨hfailed, by decide, by decide, hrefused (.close 0) (by decide), hkept _ (by decide)⟩

end BlockHost.Writer
