import BlockHost.Proofs.Actions
import BlockHost.Writer.Times

/-!
# What the writer's calls append

Every call of the writer that is allowed where it is made appends bytes that can be said
beforehand, or is refused because they do not fit (`Appends`). The writer that such a call
leaves is known in full, from the bytes alone, so that calls in a row append their bytes in a
row (`Appends.bind`).

Closing a frame does more than append: it goes back to the header that was written with size
zero. Seen from outside, the frame and all that was written into it is nevertheless one thing
that is appended: the encoded atom (`appends_enclose`). The sum comes out only on the eight-byte
grid, since closing pads to the next multiple of eight of the whole buffer, while an atom is
padded by its own length.
-/

namespace BlockHost

theorem Buffer.drop_drop (b : Buffer) (m n : Nat) : (b.drop m).drop n = b.drop (m + n) := by
  simp only [Buffer.drop, List.drop_drop, Nat.sub_sub]

theorem OpenFrame.isOf_iff {top : OpenFrame} {outer : List OpenFrame} {frame : Frame} :
    top.isOf outer frame = true ↔ outer.length = frame.depth ∧ top.header = frame.header := by
  rw [isOf, Bool.and_eq_true, decide_eq_true_eq, decide_eq_true_eq]

namespace Writer

/-! ## The writer behind some bytes -/

/-- How many bytes still fit. -/
def room (w : Writer) : Nat :=
  w.ahead.length

/-- The writer after bytes have been appended. -/
def append (w : Writer) (bs : Bytes) : Writer :=
  { w with behind := bs.reverse ++ w.behind
           offset := w.offset + bs.length
           offset_eq := by simp [w.offset_eq, Nat.add_comm]
           ahead := w.ahead.drop bs.length }

/-- The writer with other open frames. -/
def withFrames (w : Writer) (frames : List OpenFrame) : Writer :=
  { w with frames }

/-- The writer after a frame has been opened. -/
def opened (w : Writer) (term : Term) (kind : Composite) (head : Bytes) : Writer :=
  (w.append (Atom.header (w.vocabulary.id term) 0 ++ head)).withFrames
    (⟨w.offset, kind, 0⟩ :: w.frames)

section Append

variable (w : Writer) (bs cs : Bytes) (frames other : List OpenFrame)

@[simp] theorem vocabulary_append : (w.append bs).vocabulary = w.vocabulary := rfl
@[simp] theorem frames_append : (w.append bs).frames = w.frames := rfl
@[simp] theorem failed_append : (w.append bs).failed = w.failed := rfl
@[simp] theorem offset_append : (w.append bs).offset = w.offset + bs.length := rfl
@[simp] theorem depth_append : (w.append bs).depth = w.depth := rfl
@[simp] theorem room_append : (w.append bs).room = w.room - bs.length := rfl

@[simp] theorem vocabulary_withFrames : (w.withFrames frames).vocabulary = w.vocabulary := rfl
@[simp] theorem frames_withFrames : (w.withFrames frames).frames = frames := rfl
@[simp] theorem failed_withFrames : (w.withFrames frames).failed = w.failed := rfl
@[simp] theorem offset_withFrames : (w.withFrames frames).offset = w.offset := rfl
@[simp] theorem room_withFrames : (w.withFrames frames).room = w.room := rfl
@[simp] theorem depth_withFrames : (w.withFrames frames).depth = frames.length := rfl

@[simp] theorem withFrames_withFrames :
    (w.withFrames frames).withFrames other = w.withFrames other := rfl
@[simp] theorem withFrames_frames : w.withFrames w.frames = w := rfl
@[simp] theorem append_withFrames :
    (w.withFrames frames).append bs = (w.append bs).withFrames frames := rfl

theorem written_append : (w.append bs).written = w.written ++ bs := by
  simp [written, append]

@[simp] theorem append_nil : w.append [] = w := by
  have hdrop : w.ahead.drop 0 = w.ahead := by simp [Buffer.drop]
  cases w
  simp only [append, List.reverse_nil, List.nil_append, List.length_nil, Nat.add_zero, hdrop]

theorem append_append : (w.append bs).append cs = w.append (bs ++ cs) := by
  simp only [append, List.reverse_append, List.append_assoc, List.length_append, Nat.add_assoc,
    Buffer.drop_drop]

/-- The buffer is what was written, and then what was there before. -/
theorem bytes_buffer (w : Writer) : w.buffer.bytes = w.written ++ w.ahead.bytes := by
  rw [buffer, Buffer.bytes_prepend]

end Append

/-! ## Appending or running out of room -/

/-- The call appends bytes and answers, or the bytes do not fit and it is refused for that. -/
def Appends {α : Type} (w : Writer) (bs : Bytes) (a : α) (after : Writer)
    (r : EStateM.Result WriteFailure Writer α) : Prop :=
  (bs.length ≤ w.room → r = .ok a after) ∧ (w.room < bs.length → ∃ w', r = .error .overflow w')

section Calls

variable {w mid after : Writer} {bs cs : Bytes} {α β : Type} {a : α} {b : β}

theorem Appends.bind {x : Write α} {f : α → Write β} (hx : Appends w bs a mid (x w))
    (hmid : mid.room = w.room - bs.length)
    (hf : bs.length ≤ w.room → Appends mid cs b after (f a mid)) :
    Appends w (bs ++ cs) b after ((x >>= f) w) := by
  rw [Appends, List.length_append]
  rcases Nat.lt_or_ge w.room bs.length with hlt | hge
  · obtain ⟨w', hr⟩ := hx.2 hlt
    rw [Action.bind_error hr]
    exact ⟨fun hfit => absurd hfit (by omega), fun _ => ⟨w', rfl⟩⟩
  · rw [Action.bind_ok (hx.1 hge)]
    have hrest := hf hge
    exact ⟨fun hfit => hrest.1 (by omega), fun hno => hrest.2 (by omega)⟩

theorem appends_pure : Appends w [] a w ((pure a : Write α) w) :=
  ⟨fun _ => rfl, fun hlt => absurd hlt (Nat.not_lt_zero _)⟩

/-- Whether a call succeeds depends on the room alone. -/
theorem Appends.ok_iff {r : EStateM.Result WriteFailure Writer α} (h : Appends w bs a after r) :
    (∃ a' w', r = .ok a' w') ↔ bs.length ≤ w.room := by
  constructor
  · rintro ⟨a', w', hr⟩
    rcases Nat.lt_or_ge w.room bs.length with hlt | hge
    · obtain ⟨w'', herr⟩ := h.2 hlt
      rw [hr] at herr
      cases herr
    · exact hge
  · intro hfit
    exact ⟨a, after, h.1 hfit⟩

theorem Appends.eq_of_ok {a' : α} {w' : Writer} {r : EStateM.Result WriteFailure Writer α}
    (h : Appends w bs a after r) (hr : r = .ok a' w') : a' = a ∧ w' = after := by
  have hfit := h.ok_iff.1 ⟨a', w', hr⟩
  rw [h.1 hfit] at hr
  cases hr
  exact ⟨rfl, rfl⟩

/-- Nothing but the lack of room is reported. -/
theorem Appends.cause_eq {cause : WriteFailure} {w' : Writer}
    {r : EStateM.Result WriteFailure Writer α} (h : Appends w bs a after r)
    (hr : r = .error cause w') : cause = .overflow := by
  rcases Nat.lt_or_ge w.room bs.length with hno | hfit
  · obtain ⟨_, herror⟩ := h.2 hno
    cases hr.symm.trans herror
    rfl
  · cases hr.symm.trans (h.1 hfit)

theorem appends_emit (hw : w.failed = false) (bs : Bytes) :
    Appends w bs () (w.append bs) (emit bs w) := by
  have hgood : ¬ w.failed = true := by
    rw [hw]
    decide
  rw [Appends, emit, if_neg hgood]
  constructor
  · intro hfit
    exact if_pos hfit
  · intro hno
    exact ⟨_, if_neg (Nat.not_le.2 hno)⟩

theorem appends_put (hw : w.failed = false) (hv : w.inVector = false) (type : UInt32)
    (body : Bytes) :
    Appends w (Atom.encode type body) () (w.append (Atom.encode type body)) (put type body w) := by
  have hput : put type body w = emit (Atom.encode type body) w := by
    rw [put]
    split
    · next hframes =>
        rw [inVector, hframes] at hv
        cases hv
    · rfl
  rw [hput]
  exact appends_emit hw _

/-- An element of a vector is its body. -/
theorem appends_element {type size : UInt32} {body : Bytes} {header : Nat} {last : Int64}
    {outer : List OpenFrame} (hw : w.failed = false)
    (hframes : w.frames = ⟨header, .vector type size, last⟩ :: outer)
    (hsize : body.length = size.toNat) :
    Appends w body () (w.append body) (put type body w) := by
  have hput : put type body w = emit body w := by
    rw [put, hframes]
    exact if_pos ⟨rfl, hsize⟩
  rw [hput]
  exact appends_emit hw _

theorem appends_key (hw : w.failed = false) (key context : UInt32) :
    Appends w (Bytes.word32 key ++ Bytes.word32 context) ()
      (w.append (Bytes.word32 key ++ Bytes.word32 context)) (Writer.key key context w) :=
  appends_emit hw _

theorem appends_time {t last : Int64} {header : Nat} {outer : List OpenFrame}
    (hw : w.failed = false) (hframes : w.frames = ⟨header, .sequence, last⟩ :: outer)
    (hle : last ≤ t) :
    Appends w (Bytes.int64 t) ()
      ((w.append (Bytes.int64 t)).withFrames (⟨header, .sequence, t⟩ :: outer)) (time t w) := by
  have hemit := appends_emit hw (Bytes.int64 t)
  rw [time, hw, if_neg (by decide), hframes]
  simp only [if_neg (Int64.not_lt.2 hle)]
  constructor
  · intro hfit
    rw [hemit.1 hfit]
    rfl
  · intro hno
    obtain ⟨w', herr⟩ := hemit.2 hno
    rw [herr]
    exact ⟨w', rfl⟩

/-! ## Frames -/

theorem appends_enter (hw : w.failed = false) (hv : w.inVector = false)
    (hdepth : w.depth < maxDepth) (term : Term) (kind : Composite) (head : Bytes) :
    Appends w (Atom.header (w.vocabulary.id term) 0 ++ head) ⟨w.depth, w.offset, kind⟩
      (w.opened term kind head) (enter term kind head w) := by
  have hemit := appends_emit hw (Atom.header (w.vocabulary.id term) 0 ++ head)
  rw [enter, hw, if_neg (by decide), hv, if_neg (by decide), if_neg (Nat.ne_of_lt hdepth)]
  constructor
  · intro hfit
    rw [hemit.1 hfit]
    rfl
  · intro hno
    obtain ⟨w', herr⟩ := hemit.2 hno
    rw [herr]
    exact ⟨w', rfl⟩

/-- Putting a size in turns the empty header that was appended into the one that belongs there. -/
theorem putSize_append {type : UInt32} {body : Bytes} {frames : List OpenFrame} :
    ((w.append (Atom.header type 0 ++ body)).withFrames frames).putSize body.length =
      (w.append (Atom.header type (UInt32.ofNat body.length) ++ body)).withFrames frames := by
  have hbehind : ∀ size : UInt32, (Atom.header type size ++ body).reverse ++ w.behind =
      body.reverse ++ (Bytes.word32 type).reverse ++ ((Bytes.word32 size).reverse ++ w.behind) := by
    intro size
    simp only [Atom.header, List.reverse_append, List.append_assoc]
  have hlength : (body.reverse ++ (Bytes.word32 type).reverse).length = body.length + 4 := by
    simp
  have hover : Bytes.overwrite ((Atom.header type 0 ++ body).reverse ++ w.behind)
      (body.length + 4) (Bytes.word32 (UInt32.ofNat body.length)).reverse =
        (Atom.header type (UInt32.ofNat body.length) ++ body).reverse ++ w.behind := by
    rw [hbehind, hbehind, Bytes.overwrite_eq (by simp; omega), ← List.drop_drop,
      List.take_left' hlength, List.drop_left' hlength, List.drop_left' (by simp),
      List.append_assoc]
  simp only [putSize, withFrames, append, hover, List.length_append, Atom.length_header]

theorem close_eq {frame : Frame} {top : OpenFrame} {outer : List OpenFrame} (hw : w.failed = false)
    (hframes : w.frames = top :: outer) (htop : top.isOf outer frame = true) :
    close frame w
      = pad ((w.putSize (w.offset - top.header - Atom.headerSize)).withFrames outer) := by
  have hgood : ¬ w.failed = true := by
    rw [hw]
    decide
  rw [close, if_neg hgood, hframes]
  exact if_pos htop

/-- Closing a frame that was opened on the grid makes an atom of what was appended since. -/
theorem appends_close (hw : w.failed = false) (haligned : w.offset % 8 = 0) (frame : Frame)
    (hdepth : frame.depth = w.depth) (hheader : frame.header = w.offset) (type : UInt32)
    (body : Bytes) (kind : Composite) (last : Int64) :
    Appends
      ((w.append (Atom.header type 0 ++ body)).withFrames (⟨w.offset, kind, last⟩ :: w.frames))
      (Bytes.zeros (padded (Atom.headerSize + body.length) - (Atom.headerSize + body.length))) ()
      (w.append (Atom.encode type body))
      (close frame
        ((w.append (Atom.header type 0 ++ body)).withFrames
          (⟨w.offset, kind, last⟩ :: w.frames))) := by
  have htop : (OpenFrame.mk w.offset kind last).isOf w.frames frame = true :=
    OpenFrame.isOf_iff.2 ⟨hdepth.symm, hheader.symm⟩
  have hsize : w.offset + (Atom.header type 0 ++ body).length - w.offset - Atom.headerSize
      = body.length := by
    rw [List.length_append, Atom.length_header, Atom.headerSize]
    omega
  -- The writer that is padded: its header is complete, and its frame is gone.
  have hput : close frame ((w.append (Atom.header type 0 ++ body)).withFrames
      (⟨w.offset, kind, last⟩ :: w.frames)) =
        pad (w.append (Atom.header type (UInt32.ofNat body.length) ++ body)) := by
    rw [close_eq (by rw [failed_withFrames, failed_append, hw]) (frames_withFrames _ _) htop,
      offset_withFrames, offset_append, hsize, putSize_append, withFrames_withFrames,
      ← frames_append w (Atom.header type (UInt32.ofNat body.length) ++ body), withFrames_frames]
  have hpad : padded (w.offset + (8 + body.length)) - (w.offset + (8 + body.length))
      = padded (Atom.headerSize + body.length) - (Atom.headerSize + body.length) := by
    unfold padded Atom.headerSize
    omega
  have hwhole : w.append (Atom.encode type body)
      = (w.append (Atom.header type (UInt32.ofNat body.length) ++ body)).append
          (Bytes.zeros
            (padded (Atom.headerSize + body.length) - (Atom.headerSize + body.length))) :=
    (append_append _ _ _).symm
  rw [hput, hwhole, pad, offset_append, List.length_append, Atom.length_header, hpad]
  have hroom : ((w.append (Atom.header type 0 ++ body)).withFrames
      (⟨w.offset, kind, last⟩ :: w.frames)).room
        = (w.append (Atom.header type (UInt32.ofNat body.length) ++ body)).room := by
    rw [room_withFrames, room_append, room_append]
    simp only [List.length_append, Atom.length_header]
  rw [Appends, hroom]
  exact appends_emit (by rw [failed_append, hw]) _

/-- A frame that is opened, filled and closed appends an atom. -/
theorem appends_enclose {term : Term} {kind : Composite} {head body : Bytes} {fill : Write Unit}
    (hw : w.failed = false) (haligned : w.offset % 8 = 0) (hv : w.inVector = false)
    (hdepth : w.depth < maxDepth)
    (hfill : ∃ last, Appends (w.opened term kind head) body ()
      (((w.opened term kind head).append body).withFrames (⟨w.offset, kind, last⟩ :: w.frames))
      (fill (w.opened term kind head))) :
    Appends w (Atom.encode (w.vocabulary.id term) (head ++ body)) ()
      (w.append (Atom.encode (w.vocabulary.id term) (head ++ body)))
      ((enter term kind head >>= fun frame => fill >>= fun _ => close frame) w) := by
  obtain ⟨last, hfilled⟩ := hfill
  have hopen := appends_enter hw hv hdepth term kind head
  have hclose := appends_close hw haligned ⟨w.depth, w.offset, kind⟩ rfl rfl
    (w.vocabulary.id term) (head ++ body) kind last
  have hmid : ((w.opened term kind head).append body).withFrames
      (⟨w.offset, kind, last⟩ :: w.frames)
        = (w.append (Atom.header (w.vocabulary.id term) 0 ++ (head ++ body))).withFrames
            (⟨w.offset, kind, last⟩ :: w.frames) := by
    rw [opened, append_withFrames, withFrames_withFrames, append_append, List.append_assoc]
  rw [hmid] at hfilled
  have hlength : (Atom.encode (w.vocabulary.id term) (head ++ body)).length
      = (Atom.header (w.vocabulary.id term) 0 ++ head ++ (body ++
          Bytes.zeros (padded (Atom.headerSize + (head ++ body).length)
            - (Atom.headerSize + (head ++ body).length)))).length := by
    simp only [Atom.encode, List.length_append, Atom.length_header]
    omega
  have hroom : ((w.append (Atom.header (w.vocabulary.id term) 0 ++ (head ++ body))).withFrames
      (⟨w.offset, kind, last⟩ :: w.frames)).room
        = (w.opened term kind head).room - body.length := by
    simp only [opened, room_withFrames, room_append, List.length_append]
    omega
  rw [Appends, hlength]
  exact hopen.bind rfl fun _ => hfilled.bind hroom fun _ => hclose

end Calls

end Writer

end BlockHost
