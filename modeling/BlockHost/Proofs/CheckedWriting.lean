import BlockHost.Proofs.CheckedReading
import BlockHost.Proofs.Appending
import BlockHost.Proofs.BlockOutputs
import BlockHost.Proofs.Shelves

/-!
# Writing with every sum and range checked

What the audio side itself writes, outside of the script, goes into the buffers of the backlogs and
into bypassed outputs. Here that is written as it has to be on words of 64 bits: the offset of a
writer is a checked sum, each store names the range that it replaces, and the open frames are slots
that are looked up by their number (`Checked.Forge`).

A writer claims the room for its bytes before it stores them, and refuses the call when there is not
enough of it. Whatever is stored afterwards lies in the room that has been claimed, and so no later
sum or range can fail. This is said once, for any call that claims and then stores (`follows_emit`),
and appending bytes and appending an atom are two cases of it. A bypassed output needs one call more,
an empty sequence, which is opened and closed again. It is short enough to be followed step by step
(`emptySequence_of_le`, `emptySequence_of_lt`).
-/

namespace BlockHost

namespace Checked

/-! ## Stores -/

/-- The bytes with a part of them replaced. -/
def store (bs : Bytes) (start : Nat) (part : Bytes) : Except Fault Bytes := do
  let stop ← Fault.checkedAdd start part.length
  if stop ≤ bs.length then return bs.take start ++ part ++ bs.drop stop
  else throw (.range bs.length start part.length)

/-- The bytes with zeros between two positions. -/
def blank (bs : Bytes) (start stop : Nat) : Except Fault Bytes :=
  if start ≤ stop ∧ stop ≤ bs.length then
    .ok (bs.take start ++ Bytes.zeros (stop - start) ++ bs.drop stop)
  else .error (.range bs.length start (stop - start))

section Stores

variable {bs part : Bytes} {start stop : Nat}

theorem store_eq (h : start + part.length ≤ bs.length) (hrange : start + part.length < 2 ^ 64) :
    store bs start part = .ok (bs.overwrite start part) := by
  simp only [store, add_eq hrange, bind, Except.bind, if_pos h,
    Bytes.overwrite_eq h]
  rfl

theorem blank_eq (hle : start ≤ stop) (h : stop ≤ bs.length) :
    blank bs start stop = .ok (bs.overwrite start (Bytes.zeros (stop - start))) := by
  have hstop : start + (Bytes.zeros (stop - start)).length = stop := by
    rw [Bytes.length_zeros]
    omega
  rw [blank, if_pos ⟨hle, h⟩, Bytes.overwrite_eq (by rw [hstop]; exact h), hstop]

/-- Two parts that are stored side by side are one part. -/
theorem overwrite_overwrite {more : Bytes} {place : Nat} (hplace : place = start + part.length)
    (h : place + more.length ≤ bs.length) :
    (bs.overwrite start part).overwrite place more = bs.overwrite start (part ++ more) := by
  subst hplace
  have hlength : (bs.take start).length = start := by
    rw [List.length_take]
    omega
  have hfront : (bs.take start ++ part).length = start + part.length := by
    rw [List.length_append, hlength]
  rw [Bytes.overwrite_eq (by rw [Bytes.length_overwrite]; exact h),
    Bytes.overwrite_eq (by omega), Bytes.overwrite_eq (by rw [List.length_append]; omega),
    List.take_left' hfront, ← List.drop_drop, List.drop_left' hfront, List.drop_drop,
    List.length_append, ← Nat.add_assoc, List.append_assoc (bs.take start)]

/-- The size, the type, the body and the padding of an atom. -/
theorem overwrite_encode (type : UInt32) {body : Bytes}
    (h : start + (Atom.encode type body).length ≤ bs.length) :
    (((bs.overwrite start (Bytes.word32 (UInt32.ofNat body.length))).overwrite (start + 4)
      (Bytes.word32 type)).overwrite (start + Atom.headerSize) body).overwrite
        (start + Atom.headerSize + body.length)
        (Bytes.zeros (padded (8 + body.length) - (8 + body.length)))
      = bs.overwrite start (Atom.encode type body) := by
  have hlength := Atom.length_encode type body
  have hpad := le_padded (8 + body.length)
  have hsize := Bytes.length_word32 (UInt32.ofNat body.length)
  have htype := Bytes.length_word32 type
  have hzeros := Bytes.length_zeros (padded (8 + body.length) - (8 + body.length))
  have hheader : Atom.headerSize = 8 := rfl
  rw [overwrite_overwrite rfl (by simp only [Bytes.length_overwrite]; omega),
    overwrite_overwrite (by omega)
      (by simp only [Bytes.length_overwrite, List.length_append]; omega),
    overwrite_overwrite (by omega) (by simp only [List.length_append]; omega)]
  simp only [Atom.encode, Atom.header, hheader, List.append_assoc]

end Stores

/-! ## A writer on words -/

/-- A buffer that is being written. -/
structure Forge where
  vocabulary : Vocabulary
  buffer : Bytes
  /-- Where the next byte goes. -/
  offset : Nat
  /-- A slot for each frame that can be open. -/
  stack : List OpenFrame
  /-- How many frames are open. -/
  depth : Nat
  /-- Whether the room has run out. -/
  failed : Bool

/-- A call on such a writer. -/
abbrev Forging := EStateM (Stop WriteFailure) Forge

namespace Forge

/-- The slots before a frame has been opened. -/
def slots : List OpenFrame :=
  List.replicate Writer.maxDepth ⟨0, .tuple, 0⟩

/-- A writer that goes on at an offset of a buffer, with no frame open. -/
def resume (vocabulary : Vocabulary) (buffer : Bytes) (offset : Nat) : Forge where
  vocabulary := vocabulary
  buffer := buffer
  offset := min offset buffer.length
  stack := slots
  depth := 0
  failed := false

/-- A sum, a difference or a range, which may bring the call down. -/
def check {α : Type} (x : Except Fault α) : Forging α := fun f =>
  match x with
  | .ok a => .ok a f
  | .error fault => .error (.crashed fault) f

/-- Claims so many bytes, and answers where they begin. -/
def reserve (need : Nat) : Forging Nat := fun f =>
  if f.failed then .error (.refused .overflow) f
  else if f.offset + need < 2 ^ 64 ∧ f.offset + need ≤ f.buffer.length then
    .ok f.offset { f with offset := f.offset + need }
  else .error (.refused .overflow) { f with failed := true }

/-- Puts bytes at a position. -/
def put (start : Nat) (part : Bytes) : Forging Unit := do
  let buffer ← check (store (← get).buffer start part)
  modify fun f => { f with buffer }

/-- Puts zeros between two positions. -/
def clear (start stop : Nat) : Forging Unit := do
  let buffer ← check (blank (← get).buffer start stop)
  modify fun f => { f with buffer }

/-- The slot with a number. -/
def slot (i : Nat) : Forging OpenFrame := fun f =>
  match f.stack[i]? with
  | none => .error (.crashed (.index f.stack.length i)) f
  | some frame => .ok frame f

/-- The innermost open frame. -/
def top : Forging (Option OpenFrame) := do
  match (← get).depth with
  | 0 => return none
  | depth + 1 => return some (← slot depth)

/-- Appends bytes. -/
def raw (bs : Bytes) : Forging Unit := do
  let start ← reserve bs.length
  put start bs

/-- Puts an atom at a position, which takes so many bytes with its padding. -/
def putAtom (type : UInt32) (body : Bytes) (total start : Nat) : Forging Unit := do
  put start (Bytes.word32 (UInt32.ofNat body.length))
  put (← check (Fault.checkedAdd start 4)) (Bytes.word32 type)
  let place ← check (Fault.checkedAdd start Atom.headerSize)
  put place body
  let rest ← check (Fault.checkedAdd place body.length)
  clear rest (← check (Fault.checkedAdd start total))

/-- Appends an atom. In a vector only the body is written, and only when it has the vector's
shape. -/
def typed (type : UInt32) (body : Bytes) : Forging Unit := do
  match ← top with
  | some ⟨_, .vector elementType elementSize, _⟩ =>
      if type = elementType ∧ body.length = elementSize.toNat then raw body
      else throw (.refused .vectorMismatch)
  | _ =>
      let total ← check (pad (← check (Fault.checkedAdd Atom.headerSize body.length)))
      putAtom type body total (← reserve total)

/-- Refuses the call when that is called for. -/
def refuseIf (called : Bool) (cause : WriteFailure) : Forging Unit := fun f =>
  if called then .error (.refused cause) f else .ok () f

/-- Opens a sequence. -/
def openSequence : Forging Frame := do
  refuseIf (← get).failed .overflow
  refuseIf ((← top) matches some ⟨_, .vector _ _, _⟩) .vectorMismatch
  refuseIf ((← get).depth = Writer.maxDepth) .tooDeep
  let header ← reserve Atom.headerSize
  put header (Bytes.word32 0)
  put (← check (Fault.checkedAdd header 4)) (Bytes.word32 ((← get).vocabulary.id .sequence))
  let depth := (← get).depth
  let _ ← slot depth
  modify fun f =>
    { f with stack := f.stack.set depth ⟨header, .sequence, 0⟩, depth := depth + 1 }
  return ⟨depth, header, .sequence⟩

/-- Appends zeros up to the eight-byte grid. -/
def align : Forging Unit := do
  let stop ← check (pad (← get).offset)
  let fill ← check (sub stop (← get).offset)
  let start ← reserve fill
  clear start (← check (Fault.checkedAdd start fill))

/-- Closes the innermost frame: puts its size into its header and pads. -/
def close (frame : Frame) : Forging Unit := do
  refuseIf (← get).failed .overflow
  match (← get).depth with
  | 0 => throw (.refused .frameMismatch)
  | depth + 1 =>
      refuseIf (depth ≠ frame.depth) .frameMismatch
      let inner ← slot depth
      refuseIf (inner.header ≠ frame.header) .frameMismatch
      let size ← check (sub (← get).offset inner.header)
      let size ← check (sub size Atom.headerSize)
      put inner.header (Bytes.word32 (UInt32.ofNat size))
      modify fun f => { f with depth }
      align

/-! ### The same as a writer -/

/-- A writer without open frames, on words. -/
def of (w : Writer) : Forge where
  vocabulary := w.vocabulary
  buffer := w.buffer.bytes
  offset := w.offset
  stack := slots
  depth := 0
  failed := w.failed

theorem of_startAt (v : Vocabulary) (buffer : Buffer) (offset : Nat) :
    of (Writer.startAt v buffer offset) = resume v buffer.bytes offset := by
  rw [of, resume, Writer.bytes_buffer_startAt, Buffer.length_bytes]
  rfl

/-- What a call on a writer comes to, on words. -/
def result {α : Type} : EStateM.Result WriteFailure Writer α →
    EStateM.Result (Stop WriteFailure) Forge α
  | .ok a w => .ok a (of w)
  | .error cause w => .error (.refused cause) (of w)

/-- Outside of frames, and in a buffer that can be addressed, a call is not brought down and comes to
what the call on a writer comes to. -/
def Follows {α : Type} (x : Forging α) (y : Write α) : Prop :=
  ∀ w, w.frames = [] → w.capacity < 2 ^ 64 →
    x (of w) = result (y w) ∧ (Action.left (y w)).frames = [] ∧
      (Action.left (y w)).capacity = w.capacity

section Follows

variable {α β : Type}

theorem Follows.bind {x : Forging α} {y : Write α} {f : α → Forging β} {g : α → Write β}
    (hx : Follows x y) (hf : ∀ a, Follows (f a) (g a)) : Follows (x >>= f) (y >>= g) := by
  intro w hframes hcapacity
  obtain ⟨heq, hframes', hcapacity'⟩ := hx w hframes hcapacity
  cases hy : y w with
  | ok a mid =>
      rw [hy] at heq hframes' hcapacity'
      obtain ⟨heq', hrest, hsame⟩ := hf a mid hframes' (hcapacity' ▸ hcapacity)
      rw [Action.bind_ok heq, Action.bind_ok hy]
      exact ⟨heq', hrest, hsame.trans hcapacity'⟩
  | error cause mid =>
      rw [hy] at heq hframes' hcapacity'
      rw [Action.bind_error heq, Action.bind_error hy]
      exact ⟨rfl, hframes', hcapacity'⟩

theorem put_eq {f : Forge} {start : Nat} {part : Bytes}
    (h : start + part.length ≤ f.buffer.length) (hrange : start + part.length < 2 ^ 64) :
    put start part f = .ok () { f with buffer := f.buffer.overwrite start part } := by
  rw [put, Action.get_bind, store_eq h hrange]
  rfl

theorem clear_eq {f : Forge} {start stop : Nat} (hle : start ≤ stop)
    (h : stop ≤ f.buffer.length) :
    clear start stop f
      = .ok () { f with buffer := f.buffer.overwrite start (Bytes.zeros (stop - start)) } := by
  rw [clear, Action.get_bind, blank_eq hle h]
  rfl

theorem length_of (w : Writer) : (of w).buffer.length = w.capacity := by
  rw [of, Buffer.length_bytes, Writer.length_buffer]

theorem of_append {w : Writer} (hfailed : w.failed = false) {bs : Bytes} (hfit : bs.length ≤ w.room) :
    of (w.append bs) = { of w with offset := w.offset + bs.length
                                   buffer := (of w).buffer.overwrite w.offset bs } := by
  have hemit := (Writer.appends_emit hfailed bs).1 hfit
  rw [of, Writer.bytes_buffer_emit hemit]
  rfl

theorem reserve_fits {w : Writer} (hfailed : w.failed = false) (hcapacity : w.capacity < 2 ^ 64)
    {need : Nat} (hfit : need ≤ w.room) :
    reserve need (of w) = .ok w.offset { of w with offset := w.offset + need } := by
  have hend : w.offset + need ≤ w.capacity := Nat.add_le_add_left hfit _
  have hgood : ¬ (of w).failed = true := by
    rw [show (of w).failed = w.failed from rfl, hfailed]
    exact Bool.false_ne_true
  rw [reserve, if_neg hgood, length_of]
  exact if_pos ⟨Nat.lt_of_le_of_lt hend hcapacity, hend⟩

theorem reserve_refused {w : Writer} {need : Nat} (h : w.failed = true ∨ w.room < need) :
    reserve need (of w) = .error (.refused .overflow) (of { w with failed := true }) := by
  rw [reserve]
  by_cases hfailed : w.failed = true
  · rw [if_pos (show (of w).failed = true from hfailed), of, of, hfailed]
    rfl
  · have hroom := h.resolve_left hfailed
    have hcapacity : w.capacity = w.offset + w.room := rfl
    rw [if_neg (show ¬ (of w).failed = true from hfailed), length_of, if_neg]
    · rfl
    · rintro ⟨-, hle⟩
      rw [show (of w).offset = w.offset from rfl, hcapacity] at hle
      omega

theorem emit_refused {w : Writer} {bs : Bytes} (h : w.failed = true ∨ w.room < bs.length) :
    Writer.emit bs w = .error .overflow { w with failed := true } := by
  rw [Writer.emit]
  by_cases hfailed : w.failed = true
  · rw [if_pos hfailed, ← hfailed]
  · rw [if_neg hfailed]
    exact if_neg (Nat.not_le.2 (h.resolve_left hfailed))

theorem follows_emit {x : Nat → Forging Unit} {bs : Bytes}
    (hx : ∀ f : Forge, f.buffer.length < 2 ^ 64 → f.offset + bs.length ≤ f.buffer.length →
      x f.offset { f with offset := f.offset + bs.length }
        = .ok () { f with offset := f.offset + bs.length
                          buffer := f.buffer.overwrite f.offset bs }) :
    Follows (reserve bs.length >>= x) (Writer.emit bs) := by
  intro w hframes hcapacity
  by_cases h : w.failed = true ∨ w.room < bs.length
  · rw [Action.bind_error (reserve_refused h), emit_refused h]
    exact ⟨rfl, hframes, rfl⟩
  · have hfailed : w.failed = false := Bool.eq_false_iff.2 fun hf => h (.inl hf)
    have hfit : bs.length ≤ w.room := Nat.not_lt.1 fun hlt => h (.inr hlt)
    have hend : w.offset + bs.length ≤ w.capacity := Nat.add_le_add_left hfit _
    rw [Action.bind_ok (reserve_fits hfailed hcapacity hfit),
      (Writer.appends_emit hfailed bs).1 hfit]
    refine ⟨?_, hframes, Writer.capacity_append hfit⟩
    rw [result, of_append hfailed hfit]
    exact hx (of w) (by rw [length_of]; exact hcapacity) (by rw [length_of]; exact hend)

theorem raw_follows (bs : Bytes) : Follows (raw bs) (Writer.emit bs) :=
  follows_emit fun _ hrange hend => put_eq hend (Nat.lt_of_le_of_lt hend hrange)

theorem check_bind {x : Except Fault α} {a : α} (h : x = .ok a) (f : α → Forging β) (s : Forge) :
    (check x >>= f) s = f a s := by
  rw [h]
  rfl

/-- Size, type, body and padding are stored side by side. -/
theorem putAtom_eq {f : Forge} {start : Nat} (type : UInt32) {body : Bytes}
    (hbody : body.length < 2 ^ 32) (hrange : f.buffer.length < 2 ^ 64)
    (h : start + (Atom.encode type body).length ≤ f.buffer.length) :
    putAtom type body (Atom.encode type body).length start f
      = .ok () { f with buffer := f.buffer.overwrite start (Atom.encode type body) } := by
  have hlength := Atom.length_encode type body
  have hpad := le_padded (8 + body.length)
  have hsize := Bytes.length_word32 (UInt32.ofNat body.length)
  have htype := Bytes.length_word32 type
  rw [putAtom, Action.bind_ok (put_eq (by omega) (by omega)),
    check_bind (add_eq (show start + 4 < 2 ^ 64 by omega)),
    Action.bind_ok (put_eq (by simp only [Bytes.length_overwrite]; omega) (by omega)),
    check_bind (add_eq (show start + Atom.headerSize < 2 ^ 64 by unfold Atom.headerSize; omega)),
    Action.bind_ok (put_eq (by simp only [Bytes.length_overwrite]; unfold Atom.headerSize; omega)
      (by unfold Atom.headerSize; omega)),
    check_bind (add_eq (show start + Atom.headerSize + body.length < 2 ^ 64 by
      unfold Atom.headerSize; omega)),
    check_bind (add_eq (show start + (Atom.encode type body).length < 2 ^ 64 by omega)),
    clear_eq (by unfold Atom.headerSize; omega) (by simp only [Bytes.length_overwrite]; omega)]
  have hzeros : start + (Atom.encode type body).length - (start + Atom.headerSize + body.length)
      = padded (8 + body.length) - (8 + body.length) := by
    unfold Atom.headerSize
    omega
  simp only [hzeros, overwrite_encode type h]

theorem typed_follows (type : UInt32) {body : Bytes} (hbody : body.length < 2 ^ 32) :
    Follows (typed type body) (Writer.put type body) := by
  have hemit : Follows (reserve (Atom.encode type body).length
      >>= putAtom type body (Atom.encode type body).length) (Writer.emit (Atom.encode type body)) :=
    follows_emit fun f hrange hend => putAtom_eq type hbody hrange hend
  have hsum : Fault.checkedAdd Atom.headerSize body.length = .ok (8 + body.length) :=
    add_eq (by unfold Atom.headerSize; omega)
  have htotal : pad (8 + body.length) = .ok (Atom.encode type body).length := by
    rw [Atom.length_encode]
    exact pad_eq (by omega)
  intro w hframes hcapacity
  have htop : top (of w) = .ok none (of w) := rfl
  have htyped : typed type body (of w)
      = (check (Fault.checkedAdd Atom.headerSize body.length) >>= fun size =>
          check (pad size) >>= fun total => reserve total >>= putAtom type body total) (of w) := by
    rw [typed, Action.bind_ok htop]
  have hput : Writer.put type body w = Writer.emit (Atom.encode type body) w := by
    rw [Writer.put, hframes]
  rw [htyped, check_bind hsum, check_bind htotal, hput]
  exact hemit w hframes hcapacity

end Follows

/-! ### An empty sequence -/

/-- A sequence without events. -/
def emptySequence : Forging Unit := do
  let frame ← openSequence
  close frame

section EmptySequence

variable {v : Vocabulary} {output : Bytes}

/-- A writer at the start of an output that has one frame open, in which nothing stands. -/
def opened (v : Vocabulary) (output : Bytes) : Forge where
  vocabulary := v
  buffer := output.overwrite 0 (Atom.header (v.id .sequence) 0)
  offset := Atom.headerSize
  stack := slots.set 0 ⟨0, .sequence, 0⟩
  depth := 1
  failed := false

theorem reserve_resume {need : Nat} :
    reserve need (resume v output 0) =
      if need < 2 ^ 64 ∧ need ≤ output.length then .ok 0 ⟨v, output, need, slots, 0, false⟩
      else .error (.refused .overflow) ⟨v, output, 0, slots, 0, true⟩ := by
  have hresume : resume v output 0 = ⟨v, output, 0, slots, 0, false⟩ := by
    rw [resume, Nat.zero_min]
  rw [hresume, reserve, if_neg Bool.false_ne_true]
  simp only [Nat.zero_add]

theorem openSequence_resume (v : Vocabulary) (output : Bytes) :
    openSequence (resume v output 0) =
      (reserve Atom.headerSize >>= fun header => do
        put header (Bytes.word32 0)
        put (← check (Fault.checkedAdd header 4))
          (Bytes.word32 ((← get).vocabulary.id .sequence))
        let depth := (← get).depth
        let _ ← slot depth
        modify fun f =>
          { f with stack := f.stack.set depth ⟨header, .sequence, 0⟩, depth := depth + 1 }
        return ⟨depth, header, .sequence⟩ : Forging Frame) (resume v output 0) :=
  rfl

theorem emptySequence_of_lt (h : output.length < Atom.headerSize) :
    ∃ f, emptySequence (resume v output 0) = .error (.refused .overflow) f := by
  have hno : ¬ (Atom.headerSize < 2 ^ 64 ∧ Atom.headerSize ≤ output.length) :=
    fun hfit => absurd hfit.2 (Nat.not_le.2 h)
  have hreserve := @reserve_resume v output Atom.headerSize
  rw [if_neg hno] at hreserve
  exact ⟨_, Action.bind_error ((openSequence_resume v output).trans (Action.bind_error hreserve))⟩

theorem openSequence_of_le (h : Atom.headerSize ≤ output.length) :
    openSequence (resume v output 0) = .ok ⟨0, 0, .sequence⟩ (opened v output) := by
  have hsize : (Bytes.word32 0).length = 4 := Bytes.length_word32 0
  have htype := Bytes.length_word32 (v.id .sequence)
  have hroom : 8 ≤ output.length := h
  have hreserve := @reserve_resume v output Atom.headerSize
  rw [if_pos ⟨by decide, h⟩] at hreserve
  have hheader : (output.overwrite 0 (Bytes.word32 0)).overwrite 4 (Bytes.word32 (v.id .sequence))
      = output.overwrite 0 (Atom.header (v.id .sequence) 0) :=
    overwrite_overwrite (by omega) (by omega)
  rw [openSequence_resume, Action.bind_ok hreserve,
    Action.bind_ok (put_eq (by simp only; omega) (by omega)),
    check_bind (add_eq (show 0 + 4 < 2 ^ 64 by decide)), Action.get_bind,
    Action.bind_ok (put_eq (by simp only [Bytes.length_overwrite]; omega)
      (by rw [Bytes.length_word32]; decide))]
  simp only [Nat.zero_add, hheader]
  rfl

/-- On the grid there is nothing to pad. -/
theorem align_eq {f : Forge} (hfailed : f.failed = false) (hgrid : f.offset % 8 = 0)
    (hle : f.offset ≤ f.buffer.length) (hrange : f.offset + 8 < 2 ^ 64) : align f = .ok () f := by
  have hpad : padded f.offset = f.offset := by
    unfold padded
    omega
  have hreserve : reserve 0 f = .ok f.offset f := by
    rw [reserve, if_neg (by rw [hfailed]; exact Bool.false_ne_true)]
    exact if_pos ⟨by omega, hle⟩
  rw [align, Action.get_bind, check_bind ((pad_eq hrange).trans (congrArg Except.ok hpad)),
    Action.get_bind, check_bind (sub_eq (Nat.le_refl f.offset)), Nat.sub_self,
    Action.bind_ok hreserve, check_bind (add_eq (show f.offset + 0 < 2 ^ 64 by omega)),
    clear_eq (Nat.le_add_right _ _) hle, Nat.add_zero, Nat.sub_self]
  have hnone : f.buffer.overwrite f.offset (Bytes.zeros 0) = f.buffer :=
    (Bytes.overwrite_eq (by simpa [Bytes.zeros] using hle)).trans (by simp [Bytes.zeros])
  rw [hnone]

/-- An empty frame has the size zero already, and ends on the grid. -/
theorem close_opened (h : Atom.headerSize ≤ output.length) :
    ∃ f, close ⟨0, 0, .sequence⟩ (opened v output) = .ok () f ∧
      f.buffer = output.overwrite 0 (Atom.encode (v.id .sequence) []) := by
  have hsize : (Bytes.word32 0).length = 4 := Bytes.length_word32 0
  have hroom : 8 ≤ output.length := h
  have hlength : (opened v output).buffer.length = output.length := Bytes.length_overwrite _ _ _
  have hsame : (opened v output).buffer.overwrite 0 (Bytes.word32 0) = (opened v output).buffer := by
    have hfront : (opened v output).buffer
        = Bytes.word32 0 ++ (Bytes.word32 (v.id .sequence) ++ output.drop 8) := by
      rw [opened, Bytes.overwrite_eq (by rw [Nat.zero_add]; exact h), Atom.header,
        ← List.append_assoc]
      rfl
    rw [Bytes.overwrite_eq (by omega), Nat.zero_add, hfront, List.drop_left]
    rfl
  let f : Forge := { opened v output with depth := 0 }
  have hclose : close ⟨0, 0, .sequence⟩ (opened v output)
      = (put 0 (Bytes.word32 0) >>= fun _ => do
          modify fun f => { f with depth := 0 }
          align : Forging Unit) (opened v output) := rfl
  rw [hclose, Action.bind_ok (put_eq (by omega) (by omega)), Action.modify_bind, hsame]
  have hgrid : f.offset % 8 = 0 := by
    show 8 % 8 = 0
    rfl
  have hrange : f.offset + 8 < 2 ^ 64 := by
    show 8 + 8 < 2 ^ 64
    decide
  have hle : f.offset ≤ f.buffer.length := by
    show 8 ≤ (opened v output).buffer.length
    omega
  exact ⟨f, align_eq rfl hgrid hle hrange, rfl⟩

theorem emptySequence_of_le (h : Atom.headerSize ≤ output.length) :
    ∃ f, emptySequence (resume v output 0) = .ok () f ∧
      f.buffer = output.overwrite 0 (Atom.encode (v.id .sequence) []) := by
  obtain ⟨f, hclose, hbuffer⟩ := close_opened (v := v) h
  exact ⟨f, (Action.bind_ok (openSequence_of_le h)).trans hclose, hbuffer⟩

end EmptySequence

end Forge

/-! ## Bypassed outputs -/

/-- An output with an empty sequence at its start, or zero throughout when there is no room. -/
def silence (v : Vocabulary) (output : Bytes) : Except Fault Bytes :=
  match Forge.emptySequence (Forge.resume v output 0) with
  | .ok _ f => .ok f.buffer
  | .error (.refused _) _ => .ok (Bytes.zeros output.length)
  | .error (.crashed fault) _ => .error fault

/-- An output with the whole atom of an input at its start, when that fits. -/
def passOn (input output : Bytes) : Except Fault (Option Bytes) := do
  match ← parseWhole input with
  | none => return none
  | some a =>
      let total ← totalSize a
      if output.length < total then return none
      return some ((← range input 0 total) ++ output.drop total)

/-- The content of an output, for the input with the same number. -/
def output (mode : Bypass.Mode) (v : Vocabulary) (input : Option Bytes) (output : Bytes) :
    Except Fault Bytes := do
  match mode, input with
  | .passthrough, some input =>
      match ← passOn input output with
      | some passed => return passed
      | none => silence v output
  | _, _ => silence v output

/-- The content of all outputs, from the output with a number on. -/
def outputs (mode : Bypass.Mode) (v : Vocabulary) (inputs : List Bytes) :
    (port : Nat) → List Bytes → Except Fault (List Bytes)
  | _, [] => return []
  | port, first :: rest => do
      let first ← output mode v inputs[port]? first
      return first :: (← outputs mode v inputs (port + 1) rest)

section Bypassed

variable (v : Vocabulary)

theorem silence_eq (draft : Buffer) :
    silence v draft.bytes = .ok (Bypass.silence v draft).bytes := by
  rcases Nat.lt_or_ge draft.length Atom.headerSize with hlt | hle
  · obtain ⟨f, hrefused⟩ := Forge.emptySequence_of_lt (v := v) (draft.length_bytes ▸ hlt)
    rw [silence, hrefused, Bypass.silence_of_lt v hlt, Buffer.bytes_blank, Buffer.length_bytes]
  · obtain ⟨f, hok, hbuffer⟩ := Forge.emptySequence_of_le (v := v) (draft.length_bytes ▸ hle)
    have hroom : (Atom.encode (v.id .sequence) []).length ≤ (Writer.start v draft).room := by
      rw [Writer.room_start, Atom.length_encode]
      exact hle
    have hemit := (Writer.appends_emit (w := Writer.start v draft) rfl _).1 hroom
    rw [silence, hok, Bypass.silence_of_le v hle, Writer.bytes_buffer_emit hemit,
      Writer.offset_start, Writer.start, Writer.bytes_buffer_startAt]
    exact congrArg Except.ok hbuffer

theorem passOn_eq (input draft : Buffer) :
    passOn input.bytes draft.bytes = .ok ((Bypass.passOn input draft).map Buffer.bytes) := by
  rw [passOn, parseWhole_eq, Bypass.passOn, Buffer.atom?_eq, ← Atom.parseWhole]
  cases hwhole : Atom.parseWhole input.bytes with
  | none => rfl
  | some a =>
      have hsize := length_of_parseWhole hwhole
      simp only [bind, Except.bind, Option.bind, totalSize_eq, Buffer.length_bytes]
      by_cases hfit : a.totalSize ≤ draft.length
      · have hlength : (input.take a.totalSize).length = a.totalSize := by
          rw [Buffer.take_eq, List.length_take]
          omega
        rw [if_neg (Nat.not_lt.2 hfit), if_pos hfit]
        simp only [pure, Except.pure, range_eq (Nat.zero_le _) hsize, List.drop_zero, Nat.sub_zero,
          Option.map_some, Buffer.bytes_startWith, hlength]
        rw [Buffer.take_eq]
      · rw [if_pos (Nat.not_le.1 hfit), if_neg hfit]
        rfl

theorem output_eq (mode : Bypass.Mode) (input : Option Buffer) (draft : Buffer) :
    output mode v (input.map Buffer.bytes) draft.bytes
      = .ok (Bypass.output mode v input draft).bytes := by
  cases mode with
  | silent => exact silence_eq v draft
  | passthrough =>
      cases input with
      | none => exact silence_eq v draft
      | some input =>
          simp only [output, Option.map_some, passOn_eq, bind, Except.bind, Bypass.output,
            Option.bind_some]
          cases Bypass.passOn input draft with
          | none => exact silence_eq v draft
          | some passed => rfl

theorem outputs_eq (mode : Bypass.Mode) (inputs : List Buffer) (port : Nat) (drafts : List Buffer) :
    outputs mode v (inputs.map Buffer.bytes) port (drafts.map Buffer.bytes)
      = .ok (((drafts.zipIdx port).map fun (draft, port) =>
          Bypass.output mode v inputs[port]? draft).map Buffer.bytes) := by
  induction drafts generalizing port with
  | nil => rfl
  | cons first rest ih =>
      rw [List.map_cons, outputs, List.getElem?_map, output_eq, ih]
      rfl

end Bypassed

end Checked

end BlockHost
