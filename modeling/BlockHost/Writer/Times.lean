import BlockHost.Writer.Values

/-!
# Times in a sequence

The events of a sequence are written as a time followed by an atom, and times do not decrease. When
events have been replayed into an open sequence, `Writer.restartTimes` moves all of them to its start,
so that the events of the current block can follow.
-/

namespace BlockHost.Writer

/-- The size of a time. -/
def timeSize : Nat := 8

/-- Appends the time of an event. -/
def time (t : Int64) : Write Unit := fun w =>
  if w.failed then .error .overflow w
  else
    match w.frames with
    | ⟨header, .sequence, lastTime⟩ :: outer =>
        if t < lastTime then .error .timeDecreasing w
        else
          match emit (Bytes.int64 t) w with
          | .ok _ after => .ok () { after with frames := ⟨header, .sequence, t⟩ :: outer }
          | .error e after => .error e after
    | _ => .error .notInSequence w

/-- Appends events, one after the other. -/
def events (items : List (Int64 × Atom)) : Write Unit :=
  items.forM fun (t, event) => do
    time t
    copy event

/-- Events with all their times zero. The walk goes from one event to the next by the size in its
atom's header. -/
def clearTimes (content : Bytes) : Bytes :=
  if _h : (content.take (timeSize + Atom.headerSize)).length = timeSize + Atom.headerSize then
    let rest : Bytes := content.drop timeSize
    let size := (rest.word32At? 0).getD 0
    let event := padded (Atom.headerSize + size.toNat)
    Bytes.int64 0 ++ rest.take event ++ clearTimes (rest.drop event)
  else content
termination_by content.length
decreasing_by
  simp only [List.length_take, List.length_drop, timeSize, Atom.headerSize] at *
  omega

@[simp] theorem length_clearTimes (content : Bytes) :
    (clearTimes content).length = content.length := by
  fun_induction clearTimes content with
  | case1 content h rest size event ih =>
      simp only [List.length_take, timeSize, Atom.headerSize] at h
      rw [List.length_append, List.length_append, ih]
      simp only [Bytes.length_int64, List.length_take, List.length_drop, rest, timeSize]
      omega
  | case2 => rfl

/-- The writer with other content in the last `size` bytes, of the same length. -/
def revise (w : Writer) (size : Nat) (f : Bytes → Bytes) (hf : ∀ bs, (f bs).length = bs.length) :
    Writer :=
  { w with behind := (f (w.behind.take size).reverse).reverse ++ w.behind.drop size
           offset_eq := by
             simp only [w.offset_eq, List.length_append, List.length_reverse, hf, List.length_take,
               List.length_drop]
             omega }

/-- Sets the times of all events of the innermost frame, which is a sequence, to zero, and lets times
start again from there. -/
def restartTimes (frame : Frame) : Write Unit := fun w =>
  if w.failed then .error .overflow w
  else
    match w.frames with
    | ⟨header, .sequence, lastTime⟩ :: outer =>
        if (OpenFrame.mk header .sequence lastTime).isOf outer frame then
          let size := w.offset - header - Atom.headerSize
          .ok ()
            { w.revise size clearTimes length_clearTimes with
              frames := ⟨header, .sequence, 0⟩ :: outer }
        else .error .frameMismatch w
    | _ => .error .frameMismatch w

end BlockHost.Writer
