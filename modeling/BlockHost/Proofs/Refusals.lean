import BlockHost.Proofs.Containment

/-!
# What a refused call leaves

A call that is refused should have done nothing, so that a caller may go on as if it had not been made.
Every action of the writer does its checks before its first effect, and then appends through
`Writer.emit`, which writes all of its bytes or none. So a refusal leaves the writer as it was, except
that running out of room is remembered (`Spotless`).

Closing a frame is the exception. It puts the size in and takes the frame off before it pads, and the
padding can still be refused, since what stands in a vector or was appended raw need not end on the
grid. Then the frame is closed and the call is refused all the same (`Desk.Tears`).
-/

namespace BlockHost.Writer

/-- The writer when its room has run out. -/
def frozen (w : Writer) : Writer :=
  { w with failed := true }

theorem frozen_of_failed {w : Writer} (hw : w.failed = true) : w.frozen = w := by
  cases w
  simp only at hw
  subst hw
  rfl

/-- A refusal leaves the writer as it was, and an overflow is remembered. -/
def Spotless {α : Type} (w : Writer) : EStateM.Result WriteFailure Writer α → Prop
  | .ok _ _ => True
  | .error cause after => after = if cause = .overflow then w.frozen else w

section Actions

variable {w : Writer} {α : Type}

theorem spotless_overflow (hw : w.failed = true) :
    Spotless (α := α) w (.error .overflow w) :=
  (frozen_of_failed hw).symm

theorem emit_spotless (bs : Bytes) : Spotless w (emit bs w) := by
  unfold emit
  split
  · next hw => exact spotless_overflow hw
  · split
    · trivial
    · rfl

theorem put_spotless (type : UInt32) (body : Bytes) : Spotless w (put type body w) := by
  unfold put
  split
  · split
    · exact emit_spotless body
    · rfl
  · exact emit_spotless _

theorem enter_spotless (term : Term) (kind : Composite) (head : Bytes) :
    Spotless w (enter term kind head w) := by
  unfold enter
  split
  · next hw => exact spotless_overflow hw
  · split
    · rfl
    · split
      · rfl
      · have hemit := emit_spotless (w := w) (Atom.header (w.vocabulary.id term) 0 ++ head)
        cases h : emit (Atom.header (w.vocabulary.id term) 0 ++ head) w with
        | ok _ after => trivial
        | error cause after =>
            rw [h] at hemit
            exact hemit

theorem time_spotless (t : Int64) : Spotless w (time t w) := by
  unfold time
  split
  · next hw => exact spotless_overflow hw
  · split
    · split
      · rfl
      · have hemit := emit_spotless (w := w) (Bytes.int64 t)
        cases h : emit (Bytes.int64 t) w with
        | ok _ after => trivial
        | error cause after =>
            rw [h] at hemit
            exact hemit
    · rfl

theorem restartTimes_spotless (frame : Frame) : Spotless w (restartTimes frame w) := by
  unfold restartTimes
  split
  · next hw => exact spotless_overflow hw
  · split
    · split
      · trivial
      · rfl
    · rfl

theorem Spotless.done {x : Write Unit} (hx : Spotless w (x w)) : Spotless w (Writer.done x w) := by
  cases h : x w with
  | ok _ after =>
      rw [Writer.done, Action.bind_ok h]
      trivial
  | error cause after =>
      rw [h] at hx
      rw [Writer.done, Action.bind_error h]
      exact hx

theorem Spotless.opening {x : Write Frame} (hx : Spotless w (x w)) :
    Spotless w (Writer.opening x w) := by
  cases h : x w with
  | ok frame after =>
      rw [Writer.opening, Action.bind_ok h]
      trivial
  | error cause after =>
      rw [h] at hx
      rw [Writer.opening, Action.bind_error h]
      exact hx

end Actions

/-! ## Closing -/

/-- The frame is the innermost one, and there is no room for the padding behind it. -/
def Tears (w : Writer) (frame : Frame) : Prop :=
  w.failed = false ∧ w.room < padded w.offset - w.offset ∧
    ∃ top outer, w.frames = top :: outer ∧ top.isOf outer frame = true

/-- The writer when a frame has got its size and is closed, but nothing is padded. -/
def torn (w : Writer) (top : OpenFrame) (outer : List OpenFrame) : Writer :=
  ((w.putSize (w.offset - top.header - Atom.headerSize)).withFrames outer).frozen

section Closing

variable {w : Writer} {frame : Frame}

/-- Past the checks, all that can go wrong is the padding. -/
theorem close_spotless (h : ¬ w.Tears frame) : Spotless w (close frame w) := by
  cases hw : w.failed with
  | true =>
      rw [close_frozen hw]
      exact spotless_overflow hw
  | false =>
      cases hframes : w.frames with
      | nil =>
          simp only [close, hw, hframes]
          rfl
      | cons top outer =>
          by_cases htop : top.isOf outer frame = true
          · have hroom : padded w.offset - w.offset ≤ w.room :=
              Nat.le_of_not_lt fun hshort => h ⟨hw, hshort, top, outer, hframes, htop⟩
            let sized := (w.putSize (w.offset - top.header - Atom.headerSize)).withFrames outer
            have hpad : pad sized = .ok () _ :=
              (appends_emit (w := sized) hw (Bytes.zeros (padded w.offset - w.offset))).1
                (by rw [Bytes.length_zeros]; exact hroom)
            rw [close_eq hw hframes htop, hpad]
            trivial
          · simp only [close, hw, hframes, if_neg htop]
            rfl

/-- The size is in and the frame is off when the padding is refused. -/
theorem close_torn (h : w.Tears frame) :
    ∃ top outer, w.frames = top :: outer ∧ close frame w = .error .overflow (w.torn top outer) := by
  obtain ⟨hw, hshort, top, outer, hframes, htop⟩ := h
  let sized := (w.putSize (w.offset - top.header - Atom.headerSize)).withFrames outer
  obtain ⟨after, hpad⟩ : ∃ after, pad sized = .error .overflow after :=
    (appends_emit (w := sized) hw (Bytes.zeros (padded w.offset - w.offset))).2
      (by rw [Bytes.length_zeros]; exact hshort)
  have hafter : Spotless sized (pad sized) := emit_spotless _
  rw [hpad] at hafter
  exact ⟨top, outer, hframes, (close_eq hw hframes htop).trans (hpad.trans (by rw [hafter]; rfl))⟩

end Closing

/-! ## All calls -/

/-- The call closes a frame that is then not padded. -/
def Desk.Tears (d : Desk) (c : Call) : Prop :=
  ∃ number frame, c = .close number ∧ d.frames[number]? = some frame ∧ d.writer.Tears frame

section Calls

variable {d : Desk} {c : Call}

theorem run_spotless (h : ¬ d.Tears c) : Spotless d.writer (c.run d.frames d.writer) := by
  cases c with
  | scalar n => exact (put_spotless _ _).done
  | string text => exact (put_spotless _ _).done
  | path text => exact (put_spotless _ _).done
  | uri text => exact (put_spotless _ _).done
  | literal text datatype lang => exact (put_spotless _ _).done
  | chunk bs => exact (put_spotless _ _).done
  | typed type body => exact (put_spotless _ _).done
  | copy bs =>
      cases hparse : Atom.parse bs with
      | none =>
          simp only [Call.run, hparse]
          trivial
      | some a =>
          simp only [Call.run, hparse]
          exact (put_spotless _ _).done
  | raw bs => exact (emit_spotless _).done
  | pad => exact (emit_spotless _).done
  | key k context => exact (emit_spotless _).done
  | time t => exact (time_spotless t).done
  | openTuple => exact (enter_spotless _ _ _).opening
  | openSequence => exact (enter_spotless _ _ _).opening
  | openObject id type => exact (enter_spotless _ _ _).opening
  | openVector type size => exact (enter_spotless _ _ _).opening
  | close number =>
      cases hframe : d.frames[number]? with
      | none =>
          simp only [Call.run, onFrame, hframe]
          trivial
      | some frame =>
          rw [run_close hframe]
          exact (close_spotless fun htears => h ⟨number, frame, rfl, hframe, htears⟩).done
  | restartTimes number =>
      cases hframe : d.frames[number]? with
      | none =>
          simp only [Call.run, onFrame, hframe]
          trivial
      | some frame =>
          rw [run_restartTimes hframe]
          exact (restartTimes_spotless frame).done
  | reset => trivial
  | finish =>
      simp only [Call.run, Action.get_bind, finish]
      by_cases hw : d.writer.failed = true
      · simp only [if_pos hw]
        exact spotless_overflow hw
      · simp only [if_neg hw]
        by_cases hdepth : d.writer.depth ≠ 0
        · simp only [if_pos hdepth]
          rfl
        · simp only [if_neg hdepth]
          trivial
  | written => trivial

theorem run_torn (h : d.Tears c) :
    ∃ top outer, d.writer.frames = top :: outer ∧
      c.run d.frames d.writer = .error .overflow (d.writer.torn top outer) := by
  obtain ⟨number, frame, rfl, hframe, htears⟩ := h
  obtain ⟨top, outer, hframes, hclose⟩ := close_torn htears
  refine ⟨top, outer, hframes, ?_⟩
  rw [run_close hframe]
  exact Action.bind_error hclose

theorem step_of_refused {cause : WriteFailure} (h : c.run d.frames d.writer = .error cause d.writer) :
    d.step c = d := by
  rw [Desk.step, h]

end Calls

/-- A refused call leaves the writer as it was, whatever writer it finds and whatever was refused: the
buffer, the offset, the open frames and their last times. An overflow is remembered, and any other
refusal is as if the call had not been made, for all calls that follow. The one exception is a close
without room for its padding, which closes its frame and is refused. -/
theorem refused_spotless {d : Desk} {c : Call} {cause : WriteFailure} {after : Writer}
    (h : c.run d.frames d.writer = .error cause after) :
    (cause ≠ .overflow → after = d.writer ∧ ∀ later, d.after (c :: later) = d.after later) ∧
      (cause = .overflow → ¬ d.Tears c → after = d.writer.frozen) ∧
      (d.Tears c → cause = .overflow ∧ ∃ top outer, d.writer.frames = top :: outer ∧
        after = d.writer.torn top outer) := by
  have htorn : d.Tears c → cause = .overflow ∧ ∃ top outer, d.writer.frames = top :: outer ∧
      after = d.writer.torn top outer := by
    intro htears
    obtain ⟨top, outer, hframes, hrun⟩ := run_torn htears
    rw [h] at hrun
    cases hrun
    exact ⟨rfl, top, outer, hframes, rfl⟩
  have hspotless : ¬ d.Tears c → after = if cause = .overflow then d.writer.frozen else d.writer := by
    intro htears
    have hrun := run_spotless htears
    rw [h] at hrun
    exact hrun
  refine ⟨fun hcause => ?_, fun hcause htears => ?_, htorn⟩
  · have hsame : after = d.writer := by
      have hwhole := hspotless fun htears => hcause (htorn htears).1
      rwa [if_neg hcause] at hwhole
    subst hsame
    refine ⟨rfl, fun later => ?_⟩
    show (d.step c).after later = d.after later
    rw [step_of_refused h]
  · have hwhole := hspotless htears
    rwa [if_pos hcause] at hwhole

/-- In a sequence whose last event was at 5, an earlier event is refused, and then one at 6 is written as
if nothing had happened. -/
theorem refused_spotless_time :
    let d := (Desk.mk (startAt ⟨fun t => UInt32.ofNat (Term.all.idxOf t)⟩ (.blank 64) 0) []).after
      [.openSequence, .time 5, .scalar (.int 1)]
    (Call.time 4).run d.frames d.writer = .error .timeDecreasing d.writer ∧
      d.after [.time 4, .time 6] = d.after [.time 6] := by
  intro d
  have hrun : (Call.time 4).run d.frames d.writer = .error .timeDecreasing d.writer := rfl
  obtain ⟨hrefused, -, -⟩ := refused_spotless hrun
  exact ⟨hrun, (hrefused (by decide)).2 [.time 6]⟩

/-- A vector with one integer of 32 bits, which fills its buffer up to four bytes in front of the grid. -/
def unpaddedVector : Desk :=
  (Desk.mk (startAt ⟨fun t => UInt32.ofNat (Term.all.idxOf t)⟩ (.blank 20) 0) []).after
    [.openVector (UInt32.ofNat (Term.all.idxOf .int)) 4, .scalar (.int 7)]

/-- Closing the vector is refused, and yet it has its size and is no longer open. -/
theorem close_half_done :
    let d := unpaddedVector
    let d' := d.step (.close 0)
    (∃ after, (Call.close 0).run d.frames d.writer = .error .overflow after) ∧
      d.writer.depth = 1 ∧ d'.writer.depth = 0 ∧
      d.writer.buffer.bytes.take 4 = [0, 0, 0, 0] ∧ d'.writer.buffer.bytes.take 4 = [12, 0, 0, 0] :=
  ⟨⟨_, rfl⟩, by decide, by decide, by decide, by decide⟩

end BlockHost.Writer
