import BlockHost.Proofs.Refusals

/-!
# What a call can do

There are many calls on a writer, but few things that a call can do. It is refused and changes nothing,
or it asks something and changes nothing. It finds no room, which is remembered. It appends bytes, puts a
time down, opens a frame, closes the innermost one, or moves the events of the innermost one to the start
of their sequence. `Effect` has one case for each, with all that is known of the writer then, and
`effect_run` says that there is no other. What is kept by every call is then proved case by case, and no
proof of that kind opens a call again.

Resetting is left out. It is the one call that takes frames away without closing them.
-/

namespace BlockHost.Writer

/-- The number of the frame that a call asks to close. -/
def Call.closing? : Call → Option Nat
  | close number => some number
  | _ => none

/-- What a call opens: the term for the type, the kind of frame, and the words that it begins with. -/
def Call.opening? : Call → Option (Term × Composite × Bytes)
  | openTuple => some (.tuple, .tuple, [])
  | openObject id type => some (.object, .object, Bytes.word32 id ++ Bytes.word32 type)
  | openVector type size => some (.vector, .vector type size, Bytes.word32 type ++ Bytes.word32 size)
  | openSequence => some (.sequence, .sequence, [])
  | _ => none

/-- The call appends bytes and does nothing else. -/
def Call.appends : Call → Bool
  | scalar _ | string _ | path _ | uri _ | literal _ _ _ | chunk _ | typed _ _ => true
  | copy bs => (Atom.parse bs).isSome
  | raw _ | pad | key _ _ => true
  | _ => false

theorem Call.closing?_of_appends {c : Call} (hc : c.appends = true) : c.closing? = none := by
  cases c with
  | close number => cases hc
  | _ => rfl

/-- The writer whose innermost frame has got its size and is taken off. -/
def sized (w : Writer) (top : OpenFrame) (outer : List OpenFrame) : Writer :=
  (w.putSize (w.offset - top.header - Atom.headerSize)).withFrames outer

/-- The writer whose innermost sequence has had its times restarted. -/
def restarted (w : Writer) (header : Nat) (outer : List OpenFrame) : Writer :=
  (w.revise (w.offset - header - Atom.headerSize) clearTimes length_clearTimes).withFrames
    (⟨header, .sequence, 0⟩ :: outer)

/-- What a call other than a reset answers, and the writer that it leaves. -/
inductive Effect (d : Desk) : Call → EStateM.Result WriteFailure Writer Answer → Prop where
  | refused {c : Call} {cause : WriteFailure} (hfull : cause = .overflow → d.writer.failed = true) :
      Effect d c (.error cause d.writer)
  | idle {c : Call} {answer : Answer} (hframe : answer.frame? = none) (hdone : answer ≠ .done) :
      Effect d c (.ok answer d.writer)
  | full {c : Call} (hgood : d.writer.failed = false) (hc : c.closing? = none) :
      Effect d c (.error .overflow d.writer.frozen)
  | appended {c : Call} {bs : Bytes} (hgood : d.writer.failed = false) (hc : c.appends = true) :
      Effect d c (.ok .done (d.writer.append bs))
  | timed {t header last outer} (hgood : d.writer.failed = false)
      (hframes : d.writer.frames = ⟨header, .sequence, last⟩ :: outer) :
      Effect d (.time t) (.ok .done
        ((d.writer.append (Bytes.int64 t)).withFrames (⟨header, .sequence, t⟩ :: outer)))
  | opened {c : Call} {term : Term} {kind : Composite} {head : Bytes}
      (hgood : d.writer.failed = false) (hdepth : d.writer.depth ≠ maxDepth)
      (hc : c.opening? = some (term, kind, head)) :
      Effect d c (.ok (.opened ⟨d.writer.depth, d.writer.offset, kind⟩)
        (d.writer.opened term kind head))
  | closed {number frame top outer} (hgood : d.writer.failed = false)
      (hframe : d.frames[number]? = some frame) (hframes : d.writer.frames = top :: outer)
      (htop : top.isOf outer frame = true) :
      Effect d (.close number) (.ok .done
        ((d.writer.sized top outer).append (Bytes.zeros (padded d.writer.offset - d.writer.offset))))
  | torn {number frame top outer} (hgood : d.writer.failed = false)
      (hframe : d.frames[number]? = some frame) (hframes : d.writer.frames = top :: outer)
      (htop : top.isOf outer frame = true) :
      Effect d (.close number) (.error .overflow (d.writer.torn top outer))
  | restarted {number frame header last outer} (hgood : d.writer.failed = false)
      (hframe : d.frames[number]? = some frame)
      (hframes : d.writer.frames = ⟨header, .sequence, last⟩ :: outer)
      (htop : (OpenFrame.mk header .sequence last).isOf outer frame = true) :
      Effect d (.restartTimes number) (.ok .done (d.writer.restarted header outer))

/-! ## Calls that append -/

/-- What comes of an action that appends, if it does anything at all. -/
inductive Emits (w : Writer) : EStateM.Result WriteFailure Writer Unit → Prop where
  | refused {cause : WriteFailure} (hfull : cause = .overflow → w.failed = true) :
      Emits w (.error cause w)
  | full (hgood : w.failed = false) : Emits w (.error .overflow w.frozen)
  | appended (bs : Bytes) (hgood : w.failed = false) : Emits w (.ok () (w.append bs))

section Appends

variable {w : Writer} {d : Desk} {c : Call}

theorem emit_full {bs : Bytes} (hgood : w.failed = false) (hno : w.room < bs.length) :
    emit bs w = .error .overflow w.frozen := by
  have hsound : ¬ w.failed = true := by simp [hgood]
  rw [emit, if_neg hsound]
  exact if_neg (Nat.not_le.2 hno)

theorem emits_emit (bs : Bytes) : Emits w (emit bs w) := by
  cases hw : w.failed with
  | true =>
      rw [emit_frozen hw]
      exact .refused fun _ => hw
  | false =>
      rcases Nat.lt_or_ge w.room bs.length with hno | hfit
      · rw [emit_full hw hno]
        exact .full hw
      · rw [(appends_emit hw bs).1 hfit]
        exact .appended bs hw

theorem emits_put (type : UInt32) (body : Bytes) : Emits w (put type body w) := by
  unfold put
  split
  · split
    · exact emits_emit body
    · exact .refused fun h => absurd h (by decide)
  · exact emits_emit _

theorem Emits.effect {x : Write Unit} (hx : Emits d.writer (x d.writer)) (hc : c.appends = true) :
    Effect d c (done x d.writer) := by
  cases h : x d.writer with
  | ok _ after =>
      rw [h] at hx
      rw [done, Action.bind_ok h]
      cases hx with
      | appended bs hgood => exact .appended hgood hc
  | error cause after =>
      rw [h] at hx
      rw [done, Action.bind_error h]
      cases hx with
      | refused hfull => exact .refused hfull
      | full hgood => exact .full hgood (Call.closing?_of_appends hc)

theorem time_elsewhere (hw : w.failed = false) (t : Int64)
    (h : ∀ header last outer, w.frames ≠ ⟨header, .sequence, last⟩ :: outer) :
    time t w = .error .notInSequence w := by
  rw [time, hw, if_neg (by decide)]
  split
  · next hframes => exact absurd hframes (h _ _ _)
  · rfl

theorem effect_time (d : Desk) (t : Int64) : Effect d (.time t) (done (time t) d.writer) := by
  cases hw : d.writer.failed with
  | true =>
      rw [done, Action.bind_error (time_frozen hw t)]
      exact .refused fun _ => hw
  | false =>
      have hrefused : ∀ cause, time t d.writer = .error cause d.writer → cause ≠ .overflow →
          Effect d (.time t) (done (time t) d.writer) := by
        intro cause htime hcause
        rw [done, Action.bind_error htime]
        exact .refused fun h => absurd h hcause
      by_cases hsequence : ∃ header last outer, d.writer.frames = ⟨header, .sequence, last⟩ :: outer
      · obtain ⟨header, last, outer, hframes⟩ := hsequence
        by_cases hlt : t < last
        · exact hrefused .timeDecreasing (by simp [time, hw, hframes, hlt]) (by decide)
        · have hle : last ≤ t := Int64.not_lt.1 hlt
          have happends := appends_time hw hframes hle
          rcases Nat.lt_or_ge d.writer.room (Bytes.int64 t).length with hno | hfit
          · have htime : time t d.writer = .error .overflow d.writer.frozen := by
              simp only [time, hw, hframes, hlt, emit_full hw hno, Bool.false_eq_true, if_false]
            rw [done, Action.bind_error htime]
            exact .full hw rfl
          · rw [done, Action.bind_ok (happends.1 hfit)]
            exact .timed hw hframes
      · simp only [not_exists] at hsequence
        exact hrefused .notInSequence (time_elsewhere hw t hsequence) (by decide)

end Appends

/-! ## Frames -/

section Frames

variable {d : Desk} {c : Call}

theorem effect_enter {term : Term} {kind : Composite} {head : Bytes}
    (hopen : c.opening? = some (term, kind, head)) (hclose : c.closing? = none) :
    Effect d c (opening (enter term kind head) d.writer) := by
  cases hw : d.writer.failed with
  | true =>
      rw [opening, Action.bind_error (enter_frozen hw term kind head)]
      exact .refused fun _ => hw
  | false =>
      have hrefused : ∀ cause, enter term kind head d.writer = .error cause d.writer →
          cause ≠ .overflow → Effect d c (opening (enter term kind head) d.writer) := by
        intro cause henter hcause
        rw [opening, Action.bind_error henter]
        exact .refused fun h => absurd h hcause
      cases hv : d.writer.inVector with
      | true => exact hrefused .vectorMismatch (by simp [enter, hw, hv]) (by decide)
      | false =>
          by_cases hdepth : d.writer.depth = maxDepth
          · exact hrefused .tooDeep (by simp [enter, hw, hv, hdepth]) (by decide)
          · rcases Nat.lt_or_ge d.writer.room
                (Atom.header (d.writer.vocabulary.id term) 0 ++ head).length with hno | hfit
            · have hemit := emit_full hw hno
              have henter : enter term kind head d.writer = .error .overflow d.writer.frozen := by
                simp only [enter, hw, hv, if_neg hdepth, hemit, Bool.false_eq_true, if_false]
              rw [opening, Action.bind_error henter]
              exact .full hw hclose
            · have hemit := (appends_emit hw _).1 hfit
              have henter : enter term kind head d.writer
                  = .ok ⟨d.writer.depth, d.writer.offset, kind⟩ (d.writer.opened term kind head) := by
                simp only [enter, hw, hv, if_neg hdepth, hemit, Bool.false_eq_true, if_false]
                rfl
              rw [opening, Action.bind_ok henter]
              exact .opened hw hdepth hopen

/-- The innermost frame is closed, and only its padding can be refused. -/
theorem close_top {w : Writer} {frame : Frame} {top : OpenFrame} {outer : List OpenFrame}
    (hgood : w.failed = false) (hframes : w.frames = top :: outer)
    (htop : top.isOf outer frame = true) :
    done (close frame) w
        = .ok .done ((w.sized top outer).append (Bytes.zeros (padded w.offset - w.offset))) ∨
      done (close frame) w = .error .overflow (w.torn top outer) := by
  have hclose : close frame w = pad (w.sized top outer) := close_eq hgood hframes htop
  have hsized : (w.sized top outer).failed = false := hgood
  let fill := Bytes.zeros (padded w.offset - w.offset)
  rcases Nat.lt_or_ge (w.sized top outer).room fill.length with hno | hfit
  · right
    exact Action.bind_error (hclose.trans (emit_full hsized hno))
  · left
    exact Action.bind_ok (hclose.trans ((appends_emit hsized fill).1 hfit))

/-- A handle of another frame is refused, and the one of the innermost frame closes it. -/
theorem effect_close {number : Nat} {frame : Frame} (hframe : d.frames[number]? = some frame) :
    Effect d (.close number) (done (close frame) d.writer) := by
  cases hw : d.writer.failed with
  | true =>
      rw [done, Action.bind_error (close_frozen hw frame)]
      exact .refused fun _ => hw
  | false =>
      have hrefused : ∀ cause, close frame d.writer = .error cause d.writer → cause ≠ .overflow →
          Effect d (.close number) (done (close frame) d.writer) := by
        intro cause hclose hcause
        rw [done, Action.bind_error hclose]
        exact .refused fun h => absurd h hcause
      cases hframes : d.writer.frames with
      | nil => exact hrefused .frameMismatch (by simp [close, hw, hframes]) (by decide)
      | cons top outer =>
          by_cases htop : top.isOf outer frame = true
          · rcases close_top hw hframes htop with h | h
            · rw [h]
              exact .closed hw hframe hframes htop
            · rw [h]
              exact .torn hw hframe hframes htop
          · exact hrefused .frameMismatch (by simp [close, hw, hframes, htop]) (by decide)

theorem restartTimes_eq {w : Writer} {frame : Frame} {header : Nat} {last : Int64}
    {outer : List OpenFrame} (hgood : w.failed = false)
    (hframes : w.frames = ⟨header, .sequence, last⟩ :: outer)
    (htop : (OpenFrame.mk header .sequence last).isOf outer frame = true) :
    restartTimes frame w = .ok () (w.restarted header outer) := by
  simp only [restartTimes, hgood, hframes, htop, Bool.false_eq_true, if_false, if_true]
  rfl

theorem restartTimes_elsewhere {w : Writer} (hw : w.failed = false) (frame : Frame)
    (h : ∀ header last outer, w.frames ≠ ⟨header, .sequence, last⟩ :: outer) :
    restartTimes frame w = .error .frameMismatch w := by
  rw [restartTimes, hw, if_neg (by decide)]
  split
  · next hframes => exact absurd hframes (h _ _ _)
  · rfl

theorem effect_restartTimes {number : Nat} {frame : Frame}
    (hframe : d.frames[number]? = some frame) :
    Effect d (.restartTimes number) (done (restartTimes frame) d.writer) := by
  cases hw : d.writer.failed with
  | true =>
      rw [done, Action.bind_error (restartTimes_frozen hw frame)]
      exact .refused fun _ => hw
  | false =>
      have hrefused : restartTimes frame d.writer = .error .frameMismatch d.writer →
          Effect d (.restartTimes number) (done (restartTimes frame) d.writer) := by
        intro hrestart
        rw [done, Action.bind_error hrestart]
        exact .refused fun h => absurd h (by decide)
      by_cases hsequence : ∃ header last outer, d.writer.frames = ⟨header, .sequence, last⟩ :: outer
      · obtain ⟨header, last, outer, hframes⟩ := hsequence
        by_cases htop : (OpenFrame.mk header .sequence last).isOf outer frame = true
        · rw [done, Action.bind_ok (restartTimes_eq hw hframes htop)]
          exact .restarted hw hframe hframes htop
        · exact hrefused (by simp [restartTimes, hw, hframes, htop])
      · simp only [not_exists] at hsequence
        exact hrefused (restartTimes_elsewhere hw frame hsequence)

end Frames

/-! ## All calls -/

theorem effect_run (d : Desk) {c : Call} (hreset : c ≠ .reset) :
    Effect d c (c.run d.frames d.writer) := by
  cases c with
  | scalar n => exact (emits_put _ _).effect rfl
  | string text => exact (emits_put _ _).effect rfl
  | path text => exact (emits_put _ _).effect rfl
  | uri text => exact (emits_put _ _).effect rfl
  | literal text datatype lang => exact (emits_put _ _).effect rfl
  | chunk bs => exact (emits_put _ _).effect rfl
  | typed type body => exact (emits_put _ _).effect rfl
  | copy bs =>
      cases hparse : Atom.parse bs with
      | none =>
          simp only [Call.run, hparse]
          exact .idle rfl (by simp)
      | some a =>
          have hc : (Call.copy bs).appends = true := by rw [Call.appends, hparse, Option.isSome_some]
          simp only [Call.run, hparse]
          exact (emits_put _ _).effect hc
  | raw bs => exact (emits_emit _).effect rfl
  | pad => exact (emits_emit _).effect rfl
  | key k context => exact (emits_emit _).effect rfl
  | time t => exact effect_time d t
  | openTuple => exact effect_enter rfl rfl
  | openSequence => exact effect_enter rfl rfl
  | openObject id type => exact effect_enter rfl rfl
  | openVector type size => exact effect_enter rfl rfl
  | close number =>
      cases hframe : d.frames[number]? with
      | none =>
          simp only [Call.run, onFrame, hframe]
          exact .idle rfl (by simp)
      | some frame =>
          rw [run_close hframe]
          exact effect_close hframe
  | restartTimes number =>
      cases hframe : d.frames[number]? with
      | none =>
          simp only [Call.run, onFrame, hframe]
          exact .idle rfl (by simp)
      | some frame =>
          rw [run_restartTimes hframe]
          exact effect_restartTimes hframe
  | reset => exact absurd rfl hreset
  | finish =>
      have hfinish : d.writer.finish = .error .overflow → d.writer.failed = true := by
        intro h
        unfold finish at h
        split at h
        · assumption
        · split at h <;> cases h
      simp only [Call.run, Action.get_bind]
      cases h : d.writer.finish with
      | ok n => exact .idle rfl (by simp)
      | error cause => exact .refused fun hcause => hfinish (hcause ▸ h)
  | written => exact .idle rfl (by simp)

/-- A call is not refused, and answers this. -/
def Desk.Answers (d : Desk) (c : Call) (answer : Answer) : Prop :=
  ∃ after, c.run d.frames d.writer = .ok answer after

instance (d : Desk) (c : Call) (answer : Answer) : Decidable (d.Answers c answer) :=
  match h : c.run d.frames d.writer with
  | .ok other after =>
      if heq : other = answer then .isTrue ⟨after, heq ▸ h⟩
      else .isFalse fun ⟨_, hrun⟩ => heq (by cases h.symm.trans hrun; rfl)
  | .error _ _ => .isFalse fun ⟨_, hrun⟩ => by cases h.symm.trans hrun

theorem Desk.Answers.effect {d : Desk} {c : Call} {answer : Answer} (h : d.Answers c answer)
    (hreset : c ≠ .reset) : Effect d c (.ok answer (d.step c).writer) := by
  obtain ⟨after, hrun⟩ := h
  have heffect := effect_run d hreset
  rw [Desk.writer_step, hrun, Action.left]
  rwa [hrun] at heffect

/-- What is done is done with room left. -/
theorem Desk.Answers.good {d : Desk} {c : Call} (h : d.Answers c .done) (hreset : c ≠ .reset) :
    d.writer.failed = false := by
  have heffect := h.effect hreset
  generalize (d.step c).writer = after at heffect
  cases heffect with
  | idle _ hdone => exact absurd rfl hdone
  | appended hgood => exact hgood
  | timed hgood => exact hgood
  | closed hgood => exact hgood
  | restarted hgood => exact hgood

end BlockHost.Writer
