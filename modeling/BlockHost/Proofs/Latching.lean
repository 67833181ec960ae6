import BlockHost.Proofs.Containment
import BlockHost.Script.Error

/-!
# What a frozen writer answers

When the room of a writer has run out, a caller should hear of nothing else until the writer is reset:
an overflow costs a script one block, and every other refusal disables it. So each call asks about the
room before it asks about anything else, such as open frames or times.

Calls that append an atom are the exception. They look at the innermost frame first, and when that is a
vector of other elements (`Call.misfits`) they are refused for their shape, by a frozen writer as by any
other. What a frozen writer answers is known from the call and that frame alone (`frozen_answers`), and
a script that writes on after an overflow can be disabled by it (`shape_before_room`).
-/

namespace BlockHost.Writer

/-! ## Calls that append an atom -/

/-- The innermost frame is a vector, but not of such elements. -/
def misfits (w : Writer) (type : UInt32) (body : Bytes) : Bool :=
  match w.frames with
  | ⟨_, .vector elementType elementSize, _⟩ :: _ =>
      !decide (type = elementType ∧ body.length = elementSize.toNat)
  | _ => false

/-- The type and the body of the atom that a call appends, if it appends one. -/
def Call.atom? (vocabulary : Vocabulary) : Call → Option (UInt32 × Bytes)
  | scalar n => some (vocabulary.id n.term, n.body)
  | string text => some (vocabulary.id .string, textBody text)
  | path text => some (vocabulary.id .path, textBody text)
  | uri text => some (vocabulary.id .uri, textBody text)
  | literal text datatype lang =>
      some (vocabulary.id .literal, Bytes.word32 datatype ++ Bytes.word32 lang ++ textBody text)
  | chunk bs => some (vocabulary.id .chunk, bs)
  | typed type body => some (type, body)
  | copy bs => (Atom.parse bs).map fun a => (a.type, a.body)
  | _ => none

/-- A call appends an atom that is no element of the innermost frame, which is a vector. -/
def Call.misfits (w : Writer) (c : Call) : Bool :=
  (c.atom? w.vocabulary).any fun (type, body) => w.misfits type body

section Atoms

variable {w : Writer} {c : Call} {frames : List Frame} {type : UInt32} {body : Bytes}

theorem run_of_atom? (h : c.atom? w.vocabulary = some (type, body)) :
    c.run frames w = done (put type body) w := by
  cases c with
  | copy bs =>
      obtain ⟨a, hparse, heq⟩ := Option.map_eq_some_iff.1 h
      cases heq
      simp only [Call.run, hparse]
      rfl
  | scalar n => cases h; rfl
  | string text => cases h; rfl
  | path text => cases h; rfl
  | uri text => cases h; rfl
  | literal text datatype lang => cases h; rfl
  | chunk bs => cases h; rfl
  | typed type body => cases h; rfl
  | _ => cases h

/-- The shape is asked for first, and then the room. -/
theorem put_frozen_eq (hw : w.failed = true) :
    put type body w
      = .error (if w.misfits type body then .vectorMismatch else .overflow) w := by
  unfold put misfits
  match w.frames with
  | ⟨_, .vector elementType elementSize, _⟩ :: _ =>
      by_cases hfits : type = elementType ∧ body.length = elementSize.toNat
      · simp only [if_pos hfits, emit_frozen hw, decide_eq_true hfits, Bool.not_true,
          Bool.false_eq_true, if_false]
      · simp only [if_neg hfits, decide_eq_false hfits, Bool.not_false, if_true]
  | [] => exact emit_frozen hw _
  | ⟨_, .tuple, _⟩ :: _ => exact emit_frozen hw _
  | ⟨_, .object, _⟩ :: _ => exact emit_frozen hw _
  | ⟨_, .sequence, _⟩ :: _ => exact emit_frozen hw _

end Atoms

/-! ## All calls -/

section Frozen

variable {w : Writer} {frames : List Frame}

theorem finish_frozen (hw : w.failed = true) : w.finish = .error .overflow := by
  rw [finish, if_pos hw]

/-- A call that writes is refused for its shape or for the lack of room, and for nothing else. -/
theorem run_frozen_eq (hw : w.failed = true) (c : Call) (hc : c.writes frames = true) :
    c.run frames w = .error (if c.misfits w then .vectorMismatch else .overflow) w := by
  cases hatom : c.atom? w.vocabulary with
  | some atom =>
      obtain ⟨type, body⟩ := atom
      have hmisfits : c.misfits w = w.misfits type body := by
        rw [Call.misfits, hatom, Option.any_some]
      rw [run_of_atom? hatom, hmisfits]
      exact Action.bind_error (put_frozen_eq hw)
  | none =>
      have hmisfits : c.misfits w = false := by
        rw [Call.misfits, hatom, Option.any_none]
      simp only [hmisfits, Bool.false_eq_true, if_false]
      cases c with
      | raw bs => exact Action.bind_error (emit_frozen hw bs)
      | pad => exact Action.bind_error (emit_frozen hw _)
      | key k context => exact Action.bind_error (emit_frozen hw _)
      | time t => exact Action.bind_error (time_frozen hw t)
      | openTuple => exact Action.bind_error (enter_frozen hw _ _ _)
      | openSequence => exact Action.bind_error (enter_frozen hw _ _ _)
      | openObject id type => exact Action.bind_error (enter_frozen hw _ _ _)
      | openVector type size => exact Action.bind_error (enter_frozen hw _ _ _)
      | close number =>
          have hnumber : number < frames.length := of_decide_eq_true hc
          rw [run_close (List.getElem?_eq_getElem hnumber)]
          exact Action.bind_error (close_frozen hw _)
      | restartTimes number =>
          have hnumber : number < frames.length := of_decide_eq_true hc
          rw [run_restartTimes (List.getElem?_eq_getElem hnumber)]
          exact Action.bind_error (restartTimes_frozen hw _)
      | copy bs =>
          obtain ⟨a, hparse⟩ := Option.isSome_iff_exists.1 hc
          rw [Call.atom?, hparse] at hatom
          cases hatom
      | reset => cases hc
      | finish => cases hc
      | written => cases hc
      | _ => cases hatom

end Frozen

/-- Whatever has been called since the room ran out, as long as the writer was not reset: finishing is
refused with an overflow, and so is every call that writes, unless it appends an atom for which the
innermost frame is a vector of another shape. That refusal alone disables a script. -/
theorem frozen_answers {d : Desk} (hw : d.writer.failed = true) (since : List Call)
    (hsince : .reset ∉ since) :
    let d' := d.after since
    d' = d ∧ d'.writer.finish = .error .overflow ∧
      ∀ c : Call, c.writes d'.frames = true →
        ∃ cause, c.run d'.frames d'.writer = .error cause d'.writer ∧
          cause = (if c.misfits d'.writer then .vectorMismatch else .overflow) ∧
          (ScriptFailure.writer cause).isDisabling = c.misfits d'.writer := by
  intro d'
  have hsame : d' = d := Desk.after_of_failed hw since hsince
  rw [hsame]
  refine ⟨rfl, finish_frozen hw, fun c hc => ⟨_, run_frozen_eq hw c hc, rfl, ?_⟩⟩
  cases c.misfits d.writer <;> rfl

/-- A vector of integers of 32 bits, in a buffer that has room for one of them. -/
def fullVector : Desk :=
  (Desk.mk (startAt ⟨fun t => UInt32.ofNat (Term.all.idxOf t)⟩ (.blank 20) 0) []).after
    [.openVector (UInt32.ofNat (Term.all.idxOf .int)) 4, .scalar (.int 7), .scalar (.int 8)]

/-- One integer more is an overflow, also after other calls have been refused. -/
theorem frozen_answers_vector :
    fullVector.writer.failed = true ∧
      let d' := fullVector.after [.scalar (.long 9), .openTuple, .close 0]
      d'.writer.finish = .error .overflow ∧
        ∃ cause, (Call.scalar (.int 9)).run d'.frames d'.writer = .error cause d'.writer ∧
          cause = .overflow := by
  have hfailed : fullVector.writer.failed = true := by decide
  obtain ⟨-, hfinish, hcalls⟩ := frozen_answers hfailed [.scalar (.long 9), .openTuple, .close 0]
    (by decide)
  obtain ⟨cause, hrun, hcause, -⟩ := hcalls (.scalar (.int 9)) (by decide)
  exact ⟨hfailed, hfinish, cause, hrun, hcause.trans (by decide)⟩

/-- A number of 64 bits is refused for its shape, although the room has run out, and a script that is
refused so is disabled. -/
theorem shape_before_room :
    fullVector.writer.failed = true ∧
      (Call.scalar (.long 9)).run fullVector.frames fullVector.writer
        = .error .vectorMismatch fullVector.writer ∧
      (ScriptFailure.writer .vectorMismatch).isDisabling = true ∧
      (ScriptFailure.writer .overflow).isDisabling = false :=
  ⟨by decide, rfl, rfl, rfl⟩

end BlockHost.Writer
