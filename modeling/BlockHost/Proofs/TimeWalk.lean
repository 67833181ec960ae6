import BlockHost.Proofs.EventStreams
import BlockHost.Proofs.Iteration

/-!
# The walk that puts times to zero

The walk does not know what the content of a sequence is. It stops wherever there is room for a time and
a header, puts eight zeros there, and goes on behind the body that the header declares, on the grid
(`TimeWalk`). A reader is more careful: it asks for the body as well. So the walk stops at every event
that a reader finds, and it may stop once more, at a header that declares too much, or at bytes that
are no event at all.

Whatever the content is, each stop is sixteen bytes or more behind the one before. The walk therefore
ends, and nothing is written but eight zeros at each of its stops (`clearTimes_walk`). When the content
is a list of events, the stops are where their times stand (`timeWalk_encodeEvents`).
-/

namespace BlockHost

/-- The places at which the walk over a content stops, from a place on. -/
inductive TimeWalk (content : Bytes) : (start : Nat) → (stops : List Nat) → Prop where
  | ended {start : Nat} : content.length < Layout.sequence.headerStop start → TimeWalk content start []
  | stopped {start : Nat} {rest : List Nat} : Layout.sequence.headerStop start ≤ content.length →
      TimeWalk content (Layout.sequence.paddedStop content start) rest →
      TimeWalk content start (start :: rest)

/-- A time stands at a place and reaches over another one. -/
def Covered (stops : List Nat) (i : Nat) : Prop :=
  ∃ p ∈ stops, p ≤ i ∧ i < p + Writer.timeSize

instance (stops : List Nat) (i : Nat) : Decidable (Covered stops i) :=
  inferInstanceAs (Decidable (∃ p ∈ stops, _))

namespace TimeWalk

variable {content : Bytes} {start : Nat} {stops : List Nat}

theorem headerStop_le_next : Layout.sequence.headerStop start
    ≤ Layout.sequence.paddedStop content start :=
  Nat.le_trans Layout.headerStop_le_stop Layout.stop_le_paddedStop

theorem headerStop_eq (start : Nat) : Layout.sequence.headerStop start = start + 16 := rfl

theorem unique {other : List Nat} (h : TimeWalk content start stops)
    (hother : TimeWalk content start other) : stops = other := by
  induction h generalizing other with
  | ended hout =>
      cases hother with
      | ended => rfl
      | stopped hin => exact absurd hin (Nat.not_le.2 hout)
  | stopped hin _ ih =>
      cases hother with
      | ended hout => exact absurd hin (Nat.not_le.2 hout)
      | stopped _ hrest => rw [ih hrest]

theorem start_le (h : TimeWalk content start stops) : ∀ p ∈ stops, start ≤ p := by
  induction h with
  | ended => simp
  | @stopped start rest hin hrest ih =>
      intro p hp
      have hnext : start + 16 ≤ Layout.sequence.paddedStop content start := headerStop_le_next
      rcases List.mem_cons.1 hp with rfl | hp
      · exact Nat.le_refl _
      · have hle := ih p hp
        omega

/-- The walk stays in front of the end of the content. -/
theorem inside (h : TimeWalk content start stops) : ∀ p ∈ stops, p + 16 ≤ content.length := by
  induction h with
  | ended => simp
  | stopped hin _ ih =>
      intro p hp
      rcases List.mem_cons.1 hp with rfl | hp
      · exact hin
      · exact ih p hp

theorem pairwise (h : TimeWalk content start stops) : stops.Pairwise fun p q => p + 16 ≤ q := by
  induction h with
  | ended => exact .nil
  | stopped _ hrest ih =>
      exact .cons (fun p hp => Nat.le_trans headerStop_le_next (hrest.start_le p hp)) ih

theorem covered_of_lt (h : TimeWalk content start stops) {i : Nat} (hi : i < start) :
    ¬ Covered stops i := by
  rintro ⟨p, hp, hle, -⟩
  have hstart := h.start_le p hp
  omega

theorem not_covered (h : TimeWalk content start stops) {i : Nat} (hi : content.length ≤ i) :
    ¬ Covered stops i := by
  rintro ⟨p, hp, -, hlt⟩
  have hin := h.inside p hp
  unfold Writer.timeSize at hlt
  omega

end TimeWalk

theorem covered_cons {start : Nat} {rest : List Nat} {i : Nat} :
    Covered (start :: rest) i ↔ (start ≤ i ∧ i < start + 8) ∨ Covered rest i := by
  simp [Covered, Writer.timeSize]

/-- One stop of the walk. -/
theorem clearTimes_drop {content : Bytes} {start : Nat}
    (hin : Layout.sequence.headerStop start ≤ content.length) :
    Writer.clearTimes (content.drop start)
      = Bytes.int64 0
        ++ (content.drop (start + 8)).take (padded (8 + Layout.sequence.declared content start))
        ++ Writer.clearTimes (content.drop (Layout.sequence.paddedStop content start)) := by
  have hlength : start + 16 ≤ content.length := hin
  have hhead : ((content.drop start).take (Writer.timeSize + Atom.headerSize)).length
      = Writer.timeSize + Atom.headerSize := by
    rw [List.length_take, List.length_drop]
    unfold Writer.timeSize Atom.headerSize
    omega
  have hsize : ((Bytes.word32At? (content.drop (start + 8)) 0).getD 0).toNat
      = Layout.sequence.declared content start := by
    rw [Bytes.word32At?_eq, if_pos (by rw [List.length_drop]; omega), Option.getD_some, List.drop_zero]
    exact Atom.toNat_declaredSize _
  rw [Writer.clearTimes, dif_pos hhead]
  simp only [List.drop_drop, Writer.timeSize, Atom.headerSize, hsize]
  rfl

/-- What a stop makes of each byte: zeros for the time, the event as it is, and the walk behind it. -/
theorem getElem?_clearTimes_drop {content : Bytes} {start i : Nat}
    (hin : Layout.sequence.headerStop start ≤ content.length) (hi : start + i < content.length) :
    (Writer.clearTimes (content.drop start))[i]? =
      if i < 8 then some 0
      else if start + i < Layout.sequence.paddedStop content start then content[start + i]?
      else (Writer.clearTimes (content.drop (Layout.sequence.paddedStop content start)))[
        start + i - Layout.sequence.paddedStop content start]? := by
  rw [clearTimes_drop hin, List.append_assoc]
  generalize hsize : padded (8 + Layout.sequence.declared content start) = size
  have hstop : Layout.sequence.paddedStop content start = start + 8 + size := by
    rw [← hsize]
    rfl
  have htake : ((content.drop (start + 8)).take size).length
      = min size (content.length - (start + 8)) := by
    rw [List.length_take, List.length_drop]
  rw [hstop]
  split
  · next htime =>
      have hzero : ∀ n < 8, (Bytes.int64 0)[n]? = some 0 := by decide
      rw [List.getElem?_append_left (by rwa [Bytes.length_int64]), hzero i htime]
  · next htime =>
      rw [List.getElem?_append_right (by rw [Bytes.length_int64]; omega), Bytes.length_int64]
      split
      · next hevent =>
          rw [List.getElem?_append_left (by rw [htake]; omega), List.getElem?_take_of_lt (by omega),
            List.getElem?_drop]
          congr 1
          omega
      · next hbehind =>
          have hfull : ((content.drop (start + 8)).take size).length = size := by
            rw [htake]
            omega
          rw [List.getElem?_append_right (by rw [hfull]; omega), hfull]
          congr 1
          omega

open TimeWalk in
/-- Eight zeros stand at each stop, and all other bytes are what they were. -/
theorem clearTimes_walk (content : Bytes) (start : Nat) :
    ∃ stops, TimeWalk content start stops ∧ ∀ i,
      (Writer.clearTimes (content.drop start))[i]? =
        if Covered stops (start + i) then some 0 else content[start + i]? := by
  by_cases hin : Layout.sequence.headerStop start ≤ content.length
  · have hheader : start + 16 ≤ content.length := hin
    have hnext : start + 16 ≤ Layout.sequence.paddedStop content start := headerStop_le_next
    obtain ⟨rest, hrest, hbytes⟩ :=
      clearTimes_walk content (Layout.sequence.paddedStop content start)
    have hwalk : TimeWalk content start (start :: rest) := .stopped hin hrest
    refine ⟨start :: rest, hwalk, fun i => ?_⟩
    rcases Nat.lt_or_ge (start + i) content.length with hi | hi
    · rw [getElem?_clearTimes_drop hin hi]
      split
      · next htime => rw [if_pos (covered_cons.2 (.inl (by omega)))]
      · next htime =>
          have hcovered : Covered (start :: rest) (start + i) ↔ Covered rest (start + i) := by
            rw [covered_cons]
            exact or_iff_right (by omega)
          simp only [hcovered]
          split
          · next hevent => rw [if_neg (hrest.covered_of_lt hevent)]
          · next hbehind => rw [hbytes, Nat.add_sub_cancel' (Nat.not_lt.1 hbehind)]
    · rw [if_neg (hwalk.not_covered hi), List.getElem?_eq_none hi, List.getElem?_eq_none]
      rw [Writer.length_clearTimes, List.length_drop]
      omega
  · have hout : content.length < start + 16 := Nat.not_le.1 hin
    refine ⟨[], .ended hout, fun i => ?_⟩
    have hstay : Writer.clearTimes (content.drop start) = content.drop start := by
      rw [Writer.clearTimes, dif_neg]
      rw [List.length_take, List.length_drop]
      unfold Writer.timeSize Atom.headerSize
      omega
    rw [hstay, List.getElem?_drop, if_neg (by simp [Covered])]
termination_by content.length - start

/-! ## Events -/

/-- Where the times of events stand that lie one behind the other from a place on. -/
def timePlaces (start : Nat) : List (Int64 × Atom) → List Nat
  | [] => []
  | e :: rest => start :: timePlaces (start + Backlog.eventSize e) rest

theorem Atom.declaredSize_encode (type : UInt32) {body : Bytes} (hbody : body.length < 2 ^ 32)
    (rest : Bytes) : declaredSize (encode type body ++ rest) = body.length := by
  have hparse := parse_encode type body rest hbody
  rw [parse_eq] at hparse
  split at hparse
  · have hsize : (atStart (encode type body ++ rest)).size = (ofBody type body).size :=
      congrArg Atom.size (Option.some.inj hparse)
    rw [← toNat_declaredSize]
    show (atStart (encode type body ++ rest)).size.toNat = body.length
    rw [hsize]
    exact UInt32.toNat_ofNat_of_lt' hbody
  · cases hparse

/-- The walk over events stops at their times. -/
theorem timeWalk_encodeEvents {events : List (Int64 × Atom)} (h : Whole events) (before : Bytes) :
    TimeWalk (before ++ encodeEvents events) before.length (timePlaces before.length events) := by
  induction events generalizing before with
  | nil =>
      refine .ended ?_
      rw [encodeEvents_nil, List.append_nil, TimeWalk.headerStop_eq]
      omega
  | cons e rest ih =>
      obtain ⟨t, a⟩ := e
      have hbody : a.body.length < 2 ^ 32 := h.length_lt (t, a) List.mem_cons_self
      have hrest := ih (fun e he => h e (List.mem_cons_of_mem _ he))
        (before ++ Backlog.encodeEvent (t, a))
      have hevents : before ++ encodeEvents ((t, a) :: rest)
          = before ++ Backlog.encodeEvent (t, a) ++ encodeEvents rest := by
        rw [List.append_assoc]
        rfl
      have hroom := le_padded (Atom.headerSize + a.body.length)
      have hdrop : (before ++ encodeEvents ((t, a) :: rest)).drop (before.length + 8)
          = Atom.encode a.type a.body ++ encodeEvents rest := by
        rw [encodeEvents_cons, ← List.drop_drop, List.drop_left, List.append_assoc,
          List.drop_left' (Bytes.length_int64 t)]
      have hnext : Layout.sequence.paddedStop (before ++ encodeEvents ((t, a) :: rest)) before.length
          = before.length + Backlog.eventSize (t, a) := by
        rw [Layout.paddedStop, Layout.declared, Layout.sequence]
        simp only [hdrop, Atom.declaredSize_encode a.type hbody, Backlog.eventSize, Nat.add_assoc]
      refine .stopped ?_ ?_
      · have hsize : 16 ≤ Backlog.eventSize (t, a) := by
          show 16 ≤ 8 + padded (Atom.headerSize + a.body.length)
          unfold Atom.headerSize at *
          omega
        rw [hevents, TimeWalk.headerStop_eq, List.length_append, List.length_append,
          Backlog.length_encodeEvent]
        omega
      · rw [hnext, hevents]
        simpa using hrest

end BlockHost
