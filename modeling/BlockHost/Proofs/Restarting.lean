import BlockHost.Proofs.Enclosing
import BlockHost.Proofs.TimeWalk

/-!
# Times that are restarted

The walk that puts the times of a sequence to zero finds its way by the sizes that it reads, while the
events were written by two ways that pad differently: a single atom is padded by its own length, and a
frame is padded when it is closed, by the offset. Both come to the same when the sequence itself lies on
the grid. Then its content is one encoded event after the other (`Score.content`), whatever was done in
the frames of its composites, and the walk stops at the times of these events and nowhere else. Times of
inner sequences are bytes of a body like any others.
-/

namespace BlockHost.Writer

/-! ## Content that was written event by event -/

/-- A sequence is opened, and then events are written into it, each one a time and one atom. In between,
its times may be restarted, and calls may be made that leave the writer alone. -/
inductive Score (before : Desk) : List (Int64 × Atom) → Desk → Prop where
  | opened {frame : Frame} (hopened : before.Answers .openSequence (.opened frame)) :
      Score before [] (before.step .openSequence)
  | event {events : List (Int64 × Atom)} {d : Desk} {t : Int64} {calls : List Call} {a : Atom}
      (h : Score before events d) (htime : d.Answers (.time t) .done)
      (hatom : (d.step (.time t)).Writes calls a) :
      Score before (events ++ [(t, a)]) ((d.step (.time t)).after calls)
  | restarted {events : List (Int64 × Atom)} {d : Desk} {number : Nat} (h : Score before events d)
      (hdone : d.Answers (.restartTimes number) .done) :
      Score before (atZero events) (d.step (.restartTimes number))
  | other {events : List (Int64 × Atom)} {d : Desk} {c : Call} (h : Score before events d)
      (hsame : (d.step c).writer = d.writer) : Score before events (d.step c)

/-- A writer with an open sequence behind it that has such content. -/
def scored (w : Writer) (events : List (Int64 × Atom)) (last : Int64) : Writer :=
  (w.append (Atom.header (w.vocabulary.id .sequence) 0 ++ encodeEvents events)).withFrames
    (⟨w.offset, .sequence, last⟩ :: w.frames)

section Score

variable {before d : Desk} {events : List (Int64 × Atom)}

theorem offset_scored (w : Writer) (events : List (Int64 × Atom)) (last : Int64) :
    (w.scored events last).offset = w.offset + Atom.headerSize + (encodeEvents events).length := by
  rw [scored, offset_withFrames, offset_append, List.length_append, Atom.length_header, Nat.add_assoc]
  rfl

theorem drop_written_scored (w : Writer) (events : List (Int64 × Atom)) (last : Int64) :
    (w.scored events last).written.drop (w.offset + Atom.headerSize) = encodeEvents events :=
  drop_written_headed w _ _

/-- An event goes behind the others. -/
theorem scored_event (w : Writer) (events : List (Int64 × Atom)) (last t : Int64) (a : Atom) :
    (((w.scored events last).append (Bytes.int64 t)).withFrames
      (⟨w.offset, .sequence, t⟩ :: w.frames)).append (Atom.encode a.type a.body)
        = w.scored (events ++ [(t, a)]) t := by
  rw [scored, scored, encodeEvents_append, encodeEvents_cons, encodeEvents_nil, List.append_nil]
  simp only [append_withFrames, withFrames_withFrames, append_append, List.append_assoc]

theorem scored_restarted (w : Writer) {events : List (Int64 × Atom)} (hwhole : Whole events)
    (last : Int64) :
    (w.scored events last).restarted w.offset w.frames = w.scored (atZero events) 0 := by
  have hsize : (w.scored events last).offset - w.offset - Atom.headerSize
      = (encodeEvents events).length := by
    rw [offset_scored]
    omega
  rw [restarted, hsize, scored, revise_append, withFrames_withFrames, clearTimes_encodeEvents hwhole]
  rfl

/-- The content of the sequence is its events, one behind the other. -/
theorem Score.content (h : Score before events d) (halign : before.writer.offset % 8 = 0)
    (hsmall : ∀ e ∈ events, e.2.body.length < 2 ^ 32) :
    Whole events ∧ ∃ last, d.writer = before.writer.scored events last := by
  induction h with
  | opened hopened =>
      have heffect := hopened.effect (by simp)
      generalize (before.step .openSequence).writer = after at heffect ⊢
      cases heffect with
      | idle hframe _ => cases hframe
      | opened _ _ hc =>
          cases hc
          exact ⟨nofun, 0, rfl⟩
  | @event events d t calls a h htime hatom ih =>
      obtain ⟨hwhole, last, hwriter⟩ := ih fun e he => hsmall e (List.mem_append_left _ he)
      have hlast := hsmall (t, a) (List.mem_append_right _ List.mem_cons_self)
      have hevent : Whole [(t, a)] := by
        intro e he
        rw [List.mem_singleton.1 he]
        exact hatom.whole hlast
      have heffect := htime.effect (by simp)
      have hmod := length_encodeEvents_mod events
      have htimed : (d.step (.time t)).writer = ((before.writer.scored events last).append
          (Bytes.int64 t)).withFrames (⟨before.writer.offset, .sequence, t⟩ :: before.writer.frames) := by
        generalize (d.step (.time t)).writer = after at heffect ⊢
        cases heffect with
        | idle _ hdone => exact absurd rfl hdone
        | appended _ hc => cases hc
        | timed _ hframes =>
            rw [hwriter] at hframes
            cases hframes
            rw [hwriter]
      obtain ⟨happended, -⟩ := hatom.appended (by
        rw [htimed, offset_withFrames, offset_append, offset_scored, Bytes.length_int64]
        unfold Atom.headerSize
        omega) (by rw [htimed]; rfl)
      refine ⟨hwhole.append hevent, t, ?_⟩
      rw [happended, htimed, scored_event]
  | @restarted events d number h hdone ih =>
      obtain ⟨hwhole, last, hwriter⟩ := ih fun e he => hsmall (0, e.2) (List.mem_map.2 ⟨e, he, rfl⟩)
      refine ⟨hwhole.atZero, 0, ?_⟩
      have heffect := hdone.effect (by simp)
      generalize (d.step (.restartTimes number)).writer = after at heffect ⊢
      cases heffect with
      | idle _ hdone => exact absurd rfl hdone
      | appended _ hc => cases hc
      | restarted _ _ hframes _ =>
          rw [hwriter] at hframes
          cases hframes
          rw [hwriter, scored_restarted _ hwhole]
  | other h hsame ih => rw [hsame]; exact ih hsmall

end Score

/-! ## The walk in the writer -/

section Restarted

variable {w : Writer} {header : Nat} {last : Int64} {outer : List OpenFrame}

theorem written_restarted (h : header + Atom.headerSize ≤ w.offset) :
    (w.restarted header outer).written = w.written.take (header + Atom.headerSize)
      ++ clearTimes (w.written.drop (header + Atom.headerSize)) := by
  have hplace : w.offset - (w.offset - header - Atom.headerSize) = header + Atom.headerSize := by omega
  show (w.revise _ clearTimes length_clearTimes).written = _
  rw [written_revise, hplace]

/-- The walk writes eight zeros wherever it stops, all of them in front of the offset. -/
theorem bytes_restarted (h : header + Atom.headerSize ≤ w.offset) (outer : List OpenFrame) :
    ∃ stops, TimeWalk w.written (header + Atom.headerSize) stops ∧
      ∀ i, (w.restarted header outer).buffer.bytes[i]? =
        if Covered stops i then some 0 else w.buffer.bytes[i]? := by
  obtain ⟨stops, hwalk, hbytes⟩ := clearTimes_walk w.written (header + Atom.headerSize)
  have hlength : (w.restarted header outer).written.length = w.written.length := by
    rw [length_written, length_written]
    rfl
  have hfront := length_take_written h
  refine ⟨stops, hwalk, fun i => ?_⟩
  rw [bytes_buffer, bytes_buffer]
  rcases Nat.lt_or_ge i w.written.length with hin | hout
  · rw [List.getElem?_append_left (by rwa [hlength]), List.getElem?_append_left hin,
      written_restarted h]
    rcases Nat.lt_or_ge i (header + Atom.headerSize) with hbefore | hcontent
    · rw [List.getElem?_append_left (by rwa [hfront]), List.getElem?_take_of_lt hbefore,
        if_neg (hwalk.covered_of_lt hbefore)]
    · have hplace : header + Atom.headerSize + (i - (header + Atom.headerSize)) = i := by omega
      rw [List.getElem?_append_right (by rwa [hfront]), hfront, hbytes, hplace]
  · rw [List.getElem?_append_right (by rwa [hlength]), hlength, List.getElem?_append_right hout,
      if_neg (hwalk.not_covered hout)]
    rfl

/-- After that, times start at zero. -/
theorem time_restarted (hgood : w.failed = false) (t : Int64) :
    (∃ after, done (time t) (w.restarted header outer) = .error .timeDecreasing after) ↔ t < 0 := by
  have hgood' : (w.restarted header outer).failed = false := hgood
  have hframes : (w.restarted header outer).frames = ⟨header, .sequence, 0⟩ :: outer := rfl
  by_cases hlt : t < 0
  · have htime : time t (w.restarted header outer)
        = .error .timeDecreasing (w.restarted header outer) := by
      simp [time, hgood', hframes, hlt]
    exact iff_of_true ⟨_, Action.bind_error htime⟩ hlt
  · have happends := appends_time hgood' hframes (Int64.not_lt.1 hlt)
    refine iff_of_false ?_ hlt
    rintro ⟨after, hrun⟩
    rcases Nat.lt_or_ge (w.restarted header outer).room (Bytes.int64 t).length with hno | hfit
    · obtain ⟨w', herror⟩ := happends.2 hno
      cases (Action.bind_error herror).symm.trans hrun
    · cases (Action.bind_ok (happends.1 hfit)).symm.trans hrun

end Restarted

/-- Restarting the times of the innermost frame, a sequence, always succeeds while there is room, whatever
its content is. The walk stops at places in front of the offset, sixteen bytes or more from each other,
where it writes eight zeros, and every other byte of the buffer stays. From then on a time is
refused as decreasing when it is negative, and never otherwise.

When the sequence lies on the grid and its content was written event by event, the stops are the times of
these events. A reader finds the same atoms as before, now all at time zero. The size of an atom has
32 bits, so the atoms are to be shorter than that. -/
theorem restartTimes_exact (vocabulary : Vocabulary) (buffer : Buffer) (offset : Nat)
    (calls : List Call) {d : Desk}
    (hd : d = (Desk.mk (startAt vocabulary buffer offset) []).after calls)
    {number header : Nat} {frame : Frame} {last : Int64} {outer : List OpenFrame}
    (hgood : d.writer.failed = false) (hframe : d.frames[number]? = some frame)
    (hframes : d.writer.frames = ⟨header, .sequence, last⟩ :: outer)
    (htop : (OpenFrame.mk header .sequence last).isOf outer frame = true) :
    ∃ (w : Writer) (stops : List Nat),
      (Call.restartTimes number).run d.frames d.writer = .ok .done w ∧ w.offset = d.writer.offset ∧
      TimeWalk d.writer.written (header + Atom.headerSize) stops ∧
      (stops.Pairwise fun p q => p + 16 ≤ q) ∧
      (∀ p ∈ stops, header + Atom.headerSize ≤ p ∧ p + 16 ≤ d.writer.offset) ∧
      (∀ i, w.buffer.bytes[i]? = if Covered stops i then some 0 else d.writer.buffer.bytes[i]?) ∧
      (∀ t, (∃ after, (Call.time t).run d.frames w = .error .timeDecreasing after) ↔ t < 0) ∧
      ∀ before events, Score before events d → before.writer.offset = header → header % 8 = 0 →
        (∀ e ∈ events, e.2.body.length < 2 ^ 32) →
        stops = timePlaces (header + Atom.headerSize) events ∧
        ∀ (s : Schema) (type : UInt32), s.kindOf type = .sequence →
          (Atom.ofBody type (d.writer.written.drop (header + Atom.headerSize))).children s
            = events.map (fun e => (.time e.1, e.2)) ∧
          (Atom.ofBody type (w.written.drop (header + Atom.headerSize))).children s
            = events.map (fun e => (.time 0, e.2)) := by
  have hframed : d.writer.Framed := by
    rw [hd]
    exact (Desk.after_framed (d := ⟨startAt vocabulary buffer offset, []⟩) nofun calls).1
  have hinside : header + Atom.headerSize ≤ d.writer.offset :=
    hframed.head hframes
  obtain ⟨stops, hwalk, hbytes⟩ := bytes_restarted hinside outer
  have hstops : ∀ p ∈ stops, header + Atom.headerSize ≤ p ∧ p + 16 ≤ d.writer.offset := by
    intro p hp
    have hin := hwalk.inside p hp
    rw [length_written] at hin
    exact ⟨hwalk.start_le p hp, hin⟩
  refine ⟨d.writer.restarted header outer, stops, ?_, rfl, hwalk, hwalk.pairwise, hstops, hbytes, ?_, ?_⟩
  · rw [run_restartTimes hframe]
    exact Action.bind_ok (restartTimes_eq hgood hframes htop)
  · exact time_restarted hgood
  · intro before events hscore hheader halign hsmall
    obtain ⟨hwhole, last', hwriter⟩ := hscore.content (by rw [hheader]; exact halign) hsmall
    have hcontent : d.writer.written.drop (header + Atom.headerSize) = encodeEvents events := by
      rw [hwriter, ← hheader]
      exact drop_written_scored _ _ _
    have hfront := length_take_written hinside
    have hcontent' : (d.writer.restarted header outer).written.drop (header + Atom.headerSize)
        = encodeEvents (atZero events) := by
      rw [written_restarted hinside, List.drop_left' hfront, hcontent, clearTimes_encodeEvents hwhole]
    refine ⟨?_, fun s type hkind => ?_⟩
    · have hevents := timeWalk_encodeEvents hwhole (d.writer.written.take (header + Atom.headerSize))
      rw [← hcontent, List.take_append_drop, hfront] at hevents
      exact hwalk.unique hevents
    · rw [hcontent, hcontent', Atom.children_sequence hkind hwhole,
        Atom.children_sequence hkind hwhole.atZero, atZero, List.map_map]
      exact ⟨rfl, rfl⟩

/-- A sequence with a sequence in it, and an atom behind that. The time in the inner sequence stays. -/
theorem restartTimes_exact_nested :
    let first : Desk := ⟨startAt ⟨fun t => UInt32.ofNat (Term.all.idxOf t)⟩ (.blank 80) 0, []⟩
    let inner : List Call := [.openSequence, .time 3, .scalar (.int 1), .close 1]
    let d := first.after ([.openSequence, .time 5] ++ inner ++ [.time 9, .chunk [1, 2, 3]])
    d.writer.failed = false ∧ d.writer.written[24]? = some 3 ∧
      ∃ w, (Call.restartTimes 0).run d.frames d.writer = .ok .done w ∧
        (∀ i, w.buffer.bytes[i]? = if Covered [8, 48] i then some 0 else d.writer.buffer.bytes[i]?) ∧
        ∀ t, (∃ after, (Call.time t).run d.frames w = .error .timeDecreasing after) ↔ t < 0 := by
  intro first inner d
  have hgood : d.writer.failed = false := by decide
  have hopened : Score first [] (first.step .openSequence) :=
    @Score.opened first ⟨0, 0, .sequence⟩ (by decide)
  let timed := (first.step .openSequence).step (.time 5)
  let filled := (timed.step .openSequence).after [.time 3, .scalar (.int 1)]
  have hnested : timed.Writes inner (.ofBody (timed.writer.vocabulary.id .sequence)
      (filled.writer.written.drop (timed.writer.offset + Atom.headerSize))) := by
    refine @Desk.Writes.composite timed .openSequence .sequence .sequence [] ⟨1, 16, .sequence⟩
      [.time 3, .scalar (.int 1)] 1 rfl ?_ ?_ ?_ ?_
    · decide
    · decide
    · decide
    · decide
  have hchunk : Score first _ (((timed.after inner).step (.time 9)).after [.chunk [1, 2, 3]]) :=
    (Score.event hopened (by decide) hnested).event (by decide) (.single rfl (by decide))
  have hd : d = ((timed.after inner).step (.time 9)).after [.chunk [1, 2, 3]] := by
    simp only [d, timed, Desk.after, List.foldl_append, List.foldl_cons, List.foldl_nil]
  rw [← hd] at hchunk
  have hframe : d.frames[0]? = some ⟨0, 0, .sequence⟩ := by decide
  have hframes : d.writer.frames = ⟨0, .sequence, 9⟩ :: [] := by decide
  obtain ⟨w, stops, hrun, -, -, -, -, hbytes, htimes, hevents⟩ := restartTimes_exact
    ⟨fun t => UInt32.ofNat (Term.all.idxOf t)⟩ (.blank 80) 0 _ (d := d) rfl
    hgood hframe hframes (by decide)
  obtain ⟨hstops, -⟩ := hevents first _ hchunk rfl rfl (by decide)
  have hplaces : stops = [8, 48] := hstops.trans (by decide)
  rw [hplaces] at hbytes
  exact ⟨hgood, by decide, w, hrun, hbytes, htimes⟩

end BlockHost.Writer
