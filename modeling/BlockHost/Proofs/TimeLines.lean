import BlockHost.Proofs.Losses

/-!
# One time line for all inputs

The blocks that wait are counted more than once, and so are their frames. The host counts both, and so does
the backlog of each input, also for blocks in which nothing has been supplied for that input. The sums of
the host must stay in their words, those of a backlog stop where times end. Nevertheless all of them say the
same between any two operations, and it is what the calls since the last one with the gate come to
(`Host.InStep`).

Therefore a block that waits is later by as many frames at one input as at any other: by those of the blocks
that have been waiting when it came (`Host.timeLine`). The block in which the script is shown all that has
been waiting is as long as this time line, or as long as a block can be (`Host.Replays`).

A run is brought down only where one of these counts leaves its word, and whether one does is said by the
calls alone (`Host.Paced.performs_iff`).
-/

namespace BlockHost.Host

open Session

variable {σ : Type}

/-! ## What is counted -/

/-- The frames of calls. -/
def framesOf (calls : List Call) : Nat :=
  (calls.map fun c => c.frames.toNat).sum

/-- Calls can wait: the sum of their frames is a time, and their number has 32 bits. -/
structure InWords (waiting : List Call) : Prop where
  frames_lt : framesOf waiting < 2 ^ 63
  length_lt : waiting.length < 2 ^ 32

/-- Host and backlogs have counted the calls that wait. -/
structure InStep (waiting : List Call) (h : Host σ) : Prop where
  frames_eq : h.stashedFrames = framesOf waiting
  blocks_eq : h.stashedBlocks = waiting.length
  offset_eq : ∀ b ∈ h.backlogs, b.offset = h.stashedFrames
  count_eq : ∀ b ∈ h.backlogs, b.blocks = h.stashedBlocks

/-- The events of calls that wait, at a port. Those of a call are later by the frames of the calls before
it, whichever port it is. -/
def timeLine (settings : Settings) (s : Schema) (waiting : List Call) (port : Nat) : Offers :=
  waiting.zipIdx.flatMap fun (c, i) =>
    shifted (framesOf (waiting.take i)) (c.events settings s port)

/-- The block in which the script is shown the calls that have waited. At each port it has the first events
of the time line, and all of them when the backlog has lost none and its size is that of an atom. -/
structure Replays (settings : Settings) (s : Schema) (waiting : List Call) (h : Host σ) (r : Block) :
    Prop where
  frames_eq : r.frames.toNat = min (framesOf waiting) (2 ^ 32 - 1)
  length_inputs : r.inputs.length = settings.inputs
  begins : ∀ port, intTimed (eventsOf s (r.input? port)) <+: timeLine settings s waiting port
  whole : ∀ (port : Nat) (b : Backlog), h.backlogs[port]? = some b → b.failed = false →
    b.size < Atom.headerSize + 2 ^ 32 →
      intTimed (eventsOf s (r.input? port)) = timeLine settings s waiting port

/-- What a call that finds the gate free shows the script: the calls that have waited, if there are any, and
then its own block, as far as the script gets. -/
structure Shows (language : Language σ) (settings : Settings) (s : Schema) (waiting : List Call)
    (h : Host σ) (c : Call) (replay : Option Block) : Prop where
  none_iff : replay = none ↔ waiting = []
  replays : ∀ r ∈ replay, h.Replays settings s waiting r
  begins : h.shown language c <+: replay.toList ++ [c.live settings s]
  shown_ne_nil : h.hasScript = true → h.disabled = false → ¬ h.Short c → h.shown language c ≠ []

/-- What a host keeps from operation to operation. -/
structure Paced (settings : Settings) (s : Schema) (waiting : List Call) (h : Host σ) : Prop where
  awaits : h.Awaits settings s waiting
  frames_eq : h.stashedFrames = framesOf waiting
  inWords : InWords waiting

section Counts

variable {settings : Settings} {s : Schema} {waiting : List Call} {h : Host σ} {b : Backlog}

theorem framesOf_concat (calls : List Call) (c : Call) :
    framesOf (calls ++ [c]) = framesOf calls + c.frames.toNat := by
  rw [framesOf, List.map_append, List.sum_append, List.map_singleton, List.sum_singleton]
  rfl

theorem totalFrames_blocks (settings : Settings) (port : Nat) (waiting : List Call) :
    totalFrames (waiting.map (Call.block settings port)) = framesOf waiting := by
  rw [totalFrames, List.map_map]
  rfl

theorem inWords_nil : InWords [] :=
  ⟨Nat.two_pow_pos 63, Nat.two_pow_pos 32⟩

/-- The delays of blocks in a row are the same whatever lies in them. -/
theorem offers_blocks (settings : Settings) (s : Schema) (port before : Nat) (waiting : List Call) :
    offers s id before (waiting.map (Call.block settings port)) =
      waiting.zipIdx.flatMap fun x =>
        shifted (before + framesOf (waiting.take x.2)) (x.1.events settings s port) := by
  induction waiting generalizing before with
  | nil => rfl
  | cons c rest ih =>
      have hlater : ∀ x : Call × Nat, before + c.frames.toNat + framesOf (rest.take x.2)
          = before + framesOf ((c :: rest).take (x.2 + 1)) := by
        intro x
        rw [List.take_succ_cons, framesOf, framesOf, List.map_cons, List.sum_cons, Nat.add_assoc]
      rw [List.map_cons, Call.block, offers, ih, List.zipIdx_cons', List.flatMap_cons,
        List.flatMap_map]
      simp only [hlater]
      rfl

/-- A backlog has counted the calls as if it had been empty before them. -/
theorem Awaits.counts (hh : h.Awaits settings s waiting) (hb : b ∈ h.backlogs) :
    b.offset = saturated (framesOf waiting) ∧ b.blocks = waiting.length := by
  obtain ⟨port, hport⟩ := List.mem_iff_getElem?.1 hb
  obtain ⟨empty, hfresh, -, hrun⟩ := hh.backlogs port b hport
  have hoffset : empty.offset = saturated 0 := hfresh.offset_eq
  obtain ⟨hframes, hblocks, -⟩ := hfresh.splits.appendAll hoffset _ hrun
  rw [totalFrames_blocks, Nat.zero_add] at hframes
  rw [hfresh.blocks_eq, List.length_map, Nat.zero_add] at hblocks
  exact ⟨hframes, hblocks⟩

theorem InWords.saturated_eq (hw : InWords waiting) :
    saturated (framesOf waiting) = framesOf waiting :=
  Nat.min_eq_left (Nat.le_pred_of_lt hw.frames_lt)

theorem Paced.inStep (hh : h.Paced settings s waiting) : h.InStep waiting where
  frames_eq := hh.frames_eq
  blocks_eq := hh.awaits.blocks_eq
  offset_eq b hb := by
    rw [(hh.awaits.counts hb).1, hh.inWords.saturated_eq, hh.frames_eq]
  count_eq b hb := (hh.awaits.counts hb).2.trans hh.awaits.blocks_eq.symm

theorem New.paced {language : Language σ} (hnew : h.New language settings) :
    h.Paced settings h.schema [] :=
  ⟨hnew.awaits, hnew.frames_eq, inWords_nil⟩

end Counts

/-! ## Calls -/

section Calls

variable {language : Language σ} {settings : Settings} {s : Schema} {waiting past : List Call}
variable {h : Host σ} {c : Call} {a : Answer σ}

/-- A call that has to wait is answered as long as it can be counted. -/
theorem Paced.exists_answer (language : Language σ) (hh : h.Paced settings s waiting)
    (hwords : c.contended = true → InWords (waiting ++ [c])) : ∃ a, h.answer language c = .ok a := by
  cases hc : c.contended with
  | false =>
      obtain ⟨after, outcome, buffers, hanswer, -⟩ := answer_free language hh.awaits.idle hc
      exact ⟨_, hanswer⟩
  | true =>
      obtain ⟨hframes, hlength⟩ := hwords hc
      rw [framesOf_concat] at hframes
      rw [List.length_append, List.length_singleton] at hlength
      rcases answer_held language hh.awaits.idle hc with ⟨after, buffers, hanswer, -⟩ | ⟨-, hmany⟩
      · exact ⟨_, hanswer⟩
      · -- None of the counts can be the one that leaves its word.
        rcases hmany with ⟨b, hb, hblocks⟩ | hsum | hblocks
        · rw [(hh.awaits.counts hb).2] at hblocks
          omega
        · rw [hh.frames_eq] at hsum
          omega
        · rw [hh.awaits.blocks_eq] at hblocks
          omega

theorem Paced.held (hh : h.Paced settings s waiting) (hc : c.contended = true)
    (ha : h.answer language c = .ok a) : a.host.Paced settings s (waiting ++ [c]) := by
  have hawaits := (hh.awaits.held hc ha).1
  obtain ⟨hfew, -, -⟩ := answer_stashed hh.awaits.idle hc ha
  rcases answer_held language hh.awaits.idle hc with ⟨after, buffers, hanswer, hstashed⟩ | ⟨hanswer, -⟩
  · rw [ha] at hanswer
    cases hanswer
    have hframes : after.stashedFrames = framesOf (waiting ++ [c]) := by
      rw [hstashed.frames_eq, hh.frames_eq, framesOf_concat]
    refine ⟨hawaits, hframes, hframes ▸ hstashed.frames_lt, ?_⟩
    rw [List.length_append, ← hh.awaits.blocks_eq]
    exact hfew
  · rw [ha] at hanswer
    cases hanswer

/-- The host sets its counts back with the backlogs, and when none of them has counted anything it has not
either. -/
theorem Paced.free (hh : h.Paced settings s waiting) (hc : c.contended = false)
    (ha : h.answer language c = .ok a) : a.host.Paced settings s [] := by
  obtain ⟨after, outcome, buffers, hanswer, hended⟩ := answer_free language hh.awaits.idle hc
  refine ⟨(hh.awaits.free hc ha).1, ?_, inWords_nil⟩
  rw [ha] at hanswer
  cases hanswer
  obtain ⟨engine, hspent⟩ := hended.spent
  rw [hspent.frames_eq]
  cases hbacklog : h.hasBacklog with
  | true => rfl
  | false =>
      rw [hasBacklog, hh.awaits.blocks_eq, decide_eq_false_iff_not] at hbacklog
      have hnone : waiting = [] := List.eq_nil_of_length_eq_zero (by omega)
      show h.stashedFrames = _
      rw [hh.frames_eq, hnone]

theorem Paced.answered (hh : h.Paced settings s (waitingAfter past))
    (ha : h.answer language c = .ok a) : a.host.Paced settings s (waitingAfter (past ++ [c])) := by
  cases hc : c.contended with
  | true =>
      rw [waitingAfter_held past hc]
      exact hh.held hc ha
  | false =>
      rw [waitingAfter_free past hc]
      exact hh.free hc ha

end Calls

/-! ## Runs -/

section Runs

variable {language : Language σ} {settings : Settings} {s : Schema} {past : List Call}
variable {h after : Host σ} {op : Operation} {ops : List Operation} {report : Report}
variable {reports : List Report}

theorem Paced.perform (hh : h.Paced settings s (waitingAfter past))
    (hop : h.perform language op = .ok (after, report)) :
    after.Paced settings s (waitingAfter (past ++ op.call?.toList)) := by
  have hawaits := hh.awaits.perform hop
  rcases perform_cases language op with ⟨c, rfl⟩ | ⟨hcall, x, hx, hperform⟩
  · cases perform_leaves hop with
    | block ha => exact hh.answered ha
  · rw [(hperform h).1] at hop
    cases hop
    rw [hcall, Option.toList_none, List.append_nil] at hawaits ⊢
    refine ⟨hawaits, ?_, hh.inWords⟩
    rw [hx.kept h]
    exact hh.frames_eq

theorem Paced.performAll (hh : h.Paced settings s (waitingAfter past))
    (hrun : h.performAll language ops = .ok (after, reports)) :
    after.Paced settings s (waitingAfter (past ++ callsOf ops)) := by
  induction ops generalizing h past reports with
  | nil =>
      cases hrun
      rw [callsOf, List.filterMap_nil, List.append_nil]
      exact hh
  | cons op rest ih =>
      obtain ⟨mid, report, others, hop, hrest, -⟩ := performAll_cons hrun
      rw [callsOf_cons, ← List.append_assoc]
      exact ih (hh.perform hop) hrest

/-- An operation is performed when the calls that wait after it can be counted. -/
theorem Paced.exists_perform (language : Language σ) (hh : h.Paced settings s (waitingAfter past))
    (hwords : InWords (waitingAfter (past ++ op.call?.toList))) :
    ∃ after report, h.perform language op = .ok (after, report) := by
  rcases perform_cases language op with ⟨c, rfl⟩ | ⟨-, x, -, hperform⟩
  · obtain ⟨a, ha⟩ := hh.exists_answer language (c := c) fun hc => waitingAfter_held past hc ▸ hwords
    refine ⟨a.host, .block a.outcome a.outputs, ?_⟩
    rw [Host.perform, ha]
    rfl
  · exact ⟨_, _, (hperform h).1⟩

/-- Operations are performed to the end exactly when at no time more calls wait than can be counted. -/
theorem Paced.performs_iff (language : Language σ) (hh : h.Paced settings s (waitingAfter past)) :
    (∃ last reports, h.performAll language ops = .ok (last, reports)) ↔
      ∀ more, more <+: callsOf ops → InWords (waitingAfter (past ++ more)) := by
  constructor
  · -- What has been performed has led to a host with calls that can be counted.
    rintro ⟨last, reports, hrun⟩
    induction ops generalizing h past reports with
    | nil =>
        intro more hmore
        rw [List.prefix_nil.1 hmore, List.append_nil]
        exact hh.inWords
    | cons op rest ih =>
        obtain ⟨mid, report, others, hop, hrest, -⟩ := performAll_cons hrun
        have hlater := ih (hh.perform hop) others hrest
        intro more hmore
        rw [callsOf_cons] at hmore
        cases hcall : op.call? with
        | none =>
            rw [hcall, Option.toList_none, List.append_nil] at hlater
            rw [hcall] at hmore
            exact hlater more hmore
        | some c =>
            rw [hcall] at hlater hmore
            cases more with
            | nil =>
                rw [List.append_nil]
                exact hh.inWords
            | cons first others =>
                obtain ⟨rfl, hothers⟩ := List.cons_prefix_cons.1 hmore
                have hcounted := hlater others hothers
                rwa [List.append_assoc] at hcounted
  · intro hwords
    induction ops generalizing h past with
    | nil => exact ⟨h, [], rfl⟩
    | cons op rest ih =>
        rw [callsOf_cons] at hwords
        obtain ⟨mid, report, hop⟩ := hh.exists_perform language (hwords _ (List.prefix_append _ _))
        obtain ⟨last, reports, hrest⟩ := ih (hh.perform hop) fun more hmore => by
          rw [List.append_assoc]
          exact hwords _ ((List.prefix_append_right_inj _).2 hmore)
        refine ⟨last, report :: reports, ?_⟩
        rw [Host.performAll]
        simp only [bind, Except.bind, hop, hrest]
        rfl

end Runs

/-! ## The time line -/

section Replays

variable {language : Language σ} {settings : Settings} {s : Schema} {waiting : List Call}
variable {h : Host σ} {c : Call} {r : Replay} {b : Backlog} {port : Nat}

theorem InWords.offers_eq (hw : InWords waiting) (settings : Settings) (s : Schema) (port : Nat) :
    offers s saturated 0 (waiting.map (Call.block settings port))
      = timeLine settings s waiting port := by
  have hsum : 0 + totalFrames (waiting.map (Call.block settings port)) ≤ Backlog.lastTime := by
    rw [totalFrames_blocks, Nat.zero_add]
    exact Nat.le_pred_of_lt hw.frames_lt
  rw [offers_saturated hsum, offers_blocks]
  simp only [Nat.zero_add]
  rfl

/-- A backlog holds the first events of the time line, all of them when it has lost none. -/
theorem Paced.events_eq (hh : h.Paced settings s waiting) (hb : h.backlogs[port]? = some b)
    (hgood : b.failed = false) : intTimed b.events = timeLine settings s waiting port := by
  obtain ⟨-, lost, hsplits⟩ := hh.awaits.splits hb
  have hnone : lost = [] := by
    by_contra hlost
    rw [hsplits.failed_iff.2 hlost] at hgood
    cases hgood
  have hseen := hsplits.seen_eq
  rw [hh.inWords.offers_eq, hnone, List.append_nil] at hseen
  exact hseen.symm

theorem Paced.replays (hh : h.Paced settings s waiting) (hdistinct : s.vocabulary.Distinct)
    (hr : h.replay = some r) : h.Replays settings s waiting (Replay.block s r) := by
  have hbegins := hh.awaits.replay_offers hr
  rw [replay] at hr
  split at hr <;> cases hr
  refine ⟨?_, (List.length_map _).trans hh.awaits.length_backlogs, fun port => ?_, ?_⟩
  · show (UInt32.ofNat (min h.stashedFrames (2 ^ 32 - 1))).toNat = _
    rw [UInt32.toNat_ofNat_of_lt' (by show _ < 2 ^ 32; omega), hh.frames_eq]
  · rw [← hh.inWords.offers_eq]
    exact hbegins port
  · intro port b hb hgood hsize
    obtain ⟨rfl, lost, hsplits⟩ := hh.awaits.splits hb
    have hlength : (encodeEvents b.events).length < 2 ^ 32 := by
      rw [b.length_events]
      omega
    have hinput : (Replay.block b.schema
        { inputs := h.backlogs.map fun b => Atom.parse b.sequence
          frames := UInt32.ofNat (min h.stashedFrames (2 ^ 32 - 1)) }).input? port
          = Atom.parse b.sequence := by
      show ((h.backlogs.map fun b => Atom.parse b.sequence)[port]?).join = _
      rw [List.getElem?_map, hb]
      rfl
    rw [hinput, Backlog.eventsOf_sequence hdistinct hsplits.whole hlength]
    exact hh.events_eq hb hgood

theorem Paced.shows (language : Language σ) (hh : h.Paced settings s waiting)
    (hdistinct : s.vocabulary.Distinct) (hc : c.contended = false) :
    h.Shows language settings s waiting c (h.replay.map (Replay.block s)) := by
  have hbegins := shown_begins language hh.awaits.idle hc
  rw [toShow, Session.blocksOf, hh.awaits.schema_eq, hh.awaits.settings_eq] at hbegins
  refine ⟨?_, fun r hr => ?_, hbegins, fun hscript henabled hshort => ?_⟩
  · rw [Option.map_eq_none_iff, replay, hasBacklog, hh.awaits.blocks_eq, ← List.length_eq_zero_iff]
    split
    · next hpos =>
        have hpos := of_decide_eq_true hpos
        exact ⟨fun hnone => (by cases hnone), fun hzero => (by omega)⟩
    · next hzero =>
        rw [decide_eq_true_eq] at hzero
        exact ⟨fun _ => by omega, fun _ => rfl⟩
  · obtain ⟨r, hreplay, rfl⟩ := Option.map_eq_some_iff.1 hr
    exact hh.replays hdistinct hreplay
  · obtain ⟨script, hsome⟩ := Option.isSome_iff_exists.1 hscript
    exact (Host.shown_ne_nil hh.awaits.idle hc hsome henabled hshort).1

end Replays

/-! ## Every run -/

section Runs

variable {language : Language σ} {supply : Supply} {settings : Settings} {first : Host σ}

/-- Any operations on a new host are performed to the end exactly when at no time more calls wait than can
be counted. Then the host and all its backlogs have counted the same, namely the calls since the last one
that found the gate free, and the next such call shows the script all of them on one time line. -/
theorem performAll_inStep (hcreate : create supply language settings = .ok first)
    (ops : List Operation) :
    ((∃ last reports, first.performAll language ops = .ok (last, reports)) ↔
      ∀ past, past <+: callsOf ops → InWords (waitingAfter past)) ∧
    ∀ last reports, first.performAll language ops = .ok (last, reports) →
      last.backlogs.length = settings.inputs ∧ last.InStep (waitingAfter (callsOf ops)) ∧
        ∃ replay, ∀ c, c.contended = false →
          last.Shows language settings first.schema (waitingAfter (callsOf ops)) c replay := by
  have hnew := created hcreate
  have hfirst : first.Paced settings first.schema (waitingAfter []) := hnew.paced
  have hdistinct : first.schema.vocabulary.Distinct := by
    rw [hnew.schema_eq]
    exact distinct_ofRegistry
  refine ⟨hfirst.performs_iff language, fun last reports hrun => ?_⟩
  have hlast : last.Paced settings first.schema (waitingAfter (callsOf ops)) := hfirst.performAll hrun
  exact ⟨hlast.awaits.length_backlogs, hlast.inStep, _, fun c => hlast.shows language hdistinct⟩

/-- A host with two inputs, and room for two events in each backlog. -/
def pairSettings : Settings :=
  { scripted "count" with inputs := 2, backlogCapacity := 64 }

/-- A block as long as a block can be, with one event at each input that is supplied. -/
def longCall (contended : Bool) (supplied : Nat) : Call :=
  let c := noteCall firstSchema contended 3
  { c with inputs := (List.replicate supplied c.inputs).flatten, frames := 0xFFFFFFFF }

/-- Two blocks wait, the first of them without a second input. Both backlogs have counted both of them all
the same, and the block in which they are shown is shorter than the two. -/
theorem performAll_inStep_long :
    let ops := [.block (longCall true 1), .grow .ample, .block (longCall true 2)]
    let waiting := [longCall true 1, longCall true 2]
    ∃ first last reports r, create .ample Command.language pairSettings = .ok first ∧
      first.performAll Command.language ops = .ok (last, reports) ∧ last.InStep waiting ∧
      last.backlogs.map (fun b => (b.offset, b.blocks)) = [(2 ^ 33 - 2, 2), (2 ^ 33 - 2, 2)] ∧
      last.Replays pairSettings first.schema waiting r ∧ r.frames = 0xFFFFFFFF ∧
      [r] <+: last.shown Command.language (longCall false 2) := by
  intro ops waiting
  have hcheck : ((create .ample Command.language pairSettings).toOption.bind fun first =>
      (first.performAll Command.language ops).toOption.map fun x =>
        (x.1.backlogs.map (fun b => (b.offset, b.blocks)), x.1.hasScript, x.1.disabled))
      = some ([(2 ^ 33 - 2, 2), (2 ^ 33 - 2, 2)], true, false) := by
    decide +kernel
  simp only [Option.bind_eq_some_iff, Option.map_eq_some_iff, toOption_eq_some, Prod.exists,
    Prod.mk.injEq] at hcheck
  obtain ⟨first, hcreate, last, reports, hrun, hbacklogs, hscript, henabled⟩ := hcheck
  obtain ⟨-, hinStep, replay, hnext⟩ := (performAll_inStep hcreate ops).2 last reports hrun
  have hshows := hnext (longCall false 2) rfl
  have hshort : ¬ last.Short (longCall false 2) := by
    rintro ⟨buffer, hbuffer, hlt⟩
    rw [List.mem_singleton.1 (List.mem_of_mem_take hbuffer)] at hlt
    exact absurd hlt (by decide)
  have hshown := hshows.shown_ne_nil hscript henabled hshort
  cases hreplay : replay with
  | none => cases hshows.none_iff.1 hreplay
  | some r =>
      have hbegins := hshows.begins
      rw [hreplay, Option.toList_some, List.singleton_append] at hbegins
      have hr := hshows.replays r hreplay
      obtain ⟨b, rest, heq⟩ := List.exists_cons_of_ne_nil hshown
      rw [heq, List.cons_prefix_cons] at hbegins
      refine ⟨first, last, reports, r, hcreate, hrun, hinStep, hbacklogs, hr, ?_, ?_⟩
      · exact UInt32.toNat_inj.1 hr.frames_eq
      · rw [heq, hbegins.1]
        exact List.prefix_append [r] rest

end Runs

end BlockHost.Host
