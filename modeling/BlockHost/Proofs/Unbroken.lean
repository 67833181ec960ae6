import BlockHost.Proofs.CheckedRuns
import Mathlib.Algebra.Group.Action.Defs
import Mathlib.Algebra.Order.BigOperators.Group.List
import Mathlib.Algebra.Order.Ring.Nat

/-!
# Runs without a fault

While blocks wait, four things are counted: the blocks, their frames, the blocks of each backlog and
the events that it has lost. A call that waits adds one block, fewer than 2 ^ 32 frames, and to each
backlog one block and the events of one input. Those are fewer than 2 ^ 28, since each event takes at
least sixteen bytes of a sequence whose size has 32 bits (`length_eventsOf_lt`). The next call that
finds the gate free sets all counts back.

So the counts are bounded by the number of calls that wait (`Host.Within`), and they are words as long
as that number is below 2 ^ 31: then there are fewer than 2 ^ 63 frames, and in eight backlogs fewer
than 2 ^ 62 lost events. A run in which never so many calls in a row have to wait is not brought down,
and neither is that of the machine (`Host.Within.performAll`).
-/

namespace BlockHost

/-! ## What is counted while blocks wait -/

/-- A backlog into which so many blocks have been put. -/
structure Backlog.Within (blocks : Nat) (b : Backlog) : Prop where
  sequences : b.schema.kindOf (b.schema.id .sequence) = .sequence
  capacity_lt : b.capacity < 2 ^ 64
  blocks_eq : b.blocks = blocks
  dropped_le : b.dropped ≤ blocks * 2 ^ 28
  fresh : blocks = 0 → b.Fresh

namespace Backlog

variable {b b' : Backlog} {blocks : Nat}

theorem dropped_foldl_le (b : Backlog) (events : List (Int64 × Atom)) :
    (events.foldl add b).dropped ≤ b.dropped + events.length := by
  induction events generalizing b with
  | nil => exact Nat.le_refl _
  | cons e rest ih =>
      have hone := Shelf.dropped_add_le b e
      have hrest := ih (b.add e)
      rw [List.foldl_cons, List.length_cons]
      omega

theorem Within.append (hb : b.Within blocks) {input : Option Buffer} {frames : UInt32}
    (happend : b.append (input.bind Buffer.atom?) frames = .ok b') : b'.Within (blocks + 1) := by
  have hevents := length_eventsOf_lt b.schema input
  rw [append_eq] at happend
  generalize eventsOf b.schema (input.bind Buffer.atom?) = events at hevents happend
  have hdropped := dropped_foldl_le b events
  obtain ⟨-, -, hschema, hcapacity⟩ := frame_foldl b events
  split at happend
  · obtain rfl := Except.ok.inj happend
    refine ⟨?_, ?_, congrArg (· + 1) hb.blocks_eq, ?_,
      fun hnone => absurd hnone (Nat.succ_ne_zero _)⟩
    · rw [appended, hschema]
      exact hb.sequences
    · exact Nat.lt_of_le_of_lt (Nat.le_of_eq hcapacity) hb.capacity_lt
    · have hle := hb.dropped_le
      show (events.foldl add b).dropped ≤ _
      omega
  · cases happend

theorem Within.reset (hb : b.Within blocks) : b.reset.Within 0 :=
  ⟨hb.sequences, hb.capacity_lt, rfl, Nat.zero_le _, fun _ => b.fresh_reset⟩

end Backlog

namespace Host

variable {σ : Type}

/-- A host between two calls, for which so many blocks wait. -/
structure Within (waiting : Nat) (h : Host σ) : Prop where
  idle : h.engine.holder = none
  inputs_le : h.settings.inputs ≤ Settings.maxPorts
  blocks_eq : h.stashedBlocks = waiting
  frames_le : h.stashedFrames ≤ waiting * (2 ^ 32 - 1)
  length_backlogs : h.backlogs.length = h.settings.inputs
  backlogs : ∀ b ∈ h.backlogs, b.Within waiting

section Within

variable {language : Language σ} {settings : Settings} {h after : Host σ} {waiting : Nat} {c : Call}

theorem New.within (hnew : h.New language settings) : h.Within 0 where
  idle := hnew.idle
  inputs_le := hnew.settings_eq ▸ hnew.inputs_le
  blocks_eq := hnew.blocks_eq
  frames_le := Nat.le_of_eq hnew.frames_eq
  length_backlogs := hnew.settings_eq ▸ hnew.length_backlogs
  backlogs := by
    intro b hb
    obtain ⟨hfresh, hschema⟩ := hnew.backlogs b hb
    have hcapacity := hnew.capacity_le b hb
    have hmax : Fault.maxLength < 2 ^ 64 := by decide
    refine ⟨?_, by omega, hfresh.blocks_eq, Nat.le_of_eq hfresh.dropped_eq, fun _ => hfresh⟩
    rw [hschema, hnew.schema_eq]
    exact Schema.kindOf_id distinct_ofRegistry (by decide)

/-- As long as few blocks wait, all that is counted of them is a word. -/
theorem Within.inRange (hh : h.Within waiting) (hfew : waiting < 2 ^ 31) : h.InRange where
  length_backlogs := hh.length_backlogs
  backlogs := by
    intro b hb
    obtain ⟨hsequences, hcapacity, -, hdropped, -⟩ := hh.backlogs b hb
    exact ⟨hsequences, hcapacity, by omega⟩
  losses := by
    have hsum := List.sum_le_card_nsmul (h.backlogs.map Backlog.dropped) (waiting * 2 ^ 28) (by
      intro n hn
      obtain ⟨b, hb, rfl⟩ := List.mem_map.1 hn
      exact (hh.backlogs b hb).dropped_le)
    rw [List.length_map, hh.length_backlogs, smul_eq_mul] at hsum
    have hports : h.settings.inputs * (waiting * 2 ^ 28) ≤ 8 * (waiting * 2 ^ 28) :=
      Nat.mul_le_mul_right _ hh.inputs_le
    omega

/-- A call that has to wait is answered, as long as few others wait. -/
theorem Within.held (language : Language σ) (hh : h.Within waiting) (hc : c.contended = true)
    (hfew : waiting + 1 < 2 ^ 31) :
    ∃ a, h.answer language c = .ok a ∧ a.host.Within (waiting + 1) := by
  have hframes := hh.frames_le
  have hlast := c.frames.toNat_lt
  rcases answer_held language hh.idle hc with ⟨after, buffers, hanswer, hstashed⟩ | ⟨-, hmany⟩
  · refine ⟨_, hanswer, ?_, ?_, ?_, ?_, ?_, ?_⟩
    · rw [hstashed.engine_eq]
      exact hh.idle
    · rw [hstashed.settings_eq]
      exact hh.inputs_le
    · rw [hstashed.blocks_eq, hh.blocks_eq]
    · rw [hstashed.frames_eq, Nat.add_mul]
      omega
    · rw [hstashed.length_backlogs, hstashed.settings_eq]
      exact hh.length_backlogs
    · intro b' hb'
      obtain ⟨port, hport⟩ := List.mem_iff_getElem?.1 hb'
      obtain ⟨b, hb, happend⟩ := hstashed.of_getElem? hport
      exact (hh.backlogs b (List.mem_of_getElem? hb)).append happend
  · rcases hmany with ⟨b, hb, hblocks⟩ | hsum | hblocks
    · rw [(hh.backlogs b hb).blocks_eq] at hblocks
      omega
    · omega
    · rw [hh.blocks_eq] at hblocks
      omega

theorem Within.spent (hh : h.Within waiting) {engine : Engine σ} (hspent : h.Spent engine after) :
    after.Within 0 := by
  have hnone : h.hasBacklog = false → waiting = 0 := by
    intro hbacklog
    rw [hasBacklog, hh.blocks_eq, decide_eq_false_iff_not] at hbacklog
    omega
  refine ⟨?_, ?_, hspent.blocks_eq, ?_, ?_, ?_⟩
  · rw [hspent.engine_eq]
    rfl
  · rw [hspent.settings_eq]
    exact hh.inputs_le
  · have hframes := hh.frames_le
    rw [hspent.frames_eq]
    cases hbacklog : h.hasBacklog with
    | true => exact Nat.zero_le _
    | false =>
        rw [hnone hbacklog] at hframes
        exact hframes
  · rw [hspent.backlogs_eq, hspent.settings_eq, ← hh.length_backlogs]
    split
    · exact List.length_map _
    · rfl
  · intro b hb
    rw [hspent.backlogs_eq] at hb
    cases hbacklog : h.hasBacklog with
    | true =>
        rw [hbacklog, if_pos rfl] at hb
        obtain ⟨b, hmem, rfl⟩ := List.mem_map.1 hb
        exact (hh.backlogs b hmem).reset
    | false =>
        rw [hbacklog, if_neg Bool.false_ne_true] at hb
        exact hnone hbacklog ▸ hh.backlogs b hb

theorem Within.free (language : Language σ) (hh : h.Within waiting) (hc : c.contended = false) :
    ∃ a, h.answer language c = .ok a ∧ a.host.Within 0 := by
  obtain ⟨after, outcome, buffers, hanswer, hended⟩ := answer_free language hh.idle hc
  obtain ⟨engine, hspent⟩ := hended.spent
  exact ⟨_, hanswer, hh.spent hspent⟩

theorem Within.blind (hh : h.Within waiting) {x : Host σ → Report × Host σ} (hx : Blind x)
    (hidle : (x h).2.engine.holder = none) (hsettings : (x h).2.settings = h.settings) :
    (x h).2.Within waiting := by
  have hkept : (x h).2.backlogs = h.backlogs ∧ (x h).2.stashedFrames = h.stashedFrames ∧
      (x h).2.stashedBlocks = h.stashedBlocks := by
    rw [hx.kept h]
    exact ⟨rfl, rfl, rfl⟩
  obtain ⟨hbacklogs, hframes, hblocks⟩ := hkept
  refine ⟨hidle, hsettings ▸ hh.inputs_le, hblocks.trans hh.blocks_eq, ?_, ?_, ?_⟩
  · rw [hframes]
    exact hh.frames_le
  · rw [hbacklogs, hsettings]
    exact hh.length_backlogs
  · rw [hbacklogs]
    exact hh.backlogs

theorem Within.perform (language : Language σ) {waiting rest : List Call} {op : Operation}
    {m : Machine σ} (hh : h.Within waiting.length) (hm : m.Mirrors h)
    (hwaiting : ∀ c ∈ waiting, c.contended = true)
    (hfew : ¬ Overrun (waiting ++ (op.call?.toList ++ rest))) :
    ∃ after report m' waiting', h.perform language op = .ok (after, report) ∧
      m.perform language op = .ok (m', report.raw) ∧ m'.Mirrors after ∧
      after.Within waiting'.length ∧ (∀ c ∈ waiting', c.contended = true) ∧
      ¬ Overrun (waiting' ++ rest) := by
  -- The calls that wait are part of the run, and so there are few of them.
  have hpart : ∀ held : List Call, (∀ c ∈ held, c.contended = true) →
      held <:+: waiting ++ (op.call?.toList ++ rest) → held.length < 2 ^ 31 := by
    intro held hheld hinfix
    by_contra hmany
    exact hfew ⟨held, hinfix, hheld, by omega⟩
  have hrange := hh.inRange (hpart waiting hwaiting (List.prefix_append _ _).isInfix)
  have hop : ∃ after report waiting', h.perform language op = .ok (after, report) ∧
      after.Within waiting'.length ∧ (∀ c ∈ waiting', c.contended = true) ∧
      ¬ Overrun (waiting' ++ rest) := by
    rcases perform_cases language op with ⟨c, rfl⟩ | ⟨hcall, x, hx, hperform⟩
    · have hblock : ∀ a, h.answer language c = .ok a →
          h.perform language (.block c) = .ok (a.host, .block a.outcome a.outputs) := by
        intro a ha
        rw [Host.perform, ha]
        rfl
      cases hc : c.contended with
      | true =>
          have hmore : ∀ c' ∈ waiting ++ [c], c'.contended = true :=
            List.forall_mem_append.2 ⟨hwaiting, List.forall_mem_singleton.2 hc⟩
          have hsame : waiting ++ ([c] ++ rest) = waiting ++ [c] ++ rest :=
            (List.append_assoc _ _ _).symm
          have hlength := hpart _ hmore (hsame ▸ (List.prefix_append _ _).isInfix)
          rw [List.length_append, List.length_singleton] at hlength
          obtain ⟨a, ha, hafter⟩ := hh.held language hc hlength
          refine ⟨_, _, waiting ++ [c], hblock a ha, ?_, hmore, hsame ▸ hfew⟩
          rw [List.length_append, List.length_singleton]
          exact hafter
      | false =>
          obtain ⟨a, ha, hafter⟩ := hh.free language hc
          refine ⟨_, _, [], hblock a ha, hafter, fun c' hc' => absurd hc' List.not_mem_nil, ?_⟩
          rintro ⟨held, hinfix, hheld, hmany⟩
          refine hfew ⟨held, hinfix.trans ?_, hheld, hmany⟩
          exact ((List.suffix_cons c rest).trans (List.suffix_append waiting _)).isInfix
    · rw [hcall] at hfew
      obtain ⟨hop, -⟩ := hperform h
      obtain ⟨hidle, hsettings, -, -⟩ := perform_switched hh.idle hop
      exact ⟨_, _, waiting, hop, hh.blind hx (hidle.trans hh.idle) hsettings, hwaiting, hfew⟩
  obtain ⟨after, report, waiting', hop, hrest⟩ := hop
  obtain ⟨m', hm', hmirrors⟩ := Machine.perform_mirrors hm hrange hop
  exact ⟨after, report, m', waiting', hop, hm', hmirrors, hrest⟩

theorem Within.performAll (language : Language σ) {ops : List Operation} (waiting : List Call)
    {m : Machine σ} (hh : h.Within waiting.length) (hm : m.Mirrors h)
    (hwaiting : ∀ c ∈ waiting, c.contended = true) (hfew : ¬ Overrun (waiting ++ callsOf ops)) :
    ∃ last reports m', h.performAll language ops = .ok (last, reports) ∧
      m.performAll language ops = .ok (m', reports.map Report.raw) ∧ m'.Mirrors last ∧
      ∃ waits < 2 ^ 31, last.Within waits := by
  induction ops generalizing h m waiting with
  | nil =>
      refine ⟨h, [], m, rfl, rfl, hm, waiting.length, ?_, hh⟩
      by_contra hmany
      exact hfew ⟨waiting, (List.prefix_append _ _).isInfix, hwaiting, by omega⟩
  | cons op rest ih =>
      rw [callsOf_cons] at hfew
      obtain ⟨after, report, m', waiting', hop, hmop, hm', hafter, hwaiting', hfew'⟩ :=
        hh.perform language hm hwaiting hfew
      obtain ⟨last, reports, m'', hrest, hmrest, hm'', hlast⟩ := ih waiting' hafter hm' hwaiting' hfew'
      refine ⟨last, report :: reports, m'', ?_, ?_, hm'', hlast⟩
      · rw [Host.performAll]
        simp only [bind, Except.bind, hop, hrest]
        rfl
      · rw [Machine.performAll]
        simp only [bind, Except.bind, hmop, hmrest]
        rfl

end Within

end Host

end BlockHost
