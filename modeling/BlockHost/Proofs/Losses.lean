import BlockHost.Proofs.CheckedRuns
import BlockHost.Proofs.Periods
import BlockHost.Proofs.Upkeep

/-!
# Losses that are counted

A backlog without room loses events, and it knows how many: as many as it was offered in a period and
did not keep (`Backlog.Splits`). The period ends with the first block that finds the gate free, and the
backlogs are emptied then, whatever becomes of that block. What they have lost is added up before that
only on the way on which the script runs. Without a script, or with one that is disabled, the losses of
the period are forgotten together with its events.

So the count of lost events is a lower bound only, and `perform_dropped` says by how much it grows. The
count is touched nowhere else: not by a block that has to wait, and not by upkeep.
-/

namespace BlockHost.Host

variable {σ : Type} {language : Language σ} {h after : Host σ} {inputs outputs : List Buffer}
variable {frames : UInt32}

/-- The events that the backlogs have lost since they were emptied. -/
def lost (h : Host σ) : Nat :=
  (h.backlogs.map Backlog.dropped).sum

/-! ## Blocks -/

theorem tally_concluded (h : Host σ) (before : Nat) : (h.concluded before).tally = h.tally := by
  rw [concluded_eq]

theorem dropped_forgetBacklogs (h : Host σ) :
    h.forgetBacklogs.tally.dropped = h.tally.dropped := by
  rw [forgetBacklogs]
  split <;> rfl

theorem dropped_spendBacklogs (h : Host σ) (delivered : Bool) :
    (h.spendBacklogs delivered).tally.dropped = h.tally.dropped + h.lost := by
  cases delivered <;> rfl

/-- The losses of a period are counted on the one way on which the script runs, whatever the run comes
to. -/
theorem dropped_processHeld (language : Language σ) (h : Host σ) (inputs outputs : List Buffer)
    (frames : UInt32) :
    (h.processHeld language inputs outputs frames).1.tally.dropped = h.tally.dropped +
      if h.hasScript && !h.disabled && h.hasBacklog then h.lost else 0 := by
  rw [processHeld, hasScript, disabled]
  cases h.engine.value.script with
  | none => exact dropped_forgetBacklogs h
  | some script =>
      cases h.engine.value.diagnostics.disabled with
      | true => exact dropped_forgetBacklogs h
      | false =>
          simp only [Bool.false_eq_true, if_false, Option.isSome_some, Bool.not_false, Bool.and_true,
            Bool.true_and]
          generalize h.run language script inputs outputs frames = ran
          obtain ⟨ended, engine, served⟩ := ran
          have hspent : ∀ delivered,
              (if h.hasBacklog = true then
                ({ h with engine := { h.engine with value := engine } } : Host σ).spendBacklogs delivered
              else { h with engine := { h.engine with value := engine } }).tally.dropped
                = h.tally.dropped + if h.hasBacklog = true then h.lost else 0 := by
            intro delivered
            cases h.hasBacklog with
            | false => rfl
            | true => exact dropped_spendBacklogs _ delivered
          -- What follows the spending touches other counts only.
          cases ended with
          | ok _ => exact hspent true
          | error cause =>
              have hcounted := hspent false
              simp only
              split
              · exact hcounted
              · split <;> exact hcounted

/-- A call that has to wait is counted once, and as one that waits, if the number of those has room in its
word. -/
theorem answer_stashed {c : Call} {a : Answer σ} (hidle : h.engine.holder = none)
    (hc : c.contended = true) (ha : h.answer language c = .ok a) :
    h.stashedBlocks + 1 < 2 ^ 32 ∧ a.outcome = .stashed ∧
      a.host.tally = { h.tally with stashed := h.tally.stashed + 1 } := by
  rw [answer, if_pos hc, process_of_held (holder_hold hidle), processStashed] at ha
  cases hput : putAside c.frames h.hold.backlogs (c.inputs.take h.hold.settings.inputs)
      h.hold.signals with
  | error fault =>
      rw [hput] at ha
      cases ha
  | ok put =>
      rw [hput] at ha
      simp only [bind, Except.bind] at ha
      by_cases hframes : 2 ^ 63 ≤ h.hold.stashedFrames + c.frames.toNat
      · rw [if_pos hframes] at ha
        cases ha
      · rw [if_neg hframes] at ha
        by_cases hblocks : 2 ^ 32 ≤ h.hold.stashedBlocks + 1
        · rw [if_pos hblocks] at ha
          cases ha
        · rw [if_neg hblocks] at ha
          cases ha
          refine ⟨Nat.lt_of_not_le hblocks, rfl, ?_⟩
          show (concluded _ _).tally = _
          rw [tally_concluded]
          rfl

theorem answer_dropped {c : Call} {a : Answer σ} (hidle : h.engine.holder = none)
    (ha : h.answer language c = .ok a) :
    a.host.tally.dropped = h.tally.dropped +
      if !c.contended && h.hasScript && !h.disabled && h.hasBacklog then h.lost else 0 := by
  cases hc : c.contended with
  | true =>
      obtain ⟨-, -, htally⟩ := answer_stashed hidle hc ha
      rw [htally]
      rfl
  | false =>
      have hfree : ¬ c.contended = true := by
        rw [hc]
        exact Bool.false_ne_true
      rw [answer, if_neg hfree, process_of_free hidle] at ha
      cases ha
      show (concluded _ _).tally.dropped = _
      rw [tally_concluded]
      exact dropped_processHeld language h.entered _ _ _

/-! ## Runs -/

section Awaits

variable {settings : Settings} {s : Schema} {waiting past : List Call}

theorem Awaits.lost_eq_zero (hh : h.Awaits settings s []) : h.lost = 0 := by
  refine List.sum_eq_zero_iff_forall_eq_nat.2 ?_
  intro n hn
  obtain ⟨b, hb, rfl⟩ := List.mem_map.1 hn
  obtain ⟨port, hport⟩ := List.mem_iff_getElem?.1 hb
  obtain ⟨empty, hfresh, -, hrun⟩ := hh.backlogs port b hport
  cases hrun
  exact hfresh.dropped_eq

theorem Awaits.lost_of_hasBacklog (hh : h.Awaits settings s waiting) :
    (if h.hasBacklog then h.lost else 0) = h.lost := by
  cases hbacklog : h.hasBacklog with
  | true => rfl
  | false =>
      rw [hasBacklog, hh.blocks_eq, decide_eq_false_iff_not, Nat.pos_iff_ne_zero, not_not,
        List.length_eq_zero_iff] at hbacklog
      subst hbacklog
      exact hh.lost_eq_zero.symm

theorem Awaits.perform {op : Operation} {report : Report}
    (hh : h.Awaits settings s (waitingAfter past))
    (hop : h.perform language op = .ok (after, report)) :
    after.Awaits settings s (waitingAfter (past ++ op.call?.toList)) := by
  rcases perform_cases language op with ⟨c, rfl⟩ | ⟨hcall, x, hx, hperform⟩
  · have hleaves := perform_leaves hop
    cases hleaves with
    | block ha => exact hh.answered ha
  · obtain ⟨hidle, hsettings, -, -⟩ := perform_switched hh.idle hop
    have hschema := schema_perform hh.idle hop
    rw [(hperform h).1] at hop
    cases hop
    rw [hcall, Option.toList_none, List.append_nil]
    have hkept := hx.kept h
    refine ⟨hsettings.trans hh.settings_eq, hschema.trans hh.schema_eq, hidle.trans hh.idle, ?_, ?_, ?_⟩
    · rw [hkept]
      exact hh.blocks_eq
    · rw [hkept]
      exact hh.length_backlogs
    · rw [hkept]
      exact hh.backlogs

theorem Awaits.performAll {ops : List Operation} {reports : List Report}
    (hh : h.Awaits settings s (waitingAfter past))
    (hrun : h.performAll language ops = .ok (after, reports)) :
    after.Awaits settings s (waitingAfter (past ++ callsOf ops)) := by
  induction ops generalizing h past reports with
  | nil =>
      cases hrun
      rw [callsOf, List.filterMap_nil, List.append_nil]
      exact hh
  | cons op rest ih =>
      obtain ⟨mid, report, others, hop, hrest, -⟩ := performAll_cons hrun
      rw [callsOf_cons, ← List.append_assoc]
      exact ih (hh.perform hop) hrest

end Awaits

/-- Whether an operation is a block that finds the gate free, and so the end of a period. -/
def Operation.endsPeriod (op : Operation) : Bool :=
  op.call?.any fun c => !c.contended

theorem Awaits.dropped_perform {settings : Settings} {s : Schema} {waiting : List Call}
    {op : Operation} {report : Report} (hh : h.Awaits settings s waiting)
    (hop : h.perform language op = .ok (after, report)) :
    after.tally.dropped = h.tally.dropped +
      if op.endsPeriod && h.hasScript && !h.disabled then h.lost else 0 := by
  have hleaves := perform_leaves hop
  rcases perform_cases language op with ⟨c, rfl⟩ | ⟨hcall, -⟩
  · -- Without a backlog there is nothing to count, and nothing has been lost.
    cases hleaves with
    | block ha =>
      rw [answer_dropped hh.idle ha, Operation.endsPeriod, Operation.call?, Option.any_some]
      cases !c.contended && h.hasScript && !h.disabled with
      | true => exact congrArg (h.tally.dropped + ·) hh.lost_of_hasBacklog
      | false => rfl
  · rw [Operation.endsPeriod, hcall, Option.any_none]
    rcases hleaves.upkept with ⟨c, rfl⟩ | ⟨_, _, _, rfl⟩
    · cases hcall
    · rfl

/-- After any operations on a host, the next one adds the losses of a period to the count if it ends the
period and the script runs, and otherwise leaves the count as it is. What was lost at a port are the
events that had been offered there in the period, without those that were kept. Once the period has
ended, the backlogs have lost nothing, even if its losses have not been counted. -/
theorem perform_dropped {supply : Supply} {settings : Settings} {first : Host σ} {ops : List Operation}
    {reports : List Report} {op : Operation} {report : Report}
    (hcreate : create supply language settings = .ok first)
    (hrun : first.performAll language ops = .ok (h, reports))
    (hop : h.perform language op = .ok (after, report)) :
    after.tally.dropped = h.tally.dropped +
        (if op.endsPeriod && h.hasScript && !h.disabled then h.lost else 0) ∧
      h.backlogs.length = settings.inputs ∧
      (∀ (port : Nat) (b : Backlog), h.backlogs[port]? = some b →
        ∃ lost, b.Splits (offers h.schema saturated 0
          ((waitingAfter (callsOf ops)).map (Call.block settings port))) lost) ∧
      (op.endsPeriod = true → after.lost = 0) := by
  have hfirst : first.Awaits settings first.schema (waitingAfter []) := (created hcreate).awaits
  have hbefore : h.Awaits settings first.schema (waitingAfter (callsOf ops)) :=
    hfirst.performAll hrun
  refine ⟨hbefore.dropped_perform hop, hbefore.length_backlogs, ?_, ?_⟩
  · intro port b hb
    rw [hbefore.schema_eq]
    exact (hbefore.splits hb).2
  · intro hends
    obtain ⟨c, hcall, hfree⟩ := (Option.any_eq_true _ _).1 hends
    have hafter := hbefore.perform hop
    rw [hcall, Option.toList_some, waitingAfter_free _ ((Bool.not_eq_true' _).mp hfree)] at hafter
    exact hafter.lost_eq_zero

/-- Settings with room for two events in each backlog. -/
def narrowSettings (code : Option String) : Settings :=
  { Settings.standard with backlogCapacity := 64, code }

/-- A block with one event. -/
def narrowBlock (contended : Bool) : Operation :=
  .block (noteCall firstSchema contended 3)

/-- One block is processed, then three have to wait. -/
def narrowPast : List Operation :=
  [false, true, true, true].map narrowBlock

/-- A script that counts is shown two events, and the third one is counted as lost. -/
theorem perform_dropped_counting :
    ∃ first h after reports report,
      create .ample Command.language (narrowSettings (some "count")) = .ok first ∧
      first.performAll Command.language narrowPast = .ok (h, reports) ∧
      h.perform Command.language (narrowBlock false) = .ok (after, report) ∧
      h.lost = 1 ∧ after.tally.dropped = h.tally.dropped + 1 ∧ after.lost = 0 := by
  have hcheck : ((create .ample Command.language (narrowSettings (some "count"))).toOption.bind fun first =>
      (first.performAll Command.language narrowPast).toOption.bind fun x =>
        (x.1.perform Command.language (narrowBlock false)).toOption.map fun _ =>
          (x.1.lost, x.1.hasScript, x.1.disabled))
      = some (1, true, false) := by
    decide +kernel
  simp only [Option.bind_eq_some_iff, Option.map_eq_some_iff, toOption_eq_some, Prod.exists,
    Prod.mk.injEq] at hcheck
  obtain ⟨first, hcreate, h, reports, hrun, after, report, hop, hlost, hscript, henabled⟩ := hcheck
  obtain ⟨hdropped, -, -, hempty⟩ := perform_dropped hcreate hrun hop
  rw [hscript, henabled, hlost] at hdropped
  exact ⟨first, h, after, reports, report, hcreate, hrun, hop, hlost, hdropped, hempty rfl⟩

/-- With this source the loss is not counted at the end of its period, and forgotten. -/
def Forgetful (code : Option String) : Prop :=
  ∃ first h after reports report,
    create .ample Command.language (narrowSettings code) = .ok first ∧
    first.performAll Command.language narrowPast = .ok (h, reports) ∧
    h.perform Command.language (narrowBlock false) = .ok (after, report) ∧
    h.lost = 1 ∧ after.tally.dropped = h.tally.dropped ∧ after.lost = 0

/-- There is no script, or there is one that the first block has disabled. -/
theorem perform_dropped_forgotten : Forgetful none ∧ Forgetful (some "fail") := by
  have hcheck : ∀ code ∈ [none, some "fail"],
      ((create .ample Command.language (narrowSettings code)).toOption.bind fun first =>
        (first.performAll Command.language narrowPast).toOption.bind fun x =>
          (x.1.perform Command.language (narrowBlock false)).toOption.map fun y =>
            (x.1.lost, decide (y.1.tally.dropped = x.1.tally.dropped), y.1.lost))
        = some (1, true, 0) := by
    decide +kernel
  have hforgets : ∀ code ∈ [none, some "fail"], Forgetful code := by
    intro code hcode
    have hrun := hcheck code hcode
    simp only [Option.bind_eq_some_iff, Option.map_eq_some_iff, toOption_eq_some, Prod.exists,
      Prod.mk.injEq, decide_eq_true_eq] at hrun
    obtain ⟨first, hcreate, h, reports, hrun, after, report, hop, hforgotten⟩ := hrun
    exact ⟨first, h, after, reports, report, hcreate, hrun, hop, hforgotten⟩
  exact ⟨hforgets none (by simp), hforgets (some "fail") (by simp)⟩

end BlockHost.Host
