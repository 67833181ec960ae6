import BlockHost.Proofs.BlockOutputs

/-!
# How a call ends

There are three ways through a call that finds the gate free. Without a script, and with one that is
disabled, the blocks that were put aside are forgotten and the outputs are bypassed. Otherwise the
script runs, and the call ends as that run does (`Host.Ended`). On all three ways no block waits
afterwards and nobody holds the gate (`Host.Spent`). A call that finds the gate held puts its block
aside (`Host.Stashed`).

`Host.answer_free` and `Host.answer_held` say this of whole calls. Whatever is to be known of runs of
calls follows from these two, and nothing below opens the host's code for a call again.
-/

namespace BlockHost

/-- The failure as which a run that was stopped is reported. -/
def ScriptFailure.ofStop : Stop ScriptFailure → ScriptFailure
  | .refused cause => cause
  | .crashed _ => .runtime "script panicked"

/-- What becomes of a block when the run of the script ends like this. -/
def Outcome.ofRun (replayed : Bool) : Except ScriptFailure Unit → Outcome
  | .ok _ => .processed replayed
  | .error cause =>
      .bypassed (if cause.isDisabling then .error
        else if cause = .outOfMemory then .outOfMemory
        else .overflow)

/-- The engine after the host has taken note of how the run ended. -/
def Engine.noted {σ : Type} (e : Engine σ) : Except ScriptFailure Unit → Engine σ
  | .ok _ => e
  | .error cause =>
      if cause.isDisabling then
        { e with diagnostics := e.diagnostics.record cause.message true }
      else e

@[simp] theorem Engine.script_noted {σ : Type} (e : Engine σ) (ended : Except ScriptFailure Unit) :
    (e.noted ended).script = e.script := by
  cases ended with
  | ok _ => rfl
  | error cause =>
      rw [noted]
      split <;> rfl

theorem Outcome.ofRun_eq_error {replayed : Bool} {ended : Except ScriptFailure Unit} :
    Outcome.ofRun replayed ended = .bypassed .error ↔
      ∃ cause, ended = .error cause ∧ cause.isDisabling = true := by
  cases ended with
  | ok _ =>
      refine ⟨fun h => (by cases h), ?_⟩
      rintro ⟨_, heq, -⟩
      cases heq
  | error cause =>
      rw [ofRun]
      constructor
      · intro h
        refine ⟨cause, rfl, ?_⟩
        cases hdisabling : cause.isDisabling with
        | true => rfl
        | false =>
            rw [hdisabling, if_neg Bool.false_ne_true] at h
            split at h <;> cases h
      · rintro ⟨_, heq, hdisabling⟩
        cases heq
        rw [if_pos hdisabling]

theorem Engine.disabled_noted {σ : Type} (e : Engine σ) (replayed : Bool)
    (ended : Except ScriptFailure Unit) :
    (e.noted ended).diagnostics.disabled
      = (decide (Outcome.ofRun replayed ended = .bypassed .error) || e.diagnostics.disabled) := by
  cases ended with
  | ok _ => rfl
  | error cause =>
      rw [noted]
      by_cases hdisabling : cause.isDisabling = true
      · rw [if_pos hdisabling, decide_eq_true (Outcome.ofRun_eq_error.2 ⟨cause, rfl, hdisabling⟩),
          Bool.true_or]
        exact Bool.or_true _
      · rw [if_neg hdisabling, decide_eq_false, Bool.false_or]
        intro herror
        obtain ⟨_, heq, hdisables⟩ := Outcome.ofRun_eq_error.1 herror
        cases heq
        exact hdisabling hdisables

theorem Outcome.ofRun_ne {replayed : Bool} {ended : Except ScriptFailure Unit}
    {reason : Bypass.Reason} (h : reason = .noScript ∨ reason = .disabled) :
    Outcome.ofRun replayed ended ≠ .bypassed reason := by
  cases ended with
  | ok _ => exact fun heq => (by cases heq)
  | error cause =>
      rw [ofRun]
      rcases h with rfl | rfl
      all_goals
        split
        · exact fun heq => (by cases heq)
        · split <;> exact fun heq => (by cases heq)

namespace Host

variable {σ : Type} {language : Language σ} {h after : Host σ} {inputs outputs : List Buffer}
variable {frames : UInt32}

/-- What a call that had the gate leaves: an engine behind a free gate, and no block that waits. -/
structure Spent (h : Host σ) (engine : Engine σ) (after : Host σ) : Prop where
  settings_eq : after.settings = h.settings
  schema_eq : after.schema = h.schema
  engine_eq : after.engine = .free engine
  backlogs_eq : after.backlogs = if h.hasBacklog then h.backlogs.map Backlog.reset else h.backlogs
  blocks_eq : after.stashedBlocks = 0
  frames_eq : after.stashedFrames = if h.hasBacklog then 0 else h.stashedFrames

theorem Spent.hasBacklog_eq {engine : Engine σ} (hspent : h.Spent engine after) :
    after.hasBacklog = false := by
  rw [hasBacklog, hspent.blocks_eq]
  rfl

/-- How the play over a block ended. -/
def endOf : EStateM.Result (Stop ScriptFailure) (Session σ) Unit → Except ScriptFailure Unit
  | .ok _ _ => .ok ()
  | .error stop _ => .error (.ofStop stop)

/-- The engine with what the play over a block left of the session. -/
def engineOf (h : Host σ) (s : Session σ) : Engine σ :=
  { h.engine.value with script := some s.script
                        heap := s.heap
                        diagnostics := { h.engine.value.diagnostics with trace := s.trace } }

/-- The play over a block, with the blocks before it that had to wait. -/
def play (language : Language σ) (h : Host σ) (script : σ) (inputs outputs : List Buffer)
    (frames : UInt32) : EStateM.Result (Stop ScriptFailure) (Session σ) Unit :=
  Session.play language h.schema h.replay (inputs.map Buffer.atom?) frames
    (h.session script outputs)

theorem run_eq (language : Language σ) (h : Host σ) (script : σ) (inputs outputs : List Buffer)
    (frames : UInt32) :
    h.run language script inputs outputs frames =
      (endOf (h.play language script inputs outputs frames),
        h.engineOf (Action.left (h.play language script inputs outputs frames)),
        (Action.left (h.play language script inputs outputs frames)).outputs.map
          Writer.buffer) := by
  rw [run, play, session]
  cases Session.play language h.schema h.replay (inputs.map Buffer.atom?) frames _ with
  | ok _ s => rfl
  | error stop s => cases stop <;> rfl

section Held

theorem spent_forgetBacklogs (h : Host σ) :
    h.Spent h.engine.value h.forgetBacklogs.countBypass.leave := by
  unfold forgetBacklogs
  cases hbacklog : h.hasBacklog with
  | true =>
      refine ⟨rfl, rfl, rfl, ?_, rfl, ?_⟩
      all_goals
        rw [hbacklog]
        rfl
  | false =>
      refine ⟨rfl, rfl, rfl, ?_, ?_, ?_⟩
      · rw [hbacklog]
        rfl
      · show h.stashedBlocks = 0
        rw [hasBacklog, decide_eq_false_iff_not] at hbacklog
        omega
      · rw [hbacklog]
        rfl

theorem Spent.of_entered {engine : Engine σ} (hspent : h.entered.Spent engine after) :
    h.Spent engine after :=
  ⟨hspent.settings_eq, hspent.schema_eq, hspent.engine_eq, hspent.backlogs_eq, hspent.blocks_eq,
    hspent.frames_eq⟩

theorem Spent.concluded {engine : Engine σ} (hspent : h.Spent engine after) (before : Nat) :
    h.Spent engine (after.concluded before) := by
  obtain ⟨hsettings, hschema, hengine, hbacklogs, hblocks, hframes⟩ := hspent
  refine ⟨?_, ?_, ?_, ?_, ?_, ?_⟩
  · rw [settings_concluded, hsettings]
  · rw [schema_concluded, hschema]
  · rw [engine_concluded, hengine]
  · rw [backlogs_concluded, hbacklogs]
  · rw [stashedBlocks_concluded, hblocks]
  · rw [stashedFrames_concluded, hframes]

theorem spent_spendBacklogs (h : Host σ) (engine : Engine σ) (delivered : Bool) :
    let g := { h with engine := { h.engine with value := engine } }
    h.Spent engine (if h.hasBacklog then g.spendBacklogs delivered else g).leave := by
  intro g
  cases hbacklog : h.hasBacklog with
  | true =>
      refine ⟨?_, ?_, ?_, ?_, ?_, ?_⟩
      all_goals
        cases delivered <;> first | rfl | (rw [hbacklog]; rfl)
  | false =>
      refine ⟨rfl, rfl, rfl, ?_, ?_, ?_⟩
      · rw [hbacklog]
        rfl
      · show h.stashedBlocks = 0
        rw [hasBacklog, decide_eq_false_iff_not] at hbacklog
        omega
      · rw [hbacklog]
        rfl

/-- The blocks that were put aside are spent, whatever the run of the script came to. -/
theorem processHeld_of_script {script : σ} (hscript : h.engine.value.script = some script)
    (henabled : h.engine.value.diagnostics.disabled = false) :
    ∃ after served,
      h.processHeld language inputs outputs frames
          = (after, .ofRun h.hasBacklog (endOf (h.play language script inputs outputs frames)),
              served) ∧
        h.Spent ((h.engineOf (Action.left (h.play language script inputs outputs frames))).noted
          (endOf (h.play language script inputs outputs frames))) after.leave := by
  have hgood : ¬ h.engine.value.diagnostics.disabled = true := by
    rw [henabled]
    exact Bool.false_ne_true
  rw [processHeld, hscript]
  simp only [if_neg hgood, run_eq]
  generalize endOf (h.play language script inputs outputs frames) = ended
  generalize h.engineOf (Action.left (h.play language script inputs outputs frames)) = engine
  -- What follows the spending changes only counts, signals and what there is to tell.
  cases ended with
  | ok _ =>
      obtain ⟨hsettings, hschema, hengine, hbacklogs, hblocks, hframes⟩ :=
        h.spent_spendBacklogs engine true
      exact ⟨_, _, rfl, hsettings, hschema, hengine, hbacklogs, hblocks, hframes⟩
  | error cause =>
      obtain ⟨hsettings, hschema, hengine, hbacklogs, hblocks, hframes⟩ :=
        h.spent_spendBacklogs engine false
      simp only [Outcome.ofRun, Engine.noted]
      by_cases hdisabling : cause.isDisabling = true
      · simp only [if_pos hdisabling]
        have hnoted := congrArg (Gate.update · fun e =>
          { e with diagnostics := e.diagnostics.record cause.message true }) hengine
        exact ⟨_, _, rfl, hsettings, hschema, hnoted, hbacklogs, hblocks, hframes⟩
      · by_cases hmemory : cause = .outOfMemory
        · simp only [if_neg hdisabling, if_pos hmemory]
          exact ⟨_, _, rfl, hsettings, hschema, hengine, hbacklogs, hblocks, hframes⟩
        · simp only [if_neg hdisabling, if_neg hmemory]
          exact ⟨_, _, rfl, hsettings, hschema, hengine, hbacklogs, hblocks, hframes⟩

end Held

/-- How a call ends that finds the gate free. -/
inductive Ended (language : Language σ) (h : Host σ) (inputs outputs : List Buffer)
    (frames : UInt32) (after : Host σ) : Outcome → Prop
  /-- There is no script. -/
  | noScript (hscript : h.engine.value.script = none) (hspent : h.Spent h.engine.value after) :
      Ended language h inputs outputs frames after (.bypassed .noScript)
  /-- The script is disabled. -/
  | disabled {script : σ} (hscript : h.engine.value.script = some script)
      (hdisabled : h.engine.value.diagnostics.disabled = true)
      (hspent : h.Spent h.engine.value after) :
      Ended language h inputs outputs frames after (.bypassed .disabled)
  /-- The script has run. -/
  | run {script : σ} (hscript : h.engine.value.script = some script)
      (henabled : h.engine.value.diagnostics.disabled = false)
      (hspent : h.Spent ((h.engineOf (Action.left
        (h.play language script inputs outputs frames))).noted
          (endOf (h.play language script inputs outputs frames))) after) :
      Ended language h inputs outputs frames after
        (.ofRun h.hasBacklog (endOf (h.play language script inputs outputs frames)))

theorem Ended.spent {outcome : Outcome}
    (hended : h.Ended language inputs outputs frames after outcome) :
    ∃ engine, h.Spent engine after := by
  cases hended with
  | noScript _ hspent | disabled _ _ hspent | run _ _ hspent => exact ⟨_, hspent⟩

/-- A call that finds the gate free is answered, and ends in one of the three ways. -/
theorem process_free_cases (language : Language σ) (hfree : h.engine.holder = none)
    (inputs outputs : List Buffer) (frames : UInt32) :
    ∃ after outcome buffers,
      h.process language inputs outputs frames = .ok (after, outcome, buffers) ∧
        h.Ended language (inputs.take h.settings.inputs) (outputs.take h.settings.outputs) frames
          after outcome := by
  rw [process_of_free hfree]
  cases hscript : h.engine.value.script with
  | none =>
      have hentered : h.entered.engine.value.script = none := hscript
      rw [processHeld, hentered]
      exact ⟨_, _, _, rfl, .noScript hscript (h.entered.spent_forgetBacklogs.of_entered.concluded _)⟩
  | some script =>
      have hentered : h.entered.engine.value.script = some script := hscript
      cases hdisabled : h.engine.value.diagnostics.disabled with
      | true =>
          rw [processHeld, hentered]
          simp only [if_pos (show h.entered.engine.value.diagnostics.disabled = true from hdisabled)]
          exact ⟨_, _, _, rfl, .disabled hscript hdisabled
            (h.entered.spent_forgetBacklogs.of_entered.concluded _)⟩
      | false =>
          obtain ⟨after, served, hheld, hspent⟩ := @processHeld_of_script _ language h.entered
            (inputs.take h.settings.inputs) (outputs.take h.settings.outputs) frames _ hentered
            hdisabled
          rw [hheld]
          exact ⟨_, _, _, rfl, .run hscript hdisabled (hspent.of_entered.concluded _)⟩

theorem settings_process {y : Host σ × Outcome × List Buffer}
    (hy : h.process language inputs outputs frames = .ok y) : y.1.settings = h.settings := by
  cases hholder : h.engine.holder with
  | none =>
      obtain ⟨after, outcome, buffers, hprocess, hended⟩ :=
        process_free_cases language hholder inputs outputs frames
      rw [hy] at hprocess
      cases hprocess
      obtain ⟨engine, hspent⟩ := hended.spent
      exact hspent.settings_eq
  | some side =>
      rw [process_of_held hholder] at hy
      rcases processStashed_spec h (inputs.take h.settings.inputs)
        (outputs.take h.settings.outputs) frames with ⟨after, hblock, hstashed⟩ | ⟨hblock, -⟩
      · rw [hblock] at hy
        cases hy
        exact (settings_concluded after _).trans hstashed.settings_eq
      · rw [hblock] at hy
        cases hy

variable {c : Call}

theorem answer_free (language : Language σ) (hidle : h.engine.holder = none)
    (hc : c.contended = false) :
    ∃ after outcome buffers, h.answer language c = .ok ⟨after, outcome, buffers⟩ ∧
      h.Ended language (c.inputs.take h.settings.inputs) (c.outputs.take h.settings.outputs)
        c.frames after outcome := by
  obtain ⟨after, outcome, buffers, hprocess, hended⟩ :=
    process_free_cases language hidle c.inputs c.outputs c.frames
  rw [answer, if_neg (by rw [hc]; exact Bool.false_ne_true), hprocess]
  exact ⟨after, outcome, buffers, rfl, hended⟩

/-- A call that finds the gate held puts its block aside and leaves the engine alone, unless a count
leaves its word. -/
theorem answer_held (language : Language σ) (hidle : h.engine.holder = none)
    (hc : c.contended = true) :
    (∃ after buffers, h.answer language c = .ok ⟨after, .stashed, buffers⟩ ∧
      h.Stashed (c.inputs.take h.settings.inputs) c.frames after) ∨
    h.answer language c = .error .addition ∧
      ((∃ b ∈ h.backlogs, 2 ^ 32 ≤ b.blocks + 1) ∨ 2 ^ 63 ≤ h.stashedFrames + c.frames.toNat ∨
        2 ^ 32 ≤ h.stashedBlocks + 1) := by
  have hhold : h.hold = { h with engine := { h.engine with holder := some .worker } } := by
    rw [hold, Gate.tryEnter, hidle]
    rfl
  have hengine : h.engine = ⟨none, h.engine.value⟩ := by
    rw [← hidle]
  rw [answer, if_pos hc, process_of_held (holder_hold hidle)]
  rcases processStashed_spec h.hold (c.inputs.take h.hold.settings.inputs)
    (c.outputs.take h.hold.settings.outputs) c.frames with
    ⟨after, hblock, hstashed⟩ | ⟨hblock, hcounts⟩
  · rw [hblock]
    rw [hhold] at hstashed
    refine .inl ⟨_, _, rfl, ?_, ?_, ?_, ?_, ?_, ?_, ?_, ?_⟩
    · exact (settings_concluded after _).trans hstashed.settings_eq
    · exact (schema_concluded after _).trans hstashed.schema_eq
    · rw [leave, Gate.leave, engine_concluded, hstashed.engine_eq]
      exact hengine.symm
    · exact (congrArg List.length (backlogs_concluded after _)).trans hstashed.length_backlogs
    · intro port b hb
      obtain ⟨b', hb', happend⟩ := hstashed.backlogs port b hb
      refine ⟨b', ?_, happend⟩
      rw [← hb']
      exact congrArg (·[port]?) (backlogs_concluded after _)
    · exact (stashedFrames_concluded after _).trans hstashed.frames_eq
    · rw [leave, stashedFrames_concluded]
      exact hstashed.frames_lt
    · exact (stashedBlocks_concluded after _).trans hstashed.blocks_eq
  · rw [hblock]
    rw [hhold] at hcounts
    exact .inr ⟨rfl, hcounts⟩

end Host

end BlockHost
