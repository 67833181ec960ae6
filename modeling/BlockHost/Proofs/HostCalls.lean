import BlockHost.Host.Upkeep
import BlockHost.Proofs.Backlogs

/-!
# The two ways through a call

A call of the audio side goes one of two ways, and which one is decided by the gate alone
(`Host.process_of_free`, `Host.process_of_held`). On either way the host sends signals at the
end, which nothing else depends on (`Host.concluded_eq`). A block for which the gate is held can
be brought down only by a count that leaves its word (`Host.processStashed_spec`).
-/

namespace BlockHost.Host

variable {σ : Type}

/-- The host at the end of a call that began with so many requests of the heap. -/
def concluded (h : Host σ) (before : Nat) : Host σ :=
  (if h.heap.requestCount ≠ before then h.send .growthRequested else h).send .callbackClean

theorem concluded_eq (h : Host σ) (before : Nat) :
    h.concluded before = { h with signals := (h.concluded before).signals } := by
  unfold concluded
  split <;> rfl

section Fields

variable (h : Host σ) (before : Nat)

@[simp] theorem settings_concluded : (h.concluded before).settings = h.settings := by
  rw [concluded_eq]

@[simp] theorem schema_concluded : (h.concluded before).schema = h.schema := by
  rw [concluded_eq]

@[simp] theorem engine_concluded : (h.concluded before).engine = h.engine := by
  rw [concluded_eq]

@[simp] theorem backlogs_concluded : (h.concluded before).backlogs = h.backlogs := by
  rw [concluded_eq]

@[simp] theorem stashedFrames_concluded :
    (h.concluded before).stashedFrames = h.stashedFrames := by
  rw [concluded_eq]

@[simp] theorem stashedBlocks_concluded :
    (h.concluded before).stashedBlocks = h.stashedBlocks := by
  rw [concluded_eq]

end Fields

variable {language : Language σ} {h : Host σ} {inputs outputs : List Buffer} {frames : UInt32}

theorem holder_hold (hidle : h.engine.holder = none) : h.hold.engine.holder = some .worker := by
  rw [hold, Gate.tryEnter, hidle]
  rfl

theorem process_of_held {side : Side} (hheld : h.engine.holder = some side) :
    h.process language inputs outputs frames =
      match h.processStashed (inputs.take h.settings.inputs) (outputs.take h.settings.outputs)
        frames with
      | .error fault => .error fault
      | .ok (after, outcome, served) =>
          .ok (after.concluded h.heap.requestCount, outcome,
            served ++ outputs.drop after.settings.outputs) := by
  have hclosed : h.engine.tryEnter .audio = none := by rw [Gate.tryEnter, hheld]
  rw [process, hclosed]
  cases hblock : h.processStashed (inputs.take h.settings.inputs) (outputs.take h.settings.outputs)
    frames with
  | error fault => rfl
  | ok answer =>
      obtain ⟨after, outcome, served⟩ := answer
      have hsettings := settings_concluded after h.heap.requestCount
      exact congrArg (fun settings : Settings => Except.ok (after.concluded h.heap.requestCount,
        outcome, served ++ outputs.drop settings.outputs)) hsettings

/-- The host in the hands of the audio side. -/
def entered (h : Host σ) : Host σ :=
  { h with engine := { h.engine with holder := some .audio } }

theorem process_of_free (hfree : h.engine.holder = none) :
    h.process language inputs outputs frames =
      match h.entered.processHeld language (inputs.take h.settings.inputs)
        (outputs.take h.settings.outputs) frames with
      | (after, outcome, served) =>
          .ok (after.leave.concluded h.heap.requestCount, outcome,
            served ++ outputs.drop after.settings.outputs) := by
  have hopen : h.engine.tryEnter .audio = some h.entered.engine := by
    rw [Gate.tryEnter, hfree]
    rfl
  have hentered : { h with engine := h.entered.engine } = h.entered := rfl
  rw [process, hopen]
  simp only [hentered]
  cases hblock : h.entered.processHeld language (inputs.take h.settings.inputs)
    (outputs.take h.settings.outputs) frames with
  | mk after answer =>
      have hsettings := settings_concluded after.leave h.heap.requestCount
      exact congrArg (fun settings : Settings => Except.ok
        (after.leave.concluded h.heap.requestCount, answer.1,
          answer.2 ++ outputs.drop settings.outputs)) hsettings

/-- What a block leaves of the host when it is put aside. -/
structure Stashed (h : Host σ) (inputs : List Buffer) (frames : UInt32) (after : Host σ) :
    Prop where
  settings_eq : after.settings = h.settings
  schema_eq : after.schema = h.schema
  engine_eq : after.engine = h.engine
  length_backlogs : after.backlogs.length = h.backlogs.length
  backlogs : ∀ (port : Nat) (b : Backlog), h.backlogs[port]? = some b →
    ∃ b', after.backlogs[port]? = some b' ∧
      b.append ((inputs[port]?).bind Buffer.atom?) frames = .ok b'
  frames_eq : after.stashedFrames = h.stashedFrames + frames.toNat
  frames_lt : after.stashedFrames < 2 ^ 63
  blocks_eq : after.stashedBlocks = h.stashedBlocks + 1

/-- Each backlog that is left is one that was there, with the block. -/
theorem Stashed.of_getElem? {after : Host σ} (hstashed : h.Stashed inputs frames after) {port : Nat}
    {b' : Backlog} (hb' : after.backlogs[port]? = some b') :
    ∃ b, h.backlogs[port]? = some b ∧
      b.append ((inputs[port]?).bind Buffer.atom?) frames = .ok b' := by
  have hlt := (List.getElem?_eq_some_iff.1 hb').1
  rw [hstashed.length_backlogs] at hlt
  obtain ⟨b'', hb'', happend⟩ := hstashed.backlogs port _ (List.getElem?_eq_getElem hlt)
  rw [hb'] at hb''
  cases hb''
  exact ⟨_, List.getElem?_eq_getElem hlt, happend⟩

/-- A block is put aside, or a count leaves its word. -/
theorem processStashed_spec (h : Host σ) (inputs outputs : List Buffer) (frames : UInt32) :
    (∃ after, h.processStashed inputs outputs frames = .ok (after, .stashed,
        Bypass.outputs h.settings.bypass h.schema.vocabulary inputs outputs) ∧
      h.Stashed inputs frames after) ∨
    h.processStashed inputs outputs frames = .error .addition ∧
      ((∃ b ∈ h.backlogs, 2 ^ 32 ≤ b.blocks + 1) ∨ 2 ^ 63 ≤ h.stashedFrames + frames.toNat ∨
        2 ^ 32 ≤ h.stashedBlocks + 1) := by
  rw [processStashed]
  rcases putAside_spec frames h.backlogs inputs h.signals with
    ⟨after, signals, hput, hlength, hports⟩ | ⟨hput, hblocks⟩
  · rw [hput]
    by_cases hframes : 2 ^ 63 ≤ h.stashedFrames + frames.toNat
    · refine .inr ⟨?_, .inr (.inl hframes)⟩
      simp only [bind, Except.bind, if_pos hframes]
      rfl
    · by_cases hcount : 2 ^ 32 ≤ h.stashedBlocks + 1
      · refine .inr ⟨?_, .inr (.inr hcount)⟩
        simp only [bind, Except.bind, if_neg hframes, if_pos hcount]
        rfl
      · simp only [bind, Except.bind, if_neg hframes, if_neg hcount]
        exact .inl ⟨_, rfl, rfl, rfl, rfl, hlength, hports, rfl, Nat.lt_of_not_le hframes, rfl⟩
  · rw [hput]
    exact .inr ⟨rfl, .inl hblocks⟩

/-- What a block leaves of the host when the script gets through it. The blocks that were put
aside are spent. -/
structure Played (h : Host σ) (engine : Engine σ) (after : Host σ) : Prop where
  settings_eq : after.settings = h.settings
  schema_eq : after.schema = h.schema
  engine_eq : after.engine = { h.engine with value := engine }
  backlogs_eq : after.backlogs = if h.hasBacklog then h.backlogs.map Backlog.reset else h.backlogs
  frames_eq : after.stashedFrames = if h.hasBacklog then 0 else h.stashedFrames
  blocks_eq : after.stashedBlocks = if h.hasBacklog then 0 else h.stashedBlocks

theorem processHeld_of_run {script : σ} {engine : Engine σ} {served : List Buffer}
    (hscript : h.engine.value.script = some script)
    (henabled : h.engine.value.diagnostics.disabled = false)
    (hrun : h.run language script inputs outputs frames = (.ok (), engine, served)) :
    ∃ after, h.processHeld language inputs outputs frames
        = (after, .processed h.hasBacklog, served) ∧ h.Played engine after := by
  have hgood : ¬ h.engine.value.diagnostics.disabled = true := by
    rw [henabled]
    exact Bool.false_ne_true
  rw [processHeld, hscript]
  simp only [if_neg hgood, hrun]
  cases hbacklog : h.hasBacklog with
  | false =>
      refine ⟨_, rfl, rfl, rfl, rfl, ?_, ?_, ?_⟩
      all_goals
        rw [hbacklog]
        rfl
  | true =>
      refine ⟨_, rfl, rfl, rfl, rfl, ?_, ?_, ?_⟩
      all_goals
        rw [hbacklog]
        rfl

end BlockHost.Host
