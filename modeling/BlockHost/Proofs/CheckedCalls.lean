import BlockHost.Proofs.CallEnds
import BlockHost.Proofs.CheckedShelves
import BlockHost.Proofs.CheckedTexts

/-!
# A call with every sum and range checked

A machine is a host whose backlogs are bytes in memory, and whose calls are made of the checked
operations. Only the run of the script is taken as it is: whatever brings the script down is caught,
and becomes a failure of the script (`Host.endOf`). Nothing else is caught, and so a fault anywhere
else would bring the whole call down.

The machine does what the host does, in the same order, and so the two are compared function by
function. When a machine mirrors a host (`Machine.Mirrors`), it gets through what the host gets
through, and mirrors it again afterwards. Some of what the machine checks is always in range: the
words in memory, the ranges of ports, and the text of an error. Some is checked by the host as well,
namely the counts of the blocks that wait. What is left is the number of lost events, which the host
counts without a limit, and the room for a backlog, which has to be addressed. `Host.InRange` asks for
no more than these two.

`Machine.answer_mirrors` says that a machine is not brought down by a call that a host answers, as
long as that much is in range, and that it gives the same answer.
-/

namespace BlockHost

/-- A host whose backlogs are bytes in memory. -/
structure Machine (σ : Type) where
  /-- All but the backlogs. -/
  host : Host σ
  shelves : List Shelf

namespace Machine

variable {σ : Type}

/-! ## What a call does -/

/-- The sum of some numbers. -/
def total (numbers : List Nat) : Except Fault Nat :=
  numbers.foldlM Fault.checkedAdd 0

/-- Empties all shelves. -/
def resetShelves (m : Machine σ) : Except Fault (Machine σ) := do
  return { host := m.host.resetBacklogs, shelves := ← m.shelves.mapM Checked.reset }

/-- Empties the shelves of blocks that no script will be shown. -/
def forget (m : Machine σ) : Except Fault (Machine σ) :=
  if m.host.hasBacklog then m.resetShelves else .ok m

/-- Counts the events that have been lost, and notes a delivery. -/
def spent (dropped : Nat) (delivered : Bool) (h : Host σ) : Host σ :=
  let h := { h with tally := { h.tally with dropped := h.tally.dropped + dropped } }
  if delivered then
    { h with tally := { h.tally with replays := h.tally.replays + 1 } }.send .stashReplayed
  else h

/-- Empties the shelves of blocks that the script has been shown, and counts what they had lost. -/
def spend (m : Machine σ) (delivered : Bool) : Except Fault (Machine σ) := do
  let dropped ← total (m.shelves.map Shelf.dropped)
  resetShelves { m with host := spent dropped delivered m.host }

/-- The blocks that were put aside are spent, if there were any. -/
def spendIf (m : Machine σ) (waiting delivered : Bool) : Except Fault (Machine σ) :=
  if waiting then m.spend delivered else .ok m

/-- The blocks put aside, as the script is shown them. -/
def replay (m : Machine σ) : Option Replay :=
  if m.host.hasBacklog then
    some
      { inputs := m.shelves.map fun s => Atom.parse s.sequence
        frames := UInt32.ofNat (min m.host.stashedFrames (2 ^ 32 - 1)) }
  else none

/-- Runs the script over a block, and catches what brings it down. -/
def run (language : Language σ) (m : Machine σ) (script : σ) (inputs outputs : List Buffer)
    (frames : UInt32) : Except ScriptFailure Unit × Engine σ × List Buffer :=
  let played := Session.play language m.host.schema m.replay (inputs.map Buffer.atom?) frames
    (m.host.session script outputs)
  (Host.endOf played, m.host.engineOf (Action.left played),
    (Action.left played).outputs.map Writer.buffer)

/-- Bypasses a block. -/
def bypass (m : Machine σ) (reason : Bypass.Reason) (inputs drafts : List Buffer) :
    Except Fault (Machine σ × Outcome × List Bytes) := do
  let served ← Checked.outputs m.host.settings.bypass m.host.schema.vocabulary
    (inputs.map Buffer.bytes) 0 (drafts.map Buffer.bytes)
  return ({ m with host := m.host.countBypass }, .bypassed reason, served)

/-- What becomes of a block over which the script has run. -/
def conclude (m : Machine σ) (replayed : Bool) (inputs outputs : List Buffer) :
    Except ScriptFailure Unit → Except Fault (Machine σ × Outcome × List Bytes)
  | .ok _ => do
      let h := { m.host with tally := { m.host.tally with processed := m.host.tally.processed + 1 } }
      return ({ m with host := h.send .blockProcessed }, .processed replayed,
        outputs.map Buffer.bytes)
  | .error cause =>
      if cause.isDisabling then do
        let diagnostics ← Checked.record m.host.engine.value.diagnostics cause.message true
        let h :=
          { m.host with
            engine := m.host.engine.update fun e => { e with diagnostics }
            tally := { m.host.tally with errors := m.host.tally.errors + 1 } }
        bypass { m with host := h.send .scriptError } .error inputs outputs
      else if cause = .outOfMemory then
        bypass { m with host := m.host.send .oomBypass } .outOfMemory inputs outputs
      else bypass { m with host := m.host.send .forgeOverflow } .overflow inputs outputs

/-- A block for which the gate is held by the audio side. -/
def processHeld (language : Language σ) (m : Machine σ) (inputs outputs : List Buffer)
    (frames : UInt32) : Except Fault (Machine σ × Outcome × List Bytes) :=
  match m.host.engine.value.script with
  | none => do bypass (← m.forget) .noScript inputs outputs
  | some script =>
      if m.host.engine.value.diagnostics.disabled then do
        bypass (← m.forget) .disabled inputs outputs
      else do
        let (ended, engine, outputs) := m.run language script inputs outputs frames
        let h := { m.host with engine := { m.host.engine with value := engine } }
        let after ← { m with host := h }.spendIf m.host.hasBacklog (ended matches .ok _)
        after.conclude m.host.hasBacklog inputs outputs ended

/-- Puts the inputs of a block aside, one input after the other. -/
def putAside (frames : UInt32) : List Shelf → List Buffer → SignalQueue →
    Except Fault (List Shelf × SignalQueue)
  | [], _, signals => .ok ([], signals)
  | s :: rest, inputs, signals => do
      let after ← Checked.append s (inputs.head?.map Buffer.bytes) frames
      let signals := if after.failed && !s.failed then signals.push .stashOverflow else signals
      let (rest, signals) ← putAside frames rest inputs.tail signals
      return (after :: rest, signals)

/-- A block for which the gate is held by another side. -/
def processStashed (m : Machine σ) (inputs outputs : List Buffer) (frames : UInt32) :
    Except Fault (Machine σ × Outcome × List Bytes) := do
  let (shelves, signals) ← putAside frames m.shelves inputs m.host.signals
  if 2 ^ 63 ≤ m.host.stashedFrames + frames.toNat then throw .addition
  if 2 ^ 32 ≤ m.host.stashedBlocks + 1 then throw .addition
  let h :=
    { m.host with
      signals
      stashedFrames := m.host.stashedFrames + frames.toNat
      stashedBlocks := m.host.stashedBlocks + 1
      tally := { m.host.tally with stashed := m.host.tally.stashed + 1 } }
  let served ← Checked.outputs h.settings.bypass h.schema.vocabulary (inputs.map Buffer.bytes) 0
    (outputs.map Buffer.bytes)
  return ({ host := h.send .blockStashed, shelves }, .stashed, served)

/-- Processes a block. -/
def process (language : Language σ) (m : Machine σ) (inputs outputs : List Buffer)
    (frames : UInt32) : Except Fault (Machine σ × Outcome × List Bytes) := do
  let inputs ← Checked.range inputs 0 (min inputs.length m.shelves.length)
  let ports := min outputs.length m.host.settings.outputs
  let drafts ← Checked.range outputs 0 ports
  let before := m.host.heap.requestCount
  let (m, outcome, served) ←
    match m.host.engine.tryEnter .audio with
    | some engine => do
        let (m, outcome, served) ←
          processHeld language { m with host := { m.host with engine } } inputs drafts frames
        pure ({ m with host := m.host.leave }, outcome, served)
    | none => m.processStashed inputs drafts frames
  return ({ m with host := m.host.concluded before }, outcome,
    served ++ (outputs.drop ports).map Buffer.bytes)

/-- What a call brings about. -/
structure Answer (σ : Type) where
  machine : Machine σ
  outcome : Outcome
  outputs : List Bytes

/-- Answers a call. The other side takes the gate before a contended call and leaves it
afterwards. -/
def answer (language : Language σ) (m : Machine σ) (c : Host.Call) : Except Fault (Answer σ) := do
  if c.contended then
    let (m, outcome, outputs) ←
      process language { m with host := m.host.hold } c.inputs c.outputs c.frames
    return ⟨{ m with host := m.host.leave }, outcome, outputs⟩
  else
    let (m, outcome, outputs) ← m.process language c.inputs c.outputs c.frames
    return ⟨m, outcome, outputs⟩

/-! ## The same as a host -/

/-- The shelves hold what the backlogs of the host hold, and all else is the same. -/
structure Mirrors (m : Machine σ) (h : Host σ) : Prop where
  host_eq : m.host = { h with backlogs := [] }
  shelves : List.Forall₂ Shelf.Holds m.shelves h.backlogs

end Machine

/-- A backlog whose memory can be addressed, and whose losses can be counted for one more block. -/
structure Backlog.InRange (b : Backlog) : Prop where
  sequences : b.schema.kindOf (b.schema.id .sequence) = .sequence
  capacity_lt : b.capacity < 2 ^ 64
  dropped_lt : b.dropped + 2 ^ 28 < 2 ^ 64

/-- What a call counts of the backlogs stays in the range of words. -/
structure Host.InRange {σ : Type} (h : Host σ) : Prop where
  length_backlogs : h.backlogs.length = h.settings.inputs
  backlogs : ∀ b ∈ h.backlogs, b.InRange
  losses : (h.backlogs.map Backlog.dropped).sum < 2 ^ 64

namespace Machine

section Mirrors

variable {σ : Type} {language : Language σ} {m : Machine σ} {h : Host σ}
variable {inputs outputs : List Buffer} {frames : UInt32}

theorem Mirrors.update (hm : m.Mirrors h) (f : Host σ → Host σ)
    (hf : f { h with backlogs := [] } = { f h with backlogs := [] })
    (hbacklogs : (f h).backlogs = h.backlogs) : Mirrors { m with host := f m.host } (f h) where
  host_eq := by
    show f m.host = _
    rw [hm.host_eq, hf]
  shelves := by
    rw [hbacklogs]
    exact hm.shelves

theorem total_eq {numbers : List Nat} (hsum : numbers.sum < 2 ^ 64) :
    total numbers = .ok numbers.sum := by
  have hfrom : ∀ (numbers : List Nat) (start : Nat), start + numbers.sum < 2 ^ 64 →
      numbers.foldlM Fault.checkedAdd start = .ok (start + numbers.sum) := by
    intro numbers
    induction numbers with
    | nil => exact fun start _ => rfl
    | cons n rest ih =>
        intro start hlt
        rw [List.sum_cons] at hlt ⊢
        rw [List.foldlM_cons, Checked.add_eq (by omega)]
        exact (ih (start + n) (by omega)).trans (by rw [Nat.add_assoc])
  exact (hfrom numbers 0 (by omega)).trans (by rw [Nat.zero_add])

theorem mapM_reset {shelves : List Shelf} {backlogs : List Backlog}
    (hs : List.Forall₂ Shelf.Holds shelves backlogs) :
    ∃ after, shelves.mapM Checked.reset = .ok after ∧
      List.Forall₂ Shelf.Holds after (backlogs.map Backlog.reset) := by
  induction hs with
  | nil => exact ⟨[], rfl, .nil⟩
  | cons hfirst _ ih =>
      obtain ⟨first, hreset, hholds⟩ := hfirst.checked_reset
      obtain ⟨rest, hrest, hall⟩ := ih
      refine ⟨first :: rest, ?_, .cons hholds hall⟩
      rw [List.mapM_cons, hreset, hrest]
      rfl

theorem map_eq {α : Type} {f : Shelf → α} {g : Backlog → α} {shelves : List Shelf}
    {backlogs : List Backlog} (hfg : ∀ s b, s.Holds b → f s = g b)
    (hs : List.Forall₂ Shelf.Holds shelves backlogs) : shelves.map f = backlogs.map g := by
  induction hs with
  | nil => rfl
  | cons hfirst _ ih => exact congr (congrArg List.cons (hfg _ _ hfirst)) ih

theorem Mirrors.dropped_eq (hm : m.Mirrors h) :
    m.shelves.map Shelf.dropped = h.backlogs.map Backlog.dropped :=
  map_eq (fun _ _ hs => Shelf.Stores.dropped_eq hs) hm.shelves

theorem resetShelves_mirrors (hm : m.Mirrors h) :
    ∃ after, m.resetShelves = .ok after ∧ after.Mirrors h.resetBacklogs := by
  obtain ⟨shelves, hreset, hholds⟩ := mapM_reset hm.shelves
  refine ⟨⟨m.host.resetBacklogs, shelves⟩, ?_, ?_, hholds⟩
  · rw [resetShelves, hreset]
    rfl
  · rw [hm.host_eq]
    rfl

theorem Mirrors.hasBacklog_eq (hm : m.Mirrors h) : m.host.hasBacklog = h.hasBacklog := by
  rw [hm.host_eq]
  rfl

theorem forget_mirrors (hm : m.Mirrors h) :
    ∃ after, m.forget = .ok after ∧ after.Mirrors h.forgetBacklogs := by
  rw [forget, Host.forgetBacklogs, hm.hasBacklog_eq]
  split
  · exact resetShelves_mirrors hm
  · exact ⟨m, rfl, hm⟩

theorem spend_mirrors (hm : m.Mirrors h) (hlosses : (h.backlogs.map Backlog.dropped).sum < 2 ^ 64)
    (delivered : Bool) :
    ∃ after, m.spend delivered = .ok after ∧ after.Mirrors (h.spendBacklogs delivered) := by
  rw [spend, total_eq (hm.dropped_eq ▸ hlosses)]
  have hspent := resetShelves_mirrors (hm.update (spent (m.shelves.map Shelf.dropped).sum delivered)
    (by cases delivered <;> rfl) (by cases delivered <;> rfl))
  rw [hm.dropped_eq] at hspent ⊢
  exact hspent

theorem bypass_mirrors (hm : m.Mirrors h) (reason : Bypass.Reason) (inputs drafts : List Buffer) :
    ∃ after, m.bypass reason inputs drafts = .ok (after, .bypassed reason,
        (Bypass.outputs h.settings.bypass h.schema.vocabulary inputs drafts).map Buffer.bytes) ∧
      after.Mirrors h.countBypass := by
  refine ⟨_, ?_, hm.update Host.countBypass rfl rfl⟩
  rw [bypass, Checked.outputs_eq, hm.host_eq]
  rfl

theorem replay_eq (hm : m.Mirrors h) : m.replay = h.replay := by
  have hsequences : (m.shelves.map fun s => Atom.parse s.sequence)
      = h.backlogs.map fun b => Atom.parse b.sequence :=
    map_eq (fun _ _ hs => congrArg Atom.parse hs.sequence_eq) hm.shelves
  rw [replay, Host.replay, hm.hasBacklog_eq, hsequences, hm.host_eq]

theorem run_mirrors (hm : m.Mirrors h) (language : Language σ) (script : σ)
    (inputs outputs : List Buffer) (frames : UInt32) :
    m.run language script inputs outputs frames
      = h.run language script inputs outputs frames := by
  rw [run, Host.run_eq, Host.play, replay_eq hm, hm.host_eq]
  rfl

/-- The machine comes to what the host comes to. -/
def Agrees (x : Except Fault (Machine σ × Outcome × List Bytes))
    (y : Host σ × Outcome × List Buffer) : Prop :=
  ∃ after, x = .ok (after, y.2.1, y.2.2.map Buffer.bytes) ∧ after.Mirrors y.1

theorem spendIf_mirrors (hm : m.Mirrors h) (hlosses : (h.backlogs.map Backlog.dropped).sum < 2 ^ 64)
    (waiting delivered : Bool) :
    ∃ after, m.spendIf waiting delivered = .ok after ∧
      after.Mirrors (if waiting then h.spendBacklogs delivered else h) := by
  cases waiting with
  | true => exact spend_mirrors hm hlosses delivered
  | false => exact ⟨m, rfl, hm⟩

theorem processHeld_agrees (language : Language σ) (hm : m.Mirrors h)
    (hlosses : (h.backlogs.map Backlog.dropped).sum < 2 ^ 64) (inputs outputs : List Buffer)
    (frames : UInt32) :
    Agrees (m.processHeld language inputs outputs frames)
      (h.processHeld language inputs outputs frames) := by
  have hengine : m.host.engine = h.engine := by rw [hm.host_eq]
  rw [processHeld, Host.processHeld, hengine]
  cases h.engine.value.script with
  | none =>
      obtain ⟨mid, hforget, hmid⟩ := forget_mirrors hm
      simp only [hforget, bind, Except.bind]
      exact bypass_mirrors hmid .noScript inputs outputs
  | some script =>
      simp only
      by_cases hdisabled : h.engine.value.diagnostics.disabled = true
      · obtain ⟨mid, hforget, hmid⟩ := forget_mirrors hm
        simp only [if_pos hdisabled, hforget, bind, Except.bind]
        exact bypass_mirrors hmid .disabled inputs outputs
      · rw [if_neg hdisabled, if_neg hdisabled, run_mirrors hm, hm.hasBacklog_eq]
        obtain ⟨ended, engine, drafts⟩ := h.run language script inputs outputs frames
        obtain ⟨mid, hspend, hmid⟩ := spendIf_mirrors
          (hm.update (fun h => { h with engine := { h.engine with value := engine } }) rfl rfl)
          hlosses h.hasBacklog (ended matches .ok _)
        simp only [hengine] at hspend
        simp only [bind, Except.bind, hspend]
        -- What follows the spending checks only the text of an error and the bypass.
        cases ended with
        | ok _ =>
            exact ⟨_, rfl, hmid.update (fun h => { h with tally := { h.tally with
              processed := h.tally.processed + 1 } }.send .blockProcessed) rfl rfl⟩
        | error cause =>
            simp only [conclude]
            by_cases hdisabling : cause.isDisabling = true
            · simp only [if_pos hdisabling, Checked.record_eq, bind, Except.bind]
              exact bypass_mirrors (hmid.update (fun h => { h with
                engine := h.engine.update fun e =>
                  { e with diagnostics := e.diagnostics.record cause.message true }
                tally := { h.tally with errors := h.tally.errors + 1 } }.send .scriptError) rfl rfl)
                .error inputs drafts
            · simp only [if_neg hdisabling]
              by_cases hmemory : cause = .outOfMemory
              · simp only [if_pos hmemory]
                exact bypass_mirrors (hmid.update (Host.send · .oomBypass) rfl rfl) .outOfMemory
                  inputs drafts
              · simp only [if_neg hmemory]
                exact bypass_mirrors (hmid.update (Host.send · .forgeOverflow) rfl rfl) .overflow
                  inputs drafts

theorem putAside_eq {shelves : List Shelf} {backlogs : List Backlog}
    (hs : List.Forall₂ Shelf.Holds shelves backlogs) (hrange : ∀ b ∈ backlogs, b.InRange)
    {inputs : List Buffer} {signals signals' : SignalQueue} {after : List Backlog}
    (hput : Host.putAside frames backlogs inputs signals = .ok (after, signals')) :
    ∃ shelves', putAside frames shelves inputs signals = .ok (shelves', signals') ∧
      List.Forall₂ Shelf.Holds shelves' after := by
  induction hs generalizing inputs signals after with
  | nil =>
      cases hput
      exact ⟨[], rfl, .nil⟩
  | @cons s b shelves backlogs hfirst _ ih =>
      obtain ⟨hkind, hcapacity, hdropped⟩ := hrange b List.mem_cons_self
      rw [Host.putAside] at hput
      obtain ⟨b', happend, hput⟩ := of_bind_ok hput
      obtain ⟨⟨rest, last⟩, hrest, hput⟩ := of_bind_ok hput
      cases hput
      obtain ⟨s', hs', hholds⟩ := hfirst.checked_append hkind hcapacity hdropped happend
      rw [← Shelf.Stores.failed_eq hholds, ← Shelf.Stores.failed_eq hfirst] at hrest
      obtain ⟨others, hothers, hall⟩ :=
        ih (fun b hb => hrange b (List.mem_cons_of_mem _ hb)) hrest
      refine ⟨s' :: others, ?_, .cons hholds hall⟩
      rw [putAside]
      simp only [bind, Except.bind, hs', hothers]
      rfl

theorem processStashed_agrees (hm : m.Mirrors h) (hrange : ∀ b ∈ h.backlogs, b.InRange)
    {y : Host σ × Outcome × List Buffer} (hy : h.processStashed inputs outputs frames = .ok y) :
    Agrees (m.processStashed inputs outputs frames) y := by
  rw [Host.processStashed] at hy
  obtain ⟨⟨backlogs, signals⟩, hput, hy⟩ := of_bind_ok hy
  obtain ⟨shelves, hshelves, hall⟩ := putAside_eq hm.shelves hrange hput
  by_cases hmany : 2 ^ 63 ≤ h.stashedFrames + frames.toNat
  · simp only [if_pos hmany] at hy
    cases hy
  · by_cases hcount : 2 ^ 32 ≤ h.stashedBlocks + 1
    · simp only [if_neg hmany, if_pos hcount] at hy
      cases hy
    · simp only [if_neg hmany, if_neg hcount] at hy
      cases hy
      rw [processStashed, hm.host_eq]
      simp only [bind, Except.bind, hshelves, if_neg hmany, if_neg hcount, Checked.outputs_eq]
      exact ⟨_, rfl, rfl, hall⟩

theorem range_firsts {α : Type} (xs : List α) (count : Nat) :
    Checked.range xs 0 (min xs.length count) = .ok (xs.take count) := by
  rw [Checked.range_eq (Nat.zero_le _) (Nat.min_le_left _ _), List.drop_zero, Nat.sub_zero,
    Nat.min_comm, ← List.take_eq_take_min]

theorem Mirrors.concluded (hm : m.Mirrors h) (before : Nat) :
    Mirrors { m with host := m.host.concluded before } (h.concluded before) := by
  refine hm.update (Host.concluded · before) ?_ (h.backlogs_concluded before)
  unfold Host.concluded
  show (if h.heap.requestCount ≠ before then _ else _ : Host σ).send .callbackClean = _
  split <;> rfl

/-- A block that a host gets through does not bring the machine down. -/
theorem process_agrees (hm : m.Mirrors h) (hrange : h.InRange)
    {y : Host σ × Outcome × List Buffer} (hy : h.process language inputs outputs frames = .ok y) :
    Agrees (m.process language inputs outputs frames) y := by
  have hports : m.shelves.length = h.settings.inputs :=
    hm.shelves.length_eq.trans hrange.length_backlogs
  have hsettings : m.host.settings = h.settings := by rw [hm.host_eq]
  have hrequests : m.host.heap.requestCount = h.heap.requestCount := by
    rw [hm.host_eq]
    rfl
  have hengine : m.host.engine = h.engine := by rw [hm.host_eq]
  have hrest : outputs.drop (min outputs.length h.settings.outputs)
      = outputs.drop h.settings.outputs := by
    rw [Nat.min_comm, ← List.drop_eq_drop_min]
  have hsame := Host.settings_process hy
  rw [process, hports, hsettings, hrequests, hengine]
  simp only [range_firsts, bind, Except.bind, hrest]
  cases hholder : h.engine.holder with
  | none =>
      have hopen : h.engine.tryEnter .audio = some h.entered.engine := by
        rw [Gate.tryEnter, hholder]
        rfl
      have hentered : Mirrors { m with host := { m.host with engine := h.entered.engine } }
          h.entered :=
        hm.update (fun g => { g with engine := h.entered.engine }) rfl rfl
      obtain ⟨after, hheld, hafter⟩ := processHeld_agrees language hentered hrange.losses
        (inputs.take h.settings.inputs) (outputs.take h.settings.outputs) frames
      rw [Host.process_of_free hholder] at hy
      generalize h.entered.processHeld language (inputs.take h.settings.inputs)
        (outputs.take h.settings.outputs) frames = y' at hy hheld hafter
      cases hy
      have hafterwards : y'.1.settings = h.settings :=
        (Host.settings_concluded y'.1.leave _).symm.trans hsame
      rw [hopen]
      simp only [hheld]
      refine ⟨_, ?_, (hafter.update Host.leave rfl rfl).concluded h.heap.requestCount⟩
      rw [List.map_append, hafterwards]
      rfl
  | some side =>
      have hclosed : h.engine.tryEnter .audio = none := by rw [Gate.tryEnter, hholder]
      rw [Host.process_of_held hholder] at hy
      cases hstashed : h.processStashed (inputs.take h.settings.inputs)
          (outputs.take h.settings.outputs) frames with
      | error fault =>
          rw [hstashed] at hy
          cases hy
      | ok y' =>
          rw [hstashed] at hy
          cases hy
          rw [Host.settings_concluded] at hsame
          obtain ⟨after, hheld, hafter⟩ := processStashed_agrees hm hrange.backlogs hstashed
          rw [hclosed]
          simp only [hheld]
          refine ⟨_, ?_, hafter.concluded h.heap.requestCount⟩
          rw [List.map_append, hsame]
          rfl

/-- A call that a host answers does not bring the machine down, and is answered alike. -/
theorem answer_mirrors (hm : m.Mirrors h) (hrange : h.InRange) {c : Host.Call} {a : Host.Answer σ}
    (ha : h.answer language c = .ok a) :
    ∃ after, m.answer language c = .ok ⟨after, a.outcome, a.outputs.map Buffer.bytes⟩ ∧
      after.Mirrors a.host := by
  rw [Host.answer] at ha
  cases hc : c.contended with
  | true =>
      rw [hc, if_pos rfl] at ha
      have hhold : Mirrors { m with host := m.host.hold } h.hold := hm.update Host.hold rfl rfl
      cases hprocess : h.hold.process language c.inputs c.outputs c.frames with
      | error fault =>
          rw [hprocess] at ha
          cases ha
      | ok y =>
          rw [hprocess] at ha
          cases ha
          obtain ⟨after, hanswer, hafter⟩ := process_agrees hhold
            ⟨hrange.length_backlogs, hrange.backlogs, hrange.losses⟩ hprocess
          refine ⟨_, ?_, hafter.update Host.leave rfl rfl⟩
          simp only [answer, hc, if_pos, bind, Except.bind, hanswer]
          rfl
  | false =>
      rw [hc, if_neg Bool.false_ne_true] at ha
      cases hprocess : h.process language c.inputs c.outputs c.frames with
      | error fault =>
          rw [hprocess] at ha
          cases ha
      | ok y =>
          rw [hprocess] at ha
          cases ha
          obtain ⟨after, hanswer, hafter⟩ := process_agrees hm hrange hprocess
          refine ⟨_, ?_, hafter⟩
          simp only [answer, hc, if_neg Bool.false_ne_true, bind, Except.bind, hanswer]
          rfl

end Mirrors

end Machine

end BlockHost
