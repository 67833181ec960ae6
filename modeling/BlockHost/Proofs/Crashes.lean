import BlockHost.Proofs.Counting
import BlockHost.Proofs.Unbroken

/-!
# Scripts that crash

Whatever lies at the inputs of a block, however long its outputs are, and whatever the script does,
the audio side gets through it. A sum that leaves its word, or a range that is not there, can come up
where the script runs, and there it is caught; everywhere else it does not come up.

A command of a script can crash of its own accord (`Command.Panics`), and then the script crashes
over the block (`Host.crash?_of_panics`). It is disabled, all that waited is gone, and the next source
that is loaded takes its place (`Host.performAll_unbroken`).
-/

namespace BlockHost

/-! ## Commands that panic -/

namespace Command

/-- A command panics: `panic` does so always, and `count` when the counter would leave its range. -/
def Panics (b : Block) (s : Session Program) : Command → Prop
  | panic => True
  | count => ∃ input, b.input? 0 = some input ∧
      2 ^ 63 ≤ s.script.counter.toInt + (input.events b.schema).length
  | _ => False

variable {b : Block} {s s' : Session Program} {c : Command}

theorem Panics.crashes (h : c.Panics b s) (position : Nat) :
    ∃ fault, c.run b position s = .error (.crashed fault) s := by
  cases c with
  | panic => exact ⟨_, rfl⟩
  | count =>
      obtain ⟨input, hinput, hmany⟩ := h
      refine ⟨.addition, ?_⟩
      rw [run, hinput]
      refine Action.bind_error ?_
      rw [addToCounter_eq, if_neg (by omega)]
  | echo | hold _ | churn _ | trace _ | flood _ | rewind | fail => exact h.elim

/-- The script panics over a block: the commands in front of one have been run, and that one panics. -/
def Program.Panics (b : Block) (s : Session Program) : Prop :=
  ∃ before step after s', s.script.steps = before ++ step :: after ∧
    (before.zipIdx.forM fun x => x.1.command.run b x.2) s = .ok ⟨⟩ s' ∧ step.command.Panics b s'

theorem Program.Panics.crashes (h : Program.Panics b s) :
    ∃ fault s', runAll b s = .error (.crashed fault) s' := by
  obtain ⟨before, step, after, mid, hsteps, hbefore, hpanics⟩ := h
  obtain ⟨fault, hcrash⟩ := hpanics.crashes (0 + before.length)
  refine ⟨fault, mid, ?_⟩
  show (s.script.steps.zipIdx.forM fun x => x.1.command.run b x.2) s = _
  rw [hsteps, List.zipIdx_append, List.zipIdx_cons]
  exact (congrFun List.forM_append s).trans
    ((Action.bind_ok hbefore).trans (Action.bind_error hcrash))

end Command

/-! ## A script that crashes -/

theorem Engine.install_ok {σ : Type} {language : Language σ} {script : σ} {source : String}
    {e e' : Engine σ} (h : install language script source e = .ok () e') :
    e'.script = some script ∧ e'.code = source := by
  cases hold : e.script with
  | none =>
      simp only [install, hold] at h
      cases h
      exact ⟨rfl, rfl⟩
  | some old =>
      simp only [install, hold] at h
      cases hrelease : language.release old e.heap with
      | ok _ heap =>
          rw [hrelease] at h
          cases h
          exact ⟨rfl, rfl⟩
      | error fault heap =>
          rw [hrelease] at h
          cases h

namespace Host

variable {σ : Type}

/-- The fault with which the script crashes over a block, if it is run over it and crashes. -/
def crash? (language : Language σ) (h : Host σ) (c : Call) : Option Fault :=
  match h.engine.value.script with
  | none => none
  | some script =>
      if h.disabled then none
      else
        match h.play language script (c.inputs.take h.settings.inputs)
          (c.outputs.take h.settings.outputs) c.frames with
        | .error (.crashed fault) _ => some fault
        | _ => none

/-- A host whose script has crashed: the gate is free, nothing waits, and the script is there but
disabled. -/
structure Crashed (h : Host σ) : Prop where
  idle : h.engine.holder = none
  nothing_waits : h.hasBacklog = false
  empty : ∀ b ∈ h.backlogs, b.Fresh
  disabled : h.disabled = true
  hasScript : h.hasScript = true

/-- A host in which a source has taken the place of what was there: it runs over the next block that
finds the gate free. -/
structure Replaced (language : Language σ) (source : String) (h after : Host σ) : Prop where
  compiled : ∃ script heap saved, language.compile source h.heap = .ok script heap ∧
    after.engine.value.script = some (h.carryOver language saved script)
  code_eq : after.engine.value.code = source
  enabled : after.disabled = false
  shown : ∀ c : Call, c.contended = false → ¬ after.Short c →
    ∃ a, after.answer language c = .ok a ∧ after.shown language c ≠ []

/-- The script panics in a call: over the blocks that had to wait, or over that of the call. -/
def Panics (h : Host Command.Program) (c : Call) : Prop :=
  ∃ script sequences s, h.engine.value.script = some script ∧ h.disabled = false ∧
    Session.openOutputs (c.outputs.take h.settings.outputs).length
      (h.session script (c.outputs.take h.settings.outputs)) = .ok sequences s ∧
    let live : Block := { schema := h.schema, frames := c.frames
                          inputs := (c.inputs.take h.settings.inputs).map Buffer.atom? }
    match h.replay with
    | none => Command.Program.Panics live s
    | some r =>
        Command.Program.Panics (Session.Replay.block h.schema r) s ∨
          ∃ s' s'', Command.runAll (Session.Replay.block h.schema r) s = .ok ⟨⟩ s' ∧
            Session.restartOutputs sequences s' = .ok ⟨⟩ s'' ∧ Command.Program.Panics live s''

section Crash

variable {language : Language σ} {settings : Settings} {h after : Host σ} {c : Call} {fault : Fault}

theorem play_of_crash? (hcrash : h.crash? language c = some fault) :
    ∃ script s, h.engine.value.script = some script ∧ h.disabled = false ∧
      h.play language script (c.inputs.take h.settings.inputs) (c.outputs.take h.settings.outputs)
        c.frames = .error (.crashed fault) s := by
  unfold crash? at hcrash
  cases hscript : h.engine.value.script with
  | none =>
      rw [hscript] at hcrash
      cases hcrash
  | some script =>
      rw [hscript] at hcrash
      simp only at hcrash
      split at hcrash
      · cases hcrash
      · next henabled =>
          split at hcrash
          · next crashed s hplay =>
              cases hcrash
              exact ⟨script, s, rfl, Bool.eq_false_iff.2 henabled, hplay⟩
          · cases hcrash

/-- A crash is an error of the script, and spends what waits like any other run. -/
theorem Within.crashed {waiting : Nat} (hh : h.Within waiting) (hc : c.contended = false)
    (hcrash : h.crash? language c = some fault) {a : Answer σ} (ha : h.answer language c = .ok a) :
    a.outcome = .bypassed .error ∧ a.host.Crashed := by
  obtain ⟨script, s, hscript, henabled, hplay⟩ := play_of_crash? hcrash
  obtain ⟨after, outcome, buffers, hanswer, hended⟩ := answer_free language hh.idle hc
  rw [ha] at hanswer
  cases hanswer
  cases hended with
  | noScript hnone hspent =>
      rw [hscript] at hnone
      cases hnone
  | disabled hthere hdisabled hspent =>
      rw [show h.engine.value.diagnostics.disabled = false from henabled] at hdisabled
      cases hdisabled
  | run hthere hgood hspent =>
      rw [hscript] at hthere
      cases hthere
      rw [hplay] at hspent ⊢
      have hafter := hh.spent hspent
      refine ⟨rfl, hafter.idle, hspent.hasBacklog_eq, fun b hb => (hafter.backlogs b hb).fresh rfl,
        ?_, ?_⟩
      · rw [Host.disabled, hspent.engine_eq]
        exact Bool.or_true _
      · rw [Host.hasScript, hspent.engine_eq]
        rfl

theorem replaceScript_ok {source : String} {room : Buffer}
    (hrun : replaceScript language source room h = .ok () after) :
    after.engine.value.code = source ∧
      ∃ script heap saved, language.compile source h.heap = .ok script heap ∧
        after.engine.value.script = some (h.carryOver language saved script) := by
  simp only [replaceScript] at hrun
  have hpass : (h.pass .scriptSwap).heap = h.heap ∧
      (h.pass .scriptSwap).carryOver language = h.carryOver language := by
    unfold pass
    split <;> exact ⟨rfl, rfl⟩
  rw [hpass.1, hpass.2] at hrun
  generalize h.pass .scriptSwap = mid at hrun
  cases hcompile : language.compile source h.heap with
  | error stop heap =>
      rw [hcompile] at hrun
      cases stop <;> cases hrun
  | ok script heap =>
      rw [hcompile] at hrun
      simp only at hrun
      split at hrun
      · next engine hinstall =>
          cases hrun
          obtain ⟨hscript, hcode⟩ := Engine.install_ok hinstall
          exact ⟨hcode, script, heap, _, rfl, hscript⟩
      · cases hrun

theorem load_ok {source : String} (hload : load language source h = .ok () after) :
    after.engine.value.code = source ∧
      ∃ script heap saved, language.compile source h.heap = .ok script heap ∧
        after.engine.value.script = some (h.carryOver language saved script) := by
  rw [load] at hload
  cases hroom : h.stateRoom with
  | error fault =>
      rw [hroom] at hload
      cases hload
  | ok room =>
      rw [hroom] at hload
      simp only [atGate] at hload
      cases hrun : replaceScript language source room h.hold with
      | error stop mid =>
          rw [hrun] at hload
          cases hload
      | ok _ mid =>
          rw [hrun] at hload
          cases hload
          have hreplaced := replaceScript_ok hrun
          rwa [Host.heap, value_hold] at hreplaced

theorem load_replaced {source : String} (hidle : h.engine.holder = none)
    (hload : load language source h = .ok () after) : Replaced language source h after := by
  obtain ⟨hcode, hcompiled⟩ := load_ok hload
  have hswitched := load_switched language source hidle
  rw [hload] at hswitched
  have henabled : after.disabled = false := by
    rw [hswitched.disabled_eq, Bool.not_true, Bool.and_false, Bool.or_false]
  have hthere : after.hasScript = true := by rw [hswitched.hasScript_eq, Bool.or_true]
  refine ⟨hcompiled, hcode, henabled, fun c hc hroom => ?_⟩
  obtain ⟨a, ha, htreated⟩ := answer_treated language (hswitched.idle.trans hidle) hc
  exact ⟨a, ha, htreated.run hthere henabled hroom⟩

/-- A command that panics is a crash of the script, whether it comes to it over the blocks that had to
wait or over that of the call. -/
theorem crash?_of_panics {h : Host Command.Program} (hpanics : h.Panics c) :
    ∃ fault, h.crash? Command.language c = some fault := by
  obtain ⟨script, sequences, s, hscript, henabled, hopen, hpanics⟩ := hpanics
  have hplay : ∃ fault s', h.play Command.language script (c.inputs.take h.settings.inputs)
      (c.outputs.take h.settings.outputs) c.frames = .error (.crashed fault) s' := by
    have hlength : (h.session script (c.outputs.take h.settings.outputs)).outputs.length
        = (c.outputs.take h.settings.outputs).length := List.length_map _
    rw [play, Session.play_eq, hlength, Action.bind_ok hopen]
    cases hreplay : h.replay with
    | none =>
        rw [hreplay] at hpanics
        obtain ⟨fault, s', hlive⟩ := hpanics.crashes
        exact ⟨fault, s', Action.bind_error hlive⟩
    | some r =>
        rw [hreplay] at hpanics
        rcases hpanics with hpanics | ⟨s', s'', hrun, hrestart, hpanics⟩
        · obtain ⟨fault, s', hstash⟩ := hpanics.crashes
          exact ⟨fault, s', Action.bind_error hstash⟩
        · obtain ⟨fault, mid, hlive⟩ := hpanics.crashes
          exact ⟨fault, mid, (Action.bind_ok hrun).trans
            ((Action.bind_ok hrestart).trans (Action.bind_error hlive))⟩
  obtain ⟨fault, s', hplay⟩ := hplay
  refine ⟨fault, ?_⟩
  rw [crash?, hscript]
  simp only [henabled, hplay]
  rfl

end Crash

/-- A crash over a block is an error of the script, to the machine as well. Whatever is done next, the
first source that is loaded replaces the script. -/
structure Survived (language : Language σ) (h : Host σ) (m : Machine σ) (c : Call) (a : Answer σ)
    (m' : Machine σ) : Prop where
  answered : h.answer language c = .ok a
  machine : m.answer language c = .ok ⟨m', a.outcome, a.outputs.map Buffer.bytes⟩
  mirrors : m'.Mirrors a.host
  outcome_eq : a.outcome = .bypassed .error
  crashed : a.host.Crashed
  replaceable : ∀ later last reports source after,
    a.host.performAll language later = .ok (last, reports) →
      load language source last = .ok () after → Replaced language source last after

theorem Within.survived {language : Language σ} {h : Host σ} {m : Machine σ} {c : Call}
    {fault : Fault} {waiting : Nat} (hh : h.Within waiting) (hfew : waiting < 2 ^ 31)
    (hm : m.Mirrors h) (hc : c.contended = false) (hcrash : h.crash? language c = some fault) :
    ∃ a m', Survived language h m c a m' := by
  obtain ⟨a, ha, -⟩ := hh.free language hc
  obtain ⟨m', hanswer, hm'⟩ := Machine.answer_mirrors hm (hh.inRange hfew) ha
  obtain ⟨houtcome, hcrashed⟩ := hh.crashed hc hcrash ha
  refine ⟨a, m', ha, hanswer, hm', houtcome, hcrashed, ?_⟩
  intro later last reports source after hlater hload
  exact load_replaced (performAll_switched hcrashed.idle hlater).1 hload

/-- Nothing brings the audio side down as long as fewer than 2 ^ 31 calls in a row have to wait,
whatever the scripts, the inputs and the outputs are, and whatever is done between the calls. The
machine, which checks every sum and every range, gets through the run as well and comes to the same. A
command that panics is a crash of the script, and any crash over a block is an error of that block: it
leaves a free gate, nothing that waits, and a disabled script that can be replaced. -/
theorem performAll_unbroken {supply : Supply} {settings : Settings} {first : Host Command.Program}
    {ops : List Operation} (hcreate : create supply Command.language settings = .ok first)
    (hfew : ¬ Overrun (callsOf ops)) :
    ∃ h reports m, first.performAll Command.language ops = .ok (h, reports) ∧
      (Machine.ofNew first).performAll Command.language ops = .ok (m, reports.map Report.raw) ∧
      m.Mirrors h ∧
      ∀ c : Call, c.contended = false →
        (h.Panics c → ∃ fault, h.crash? Command.language c = some fault) ∧
        ∀ fault, h.crash? Command.language c = some fault →
          ∃ a m', Survived Command.language h m c a m' := by
  have hnew := created hcreate
  obtain ⟨h, reports, m, hrun, hmachine, hm, waits, hwaits, hh⟩ :=
    hnew.within.performAll Command.language [] (Machine.ofNew_mirrors hnew)
      (fun c hc => absurd hc List.not_mem_nil) hfew
  exact ⟨h, reports, m, hrun, hmachine, hm, fun c hc =>
    ⟨crash?_of_panics, fun fault hcrash => hh.survived hwaits hm hc hcrash⟩⟩

theorem not_overrun_of_length {calls : List Call} (h : calls.length < 2 ^ 31) :
    ¬ Overrun calls := by
  rintro ⟨held, hinfix, -, hmany⟩
  have hle := hinfix.length_le
  omega

/-- A script that counts is given a full counter, and a block with an event has to wait. -/
def countingOut : List Operation :=
  let s := Schema.ofVocabulary (Vocabulary.ofRegistry .empty).1
  [.restore (Atom.encode (s.id .long) (Bytes.int64 (Int64.ofNat (2 ^ 63 - 1)))),
    .block (noteCall s true 3)]

/-- The next block is one too many for the counter, and a script that is loaded in its place panics. -/
theorem performAll_unbroken_counting :
    let again := countingOut ++ [.block (plainCall false), .load "panic"]
    ∃ first h reports m a m' last more k b k',
      create .ample Command.language (scripted "count") = .ok first ∧
      ¬ Overrun (callsOf countingOut) ∧ ¬ Overrun (callsOf again) ∧
      first.performAll Command.language countingOut = .ok (h, reports) ∧
      h.crash? Command.language (plainCall false) = some .addition ∧
      Survived Command.language h m (plainCall false) a m' ∧
      first.performAll Command.language again = .ok (last, more) ∧
      last.crash? Command.language (plainCall false) = some (.raised "script panicked") ∧
      Survived Command.language last k (plainCall false) b k' := by
  intro again
  have hfew : ¬ Overrun (callsOf countingOut) := not_overrun_of_length (by decide)
  have hfew' : ¬ Overrun (callsOf again) := not_overrun_of_length (by decide)
  have hcheck : ((create .ample Command.language (scripted "count")).toOption.bind fun first =>
      (first.performAll Command.language countingOut).toOption.bind fun x =>
        (first.performAll Command.language again).toOption.map fun y =>
          (x.1.crash? Command.language (plainCall false),
            y.1.crash? Command.language (plainCall false)))
      = some (some .addition, some (.raised "script panicked")) := by
    decide +kernel
  simp only [Option.bind_eq_some_iff, Option.map_eq_some_iff, toOption_eq_some, Prod.mk.injEq]
    at hcheck
  obtain ⟨first, hcreate, x, hrun, y, hmore, hfull, hpanic⟩ := hcheck
  obtain ⟨h, reports, m, hrun', -, -, hcrashes⟩ := performAll_unbroken hcreate hfew
  obtain ⟨last, more, k, hmore', -, -, hcrashes'⟩ := performAll_unbroken hcreate hfew'
  obtain rfl := Except.ok.inj (hrun.symm.trans hrun')
  obtain rfl := Except.ok.inj (hmore.symm.trans hmore')
  obtain ⟨a, m', hsurvived⟩ := (hcrashes _ rfl).2 _ hfull
  obtain ⟨b, k', hsurvived'⟩ := (hcrashes' _ rfl).2 _ hpanic
  exact ⟨first, h, reports, m, a, m', last, more, k, b, k', hcreate, hfew, hfew', hrun, hfull,
    hsurvived, hmore, hpanic, hsurvived'⟩

end Host

end BlockHost
