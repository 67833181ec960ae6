import BlockHost.Host.Growth
import BlockHost.Host.Scripts
import BlockHost.Host.Telling
import BlockHost.Proofs.NewHosts
import BlockHost.Proofs.Recording

/-!
# When the script is disabled

A host is operated from two sides, and every operation reports what it came to. A block that ends
with an error disables the script, and a load that succeeds enables it again. No other operation
touches the flag (`Host.perform_flag`), and so the reports of a run say whether the script is disabled
at its end (`Host.disabled_iff`).

What the flag means is said of the next block: a script that is disabled, or not there, is shown
nothing and left as it is, and any other is shown the block, unless an output has no room even for
the header of a sequence.
-/

namespace BlockHost.Host

variable {σ α : Type}

/-! ## Operations -/

/-- An operation on a host, from either side. -/
inductive Operation where
  /-- Processing a block. -/
  | block (c : Call)
  /-- Telling the user what there is to tell, while the worker holds the gate or does not. -/
  | tell (contended : Bool) (buffer : Buffer) (frames : UInt32)
  | load (source : String)
  | receive (message : Bytes)
  | save
  | restore (saved : Bytes)
  /-- Answering the requests of the heap, with memory from the given supply. -/
  | grow (supply : Supply)

/-- What an operation came to. -/
inductive Report where
  | block (outcome : Outcome) (outputs : List Buffer)
  | told (result : Except WriteFailure Nat) (buffer : Buffer)
  | loaded (result : Except (Stop HostFailure) Unit)
  | received (result : Except (Stop HostFailure) Bool)
  | saved (result : Except (Stop HostFailure) Bytes)
  | restored (result : Except (Stop HostFailure) Unit)
  | grown (result : Except (Stop HostFailure) Nat)

/-- A block has ended with an error. -/
def Report.failed : Report → Bool
  | .block outcome _ => outcome = .bypassed .error
  | _ => false

/-- A script has been loaded. -/
def Report.loads : Report → Bool
  | .loaded (.ok _) => true
  | .received (.ok taken) => taken
  | _ => false

/-- What an action outside the audio side came to, and the host that it leaves. -/
def settle (action : HostAction σ α) (h : Host σ) : Except (Stop HostFailure) α × Host σ :=
  match action h with
  | .ok a after => (.ok a, after)
  | .error stop after => (.error stop, after)

theorem snd_settle (action : HostAction σ α) (h : Host σ) :
    (settle action h).2 = Action.left (action h) := by
  rw [settle]
  cases action h <;> rfl

/-- Performs an operation. Only a block can bring the host down. -/
def perform (language : Language σ) (h : Host σ) : Operation → Except Fault (Host σ × Report)
  | .block c => do
      let a ← h.answer language c
      return (a.host, .block a.outcome a.outputs)
  | .tell contended buffer frames =>
      if contended then
        let (result, buffer, after) := h.hold.tell buffer frames
        return (after.leave, .told result buffer)
      else
        let (result, buffer, after) := h.tell buffer frames
        return (after, .told result buffer)
  | .load source =>
      let (result, after) := settle (load language source) h
      return (after, .loaded result)
  | .receive message =>
      let (result, after) := settle (receive language message) h
      return (after, .received result)
  | .save =>
      let (result, after) := settle (save language) h
      return (after, .saved result)
  | .restore saved =>
      let (result, after) := settle (restore language saved) h
      return (after, .restored result)
  | .grow supply =>
      let (result, after) := settle (grow supply) h
      return (after, .grown result)

/-- Performs operations, one after the other. -/
def performAll (language : Language σ) :
    Host σ → List Operation → Except Fault (Host σ × List Report)
  | h, [] => return (h, [])
  | h, op :: rest => do
      let (after, report) ← h.perform language op
      let (last, reports) ← performAll language after rest
      return (last, report :: reports)

/-- Whether the script is disabled. -/
def disabled (h : Host σ) : Bool :=
  h.engine.value.diagnostics.disabled

/-- Whether there is a script. -/
def hasScript (h : Host σ) : Bool :=
  h.engine.value.script.isSome

/-! ## One operation -/

/-- What an operation does to the flag, to the script and to the gate, when it is known whether it has
failed and whether it has loaded a script. -/
structure Switched (failed loads : Bool) (h after : Host σ) : Prop where
  idle : after.engine.holder = h.engine.holder
  settings_eq : after.settings = h.settings
  disabled_eq : after.disabled = (failed || h.disabled && !loads)
  hasScript_eq : after.hasScript = (h.hasScript || loads)

section Operations

variable {language : Language σ} {h after : Host σ}

theorem Switched.of_same (hholder : after.engine.holder = h.engine.holder)
    (hsettings : after.settings = h.settings) (hdisabled : after.disabled = h.disabled)
    (hscript : after.hasScript = h.hasScript) : Switched false false h after :=
  ⟨hholder, hsettings, by rw [hdisabled, Bool.not_false, Bool.and_true, Bool.false_or],
    by rw [hscript, Bool.or_false]⟩

theorem Switched.refl (h : Host σ) : Switched false false h h :=
  .of_same rfl rfl rfl rfl

theorem Switched.trans {failed loads : Bool} {mid : Host σ} (hfirst : Switched false false h mid)
    (hsecond : Switched failed loads mid after) : Switched failed loads h after := by
  obtain ⟨hholder, hsettings, hdisabled, hscript⟩ := hfirst
  rw [Bool.not_false, Bool.and_true, Bool.false_or] at hdisabled
  rw [Bool.or_false] at hscript
  obtain ⟨hholder', hsettings', hdisabled', hscript'⟩ := hsecond
  exact ⟨hholder'.trans hholder, hsettings'.trans hsettings, by rw [hdisabled', hdisabled],
    by rw [hscript', hscript]⟩

theorem switched_pass (h : Host σ) (c : Checkpoint) : Switched false false h (h.pass c) := by
  unfold pass
  split
  · exact .refl h
  · exact .of_same rfl rfl rfl rfl

theorem switched_updateEngine {f : Engine σ → Engine σ}
    (hdisabled : (f h.engine.value).diagnostics.disabled = h.disabled)
    (hscript : (f h.engine.value).script.isSome = h.hasScript) :
    Switched false false h (h.updateEngine f) :=
  .of_same rfl rfl hdisabled hscript

theorem switched_withHeap (h : Host σ) (heap : Heap) : Switched false false h (h.withHeap heap) :=
  switched_updateEngine rfl rfl

/-- What is done between taking the gate and leaving it is done to the host. -/
theorem Switched.at_gate {failed loads : Bool} (hidle : h.engine.holder = none)
    (hgate : Switched failed loads h.hold after) : Switched failed loads h after.leave := by
  have hflag : h.hold.disabled = h.disabled := by rw [disabled, value_hold, disabled]
  have hthere : h.hold.hasScript = h.hasScript := by rw [hasScript, value_hold, hasScript]
  obtain ⟨-, hsettings, hdisabled, hscript⟩ := hgate
  exact ⟨hidle.symm, hsettings, hflag ▸ hdisabled, hthere ▸ hscript⟩

/-- A block switches the script off when it ends with an error, and else nothing. -/
theorem answer_switched {c : Call} {a : Answer σ} (hidle : h.engine.holder = none)
    (ha : h.answer language c = .ok a) :
    Switched (Report.block a.outcome a.outputs).failed false h a.host := by
  cases hc : c.contended with
  | true =>
      rcases answer_held language hidle hc with ⟨after, buffers, hanswer, hstashed⟩ | ⟨hanswer, -⟩
      · rw [ha] at hanswer
        cases hanswer
        have hengine := hstashed.engine_eq
        refine .of_same (by rw [hengine]) hstashed.settings_eq ?_ ?_
        · rw [disabled, hengine, disabled]
        · rw [hasScript, hengine, hasScript]
      · rw [ha] at hanswer
        cases hanswer
  | false =>
      obtain ⟨after, outcome, buffers, hanswer, hended⟩ := answer_free language hidle hc
      rw [ha] at hanswer
      cases hanswer
      cases hended with
      | noScript hscript hspent | disabled hscript hdisabled hspent =>
          have hengine := hspent.engine_eq
          refine .of_same ?_ hspent.settings_eq ?_ ?_
          · rw [hengine, hidle]
            rfl
          · rw [Host.disabled, hengine, Host.disabled]
            rfl
          · rw [hasScript, hengine, hasScript]
            rfl
      | run hscript henabled hspent =>
          have hengine := hspent.engine_eq
          refine ⟨?_, hspent.settings_eq, ?_, ?_⟩
          · rw [hengine, hidle]
            rfl
          · rw [Host.disabled, hengine, Gate.free, Engine.disabled_noted _ h.hasBacklog]
            simp only [engineOf, Host.disabled, henabled, Report.failed, Bool.false_and]
          · rw [hasScript, hengine, hasScript, Gate.free, Engine.script_noted, hscript]
            rfl

theorem tell_switched (h : Host σ) (buffer : Buffer) (frames : UInt32) :
    Switched false false h (h.tell buffer frames).2.2 := by
  rw [tell, Gate.tryEnter]
  cases hholder : h.engine.holder with
  | some side =>
      simp only
      cases writeControl frames [] (Writer.start h.schema.vocabulary buffer) <;> exact .refl h
  | none =>
      simp only
      cases writeControl frames (pendingMessages h.engine.value)
        (Writer.start h.schema.vocabulary buffer) <;> exact .of_same hholder.symm rfl rfl rfl

/-- Releasing the old script can bring a load down when the new one is already in its place, but not
when there was none before. -/
theorem replaceScript_switched (language : Language σ) (source : String) (room : Buffer)
    (h : Host σ) :
    match replaceScript language source room h with
    | .ok _ after => Switched false true h after
    | .error _ after => Switched false false h after := by
  have hpass := switched_pass h .scriptSwap
  rw [replaceScript]
  generalize h.pass .scriptSwap = mid at hpass
  simp only
  cases language.compile source mid.heap with
  | error stop heap =>
      cases stop with
      | crashed fault => exact hpass.trans (switched_withHeap mid heap)
      | refused cause =>
          refine hpass.trans ((switched_withHeap mid heap).trans (switched_updateEngine ?_ rfl))
          exact Bool.or_false _
  | ok script heap =>
      simp only
      cases hscript : mid.engine.value.script with
      | none =>
          simp only [Engine.install]
          refine hpass.trans ⟨rfl, rfl, ?_, ?_⟩
          · exact (Bool.and_false _).symm
          · exact (Bool.or_true _).symm
      | some old =>
          simp only [Engine.install]
          cases language.release old heap with
          | ok _ heap =>
              refine hpass.trans ⟨rfl, rfl, ?_, ?_⟩
              · exact (Bool.and_false _).symm
              · exact (Bool.or_true _).symm
          | error fault heap =>
              refine hpass.trans (.of_same rfl rfl rfl ?_)
              rw [hasScript, hasScript, hscript]
              rfl

theorem load_switched (language : Language σ) (source : String) (hidle : h.engine.holder = none) :
    match load language source h with
    | .ok _ after => Switched false true h after
    | .error _ after => Switched false false h after := by
  rw [load]
  cases h.stateRoom with
  | error fault => exact .refl h
  | ok room =>
      have hreplaced := replaceScript_switched language source room h.hold
      simp only [atGate]
      cases hresult : replaceScript language source room h.hold with
      | ok _ after | error stop after =>
          rw [hresult] at hreplaced
          exact hreplaced.at_gate hidle

theorem receive_switched (language : Language σ) (message : Bytes) (hidle : h.engine.holder = none) :
    match receive language message h with
    | .ok taken after => Switched false taken h after
    | .error _ after => Switched false false h after := by
  rw [receive]
  generalize (Atom.parse message).bind (Message.ofAtom? h.schema) = parsed
  cases parsed with
  | none => exact .refl h
  | some m =>
      cases m with
      | error text | trace text => exact .refl h
      | code source =>
          have hload := load_switched language source hidle
          cases hresult : load language source h with
          | ok _ after | error stop after =>
              rw [hresult] at hload
              simp only [hresult]
              exact hload

/-- An action that switches nothing while the gate is held switches nothing at all. -/
theorem left_atGate_switched {action : HostAction σ α} (hidle : h.engine.holder = none)
    (haction : Switched false false h.hold (Action.left (action h.hold))) :
    Switched false false h (Action.left (atGate action h)) := by
  rw [atGate]
  cases hresult : action h.hold with
  | ok _ after | error stop after =>
      rw [hresult] at haction
      exact haction.at_gate hidle

theorem saveScript_switched (language : Language σ) (room : Buffer) (h : Host σ) :
    Switched false false h (Action.left (saveScript language room h)) := by
  rw [saveScript]
  cases h.engine.value.script with
  | none => exact .refl h
  | some script =>
      simp only
      cases h.stateOf language room script <;> exact .refl h

theorem save_switched (language : Language σ) (hidle : h.engine.holder = none) :
    Switched false false h (Action.left (save language h)) := by
  rw [save]
  cases h.stateRoom with
  | error fault => exact .refl h
  | ok room => exact left_atGate_switched hidle (saveScript_switched language room h.hold)

theorem restoreScript_switched (language : Language σ) (state : Atom) (h : Host σ) :
    Switched false false h (Action.left (restoreScript language state h)) := by
  rw [restoreScript]
  cases hscript : h.engine.value.script with
  | none => exact .refl h
  | some script =>
      have hpass := switched_pass h .stateRestored
      simp only
      cases language.restore (h.pass .stateRestored).schema state script with
      | error cause => exact hpass
      | ok script =>
          refine hpass.trans (switched_updateEngine rfl ?_)
          have hsome := hpass.hasScript_eq
          rw [Bool.or_false] at hsome
          rw [hsome, hasScript, hscript]
          rfl

theorem restore_switched (language : Language σ) (saved : Bytes) (hidle : h.engine.holder = none) :
    Switched false false h (Action.left (restore language saved h)) := by
  rw [restore]
  cases Atom.parseWhole saved with
  | none => exact .refl h
  | some state => exact left_atGate_switched hidle (restoreScript_switched language state h.hold)

theorem answerRequests_switched (supply : Supply) (pending committed : Nat)
    (hidle : h.engine.holder = none) :
    Switched false false h (Action.left (answerRequests supply pending committed h)) := by
  induction pending generalizing committed h with
  | zero => exact .refl h
  | succ pending ih =>
      rw [answerRequests_succ]
      split
      · exact .refl h
      · next index heap _ =>
          split
          · exact .of_same hidle.symm rfl rfl rfl
          · next region _ =>
              split
              · exact .of_same hidle.symm rfl rfl rfl
              · next heap _ =>
                  have hcounted : Switched false false h (h.withHeap heap).leave.countRegion :=
                    .of_same hidle.symm rfl rfl rfl
                  exact hcounted.trans (ih (committed + 1) rfl)

/-- What an operation does is said by its report: a block that ends with an error disables the
script, a script that has been loaded is enabled, and everything else leaves that alone. -/
theorem perform_switched {op : Operation} {report : Report} (hidle : h.engine.holder = none)
    (hop : h.perform language op = .ok (after, report)) :
    Switched report.failed report.loads h after := by
  cases op with
  | block c =>
      rw [perform] at hop
      cases ha : h.answer language c with
      | error fault =>
          rw [ha] at hop
          cases hop
      | ok a =>
          rw [ha] at hop
          cases hop
          exact answer_switched hidle ha
  | tell contended buffer frames =>
      cases contended with
      | true =>
          cases hop
          exact (tell_switched h.hold buffer frames).at_gate hidle
      | false =>
          cases hop
          exact tell_switched h buffer frames
  | load source =>
      have hload := load_switched language source hidle
      rw [perform, settle] at hop
      cases hresult : load language source h with
      | ok _ after' | error stop after' =>
          rw [hresult] at hload hop
          cases hop
          exact hload
  | receive message =>
      have hreceive := receive_switched language message hidle
      rw [perform, settle] at hop
      cases hresult : receive language message h with
      | ok _ after' | error stop after' =>
          rw [hresult] at hreceive hop
          cases hop
          exact hreceive
  | save =>
      cases hop
      show Switched false false h (settle (save language) h).2
      rw [snd_settle]
      exact save_switched language hidle
  | restore saved =>
      cases hop
      show Switched false false h (settle (restore language saved) h).2
      rw [snd_settle]
      exact restore_switched language saved hidle
  | grow supply =>
      cases hop
      show Switched false false h (settle (grow supply) h).2
      rw [snd_settle]
      exact answerRequests_switched supply h.heap.requests.length 0 hidle

end Operations

/-! ## Runs -/

/-- Some block has ended with an error, and no script has been loaded since. -/
def FailedSince (reports : List Report) : Prop :=
  ∃ earlier report later, reports = earlier ++ report :: later ∧ report.failed = true ∧
    ∀ r ∈ later, r.loads = false

theorem failedSince_cons {report : Report} {reports : List Report} :
    FailedSince (report :: reports) ↔
      FailedSince reports ∨ report.failed = true ∧ ∀ r ∈ reports, r.loads = false := by
  constructor
  · rintro ⟨earlier, r, later, heq, hfailed, hlater⟩
    cases earlier with
    | nil =>
        cases heq
        exact .inr ⟨hfailed, hlater⟩
    | cons first earlier =>
        cases heq
        exact .inl ⟨earlier, r, later, rfl, hfailed, hlater⟩
  · rintro (⟨earlier, r, later, rfl, hfailed, hlater⟩ | ⟨hfailed, hlater⟩)
    · exact ⟨report :: earlier, r, later, rfl, hfailed, hlater⟩
    · exact ⟨[], report, reports, rfl, hfailed, hlater⟩

section Runs

variable {language : Language σ} {h last : Host σ} {ops : List Operation} {reports : List Report}

theorem performAll_cons {op : Operation} {rest : List Operation}
    (hrun : h.performAll language (op :: rest) = .ok (last, reports)) :
    ∃ mid report others, h.perform language op = .ok (mid, report) ∧
      mid.performAll language rest = .ok (last, others) ∧ reports = report :: others := by
  rw [performAll] at hrun
  obtain ⟨⟨mid, report⟩, hop, hrun⟩ := of_bind_ok hrun
  obtain ⟨⟨final, others⟩, hrest, hrun⟩ := of_bind_ok hrun
  cases hrun
  exact ⟨mid, report, others, hop, hrest, rfl⟩

/-- What a whole run does to the flag is said by its reports. -/
theorem performAll_switched (hidle : h.engine.holder = none)
    (hrun : h.performAll language ops = .ok (last, reports)) :
    last.engine.holder = none ∧ last.settings = h.settings ∧
      (last.disabled = true ↔
        FailedSince reports ∨ h.disabled = true ∧ ∀ r ∈ reports, r.loads = false) ∧
      (last.hasScript = true ↔ h.hasScript = true ∨ ∃ r ∈ reports, r.loads = true) := by
  induction ops generalizing h reports with
  | nil =>
      cases hrun
      refine ⟨hidle, rfl, ⟨fun hd => .inr ⟨hd, fun r hr => absurd hr List.not_mem_nil⟩, ?_⟩,
        ⟨.inl, ?_⟩⟩
      · rintro (⟨_, _, _, hnil, -⟩ | ⟨hd, -⟩)
        · cases List.append_eq_nil_iff.1 hnil.symm |>.2
        · exact hd
      · rintro (hs | ⟨_, hr, -⟩)
        · exact hs
        · cases hr
  | cons op rest ih =>
      obtain ⟨mid, report, others, hop, hrest, rfl⟩ := performAll_cons hrun
      obtain ⟨hholder, hsettings, hdisabled, hscript⟩ := perform_switched hidle hop
      have hmid : mid.engine.holder = none := hholder.trans hidle
      obtain ⟨hlast, hkept, hflag, hthere⟩ := ih hmid hrest
      refine ⟨hlast, hkept.trans hsettings, ?_, ?_⟩
      · rw [hflag, failedSince_cons, hdisabled, List.forall_mem_cons]
        cases report.failed <;> cases h.disabled <;> cases report.loads <;> simp
      · rw [hthere, hscript, Bool.or_eq_true, or_assoc]
        simp only [List.mem_cons, or_and_right, exists_or, exists_eq_left]

/-- What becomes of a block that finds the gate free, for the script as it is. A block that is not
shown to the script leaves it and the heap as they are. -/
structure Treated (language : Language σ) (h : Host σ) (c : Call) (a : Answer σ) : Prop where
  noScript : a.outcome = .bypassed .noScript ↔ h.hasScript = false
  disabled : a.outcome = .bypassed .disabled ↔ h.hasScript = true ∧ h.disabled = true
  left_alone : h.hasScript = false ∨ h.disabled = true →
    a.host.engine = h.engine ∧ h.shown language c = []
  run : h.hasScript = true → h.disabled = false → ¬ h.Short c → h.shown language c ≠ []
  short : h.hasScript = true → h.disabled = false → h.Short c →
    a.outcome = .bypassed .overflow ∧ h.shown language c = []

theorem play_short {script : σ} {c : Call} (hshort : h.Short c) :
    ∃ s, h.play language script (c.inputs.take h.settings.inputs)
      (c.outputs.take h.settings.outputs) c.frames = .error (.refused (.writer .overflow)) s := by
  obtain ⟨s, hopen⟩ := Session.openOutputs_short (σ := σ) (v := h.schema.vocabulary)
    (s := h.session script (c.outputs.take h.settings.outputs)) rfl hshort
  refine ⟨s, ?_⟩
  rw [play, Session.play_eq]
  exact Action.bind_error hopen

theorem answer_treated (language : Language σ) (hidle : h.engine.holder = none) {c : Call}
    (hc : c.contended = false) :
    ∃ a, h.answer language c = .ok a ∧ Treated language h c a := by
  obtain ⟨after, outcome, buffers, hanswer, hended⟩ := answer_free language hidle hc
  have hsame : ∀ {engine : Engine σ}, engine = h.engine.value → Gate.free engine = h.engine := by
    rintro _ rfl
    rw [Gate.free, ← hidle]
  refine ⟨_, hanswer, ?_⟩
  cases hended with
  | noScript hscript hspent =>
      have hno : h.hasScript = false := by rw [hasScript, hscript]; rfl
      refine ⟨iff_of_true rfl hno, ?_, fun _ => ⟨hspent.engine_eq.trans (hsame rfl), ?_⟩, ?_, ?_⟩
      · refine iff_of_false (fun heq => by cases heq) fun hsome => ?_
        rw [hno] at hsome
        cases hsome.1
      · exact shown_idle hidle hc (.inl hscript)
      all_goals
        intro hsome
        rw [hno] at hsome
        cases hsome
  | disabled hscript hdisabled hspent =>
      have hsome : h.hasScript = true := by rw [hasScript, hscript]; rfl
      refine ⟨?_, iff_of_true rfl ⟨hsome, hdisabled⟩,
        fun _ => ⟨hspent.engine_eq.trans (hsame rfl), ?_⟩, ?_, ?_⟩
      · refine iff_of_false (fun heq => by cases heq) fun hno => ?_
        rw [hsome] at hno
        cases hno
      · exact shown_idle hidle hc (.inr hdisabled)
      all_goals
        intro _ henabled
        rw [show h.disabled = true from hdisabled] at henabled
        cases henabled
  | @run script hscript henabled hspent =>
      have hsome : h.hasScript = true := by rw [hasScript, hscript]; rfl
      have hgood : h.disabled = false := henabled
      have hne : ¬ (h.hasScript = false ∨ h.disabled = true) := by
        rw [hsome, hgood]
        decide
      refine ⟨?_, ?_, fun hno => absurd hno hne, fun _ _ hshort => ?_, fun _ _ hshort => ?_⟩
      · exact iff_of_false (Outcome.ofRun_ne (.inl rfl)) fun hno => hne (.inl hno)
      · exact iff_of_false (Outcome.ofRun_ne (.inr rfl)) fun hno => hne (.inr hno.2)
      · exact (shown_ne_nil hidle hc hscript henabled hshort).1
      · have hplay : ∃ s, h.play language script (c.inputs.take h.settings.inputs)
            (c.outputs.take h.settings.outputs) c.frames
              = .error (.refused (.writer .overflow)) s := play_short hshort
        obtain ⟨s, hplay⟩ := hplay
        refine ⟨?_, shown_short hidle hc hshort⟩
        rw [hplay]
        rfl

/-- The script is disabled exactly when a block has ended with an error since the last load that
succeeded, or since the host was built. The next block that finds the gate free is treated by that,
and there is no script exactly when none has ever been installed. No operation but such a block and
such a load changes whether the script is disabled. -/
theorem disabled_iff {supply : Supply} {settings : Settings} {first : Host σ}
    (hcreate : create supply language settings = .ok first)
    (hrun : first.performAll language ops = .ok (h, reports)) :
    (h.disabled = true ↔ FailedSince reports) ∧
      (h.hasScript = false ↔ settings.code = none ∧ ∀ r ∈ reports, r.loads = false) ∧
      (∀ c : Call, c.contended = false →
        ∃ a, h.answer language c = .ok a ∧ Treated language h c a) ∧
      ∀ op after report, h.perform language op = .ok (after, report) →
        report.failed = false → report.loads = false → after.disabled = h.disabled := by
  have hnew := created hcreate
  obtain ⟨hidle, -, hflag, hscript⟩ := performAll_switched hnew.idle hrun
  have henabled : first.disabled = false := hnew.enabled
  refine ⟨?_, ?_, fun c hc => answer_treated language hidle hc, ?_⟩
  · rw [hflag, henabled]
    simp only [Bool.false_eq_true, false_and, or_false]
  · have hnone : first.hasScript = false ↔ settings.code = none := by
      rw [← hnew.script_eq, hasScript, Option.isSome_eq_false_iff, Option.isNone_iff_eq_none]
    rw [← Bool.not_eq_true, hscript, not_or, Bool.not_eq_true, hnone]
    simp only [not_exists, not_and, Bool.not_eq_true]
  · intro op after report hop hfailed hloads
    obtain ⟨-, -, hdisabled, -⟩ := perform_switched hidle hop
    rw [hdisabled, hfailed, hloads, Bool.false_or, Bool.not_false, Bool.and_true]

end Runs

/-- A block without inputs and with one output. -/
def plainCall (contended : Bool) : Call where
  contended := contended
  inputs := []
  outputs := [.blank 64]
  frames := 16

theorem not_short_plainCall (h : Host σ) (contended : Bool) : ¬ h.Short (plainCall contended) := by
  rintro ⟨buffer, hbuffer, hlt⟩
  rw [List.mem_singleton.1 (List.mem_of_mem_take hbuffer)] at hlt
  exact absurd hlt (by decide)

/-- A script that fails stays disabled while it is told of, while a block has to wait, and when a
source is refused, until another one is loaded. -/
theorem disabled_iff_failing :
    let before : List Operation := [.block (plainCall false), .tell true (.blank 64) 16,
      .block (plainCall true), .load "wobble"]
    ∃ first h reports last more, create .ample Command.language (scripted "fail") = .ok first ∧
      first.performAll Command.language before = .ok (h, reports) ∧ FailedSince reports ∧
      (∃ a, h.answer Command.language (plainCall false) = .ok a ∧
        a.outcome = .bypassed .disabled ∧ a.host.engine = h.engine) ∧
      first.performAll Command.language (before ++ [.load "echo"]) = .ok (last, more) ∧
      ¬ FailedSince more ∧ last.shown Command.language (plainCall false) ≠ [] := by
  intro before
  have hcheck : ((create .ample Command.language (scripted "fail")).toOption.bind fun first =>
      (first.performAll Command.language before).toOption.bind fun x =>
        (first.performAll Command.language (before ++ [.load "echo"])).toOption.map fun y =>
          (x.1.hasScript, x.1.disabled, y.1.hasScript, y.1.disabled))
      = some (true, true, true, false) := by
    decide +kernel
  simp only [Option.bind_eq_some_iff, Option.map_eq_some_iff, toOption_eq_some, Prod.exists,
    Prod.mk.injEq] at hcheck
  obtain ⟨first, hcreate, h, reports, hrun, last, more, hmore, hthere, hoff, hthere', hon⟩ := hcheck
  obtain ⟨hflag, -, htreated, -⟩ := disabled_iff hcreate hrun
  obtain ⟨hflag', -, htreated', -⟩ := disabled_iff hcreate hmore
  obtain ⟨a, ha, hnext⟩ := htreated (plainCall false) rfl
  obtain ⟨a', ha', hnext'⟩ := htreated' (plainCall false) rfl
  refine ⟨first, h, reports, last, more, hcreate, hrun, hflag.1 hoff,
    ⟨a, ha, hnext.disabled.2 ⟨hthere, hoff⟩, (hnext.left_alone (.inr hoff)).1⟩, hmore,
    ?_, hnext'.run hthere' hon (not_short_plainCall last false)⟩
  intro hfailed
  rw [hflag'.2 hfailed] at hon
  cases hon

end BlockHost.Host
