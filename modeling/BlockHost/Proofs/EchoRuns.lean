import BlockHost.Proofs.Echo
import BlockHost.Proofs.NewHosts
import BlockHost.Proofs.Waiting

/-!
# Nothing is lost while the gate is held

A block that finds the gate held is put aside; the next block that finds it free carries the
events of all blocks put aside, at time zero, and then its own. So what the outputs of a script
that echoes carry over a whole run is what the inputs have shown, in the order of the calls
(`echo_run`).

The state between two calls is told by the calls that wait (`Host.Echoing`), and a call leads
from one such state to the next (`Host.Echoing.answer_held`, `Host.Echoing.answer_free`). A run
can end early in one way only, when so many calls in a row find the gate held that their number
or their frames leave the range of a word.

What is written and what can be read are told apart. A block always writes all events
(`Host.Echoing.answer_written`), but the sequence they make declares its size in one word, and only
one that can do so is read back as these events (`Host.Echoing.answer_free`).
-/

namespace BlockHost

open Command

/-! ## One call -/

namespace Host

variable {σ : Type}

/-- A host whose script echoes, and for which the given calls wait. -/
structure Echoing (settings : Settings) (s : Schema) (waiting : List Call) (h : Host Program) :
    Prop where
  settings_eq : h.settings = settings
  schema_eq : h.schema = s
  distinct : s.vocabulary.Distinct
  free : h.engine.holder = none
  script : ∃ script, h.engine.value.script = some script ∧ script.steps = [⟨.echo, none⟩]
  enabled : h.engine.value.diagnostics.disabled = false
  blocks_eq : h.stashedBlocks = waiting.length
  frames_eq : h.stashedFrames = (waiting.map fun c => c.frames.toNat).sum
  frames_lt : h.stashedFrames < 2 ^ 63
  length_backlogs : h.backlogs.length = settings.inputs
  backlogs : ∀ (port : Nat) (b : Backlog), h.backlogs[port]? = some b →
    b.Waits settings s waiting port

section Calls

variable {settings : Settings} {s : Schema} {waiting : List Call} {h : Host Program} {c : Call}

/-- Nothing has been dropped. -/
theorem Echoing.kept (hh : h.Echoing settings s waiting) : ∀ b ∈ h.backlogs, b.failed = false := by
  intro b hb
  obtain ⟨port, hport⟩ := List.mem_iff_getElem?.1 hb
  exact (hh.backlogs port b hport).good

theorem sum_frames_le (waiting : List Call) :
    (waiting.map fun c => c.frames.toNat).sum ≤ waiting.length * (2 ^ 32 - 1) := by
  induction waiting with
  | nil => exact Nat.le_refl 0
  | cons c rest ih =>
      have hlt := c.frames.toNat_lt
      rw [List.map_cons, List.sum_cons, List.length_cons, Nat.add_mul, Nat.one_mul]
      omega

theorem Stashed.appended {after : Host Program}
    (hafter : h.hold.Stashed (c.inputs.take settings.inputs) c.frames after)
    (hh : h.Echoing settings s waiting) {port : Nat} {b' : Backlog}
    (hb' : after.backlogs[port]? = some b') :
    ∃ b, h.backlogs[port]? = some b ∧ b' = b.appended (c.events settings s port) c.frames := by
  obtain ⟨b, hb, happend⟩ := hafter.of_getElem? hb'
  exact ⟨b, hb, (hh.backlogs port b hb).eq_appended happend⟩

theorem Stashed.echoing {after : Host Program}
    (hafter : h.hold.Stashed (c.inputs.take settings.inputs) c.frames after)
    (hh : h.Echoing settings s waiting) (hc : c.Timely settings s)
    (hkept : ∀ b ∈ after.backlogs, b.failed = false) (before : Nat) :
    (after.concluded before).leave.Echoing settings s (waiting ++ [c]) := by
  refine ⟨?_, ?_, hh.distinct, rfl, ?_, ?_, ?_, ?_, ?_, ?_, fun port b' hb' => ?_⟩
  · exact (settings_concluded after _).trans (hafter.settings_eq.trans hh.settings_eq)
  · exact (schema_concluded after _).trans (hafter.schema_eq.trans hh.schema_eq)
  · rw [leave, Gate.leave, engine_concluded, hafter.engine_eq, value_hold]
    exact hh.script
  · rw [leave, Gate.leave, engine_concluded, hafter.engine_eq, value_hold]
    exact hh.enabled
  · rw [List.length_append]
    exact (stashedBlocks_concluded after _).trans
      (hafter.blocks_eq.trans (congrArg (· + 1) hh.blocks_eq))
  · rw [List.map_append, List.sum_append, List.map_singleton, List.sum_singleton, ← hh.frames_eq]
    exact (stashedFrames_concluded after _).trans hafter.frames_eq
  · exact Nat.lt_of_le_of_lt (Nat.le_of_eq (stashedFrames_concluded after _)) hafter.frames_lt
  · rw [leave, backlogs_concluded, hafter.length_backlogs]
    exact hh.length_backlogs
  · rw [leave, backlogs_concluded] at hb'
    obtain ⟨b, hb, rfl⟩ := hafter.appended hh hb'
    have hwaits := hh.backlogs port _ hb
    refine hwaits.append hc ?_ (hkept _ (List.mem_of_getElem? hb'))
    have hrange := hafter.frames_lt
    rw [hafter.frames_eq, show h.hold.stashedFrames = h.stashedFrames from rfl, hh.frames_eq,
      ← hwaits.offset_eq] at hrange
    unfold Backlog.lastTime
    omega

/-- A count leaves its word only when the calls that wait are very many. -/
theorem Echoing.many_waiting (hh : h.Echoing settings s waiting)
    (hmany : (∃ b ∈ h.hold.backlogs, 2 ^ 32 ≤ b.blocks + 1) ∨
      2 ^ 63 ≤ h.hold.stashedFrames + c.frames.toNat ∨ 2 ^ 32 ≤ h.hold.stashedBlocks + 1) :
    2 ^ 31 ≤ (waiting ++ [c]).length := by
  have hsum := sum_frames_le waiting
  have hframes := c.frames.toNat_lt
  rw [List.length_append, List.length_singleton]
  rcases hmany with ⟨b, hb, hblocks⟩ | hsum' | hblocks
  · obtain ⟨port, hport⟩ := List.mem_iff_getElem?.1 hb
    rw [(hh.backlogs port b hport).blocks_eq] at hblocks
    omega
  · rw [show h.hold.stashedFrames = h.stashedFrames from rfl, hh.frames_eq] at hsum'
    omega
  · rw [show h.hold.stashedBlocks = h.stashedBlocks from rfl, hh.blocks_eq] at hblocks
    omega

/-- A block that finds the gate held is put aside, unless far too many have been already. -/
theorem Echoing.answer_held (hh : h.Echoing settings s waiting) (hheld : c.contended = true)
    (hc : c.Timely settings s) :
    (∃ a, h.answer language c = .ok a ∧
      (∀ (port : Nat) (b' : Backlog), a.host.backlogs[port]? = some b' →
        ∃ b, h.backlogs[port]? = some b ∧
          b' = b.appended (c.events settings s port) c.frames) ∧
      ((∀ b ∈ a.host.backlogs, b.failed = false) → a.host.Echoing settings s (waiting ++ [c]))) ∨
    h.answer language c = .error .addition ∧ 2 ^ 31 ≤ (waiting ++ [c]).length := by
  have hsettings : h.hold.settings = settings := hh.settings_eq
  rw [answer, if_pos hheld, process_of_held (holder_hold hh.free), hsettings]
  rcases processStashed_spec h.hold (c.inputs.take settings.inputs)
    (c.outputs.take settings.outputs) c.frames with
    ⟨after, hstashed, hafter⟩ | ⟨hstashed, hmany⟩
  · rw [hstashed]
    have hbacklogs : ((after.concluded h.hold.heap.requestCount).leave).backlogs = after.backlogs :=
      backlogs_concluded after _
    refine .inl ⟨_, rfl, fun port b' hb' => hafter.appended hh (hbacklogs ▸ hb'), fun hkept => ?_⟩
    exact hafter.echoing hh hc (hbacklogs ▸ hkept) _
  · rw [hstashed]
    exact .inr ⟨rfl, hh.many_waiting hmany⟩

theorem run_echo (h : Host Program) {script : Program} (hsteps : script.steps = [⟨.echo, none⟩])
    (inputs buffers : List Buffer) (frames : UInt32)
    (hports : ∀ port buffer, buffers[port]? = some buffer →
      Ordered 0 (replayed h.schema h.replay port) ∧
        Ordered 0 (eventsOf h.schema ((inputs.map Buffer.atom?)[port]?).join) ∧
        Atom.headerSize + (encodeEvents
          (echoed h.schema h.replay (inputs.map Buffer.atom?) port)).length ≤ buffer.length) :
    ∃ engine, h.run language script inputs buffers frames = (.ok (), engine,
        (Session.closed h.schema.vocabulary buffers
          (echoed h.schema h.replay (inputs.map Buffer.atom?))).map Writer.buffer) ∧
      engine.script = some script ∧
      engine.diagnostics.disabled = h.engine.value.diagnostics.disabled := by
  have hplay := play_echo (s := { script, heap := h.engine.value.heap
                                  trace := h.engine.value.diagnostics.trace
                                  outputs := buffers.map (Writer.start h.schema.vocabulary) })
    frames hsteps rfl hports
  rw [run]
  simp only [hplay]
  exact ⟨_, rfl, rfl, rfl⟩

theorem Call.events_of_le {port : Nat} (hport : settings.inputs ≤ port) (c : Call) :
    c.events settings s port = [] := by
  rw [events, eventsAt, List.getElem?_eq_none]
  · rfl
  · rw [List.length_take]
    omega

/-- The script is shown the events of the waiting calls. -/
theorem Echoing.replayed_eq (hh : h.Echoing settings s waiting) {port : Nat}
    (hsize : (encodeEvents (waiting.flatMap (Call.events settings s port))).length < 2 ^ 32) :
    atZero (replayed s h.replay port) = atZero (waiting.flatMap (Call.events settings s port)) ∧
      Ordered 0 (replayed s h.replay port) := by
  rw [replay, hasBacklog, hh.blocks_eq]
  cases waiting with
  | nil => exact ⟨rfl, ordered_nil 0⟩
  | cons c rest =>
      have hmany : decide (0 < (c :: rest).length) = true := rfl
      rw [if_pos hmany, replayed]
      simp only
      rw [List.getElem?_map]
      cases hb : h.backlogs[port]? with
      | none =>
          have hport : settings.inputs ≤ port := by
            rw [← hh.length_backlogs]
            exact List.getElem?_eq_none_iff.1 hb
          have hnone : (c :: rest).flatMap (Call.events settings s port) = [] :=
            List.flatMap_eq_nil_iff.2 fun c _ => Call.events_of_le hport c
          rw [hnone]
          exact ⟨rfl, ordered_nil 0⟩
      | some b =>
          have hwaits := hh.backlogs port b hb
          have hlength : (encodeEvents b.events).length < 2 ^ 32 := by
            rw [← length_encodeEvents_atZero, hwaits.events_eq, length_encodeEvents_atZero]
            exact hsize
          have hread : eventsOf s (Atom.parse b.sequence) = b.events := by
            rw [← hwaits.schema_eq]
            refine Backlog.eventsOf_sequence ?_ hwaits.whole hlength
            rw [hwaits.schema_eq]
            exact hh.distinct
          rw [Option.map_some, Option.join_some, hread]
          exact ⟨hwaits.events_eq, hwaits.ordered⟩

theorem join_map_atom? (buffers : List Buffer) (port : Nat) :
    ((buffers.map Buffer.atom?)[port]?).join = (buffers[port]?).bind Buffer.atom? := by
  rw [List.getElem?_map]
  cases buffers[port]? <;> rfl

/-- The output into which a sequence of events has been written. -/
def written (s : Schema) (buffer : Buffer) (events : List (Int64 × Atom)) : Buffer :=
  ((Writer.start s.vocabulary buffer).append
    (Atom.encode (s.vocabulary.id .sequence) (encodeEvents events))).buffer

theorem getElem?_closed (v : Vocabulary) {buffers : List Buffer} {port : Nat} {buffer : Buffer}
    (hbuffer : buffers[port]? = some buffer) (content : Nat → List (Int64 × Atom)) :
    ((Session.closed v buffers content).map Writer.buffer)[port]?
      = some ((Writer.start v buffer).append
        (Atom.encode (v.id .sequence) (encodeEvents (content port)))).buffer := by
  rw [Session.closed, List.getElem?_map, List.getElem?_map, List.getElem?_zipIdx, hbuffer,
    Nat.zero_add]
  rfl

theorem eventsAt_written (hdistinct : s.vocabulary.Distinct) {outputs : List Buffer} {port : Nat}
    {buffer : Buffer} {events : List (Int64 × Atom)}
    (houtput : outputs[port]? = some (written s buffer events)) (hwhole : Whole events)
    (hsize : (encodeEvents events).length < 2 ^ 32) : eventsAt s outputs port = events := by
  rw [eventsAt, houtput, Option.bind_some, written, Writer.atom?_closed _ hsize]
  exact Atom.events_sequence (Schema.kindOf_id hdistinct (by decide)) hwhole

/-- Of a sequence that declares itself to be empty no event is read. -/
theorem eventsAt_wrapped (hdistinct : s.vocabulary.Distinct) {outputs : List Buffer} {port : Nat}
    {buffer : Buffer} {events : List (Int64 × Atom)}
    (houtput : outputs[port]? = some (written s buffer events))
    (hsize : (encodeEvents events).length = 2 ^ 32) : eventsAt s outputs port = [] := by
  rw [eventsAt, houtput, Option.bind_some, written, Buffer.atom?_eq, Writer.bytes_buffer,
    Writer.written_append]
  exact (congrArg (eventsOf s) (Atom.parse_encode_wrapped _ hsize _)).trans
    (Atom.events_sequence (Schema.kindOf_id hdistinct (by decide)) fun _ he => absurd he
      List.not_mem_nil)

theorem Played.echoing {engine : Engine Program} {after : Host Program}
    (hplayed : h.entered.Played engine after) (hh : h.Echoing settings s waiting)
    (hscript : ∃ script, engine.script = some script ∧ script.steps = [⟨.echo, none⟩])
    (henabled : engine.diagnostics.disabled = false)
    (hbacklog : h.entered.hasBacklog = !waiting.isEmpty) (before : Nat) :
    (after.leave.concluded before).Echoing settings s [] := by
  have hblocks : after.stashedBlocks = 0 := by
    rw [hplayed.blocks_eq, hbacklog]
    cases waiting with
    | nil => exact hh.blocks_eq
    | cons => rfl
  have hframes : after.stashedFrames = 0 := by
    rw [hplayed.frames_eq, hbacklog]
    cases waiting with
    | nil => exact hh.frames_eq
    | cons => rfl
  have hbacklogs : after.backlogs.length = settings.inputs ∧
      ∀ (port : Nat) (b : Backlog), after.backlogs[port]? = some b →
        b.Waits settings s [] port := by
    rw [hplayed.backlogs_eq, hbacklog]
    cases waiting with
    | nil => exact ⟨hh.length_backlogs, hh.backlogs⟩
    | cons =>
        refine ⟨(List.length_map _).trans hh.length_backlogs, fun port b hb => ?_⟩
        obtain ⟨b', hb', rfl⟩ := Option.map_eq_some_iff.1 (List.getElem?_map.symm.trans hb)
        exact Backlog.waits_reset (hh.backlogs port b' hb').schema_eq
  refine ⟨?_, ?_, hh.distinct, ?_, ?_, ?_, ?_, ?_, ?_, ?_, ?_⟩
  · exact (settings_concluded _ _).trans (hplayed.settings_eq.trans hh.settings_eq)
  · exact (schema_concluded _ _).trans (hplayed.schema_eq.trans hh.schema_eq)
  · rw [engine_concluded]
    rfl
  · rw [engine_concluded, leave, hplayed.engine_eq]
    exact hscript
  · rw [engine_concluded, leave, hplayed.engine_eq]
    exact henabled
  · exact (stashedBlocks_concluded _ _).trans hblocks
  · exact (stashedFrames_concluded _ _).trans hframes
  · exact Nat.lt_of_le_of_lt (Nat.le_of_eq ((stashedFrames_concluded _ _).trans hframes))
      (by decide)
  · rw [backlogs_concluded]
    exact hbacklogs.1
  · rw [backlogs_concluded]
    exact hbacklogs.2

/-- A block that finds the gate free writes the events of the calls that have waited, at time
zero, and then its own. Afterwards no call waits. -/
theorem Echoing.answer_written (hh : h.Echoing settings s waiting) (hfree : c.contended = false)
    (hc : c.Timely settings s)
    (hroom : ∀ port buffer, (c.outputs.take settings.outputs)[port]? = some buffer →
      Atom.headerSize + (encodeEvents (Round.events settings s port ⟨waiting, c⟩)).length
          ≤ buffer.length ∧
        (encodeEvents (waiting.flatMap (Call.events settings s port))).length < 2 ^ 32) :
    ∃ a, h.answer language c = .ok a ∧ a.outcome = .processed (!waiting.isEmpty) ∧
      a.host.Echoing settings s [] ∧ a.outputs.length = c.outputs.length ∧
      ∀ port buffer, (c.outputs.take settings.outputs)[port]? = some buffer →
        a.outputs[port]? = some (written s buffer (Round.events settings s port ⟨waiting, c⟩)) := by
  obtain ⟨script, hscript, hsteps⟩ := hh.script
  have hreplayed : ∀ port buffer, (c.outputs.take settings.outputs)[port]? = some buffer →
      atZero (replayed s h.replay port) = atZero (waiting.flatMap (Call.events settings s port)) ∧
        Ordered 0 (replayed s h.replay port) :=
    fun port buffer hbuffer => hh.replayed_eq (hroom port buffer hbuffer).2
  have hown : ∀ port, eventsOf s (((c.inputs.take settings.inputs).map Buffer.atom?)[port]?).join
      = c.events settings s port := by
    intro port
    rw [join_map_atom?]
    rfl
  have hcontent : ∀ port buffer, (c.outputs.take settings.outputs)[port]? = some buffer →
      echoed s h.replay ((c.inputs.take settings.inputs).map Buffer.atom?) port
        = Round.events settings s port ⟨waiting, c⟩ := by
    intro port buffer hbuffer
    rw [echoed, (hreplayed port buffer hbuffer).1, hown]
    rfl
  obtain ⟨engine, hrun, hengine, henabled⟩ := run_echo h.entered hsteps
    (c.inputs.take settings.inputs) (c.outputs.take settings.outputs) c.frames
    (fun port buffer hbuffer => by
      rw [show h.entered.schema = s from hh.schema_eq, show h.entered.replay = h.replay from rfl,
        hcontent port buffer hbuffer, hown]
      exact ⟨(hreplayed port buffer hbuffer).2, (hc port).1, (hroom port buffer hbuffer).1⟩)
  obtain ⟨after, hblock, hplayed⟩ := processHeld_of_run (h := h.entered) hscript hh.enabled hrun
  have hbacklog : h.entered.hasBacklog = !waiting.isEmpty := by
    rw [hasBacklog, show h.entered.stashedBlocks = h.stashedBlocks from rfl, hh.blocks_eq]
    cases waiting <;> rfl
  have hsettings : after.settings = settings := hplayed.settings_eq.trans hh.settings_eq
  rw [answer, if_neg (by rw [hfree]; exact Bool.false_ne_true), process_of_free hh.free,
    hh.settings_eq, hblock]
  refine ⟨_, rfl, congrArg Outcome.processed hbacklog, ?_, ?_, fun port buffer hbuffer => ?_⟩
  · refine hplayed.echoing hh ⟨script, hengine, hsteps⟩ (henabled.trans hh.enabled) ?_ _
    exact hbacklog
  · simp only [List.length_append, Session.closed, List.length_map, List.length_zipIdx, hsettings,
      List.length_take, List.length_drop]
    omega
  · have hbuffers := getElem?_closed s.vocabulary hbuffer
      (echoed s h.replay ((c.inputs.take settings.inputs).map Buffer.atom?))
    rw [hcontent port buffer hbuffer] at hbuffers
    have hlt := (List.getElem?_eq_some_iff.1 hbuffers).1
    rw [← hh.schema_eq] at hbuffers hlt ⊢
    exact (List.getElem?_append_left hlt).trans hbuffers

theorem Call.whole_events (c : Call) (port : Nat) : Whole (c.events settings s port) :=
  whole_eventsOf s _

theorem Round.whole_events (r : Round) (port : Nat) : Whole (r.events settings s port) :=
  (whole_waiting settings s port r.waiting).atZero.append (Call.whole_events r.call port)

/-- When an output can say how much it holds, its events are read back. -/
theorem Echoing.answer_free (hh : h.Echoing settings s waiting) (hfree : c.contended = false)
    (hc : c.Timely settings s) (hfits : Round.Fits settings s ⟨waiting, c⟩) :
    ∃ a, h.answer language c = .ok a ∧ a.outcome = .processed (!waiting.isEmpty) ∧
      a.host.Echoing settings s [] ∧
      ∀ port < settings.outputs, port < c.outputs.length →
        eventsAt s a.outputs port = Round.events settings s port ⟨waiting, c⟩ := by
  obtain ⟨a, ha, houtcome, hafter, -, hwritten⟩ :=
    hh.answer_written hfree hc fun port buffer hbuffer => by
      obtain ⟨hroom, hsize⟩ := hfits port buffer hbuffer
      refine ⟨hroom, ?_⟩
      have hround : Round.events settings s port ⟨waiting, c⟩
          = atZero (waiting.flatMap (Call.events settings s port)) ++ c.events settings s port := rfl
      rw [hround, encodeEvents_append, List.length_append, length_encodeEvents_atZero] at hsize
      omega
  refine ⟨a, ha, houtcome, hafter, fun port hport hlt => ?_⟩
  have htake : port < (c.outputs.take settings.outputs).length := by
    rw [List.length_take]
    omega
  have hbuffer := List.getElem?_eq_getElem htake
  exact eventsAt_written hh.distinct (hwritten port _ hbuffer) (Round.whole_events _ port)
    (hfits port _ hbuffer).2

end Calls

/-! ## A host that has been built -/

theorem compile_echo (heap : Heap) :
    compile "echo" heap = .ok { steps := [⟨.echo, none⟩], reserved := [], counter := 0 } heap := by
  rfl

theorem echoing_create {supply : Supply} {settings : Settings} {h : Host Program}
    (hcreate : create supply language settings = .ok h) (hcode : settings.code = some "echo") :
    h.Echoing settings h.schema [] := by
  have hnew := created hcreate
  cases hscript : h.engine.value.script with
  | none =>
      rw [hnew.script_eq.1 hscript] at hcode
      cases hcode
  | some script =>
      obtain ⟨source, heap, left, hsource, hcompile⟩ := hnew.compiled script hscript
      rw [hcode] at hsource
      cases hsource
      have hecho := (compile_echo heap).symm.trans hcompile
      cases hecho
      refine ⟨hnew.settings_eq, rfl, ?_, hnew.idle, ⟨_, hscript, rfl⟩, hnew.enabled, hnew.blocks_eq,
        hnew.frames_eq, by rw [hnew.frames_eq]; decide, hnew.length_backlogs, fun port b hb => ?_⟩
      · rw [hnew.schema_eq]
        exact distinct_ofRegistry
      · obtain ⟨hfresh, hschema⟩ := hnew.backlogs b (List.mem_of_getElem? hb)
        rw [← hfresh.reset_eq]
        exact Backlog.waits_reset hschema

/-! ## Runs -/

/-- So many calls in a row find the gate held that their number leaves its word. -/
def Overrun (calls : List Call) : Prop :=
  ∃ held : List Call, held <:+: calls ∧ (∀ c ∈ held, c.contended = true) ∧ 2 ^ 31 ≤ held.length

/-- All calls of a run are answered, and what was to be carried is carried, round by round. -/
structure Delivered (settings : Settings) (s : Schema) (waiting calls : List Call)
    (as : List (Answer σ)) : Prop where
  length_eq : as.length = calls.length
  processed : ∀ x ∈ calls.zip as, x.1.contended = false →
    ∃ replayed, x.2.outcome = .processed replayed
  carried_eq : ∀ port < settings.outputs,
    (∀ c ∈ calls, c.contended = false → port < c.outputs.length) →
      carried s port calls as = (rounds waiting calls).map (Round.events settings s port)

section Runs

variable {settings : Settings} {s : Schema} {c : Call} {calls : List Call}

theorem rounds_held (hheld : c.contended = true) (waiting : List Call) :
    rounds waiting (c :: calls) = rounds (waiting ++ [c]) calls := by
  rw [rounds, if_pos hheld]

theorem rounds_free (hfree : c.contended = false) (waiting : List Call) :
    rounds waiting (c :: calls) = ⟨waiting, c⟩ :: rounds [] calls := by
  rw [rounds, if_neg (by rw [hfree]; exact Bool.false_ne_true)]

theorem Delivered.held {waiting : List Call} {a : Answer σ} {as : List (Answer σ)}
    (hheld : c.contended = true) (h : Delivered settings s (waiting ++ [c]) calls as) :
    Delivered settings s waiting (c :: calls) (a :: as) where
  length_eq := congrArg (· + 1) h.length_eq
  processed := by
    intro x hx hfree
    rcases List.mem_cons.1 hx with rfl | hx
    · rw [hheld] at hfree
      cases hfree
    · exact h.processed x hx hfree
  carried_eq := by
    intro port hport houtputs
    rw [rounds_held hheld, ← h.carried_eq port hport fun c' hc' =>
      houtputs c' (List.mem_cons_of_mem _ hc'), carried, List.zip_cons_cons,
      List.filter_cons_of_neg (by rw [hheld]; decide)]
    rfl

theorem Delivered.free {waiting : List Call} {a : Answer σ} {as : List (Answer σ)} {replayed : Bool}
    (hfree : c.contended = false) (houtcome : a.outcome = .processed replayed)
    (hevents : ∀ port < settings.outputs, port < c.outputs.length →
      eventsAt s a.outputs port = Round.events settings s port ⟨waiting, c⟩)
    (h : Delivered settings s [] calls as) :
    Delivered settings s waiting (c :: calls) (a :: as) where
  length_eq := congrArg (· + 1) h.length_eq
  processed := by
    intro x hx hfree
    rcases List.mem_cons.1 hx with rfl | hx
    · exact ⟨replayed, houtcome⟩
    · exact h.processed x hx hfree
  carried_eq := by
    intro port hport houtputs
    rw [rounds_free hfree, List.map_cons, ← h.carried_eq port hport fun c' hc' =>
      houtputs c' (List.mem_cons_of_mem _ hc'),
      ← hevents port hport (houtputs c List.mem_cons_self hfree), carried, List.zip_cons_cons,
      List.filter_cons_of_pos (by rw [hfree]; rfl)]
    rfl

/-- From call to call the run goes on, or it has been brought down. -/
theorem Echoing.answers {h : Host Program} :
    ∀ {waiting : List Call}, h.Echoing settings s waiting → (∀ c ∈ waiting, c.contended = true) →
      (∀ c ∈ calls, c.Timely settings s) → (∀ r ∈ rounds waiting calls, r.Fits settings s) →
      ∀ {as : List (Answer Program)} {fault : Option Fault},
        h.answers language calls = (as, fault) →
        (∀ a ∈ as, ∀ b ∈ a.host.backlogs, b.failed = false) →
        fault = some .addition ∧ Overrun (waiting ++ calls) ∨
          fault = none ∧ Delivered settings s waiting calls as := by
  induction calls generalizing h with
  | nil =>
      intro waiting hh hwaiting htimely hfits as fault hrun hkept
      cases hrun
      exact .inr ⟨rfl, rfl, fun x hx => absurd hx List.not_mem_nil, fun port _ _ => rfl⟩
  | cons c rest ih =>
      intro waiting hh hwaiting htimely hfits as fault hrun hkept
      have hc := htimely c List.mem_cons_self
      have hrest : ∀ c' ∈ rest, c'.Timely settings s :=
        fun c' hc' => htimely c' (List.mem_cons_of_mem _ hc')
      rw [Host.answers] at hrun
      cases hheld : c.contended with
      | true =>
          have hmore : ∀ c' ∈ waiting ++ [c], c'.contended = true := by
            intro c' hc'
            rcases List.mem_append.1 hc' with hc' | hc'
            · exact hwaiting c' hc'
            · rw [List.mem_singleton.1 hc']
              exact hheld
          have hsplit : waiting ++ c :: rest = waiting ++ [c] ++ rest := by
            rw [List.append_assoc]
            rfl
          rw [rounds_held hheld] at hfits
          rcases hh.answer_held hheld hc with ⟨a, ha, -, hafter⟩ | ⟨ha, hmany⟩
          · rw [ha] at hrun
            cases hrun
            have hnext := hafter (hkept a List.mem_cons_self)
            rcases ih hnext hmore hrest hfits rfl
              (fun a' ha' => hkept a' (List.mem_cons_of_mem _ ha')) with
              ⟨hfault, hover⟩ | ⟨hfault, hdel⟩
            · rw [hsplit]
              exact .inl ⟨hfault, hover⟩
            · exact .inr ⟨hfault, hdel.held hheld⟩
          · rw [ha] at hrun
            cases hrun
            rw [hsplit]
            exact .inl ⟨rfl, _, (List.prefix_append _ _).isInfix, hmore, hmany⟩
      | false =>
          rw [rounds_free hheld] at hfits
          obtain ⟨a, ha, houtcome, hnext, hevents⟩ :=
            hh.answer_free hheld hc (hfits _ List.mem_cons_self)
          rw [ha] at hrun
          cases hrun
          rcases ih hnext (fun c' hc' => absurd hc' List.not_mem_nil) hrest
            (fun r hr => hfits r (List.mem_cons_of_mem _ hr)) rfl
            (fun a' ha' => hkept a' (List.mem_cons_of_mem _ ha')) with
            ⟨hfault, held, hinfix, hheld', hmany⟩ | ⟨hfault, hdel⟩
          · refine .inl ⟨hfault, held, hinfix.trans ?_, hheld', hmany⟩
            exact ((List.suffix_cons c rest).trans (List.suffix_append waiting _)).isInfix
          · exact .inr ⟨hfault, hdel.free hheld houtcome hevents⟩

/-- Calls that find the gate held wait, one after the other, until the frames of all of them leave
their word. -/
theorem Echoing.answers_overrun (hheld : c.contended = true)
    (hnone : ∀ port, c.events settings s port = []) (rest : List Call) {n : Nat} :
    ∀ {h : Host Program} {waiting : List Call}, h.Echoing settings s waiting →
      2 ^ 63 ≤ h.stashedFrames + n * c.frames.toNat →
      (h.answers language (List.replicate n c ++ rest)).2 = some .addition := by
  have htimely : c.Timely settings s := by
    intro port
    rw [hnone]
    exact ⟨ordered_nil 0, fun e he => absurd he List.not_mem_nil⟩
  induction n with
  | zero =>
      intro h waiting hh hmany
      have hlt := hh.frames_lt
      omega
  | succ n ih =>
      intro h waiting hh hmany
      rw [List.replicate_succ, List.cons_append, Host.answers]
      rcases hh.answer_held hheld htimely with ⟨a, ha, hports, hafter⟩ | ⟨ha, -⟩
      · have hkept : ∀ b ∈ a.host.backlogs, b.failed = false := by
          intro b' hb'
          obtain ⟨port, hport⟩ := List.mem_iff_getElem?.1 hb'
          obtain ⟨b, hb, rfl⟩ := hports port b' hport
          rw [hnone]
          exact (hh.backlogs port b hb).good
        have hnext := hafter hkept
        have hframes : a.host.stashedFrames = h.stashedFrames + c.frames.toNat := by
          rw [hnext.frames_eq, hh.frames_eq, List.map_append, List.sum_append, List.map_singleton,
            List.sum_singleton]
        rw [ha]
        refine ih hnext ?_
        rw [hframes]
        rw [Nat.add_mul, Nat.one_mul] at hmany
        omega
      · rw [ha]

end Runs

/-! ## A round of two calls -/

/-- The settings of a host with one input and one output, whose script echoes. -/
def echoSettings : Settings := { Settings.standard with code := some "echo" }

/-- One event, a number, at the given time. -/
def noteAt (s : Schema) (t : Int64) : List (Int64 × Atom) :=
  [(t, .ofBody (s.id .int) (Bytes.word32 7))]

/-- A block of sixteen frames in which there is one event. -/
def noteCall (s : Schema) (contended : Bool) (t : Int64) : Call where
  contended := contended
  inputs := [.ofBytes (Atom.encode (s.id .sequence) (encodeEvents (noteAt s t)))]
  outputs := [.blank 64]
  frames := 16

/-- A block of sixteen frames with the given events at its first input. -/
def eventsCall (s : Schema) (contended : Bool) (events : List (Int64 × Atom))
    (outputs : List Buffer) : Call where
  contended := contended
  inputs := [.ofBytes (Atom.encode (s.id .sequence) (encodeEvents events))]
  outputs := outputs
  frames := 16

/-- Events that a block of sixteen frames can show. -/
structure Showable (events : List (Int64 × Atom)) : Prop where
  whole : Whole events
  ordered : Ordered 0 events
  times_le : ∀ e ∈ events, e.1.toInt ≤ 16
  size_lt : (encodeEvents events).length < 2 ^ 32

section Pair

variable {settings : Settings} {s : Schema} {events held free : List (Int64 × Atom)}

theorem showable_single {t : Int64} (hpos : 0 ≤ t) (hle : t.toInt ≤ 16) (type : UInt32)
    {body : Bytes} (hsize : 8 + padded (8 + body.length) < 2 ^ 32) :
    Showable [(t, .ofBody type body)] where
  whole := by
    have hroom := le_padded (8 + body.length)
    exact whole_single t type (by omega)
  ordered := List.pairwise_pair.2 hpos
  times_le := fun e he => by
    rw [List.mem_singleton.1 he]
    exact hle
  size_lt := by
    rw [length_encodeEvents, List.map_singleton, List.sum_singleton, Backlog.eventSize,
      Atom.body_ofBody]
    exact hsize

theorem events_eventsCall (hdistinct : s.vocabulary.Distinct) (hinputs : settings.inputs = 1)
    (hevents : Showable events) (contended : Bool) (outputs : List Buffer) (port : Nat) :
    (eventsCall s contended events outputs).events settings s port
      = if port = 0 then events else [] := by
  split
  · next hport =>
      have hinput : ((eventsCall s contended events outputs).inputs.take 1)[0]? = some
          (.ofBytes (Atom.encode (s.id .sequence) (encodeEvents events))) := rfl
      rw [hport, Call.events, eventsAt, hinputs, hinput, Option.bind_some]
      exact eventsOf_ofBytes hdistinct hevents.whole hevents.size_lt
  · next hport => exact Call.events_of_le (hinputs ▸ Nat.one_le_iff_ne_zero.2 hport) _

theorem timely_eventsCall (hdistinct : s.vocabulary.Distinct) (hinputs : settings.inputs = 1)
    (hevents : Showable events) (contended : Bool) (outputs : List Buffer) :
    (eventsCall s contended events outputs).Timely settings s := by
  intro port
  rw [events_eventsCall hdistinct hinputs hevents]
  split
  · exact ⟨hevents.ordered, hevents.times_le⟩
  · exact ⟨ordered_nil 0, fun e he => absurd he List.not_mem_nil⟩

theorem events_pair (hdistinct : s.vocabulary.Distinct) (hinputs : settings.inputs = 1)
    (hheld : Showable held) (hfree : Showable free) (others outputs : List Buffer) :
    Round.events settings s 0 ⟨[eventsCall s true held others], eventsCall s false free outputs⟩
      = atZero held ++ free := by
  rw [Round.events, List.flatMap_singleton, events_eventsCall hdistinct hinputs hheld,
    events_eventsCall hdistinct hinputs hfree]
  rfl

theorem due_eventsCall (hdistinct : s.vocabulary.Distinct) (hinputs : settings.inputs = 1)
    (hevents : Showable events) (contended : Bool) (outputs : List Buffer) :
    (eventsCall s contended events outputs).due settings s 0
      = if contended then atZero events else events := by
  rw [Call.due, events_eventsCall hdistinct hinputs hevents, if_pos rfl]
  rfl

theorem kept_eventsCall (hdistinct : s.vocabulary.Distinct) (hinputs : settings.inputs = 1)
    (hevents : Showable events) {b : Backlog} {port : Nat} (hb : b.Waits settings s [] port)
    (hroom : b.size + (encodeEvents events).length ≤ b.capacity) (outputs : List Buffer) :
    (b.appended ((eventsCall s true events outputs).events settings s port) 16).failed = false := by
  refine (Backlog.failed_foldl_iff b _).2 ⟨hb.good, ?_⟩
  rw [events_eventsCall hdistinct hinputs hevents, hb.offset_eq]
  split
  · exact ⟨fun e he => Int.le_trans (Int.add_le_add_right (hevents.times_le e he) 0) (by decide),
      hroom⟩
  · exact ⟨fun e he => absurd he List.not_mem_nil, b.size_le⟩

/-- A call that waits and one that does not, answered without a loss. -/
theorem Echoing.answers_pair {h : Host Program} (hh : h.Echoing settings s [])
    (hinputs : settings.inputs = 1) (houtputs : settings.outputs = 1) (hheld : Showable held)
    (hfree : Showable free)
    (hkeep : ∀ b ∈ h.backlogs, b.size + (encodeEvents held).length ≤ b.capacity) (buffer : Buffer)
    (hroom : Atom.headerSize + (encodeEvents (atZero held ++ free)).length ≤ buffer.length)
    (others : List Buffer) :
    ∃ a a', h.answers language [eventsCall s true held others, eventsCall s false free [buffer]]
        = ([a, a'], none) ∧
      (∀ x ∈ [a, a'], ∀ b ∈ x.host.backlogs, b.failed = false) ∧
      a'.outputs[0]? = some (written s buffer (atZero held ++ free)) := by
  have hround := events_pair hh.distinct hinputs hheld hfree others [buffer]
  rcases hh.answer_held (c := eventsCall s true held others) rfl
    (timely_eventsCall hh.distinct hinputs hheld true others) with
    ⟨a, ha, hports, hafter⟩ | ⟨-, hmany⟩
  · have hkept : ∀ b ∈ a.host.backlogs, b.failed = false := by
      intro b' hb'
      obtain ⟨port, hport⟩ := List.mem_iff_getElem?.1 hb'
      obtain ⟨b, hb, rfl⟩ := hports port b' hport
      exact kept_eventsCall hh.distinct hinputs hheld (hh.backlogs port b hb)
        (hkeep b (List.mem_of_getElem? hb)) others
    have htake : (eventsCall s false free [buffer]).outputs.take settings.outputs = [buffer] := by
      rw [houtputs]
      rfl
    obtain ⟨a', ha', -, hnext, -, hwritten⟩ := (hafter hkept).answer_written
      (c := eventsCall s false free [buffer]) rfl
      (timely_eventsCall hh.distinct hinputs hfree false [buffer]) (fun port other hother => by
        rw [htake] at hother
        obtain ⟨hport, rfl⟩ := List.getElem?_eq_some_iff.1 hother
        obtain rfl : port = 0 := Nat.lt_one_iff.1 hport
        refine ⟨by rw [List.nil_append, hround]; exact hroom, ?_⟩
        rw [List.nil_append, List.flatMap_singleton,
          events_eventsCall hh.distinct hinputs hheld, if_pos rfl]
        exact hheld.size_lt)
    refine ⟨a, a', by simp only [Host.answers, ha, ha'], fun x hx => ?_, ?_⟩
    · rcases List.mem_cons.1 hx with rfl | hx
      · exact hkept
      · rw [List.mem_singleton.1 hx]
        exact hnext.kept
    · have houtput := hwritten 0 buffer (by rw [htake]; rfl)
      rwa [List.nil_append, hround] at houtput
  · exact absurd hmany (by decide : ¬ 2 ^ 31 ≤ 1)

/-- Without an output the events of a call go nowhere. -/
theorem Echoing.answers_without_output {h : Host Program} (hh : h.Echoing settings s [])
    (hinputs : settings.inputs = 1) (hevents : Showable events) :
    ∃ a, h.answers language [eventsCall s false events []] = ([a], none) ∧
      (∀ b ∈ a.host.backlogs, b.failed = false) ∧
      carried s 0 [eventsCall s false events []] [a] = [[]] := by
  obtain ⟨a, ha, -, hafter, hnone, -⟩ := hh.answer_written (c := eventsCall s false events []) rfl
    (timely_eventsCall hh.distinct hinputs hevents false [])
    fun port buffer hbuffer => by
      rw [show (eventsCall s false events []).outputs = [] from rfl, List.take_nil] at hbuffer
      cases hbuffer
  have hempty : a.outputs = [] := List.eq_nil_of_length_eq_zero hnone
  have hcarried : carried s 0 [eventsCall s false events []] [a] = [eventsAt s a.outputs 0] := rfl
  refine ⟨a, by simp only [Host.answers, ha], hafter.kept, ?_⟩
  rw [hcarried, hempty]
  rfl

/-- Two calls whose events take 2 ^ 32 bytes together: all are written, and none is read back. -/
theorem Echoing.answers_wrapped {h : Host Program} (hh : h.Echoing settings s [])
    (hinputs : settings.inputs = 1) (houtputs : settings.outputs = 1) (hheld : Showable held)
    (hfree : Showable free)
    (hkeep : ∀ b ∈ h.backlogs, b.size + (encodeEvents held).length ≤ b.capacity) (buffer : Buffer)
    (hroom : Atom.headerSize + 2 ^ 32 ≤ buffer.length)
    (hlength : (encodeEvents (atZero held ++ free)).length = 2 ^ 32) :
    ∃ as, h.answers language [eventsCall s true held [], eventsCall s false free [buffer]]
        = (as, none) ∧
      (∀ a ∈ as, ∀ b ∈ a.host.backlogs, b.failed = false) ∧
      carried s 0 [eventsCall s true held [], eventsCall s false free [buffer]] as = [[]] := by
  obtain ⟨a, a', hrun, hkept, houtput⟩ := hh.answers_pair hinputs houtputs hheld hfree hkeep buffer
    (by rw [hlength]; exact hroom) []
  have hcarried : carried s 0 [eventsCall s true held [], eventsCall s false free [buffer]] [a, a']
      = [eventsAt s a'.outputs 0] := rfl
  refine ⟨[a, a'], hrun, hkept, ?_⟩
  rw [hcarried, eventsAt_wrapped hh.distinct houtput hlength]

end Pair

theorem showable_noteAt (s : Schema) {t : Int64} (hpos : 0 ≤ t) (hle : t.toInt ≤ 16) :
    Showable (noteAt s t) :=
  showable_single hpos hle _ (by rw [Bytes.length_word32]; decide)

theorem length_noteAt (s : Schema) (t : Int64) : (encodeEvents (noteAt s t)).length = 24 := by
  rw [length_encodeEvents, noteAt, List.map_singleton, List.sum_singleton, Backlog.eventSize,
    Atom.body_ofBody, Bytes.length_word32]
  rfl

theorem showable_zerosAt (s : Schema) {size : Nat} (hsize : 8 + padded (8 + size) < 2 ^ 32) :
    Showable (zerosAt s size) :=
  showable_single (by decide) (by decide) _ (by rw [Bytes.length_zeros]; exact hsize)

theorem create_echo : ∃ h, create .ample language echoSettings = .ok h ∧
    ∀ b ∈ h.backlogs, b.size + 24 ≤ b.capacity := by
  refine ⟨_, rfl, fun b hb => ?_⟩
  rw [List.mem_singleton.1 hb]
  decide

/-- Settings with room for an event of 2 GiB to wait. -/
def roomySettings : Settings := { echoSettings with backlogCapacity := 2 ^ 31 + 8 }

theorem create_roomy : ∃ h, create .ample language roomySettings = .ok h ∧
    ∀ b ∈ h.backlogs, b.size + 2 ^ 31 ≤ b.capacity := by
  refine ⟨_, rfl, fun b hb => ?_⟩
  rw [List.mem_singleton.1 hb]
  decide

/-! ## Every run -/

/-- Over a whole run of a host whose script echoes, the outputs carry what the inputs have
shown, in the order of the calls and each event once. An event whose block had to wait is at
time zero, in front of the events of the block that it has waited for, and every other event is
at its own time. The run goes through unless far too many calls in a row find the gate held. -/
theorem echo_run {supply : Supply} {settings : Settings} {h : Host Program}
    (hcreate : create supply language settings = .ok h) (hcode : settings.code = some "echo")
    {calls : List Call} (hlast : ∀ c, calls.getLast? = some c → c.contended = false)
    (htimely : ∀ c ∈ calls, c.Timely settings h.schema)
    (hroom : ∀ r ∈ rounds [] calls, r.Fits settings h.schema)
    {as : List (Answer Program)} {fault : Option Fault}
    (hrun : h.answers language calls = (as, fault))
    (hkept : ∀ a ∈ as, ∀ b ∈ a.host.backlogs, b.failed = false) :
    fault = some .addition ∧ Overrun calls ∨
    fault = none ∧ as.length = calls.length ∧
      (∀ x ∈ calls.zip as, x.1.contended = false → ∃ replayed, x.2.outcome = .processed replayed) ∧
      ∀ port < settings.outputs,
        (∀ c ∈ calls, c.contended = false → port < c.outputs.length) →
        carried h.schema port calls as
            = (rounds [] calls).map (Round.events settings h.schema port) ∧
          (carried h.schema port calls as).flatten
            = calls.flatMap (Call.due settings h.schema port) := by
  have hnone : ∀ c ∈ ([] : List Call), c.contended = true := fun c hc => absurd hc List.not_mem_nil
  rcases (echoing_create hcreate hcode).answers hnone htimely hroom hrun hkept with
    hover | ⟨hfault, hdel⟩
  · exact .inl hover
  · refine .inr ⟨hfault, hdel.length_eq, hdel.processed, fun port hport houtputs => ?_⟩
    have hcarried := hdel.carried_eq port hport houtputs
    refine ⟨hcarried, ?_⟩
    rw [hcarried, ← List.flatMap_def, flatMap_rounds settings h.schema port hnone hlast]
    rfl

/-- An event that has waited, and one that has not, in one output. -/
theorem echo_run_held : ∃ h as, create .ample language echoSettings = .ok h ∧
    h.answers language [noteCall h.schema true 3, noteCall h.schema false 5] = (as, none) ∧
    carried h.schema 0 [noteCall h.schema true 3, noteCall h.schema false 5] as
      = [noteAt h.schema 0 ++ noteAt h.schema 5] := by
  obtain ⟨h, hcreate, hkeep⟩ := create_echo
  have hh := echoing_create hcreate rfl
  have hheld : Showable (noteAt h.schema 3) := showable_noteAt h.schema (by decide) (by decide)
  have hfree : Showable (noteAt h.schema 5) := showable_noteAt h.schema (by decide) (by decide)
  have hlength : (encodeEvents (atZero (noteAt h.schema 3) ++ noteAt h.schema 5)).length = 48 := by
    rw [encodeEvents_append, List.length_append, length_encodeEvents_atZero, length_noteAt,
      length_noteAt]
  obtain ⟨a, a', hrun, hkept, -⟩ := hh.answers_pair rfl rfl hheld hfree
    (by rw [length_noteAt]; exact hkeep) (.blank 64) (by rw [hlength]; decide) [.blank 64]
  have hround : Round.events echoSettings h.schema 0
      ⟨[noteCall h.schema true 3], noteCall h.schema false 5⟩
        = atZero (noteAt h.schema 3) ++ noteAt h.schema 5 :=
    events_pair hh.distinct rfl hheld hfree [.blank 64] [.blank 64]
  have htimely : ∀ c ∈ [noteCall h.schema true 3, noteCall h.schema false 5],
      c.Timely echoSettings h.schema := by
    intro c hc
    rcases List.mem_cons.1 hc with rfl | hc
    · exact timely_eventsCall hh.distinct rfl hheld true [.blank 64]
    · rw [List.mem_singleton.1 hc]
      exact timely_eventsCall hh.distinct rfl hfree false [.blank 64]
  have hfits : ∀ r ∈ rounds [] [noteCall h.schema true 3, noteCall h.schema false 5],
      r.Fits echoSettings h.schema := by
    intro r hr port buffer hbuffer
    obtain rfl : r = ⟨[noteCall h.schema true 3], noteCall h.schema false 5⟩ :=
      List.mem_singleton.1 hr
    obtain ⟨hport, rfl⟩ := List.getElem?_eq_some_iff.1 hbuffer
    obtain rfl : port = 0 := Nat.lt_one_iff.1 hport
    rw [hround, hlength]
    exact ⟨(by decide : 56 ≤ 64), by decide⟩
  refine ⟨h, [a, a'], hcreate, hrun, ?_⟩
  rcases echo_run hcreate rfl (fun c hc => by cases hc; rfl) htimely hfits hrun hkept with
    ⟨hfault, -⟩ | ⟨-, -, -, hcarried⟩
  · cases hfault
  · have houtput : ∀ c ∈ [noteCall h.schema true 3, noteCall h.schema false 5],
        c.contended = false → 0 < c.outputs.length := by
      intro c hc _
      rcases List.mem_cons.1 hc with rfl | hc
      · exact Nat.zero_lt_one
      · rw [List.mem_singleton.1 hc]
        exact Nat.zero_lt_one
    have hrounds : rounds [] [noteCall h.schema true 3, noteCall h.schema false 5]
        = [⟨[noteCall h.schema true 3], noteCall h.schema false 5⟩] := rfl
    have hzero : atZero (noteAt h.schema 3) = noteAt h.schema 0 := rfl
    rw [(hcarried 0 (by decide) houtput).1, hrounds, List.map_singleton, hround, hzero]

/-- Nothing is dropped in these runs. The event of a call that brings no output is lost. Two events
that take 2 ^ 32 bytes are written to an output that has room for them, and are not read back. And
so many calls can wait that the run is brought down. -/
theorem uncarried_events :
    (∃ h a, create .ample language echoSettings = .ok h ∧
      let call := eventsCall h.schema false (noteAt h.schema 3) []
      call.Timely echoSettings h.schema ∧ h.answers language [call] = ([a], none) ∧
      (∀ b ∈ a.host.backlogs, b.failed = false) ∧
      carried h.schema 0 [call] [a] = [[]] ∧
      call.due echoSettings h.schema 0 = noteAt h.schema 3) ∧
    (∃ h as, create .ample language roomySettings = .ok h ∧
      let bulk := zerosAt h.schema (2 ^ 31 - 16)
      let calls := [eventsCall h.schema true bulk [],
        eventsCall h.schema false bulk [.blank (2 ^ 33)]]
      (∀ c ∈ calls, c.Timely roomySettings h.schema) ∧
      (encodeEvents (bulk ++ bulk)).length = 2 ^ 32 ∧
      h.answers language calls = (as, none) ∧ (∀ a ∈ as, ∀ b ∈ a.host.backlogs, b.failed = false) ∧
      carried h.schema 0 calls as = [[]] ∧
      calls.flatMap (Call.due roomySettings h.schema 0) = bulk ++ bulk) ∧
    ∃ h, create .ample language echoSettings = .ok h ∧
      (h.answers language (List.replicate (2 ^ 31 + 1) ⟨true, [], [], 4294967295⟩
        ++ [noteCall h.schema false 3])).2 = some .addition := by
  refine ⟨?_, ?_, ?_⟩
  · obtain ⟨h, hcreate, -⟩ := create_echo
    have hh := echoing_create hcreate rfl
    have hnote : Showable (noteAt h.schema 3) := showable_noteAt h.schema (by decide) (by decide)
    obtain ⟨a, hrun, hkept, hcarried⟩ := hh.answers_without_output rfl hnote
    exact ⟨h, a, hcreate, timely_eventsCall hh.distinct rfl hnote false [], hrun, hkept, hcarried,
      due_eventsCall hh.distinct rfl hnote false []⟩
  · obtain ⟨h, hcreate, hkeep⟩ := create_roomy
    have hh := echoing_create hcreate rfl
    have hlength : (encodeEvents (zerosAt h.schema (2 ^ 31 - 16))).length = 2 ^ 31 :=
      (length_zerosAt h.schema _).trans (by decide)
    have hbulk : Showable (zerosAt h.schema (2 ^ 31 - 16)) := showable_zerosAt h.schema (by decide)
    have hboth : (encodeEvents
        (zerosAt h.schema (2 ^ 31 - 16) ++ zerosAt h.schema (2 ^ 31 - 16))).length = 2 ^ 32 := by
      rw [encodeEvents_append, List.length_append, hlength]
      rfl
    obtain ⟨as, hrun, hkept, hcarried⟩ := hh.answers_wrapped rfl rfl hbulk hbulk
      (by rw [hlength]; exact hkeep) (.blank (2 ^ 33)) (by decide : 8 + 2 ^ 32 ≤ 2 ^ 33) hboth
    refine ⟨h, as, hcreate, fun c hc => ?_, hboth, hrun, hkept, hcarried, ?_⟩
    · rcases List.mem_cons.1 hc with rfl | hc
      · exact timely_eventsCall hh.distinct rfl hbulk true []
      · rw [List.mem_singleton.1 hc]
        exact timely_eventsCall hh.distinct rfl hbulk false [.blank (2 ^ 33)]
    · rw [List.flatMap_cons, List.flatMap_singleton, due_eventsCall hh.distinct rfl hbulk,
        due_eventsCall hh.distinct rfl hbulk]
      rfl
  · obtain ⟨h, hcreate, -⟩ := create_echo
    refine ⟨h, hcreate, Echoing.answers_overrun rfl (fun port => ?_) _
      (echoing_create hcreate rfl) (Nat.le_trans (by decide) (Nat.le_add_left _ _))⟩
    rw [Call.events, List.take_nil]
    rfl

end Host

end BlockHost
