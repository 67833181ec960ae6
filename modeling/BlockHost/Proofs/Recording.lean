import BlockHost.Proofs.CallEnds

/-!
# What a script is shown

Which blocks a script has been run over cannot be seen from outside, for a script may leave no trace
of a run. So each script is given a recorder that notes every block (`Language.recording`), and the
blocks that a call shows the script are those that are noted while the same host answers the same
call (`Host.shown`). The recorder changes nothing. Take it away again, and everything is as if it had
never been there (`Host.answer_recording`).

A call shows the script at most two blocks, first those that had to wait, as one, and then its own
(`Host.shown_begins`). When every output has room for the header of a sequence, it shows at least the
first of them (`Host.shown_ne_nil`), and otherwise none (`Host.shown_short`).
-/

namespace BlockHost

/-- A script with the blocks that it has been run over. -/
structure Recorded (σ : Type) where
  script : σ
  blocks : List Block

variable {σ α β : Type}

theorem Writer.openSequence_start_short {v : Vocabulary} {buffer : Buffer}
    (hshort : buffer.length < Atom.headerSize) :
    ∃ w', openSequence (start v buffer) = .error .overflow w' := by
  have hopen := (appends_enter (w := start v buffer) rfl rfl (Nat.zero_lt_succ 7) .sequence
    .sequence []).2
  rw [room_start, List.append_nil, Atom.length_header] at hopen
  exact hopen hshort

namespace Session

/-- The session without the recorder. -/
def plain (s : Session (Recorded σ)) : Session σ where
  script := s.script.script
  heap := s.heap
  trace := s.trace
  outputs := s.outputs

/-- The session with a recorder that has noted the given blocks. -/
def noting (s : Session σ) (blocks : List Block) : Session (Recorded σ) where
  script := ⟨s.script, blocks⟩
  heap := s.heap
  trace := s.trace
  outputs := s.outputs

/-- An action of the script, with the recorder looking on. -/
def unnoted (x : ScriptAction σ α) : ScriptAction (Recorded σ) α := fun s =>
  match x s.plain with
  | .ok a after => .ok a (after.noting s.script.blocks)
  | .error stop after => .error stop (after.noting s.script.blocks)

/-- Notes a block. -/
def note (b : Block) : ScriptAction (Recorded σ) Unit :=
  modify fun s => { s with script := { s.script with blocks := s.script.blocks ++ [b] } }

end Session

/-- The language in which scripts note every block that they are run over. -/
def Language.recording (language : Language σ) : Language (Recorded σ) where
  compile source := do
    return ⟨← language.compile source, []⟩
  run b := do
    Session.note b
    Session.unnoted (language.run b)
  save r := language.save r.script
  restore schema state r := do
    return { r with script := ← language.restore schema state r.script }
  release r := language.release r.script

namespace Session

/-! ## The recorder changes nothing -/

/-- What an action came to, seen without the recorder. -/
def unseen {ε : Type} :
    EStateM.Result ε (Session (Recorded σ)) α → EStateM.Result ε (Session σ) α
  | .ok a s => .ok a s.plain
  | .error stop s => .error stop s.plain

/-- An action that comes to the same as another one without the recorder. -/
def Mirrors (x : ScriptAction (Recorded σ) α) (y : ScriptAction σ α) : Prop :=
  ∀ s, unseen (x s) = y s.plain

section Mirrors

variable {x : ScriptAction (Recorded σ) α} {y : ScriptAction σ α}

theorem mirrors_pure (a : α) :
    Mirrors (pure a : ScriptAction (Recorded σ) α) (pure a) :=
  fun _ => rfl

theorem Mirrors.bind {f : α → ScriptAction (Recorded σ) β} {g : α → ScriptAction σ β}
    (h : Mirrors x y) (hrest : ∀ a, Mirrors (f a) (g a)) : Mirrors (x >>= f) (y >>= g) := by
  intro s
  have hfirst := h s
  cases hx : x s with
  | ok a mid =>
      rw [hx] at hfirst
      rw [Action.bind_ok hx, Action.bind_ok hfirst.symm]
      exact hrest a mid
  | error stop mid =>
      rw [hx] at hfirst
      rw [Action.bind_error hx, Action.bind_error hfirst.symm]
      rfl

theorem Mirrors.discard (h : Mirrors x y) :
    Mirrors (discard x : ScriptAction (Recorded σ) Unit) (discard y) := by
  intro s
  have hsame := h s
  cases hx : x s with
  | ok a after =>
      rw [hx] at hsame
      rw [discard_ok hx, discard_ok hsame.symm]
      rfl
  | error stop after =>
      rw [hx] at hsame
      simp only [Functor.discard, Functor.mapConst, Function.comp, EStateM.map, hx, ← hsame,
        unseen]

theorem onOutput_mirrors (port : Nat) (calls : Write α) :
    Mirrors (onOutput port calls : ScriptAction (Recorded σ) (Option α)) (onOutput port calls) := by
  intro s
  have houtputs : s.plain.outputs = s.outputs := rfl
  rw [onOutput, onOutput, houtputs]
  cases s.outputs[port]? with
  | none => rfl
  | some w =>
      simp only
      cases calls w <;> rfl

theorem onOutputs_mirrors (calls : α → Write β) (port : Nat) (items : List α) :
    Mirrors (onOutputs calls port items : ScriptAction (Recorded σ) (List (Option β)))
      (onOutputs calls port items) := by
  induction items generalizing port with
  | nil => exact mirrors_pure _
  | cons a items ih =>
      exact (onOutput_mirrors port (calls a)).bind fun _ => (ih (port + 1)).bind fun _ =>
        mirrors_pure _

theorem unnoted_mirrors (y : ScriptAction σ α) : Mirrors (unnoted y) y := by
  intro s
  rw [unnoted]
  cases y s.plain <;> rfl

theorem run_mirrors (language : Language σ) (b : Block) :
    Mirrors (language.recording.run b) (language.run b) :=
  fun s => unnoted_mirrors (language.run b)
    { s with script := { s.script with blocks := s.script.blocks ++ [b] } }

theorem play_mirrors (language : Language σ) (schema : Schema) (replay : Option Replay)
    (inputs : List (Option Atom)) (frames : UInt32) :
    Mirrors (Session.play language.recording schema replay inputs frames)
      (Session.play language schema replay inputs frames) := by
  intro s
  have hopen : Mirrors (openOutputs s.outputs.length : ScriptAction (Recorded σ) (List Frame))
      (openOutputs s.outputs.length) :=
    (onOutputs_mirrors _ 0 _).bind fun _ => mirrors_pure _
  have hlive : ∀ sequences,
      Mirrors (do
          language.recording.run { schema, frames, inputs }
          closeOutputs sequences : ScriptAction (Recorded σ) Unit)
        (do
          language.run { schema, frames, inputs }
          closeOutputs sequences) :=
    fun sequences =>
      (run_mirrors language _).bind fun _ => (onOutputs_mirrors closeOutput 0 sequences).discard
  cases replay with
  | none => exact hopen.bind hlive s
  | some r =>
      exact hopen.bind (fun sequences => (run_mirrors language _).bind fun _ =>
        (onOutputs_mirrors Writer.restartTimes 0 sequences).discard.bind fun _ =>
          hlive sequences) s

end Mirrors

/-! ## What is noted -/

/-- The action notes some of the blocks of a list, in order: a certain part at the front in any case,
and all of them when it answers. -/
def Notes (least most : List Block) (x : ScriptAction (Recorded σ) α) : Prop :=
  ∀ s, ∃ noted, least <+: noted ∧ noted <+: most ∧
    (Action.left (x s)).script.blocks = s.script.blocks ++ noted ∧
      ∀ a s', x s = .ok a s' → noted = most

section Notes

variable {x : ScriptAction (Recorded σ) α} {least other bs cs : List Block}

theorem notes_of_script (h : ∀ s, (Action.left (x s)).script = s.script) : Notes [] [] x :=
  fun s => ⟨[], List.nil_prefix, List.nil_prefix, by rw [h, List.append_nil], fun _ _ _ => rfl⟩

theorem Notes.bind {f : α → ScriptAction (Recorded σ) β} (hx : Notes least bs x)
    (hf : ∀ a, Notes other cs (f a)) : Notes least (bs ++ cs) (x >>= f) := by
  intro s
  obtain ⟨noted, hleast, hmost, hleft, hall⟩ := hx s
  cases h : x s with
  | ok a mid =>
      obtain rfl := hall a mid h
      obtain ⟨others, -, hothers, hrest, hmore⟩ := hf a mid
      rw [h] at hleft
      rw [Action.bind_ok h]
      refine ⟨noted ++ others, hleast.trans (List.prefix_append _ _),
        (List.prefix_append_right_inj noted).2 hothers, ?_, ?_⟩
      · rw [hrest, show mid.script.blocks = _ from hleft, List.append_assoc]
      · intro b s' hok
        rw [hmore b s' hok]
  | error stop mid =>
      rw [h] at hleft
      rw [Action.bind_error h]
      refine ⟨noted, hleast, hmost.trans (List.prefix_append _ _), hleft, ?_⟩
      intro b s' hok
      cases hok

theorem Notes.discard (h : Notes least bs x) :
    Notes least bs (discard x : ScriptAction (Recorded σ) Unit) := by
  intro s
  obtain ⟨noted, hleast, hmost, hleft, hall⟩ := h s
  cases hx : x s with
  | ok a after =>
      rw [hx] at hleft
      rw [discard_ok hx]
      exact ⟨noted, hleast, hmost, hleft, fun _ _ _ => hall a after hx⟩
  | error stop after =>
      rw [hx] at hleft
      have hstop : (Functor.discard x : ScriptAction (Recorded σ) Unit) s = .error stop after := by
        simp only [Functor.discard, Functor.mapConst, Function.comp, EStateM.map, hx]
      rw [hstop]
      exact ⟨noted, hleast, hmost, hleft, fun _ _ hok => (by cases hok)⟩

theorem script_onOutput (port : Nat) (calls : Write α) (s : Session σ) :
    (Action.left (onOutput port calls s)).script = s.script := by
  rw [onOutput]
  cases s.outputs[port]? with
  | none => rfl
  | some w =>
      simp only
      cases calls w <;> rfl

theorem onOutputs_notes (calls : α → Write β) (port : Nat) (items : List α) :
    Notes [] [] (onOutputs calls port items : ScriptAction (Recorded σ) (List (Option β))) := by
  induction items generalizing port with
  | nil => exact notes_of_script fun _ => rfl
  | cons a items ih =>
      exact (notes_of_script (script_onOutput port (calls a))).bind fun _ =>
        (ih (port + 1)).bind fun _ => notes_of_script fun _ => rfl

theorem openOutputs_notes (count : Nat) :
    Notes [] [] (openOutputs count : ScriptAction (Recorded σ) (List Frame)) :=
  (onOutputs_notes _ 0 _).bind fun _ => notes_of_script fun _ => rfl

/-- A block is noted before the script has seen it, and so whatever the script makes of it. -/
theorem run_notes (language : Language σ) (b : Block) :
    Notes [b] [b] (language.recording.run b) := by
  intro s
  refine ⟨[b], List.prefix_rfl, List.prefix_rfl, ?_, fun _ _ _ => rfl⟩
  show (Action.left (unnoted (language.run b) _)).script.blocks = _
  rw [unnoted]
  split <;> rfl

end Notes

/-- The block that stands for all blocks that had to wait. -/
def Replay.block (schema : Schema) (r : Replay) : Block :=
  { schema, frames := r.frames, inputs := r.inputs }

/-- The blocks that there are to show: those that had to wait, and the one at hand. -/
def blocksOf (schema : Schema) (replay : Option Replay) (live : Block) : List Block :=
  (replay.map (Replay.block schema)).toList ++ [live]

/-- The play over a block from where the outputs are open. -/
def playOpen (language : Language σ) (schema : Schema) (replay : Option Replay) (live : Block)
    (sequences : List Frame) : ScriptAction σ Unit :=
  match replay with
  | none => do
      language.run live
      closeOutputs sequences
  | some r => do
      language.run (Replay.block schema r)
      restartOutputs sequences
      language.run live
      closeOutputs sequences

theorem play_eq (language : Language σ) (schema : Schema) (replay : Option Replay)
    (inputs : List (Option Atom)) (frames : UInt32) (s : Session σ) :
    Session.play language schema replay inputs frames s =
      (openOutputs s.outputs.length >>=
        playOpen language schema replay { schema, frames, inputs }) s := by
  cases replay <;> rfl

/-- From there on the script is run, at least over the first of the blocks. -/
theorem playOpen_notes (language : Language σ) (schema : Schema) (replay : Option Replay)
    (live : Block) (sequences : List Frame) :
    Notes ((blocksOf schema replay live).take 1) (blocksOf schema replay live)
      (playOpen language.recording schema replay live sequences) := by
  have hlive : Notes [live] [live] (do
      language.recording.run live
      closeOutputs sequences : ScriptAction (Recorded σ) Unit) :=
    (run_notes language live).bind fun _ => (onOutputs_notes closeOutput 0 sequences).discard
  cases replay with
  | none => exact hlive
  | some r =>
      exact (run_notes language _).bind fun _ =>
        (onOutputs_notes Writer.restartTimes 0 sequences).discard.bind fun _ => hlive

/-! ## Outputs that are too short -/

theorem onOutputs_short (v : Vocabulary) (front : List Writer) {buffers : List Buffer}
    {s : Session σ} (hs : s.outputs = front ++ buffers.map (Writer.start v))
    (hshort : ∃ buffer ∈ buffers, buffer.length < Atom.headerSize) :
    ∃ s', onOutputs (fun () => Writer.openSequence) front.length
      (List.replicate buffers.length ()) s = .error (.refused (.writer .overflow)) s' := by
  induction buffers generalizing front s with
  | nil =>
      obtain ⟨_, hmem, -⟩ := hshort
      cases hmem
  | cons buffer buffers ih =>
      have hhere : s.outputs[front.length]? = some (Writer.start v buffer) := by
        rw [hs, List.map_cons, getElem?_front]
      rw [List.length_cons, List.replicate_succ, onOutputs]
      rcases Nat.lt_or_ge buffer.length Atom.headerSize with hlt | hle
      · obtain ⟨w', hopen⟩ := Writer.openSequence_start_short (v := v) hlt
        refine ⟨s.withOutputs (s.outputs.set front.length w'), Action.bind_error ?_⟩
        rw [onOutput, hhere]
        simp only [hopen]
        rfl
      · have hopen := onOutput_ok hhere (Writer.openSequence_start (v := v) hle)
        rw [Action.bind_ok hopen]
        have hset : s.outputs.set front.length (Writer.holding v buffer [])
            = (front ++ [Writer.holding v buffer []]) ++ buffers.map (Writer.start v) := by
          rw [hs, List.map_cons, set_front]
        obtain ⟨s', hrest⟩ := @ih (front ++ [Writer.holding v buffer []])
          (s.withOutputs (s.outputs.set front.length (Writer.holding v buffer []))) hset (by
            obtain ⟨other, hmem, hlt⟩ := hshort
            rcases List.mem_cons.1 hmem with rfl | hmem
            · omega
            · exact ⟨other, hmem, hlt⟩)
        rw [List.length_append, List.length_singleton] at hrest
        exact ⟨s', Action.bind_error hrest⟩

theorem openOutputs_short {v : Vocabulary} {buffers : List Buffer} {s : Session σ}
    (hs : s.outputs = buffers.map (Writer.start v))
    (hshort : ∃ buffer ∈ buffers, buffer.length < Atom.headerSize) :
    ∃ s', openOutputs s.outputs.length s = .error (.refused (.writer .overflow)) s' := by
  obtain ⟨s', hopen⟩ := onOutputs_short v [] hs hshort
  rw [hs, List.length_map]
  exact ⟨s', Action.bind_error hopen⟩

section Play

variable {language : Language σ} {schema : Schema} {replay : Option Replay}
variable {inputs : List (Option Atom)} {frames : UInt32} {v : Vocabulary} {buffers : List Buffer}
variable {s : Session (Recorded σ)}

/-- No block is shown when an output has no room for the header of a sequence. -/
theorem blocks_play_short (hs : s.outputs = buffers.map (Writer.start v))
    (hshort : ∃ buffer ∈ buffers, buffer.length < Atom.headerSize) :
    (Action.left (Session.play language.recording schema replay inputs frames s)).script.blocks
      = s.script.blocks := by
  obtain ⟨s', hopen⟩ := openOutputs_short hs hshort
  obtain ⟨noted, -, hmost, hleft, -⟩ := openOutputs_notes s.outputs.length s
  rw [play_eq, Action.bind_error hopen]
  rw [hopen, List.prefix_nil.1 hmost, List.append_nil] at hleft
  exact hleft

/-- Otherwise the first block is shown, and the others behind it as far as the script gets. -/
theorem blocks_play_open (hs : s.outputs = buffers.map (Writer.start v))
    (hfit : ∀ buffer ∈ buffers, Atom.headerSize ≤ buffer.length) :
    ∃ noted, noted ≠ [] ∧ noted <+: blocksOf schema replay { schema, frames, inputs } ∧
      (Action.left (Session.play language.recording schema replay inputs frames s)).script.blocks
        = s.script.blocks ++ noted := by
  have hopen := openOutputs_eq hfit hs
  have hlength : s.outputs.length = buffers.length := by rw [hs, List.length_map]
  obtain ⟨noted, hleast, hmost, hleft, -⟩ := playOpen_notes language schema replay
    { schema, frames, inputs } (List.replicate buffers.length Writer.firstFrame)
    (s.withOutputs (filled v buffers fun _ => []))
  refine ⟨noted, ?_, hmost, ?_⟩
  · rintro rfl
    cases replay <;> exact absurd (List.prefix_nil.1 hleast) (List.cons_ne_nil _ _)
  · rw [play_eq, hlength, Action.bind_ok hopen, hleft]
    rfl

end Play

end Session

/-! ## Hosts with a recorder -/

/-- The engine with another script in the place of its own. -/
def Engine.mapScript (f : σ → α) (e : Engine σ) : Engine α where
  script := e.script.map f
  heap := e.heap
  diagnostics := e.diagnostics
  code := e.code

namespace Host

/-- The host with another script in the place of its own. -/
def mapScript (f : σ → α) (h : Host σ) : Host α where
  settings := h.settings
  schema := h.schema
  registry := h.registry
  engine := ⟨h.engine.holder, h.engine.value.mapScript f⟩
  backlogs := h.backlogs
  stashedFrames := h.stashedFrames
  stashedBlocks := h.stashedBlocks
  signals := h.signals
  tally := h.tally
  passed := h.passed

/-- The host without the recorder of its script. -/
def plain (h : Host (Recorded σ)) : Host σ :=
  h.mapScript Recorded.script

/-- The host with a recorder that has noted nothing yet. -/
def withRecorder (h : Host σ) : Host (Recorded σ) :=
  h.mapScript (⟨·, []⟩)

/-- The blocks that a call shows the script. -/
def shown (language : Language σ) (h : Host σ) (c : Call) : List Block :=
  match h.withRecorder.answer language.recording c with
  | .ok a => (a.host.engine.value.script.map Recorded.blocks).getD []
  | .error _ => []

theorem plain_withRecorder (h : Host σ) : h.withRecorder.plain = h := by
  rw [plain, withRecorder, mapScript, mapScript]
  simp only [Engine.mapScript, Option.map_map, Function.comp_def, Option.map_id']

section Plain

variable {language : Language σ} {h : Host (Recorded σ)} {inputs outputs : List Buffer}
variable {frames : UInt32}

theorem play_plain {r : Recorded σ} :
    Session.unseen (h.play language.recording r inputs outputs frames)
      = h.plain.play language r.script inputs outputs frames :=
  Session.play_mirrors language h.schema h.replay (inputs.map Buffer.atom?) frames
    (h.session r outputs)

theorem run_plain (language : Language σ) (h : Host (Recorded σ)) (r : Recorded σ)
    (inputs outputs : List Buffer) (frames : UInt32) :
    h.plain.run language r.script inputs outputs frames =
      match h.run language.recording r inputs outputs frames with
      | (ended, engine, served) => (ended, engine.mapScript Recorded.script, served) := by
  rw [run_eq, run_eq, ← play_plain]
  cases h.play language.recording r inputs outputs frames <;> rfl

theorem forgetBacklogs_plain (h : Host (Recorded σ)) :
    h.plain.forgetBacklogs = h.forgetBacklogs.plain := by
  rw [forgetBacklogs, forgetBacklogs]
  show (if h.hasBacklog then _ else _) = _
  split <;> rfl

theorem processHeld_plain (language : Language σ) (h : Host (Recorded σ))
    (inputs outputs : List Buffer) (frames : UInt32) :
    h.plain.processHeld language inputs outputs frames =
      match h.processHeld language.recording inputs outputs frames with
      | (after, outcome, served) => (after.plain, outcome, served) := by
  have hscript : h.plain.engine.value.script = h.engine.value.script.map Recorded.script := rfl
  have hdisabled : h.plain.engine.value.diagnostics.disabled
    = h.engine.value.diagnostics.disabled := rfl
  rw [processHeld, processHeld, hscript]
  cases h.engine.value.script with
  | none =>
      simp only [Option.map_none, forgetBacklogs_plain]
      rfl
  | some r =>
      simp only [Option.map_some, hdisabled]
      split
      · simp only [forgetBacklogs_plain]
        rfl
      · simp only [run_plain]
        cases h.run language.recording r inputs outputs frames with
        | mk ended answer =>
            have hbacklog : h.plain.hasBacklog = h.hasBacklog := rfl
            simp only [hbacklog]
            cases ended with
            | ok _ => cases h.hasBacklog <;> rfl
            | error cause =>
                by_cases hdisabling : cause.isDisabling = true
                · simp only [if_pos hdisabling]
                  cases h.hasBacklog <;> rfl
                · by_cases hmemory : cause = .outOfMemory
                  · simp only [if_neg hdisabling, if_pos hmemory]
                    cases h.hasBacklog <;> rfl
                  · simp only [if_neg hdisabling, if_neg hmemory]
                    cases h.hasBacklog <;> rfl

theorem processStashed_plain (h : Host (Recorded σ)) (inputs outputs : List Buffer)
    (frames : UInt32) :
    h.plain.processStashed inputs outputs frames =
      (h.processStashed inputs outputs frames).map
        fun (after, outcome, served) => (after.plain, outcome, served) := by
  rw [processStashed, processStashed]
  show (putAside frames h.backlogs inputs h.signals >>= _) = _
  cases putAside frames h.backlogs inputs h.signals with
  | error fault => rfl
  | ok answer =>
      have hframes : h.plain.stashedFrames = h.stashedFrames := rfl
      have hblocks : h.plain.stashedBlocks = h.stashedBlocks := rfl
      simp only [bind, Except.bind, hframes, hblocks]
      by_cases hmany : 2 ^ 63 ≤ h.stashedFrames + frames.toNat
      · simp only [if_pos hmany]
        rfl
      · by_cases hcount : 2 ^ 32 ≤ h.stashedBlocks + 1
        · simp only [if_neg hmany, if_pos hcount]
          rfl
        · simp only [if_neg hmany, if_neg hcount]
          rfl

/-- The recorder changes nothing of what a call leaves and answers. -/
theorem process_recording (language : Language σ) (h : Host (Recorded σ))
    (inputs outputs : List Buffer) (frames : UInt32) :
    h.plain.process language inputs outputs frames =
      (h.process language.recording inputs outputs frames).map
        fun (after, outcome, buffers) => (after.plain, outcome, buffers) := by
  have hconcluded : ∀ (after : Host (Recorded σ)) (before : Nat),
      after.plain.concluded before = (after.concluded before).plain := by
    intro after before
    rw [concluded, concluded]
    show Host.send (if after.heap.requestCount ≠ before then _ else _) _ = _
    split <;> rfl
  cases hholder : h.engine.holder with
  | none =>
      have hentered : h.plain.entered = h.entered.plain := rfl
      have hsettings : h.plain.settings = h.settings := rfl
      rw [process_of_free (h := h) hholder, process_of_free (h := h.plain) hholder, hentered,
        processHeld_plain, hsettings]
      cases h.entered.processHeld language.recording (inputs.take h.settings.inputs)
        (outputs.take h.settings.outputs) frames with
      | mk after answer =>
          exact congrArg (fun host => Except.ok (host, answer.1,
            answer.2 ++ outputs.drop after.settings.outputs)) (hconcluded after.leave _)
  | some side =>
      have hsettings : h.plain.settings = h.settings := rfl
      rw [process_of_held (h := h) hholder, process_of_held (h := h.plain) hholder, hsettings,
        processStashed_plain]
      cases h.processStashed (inputs.take h.settings.inputs) (outputs.take h.settings.outputs)
        frames with
      | error fault => rfl
      | ok answer =>
          exact congrArg (fun host => Except.ok (host, answer.2.1,
            answer.2.2 ++ outputs.drop answer.1.settings.outputs)) (hconcluded answer.1 _)

theorem hold_plain (h : Host (Recorded σ)) : h.hold.plain = h.plain.hold := by
  have hplain : h.plain.engine.holder = h.engine.holder := rfl
  cases hholder : h.engine.holder with
  | none =>
      simp only [hold, Gate.tryEnter, hplain, hholder]
      rfl
  | some side =>
      simp only [hold, Gate.tryEnter, hplain, hholder]
      rfl

theorem answer_recording (language : Language σ) (h : Host (Recorded σ)) (c : Call) :
    h.plain.answer language c = (h.answer language.recording c).map
      fun a => ⟨a.host.plain, a.outcome, a.outputs⟩ := by
  rw [answer, answer]
  split
  · rw [← hold_plain, process_recording]
    cases h.hold.process language.recording c.inputs c.outputs c.frames <;> rfl
  · rw [process_recording]
    cases h.process language.recording c.inputs c.outputs c.frames <;> rfl

end Plain

/-! ## What a call shows -/

section Shown

variable {language : Language σ} {h : Host σ} {c : Call}

/-- What there is to show in a call: the blocks that had to wait, and then its own. -/
def toShow (h : Host σ) (c : Call) : List Block :=
  Session.blocksOf h.schema h.replay
    { schema := h.schema, frames := c.frames
      inputs := (c.inputs.take h.settings.inputs).map Buffer.atom? }

theorem script_withRecorder (h : Host σ) :
    h.withRecorder.engine.value.script = h.engine.value.script.map (⟨·, []⟩) := rfl

theorem shown_held (hidle : h.engine.holder = none) (hc : c.contended = true) :
    h.shown language c = [] := by
  rw [shown]
  rcases answer_held language.recording (h := h.withRecorder) hidle hc with
    ⟨after, buffers, hanswer, hstashed⟩ | ⟨hanswer, -⟩
  · rw [hanswer]
    simp only [hstashed.engine_eq, script_withRecorder, Option.map_map]
    cases h.engine.value.script <;> rfl
  · rw [hanswer]

/-- Nothing is shown to a script that is not there or is disabled. -/
theorem shown_idle (hidle : h.engine.holder = none) (hc : c.contended = false)
    (hnone : h.engine.value.script = none ∨ h.engine.value.diagnostics.disabled = true) :
    h.shown language c = [] := by
  obtain ⟨after, outcome, buffers, hanswer, hended⟩ :=
    answer_free language.recording (h := h.withRecorder) hidle hc
  rw [shown, hanswer]
  cases hended with
  | noScript hscript hspent => simp only [hspent.engine_eq, Gate.free, hscript]; rfl
  | disabled hscript hdisabled hspent =>
      simp only [hspent.engine_eq, Gate.free, script_withRecorder, Option.map_map]
      cases h.engine.value.script <;> rfl
  | run hscript henabled hspent =>
      rcases hnone with hnone | hdisabled
      · rw [script_withRecorder, hnone] at hscript
        cases hscript
      · have hno : h.engine.value.diagnostics.disabled = false := henabled
        rw [hdisabled] at hno
        cases hno

theorem shown_run {script : σ} (hidle : h.engine.holder = none) (hc : c.contended = false)
    (hscript : h.engine.value.script = some script)
    (henabled : h.engine.value.diagnostics.disabled = false) :
    h.shown language c = (Action.left (h.withRecorder.play language.recording ⟨script, []⟩
      (c.inputs.take h.settings.inputs) (c.outputs.take h.settings.outputs) c.frames)).script.blocks
    := by
  obtain ⟨after, outcome, buffers, hanswer, hended⟩ :=
    answer_free language.recording (h := h.withRecorder) hidle hc
  have hrecorder : h.withRecorder.engine.value.script = some ⟨script, []⟩ := by
    rw [script_withRecorder, hscript]
    rfl
  rw [shown, hanswer]
  cases hended with
  | noScript hno hspent =>
      rw [hrecorder] at hno
      cases hno
  | disabled hother hdisabled hspent =>
      have hno : h.engine.value.diagnostics.disabled = true := hdisabled
      rw [henabled] at hno
      cases hno
  | run hother _ hspent =>
      rw [hrecorder] at hother
      cases hother
      simp only [hspent.engine_eq, Gate.free, Engine.script_noted]
      rfl

/-- An output that is served has no room for the header of a sequence. -/
def Short (h : Host σ) (c : Call) : Prop :=
  ∃ buffer ∈ c.outputs.take h.settings.outputs, buffer.length < Atom.headerSize

theorem shown_short (hidle : h.engine.holder = none) (hc : c.contended = false)
    (hshort : h.Short c) : h.shown language c = [] := by
  cases hscript : h.engine.value.script with
  | none => exact shown_idle hidle hc (.inl hscript)
  | some script =>
      cases hdisabled : h.engine.value.diagnostics.disabled with
      | true => exact shown_idle hidle hc (.inr hdisabled)
      | false =>
          rw [shown_run hidle hc hscript hdisabled]
          exact Session.blocks_play_short rfl hshort

theorem shown_ne_nil {script : σ} (hidle : h.engine.holder = none) (hc : c.contended = false)
    (hscript : h.engine.value.script = some script)
    (henabled : h.engine.value.diagnostics.disabled = false) (hshort : ¬ h.Short c) :
    h.shown language c ≠ [] ∧ h.shown language c <+: h.toShow c := by
  have hfit : ∀ buffer ∈ c.outputs.take h.settings.outputs, Atom.headerSize ≤ buffer.length := by
    intro buffer hbuffer
    by_contra hlt
    exact hshort ⟨buffer, hbuffer, Nat.lt_of_not_le hlt⟩
  let s := h.withRecorder.session ⟨script, []⟩ (c.outputs.take h.settings.outputs)
  obtain ⟨noted, hne, hprefix, hleft⟩ := @Session.blocks_play_open _ language h.schema h.replay
    ((c.inputs.take h.settings.inputs).map Buffer.atom?) c.frames _ _ s rfl hfit
  have hshown : h.shown language c = noted :=
    (shown_run hidle hc hscript henabled).trans (hleft.trans (List.nil_append noted))
  rw [hshown]
  exact ⟨hne, hprefix⟩

/-- A call shows the blocks that had to wait, and then its own, as far as it gets. -/
theorem shown_begins (language : Language σ) (hidle : h.engine.holder = none)
    (hc : c.contended = false) : h.shown language c <+: h.toShow c := by
  by_cases hshort : h.Short c
  · rw [shown_short hidle hc hshort]
    exact List.nil_prefix
  · cases hscript : h.engine.value.script with
    | none =>
        rw [shown_idle hidle hc (.inl hscript)]
        exact List.nil_prefix
    | some script =>
        cases hdisabled : h.engine.value.diagnostics.disabled with
        | true =>
            rw [shown_idle hidle hc (.inr hdisabled)]
            exact List.nil_prefix
        | false => exact (shown_ne_nil hidle hc hscript hdisabled hshort).2

end Shown

end Host

end BlockHost
