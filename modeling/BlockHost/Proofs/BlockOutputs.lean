import BlockHost.Proofs.BacklogRuns
import BlockHost.Proofs.EchoRuns
import BlockHost.Proofs.Filling
import BlockHost.Proofs.Iteration

/-!
# What a block leaves in the outputs

Whatever becomes of a block, all outputs that are served can be read afterwards. When the script
got through, each of them carries a sequence that is read to its end, with times that neither
decrease nor are negative (`Buffer.Readable`). Otherwise each carries its bypass (`Bypass.Carried`),
whatever a failed run has left there: a bypass is written from the start of the output and looks at
nothing but its length. Outputs that are not served are not touched. The two ways through a block,
with the engine and without it, are put together for scripts of commands.
-/

namespace BlockHost

/-- The buffer begins with a sequence that is all there and is read to its end, and its times
neither decrease nor are negative. -/
def Buffer.Readable (s : Schema) (b : Buffer) : Prop :=
  ∃ front events, front <+: b.bytes ∧ IsSequence s front (intTimed events) ∧ Ordered 0 events

theorem Writer.start_append_begins (v : Vocabulary) (buffer : Buffer) (bs : Bytes) :
    bs <+: ((start v buffer).append bs).buffer.bytes := by
  rw [bytes_buffer, written_append]
  exact List.prefix_append _ _

theorem Writer.Closes.readable {s : Schema} {buffer : Buffer} {w : Writer}
    (hdistinct : s.vocabulary.Distinct) (h : Closes s.vocabulary buffer w)
    (hlt : w.offset < sequenceLimit) : w.buffer.Readable s := by
  obtain ⟨events, hwhole, hordered, rfl⟩ := h hlt
  have hsize : (encodeEvents events).length < 2 ^ 32 := by
    have hroom := le_padded (8 + (encodeEvents events).length)
    rw [offset_append, offset_start, Atom.length_encode, sequenceLimit, Atom.headerSize] at hlt
    omega
  have hkind : s.kindOf (s.id .sequence) = .sequence := Schema.kindOf_id hdistinct (by decide)
  exact ⟨_, events, start_append_begins _ _ _, isSequence_encode hwhole (.inr hkind) hsize,
    hordered⟩

/-- A sequence of so many bytes says that it has eight, and that is too little for an event. -/
theorem Buffer.not_readable_of_overlong {s : Schema} {type : UInt32} {body : Bytes}
    {buffer : Buffer} (hbegins : Atom.encode type body <+: buffer.bytes)
    (hlength : body.length = 2 ^ 32 + 8) : ¬ buffer.Readable s := by
  rintro ⟨front, events, hfront, ⟨a, found, hparse, -, htotal, -, hfound, -⟩, -⟩
  rw [Atom.parseWhole_eq] at hparse
  split at hparse
  · next hle =>
      cases hparse
      have hfour : 4 ≤ front.length := by
        unfold Atom.headerSize at hle
        omega
      have htake : front.take 4 = Bytes.word32 (UInt32.ofNat body.length) := by
        obtain ⟨rest, hrest⟩ := hbegins
        have hsame : front.take 4 = buffer.bytes.take 4 := by
          rw [List.prefix_iff_eq_take.1 hfront, List.take_take, Nat.min_eq_left hfour]
        rw [hsame, ← hrest, Atom.encode, Atom.header]
        simp only [List.append_assoc]
        exact List.take_left' (Bytes.length_word32 _)
      have hdeclared : Atom.declaredSize front = 8 := by
        rw [Atom.declaredSize, htake, hlength]
        decide
      have hsize : (Atom.atStart front).size.toNat = 8 := by
        rw [Atom.atStart, hdeclared]
        rfl
      have hbody : (Atom.atStart front).body.length = 8 := by
        rw [Atom.totalSize, hsize, Atom.headerSize] at htotal
        rw [Atom.atStart, hdeclared, List.length_take, List.length_drop, Atom.headerSize]
        omega
      rw [hbody, length_encodeEvents] at hfound
      cases found with
      | nil => cases hfound
      | cons e found =>
          have hroom := le_padded (8 + e.2.body.length)
          rw [List.map_cons, List.sum_cons, Backlog.eventSize] at hfound
          unfold Atom.headerSize at hfound
          omega
  · cases hparse

/-! ## Bypassed outputs -/

namespace Bypass

/-- These are the bytes of the atom at an input, which is all there and fits in so much room. -/
def Passes (input : Option Buffer) (room : Nat) (bs : Bytes) : Prop :=
  ∃ source a, input = some source ∧ Atom.parseWhole source.bytes = some a ∧ a.totalSize ≤ room ∧
    bs = source.bytes.take a.totalSize

/-- What an output carries that is bypassed. -/
structure Carried (mode : Mode) (s : Schema) (input : Option Buffer) (output : Buffer) : Prop where
  passed : mode = .passthrough → ∀ bs, Passes input output.length bs → bs <+: output.bytes
  empty : (mode = .silent ∨ ∀ bs, ¬ Passes input output.length bs) →
    Atom.headerSize ≤ output.length → ∃ front, front <+: output.bytes ∧ IsSequence s front []
  blank : (mode = .silent ∨ ∀ bs, ¬ Passes input output.length bs) →
    output.length < Atom.headerSize → output.bytes = Bytes.zeros output.length

section Outputs

variable {mode : Mode} {s : Schema} {input : Option Buffer} {draft out : Buffer}

theorem silence_of_le (v : Vocabulary) (h : Atom.headerSize ≤ draft.length) :
    silence v draft = ((Writer.start v draft).append (Atom.encode (v.id .sequence) [])).buffer := by
  have hopen := Writer.openSequence_start (v := v) h
  have hclose := Writer.close_holding v draft []
  have hboth : (do let frame ← Writer.openSequence; Writer.close frame : Write Unit)
      (Writer.start v draft) = .ok ()
        ((Writer.start v draft).append (Atom.encode (v.id .sequence) [])) :=
    (Action.bind_ok hopen).trans hclose
  rw [silence, hboth]

theorem silence_of_lt (v : Vocabulary) (h : draft.length < Atom.headerSize) :
    silence v draft = .blank draft.length := by
  have hopen := (Writer.appends_enter (w := Writer.start v draft) rfl rfl (Nat.zero_lt_succ 7)
    .sequence .sequence []).2
  rw [Writer.room_start, List.append_nil, Atom.length_header] at hopen
  obtain ⟨w, hrefused⟩ := hopen h
  have hboth : (do let frame ← Writer.openSequence; Writer.close frame : Write Unit)
      (Writer.start v draft) = .error .overflow w := Action.bind_error hrefused
  rw [silence, hboth]

theorem length_silence (v : Vocabulary) (draft : Buffer) :
    (silence v draft).length = draft.length := by
  rcases Nat.lt_or_ge draft.length Atom.headerSize with h | h
  · rw [silence_of_lt v h]
    rfl
  · have hroom : (Atom.encode (v.id .sequence) []).length ≤ (Writer.start v draft).room := by
      rw [Writer.room_start, Atom.length_encode]
      exact h
    rw [silence_of_le v h, Writer.length_buffer, Writer.capacity_append hroom,
      Writer.capacity_start]

theorem silence_empty (s : Schema) (h : Atom.headerSize ≤ draft.length) :
    ∃ front, front <+: (silence s.vocabulary draft).bytes ∧ IsSequence s front [] := by
  have hnone : IsSequence s (Atom.encode (s.id .sequence) (encodeEvents [])) (intTimed []) :=
    isSequence_encode (fun _ he => absurd he List.not_mem_nil) (.inl rfl) (by decide)
  rw [silence_of_le _ h]
  exact ⟨_, Writer.start_append_begins _ _ _, hnone⟩

theorem silence_carried (h : mode = .silent ∨ ∀ bs, ¬ Passes input draft.length bs) :
    Carried mode s input (silence s.vocabulary draft) := by
  have hlength := length_silence s.vocabulary draft
  refine ⟨?_, ?_, ?_⟩
  · intro hmode bs hbs
    rw [hlength] at hbs
    rcases h with rfl | hno
    · cases hmode
    · exact absurd hbs (hno bs)
  · intro _ hle
    rw [hlength] at hle
    exact silence_empty s hle
  · intro _ hlt
    rw [hlength] at hlt ⊢
    rw [silence_of_lt _ hlt, Buffer.bytes_blank]

theorem passOn_eq_some {source : Buffer} : passOn source draft = some out ↔
    ∃ bs, Passes (some source) draft.length bs ∧ out = draft.startWith bs := by
  have hwhole : (source.atom?.filter fun a => !a.isTruncated) = Atom.parseWhole source.bytes := by
    rw [Buffer.atom?_eq, Atom.parseWhole]
  rw [passOn, hwhole]
  constructor
  · intro h
    obtain ⟨a, ha, hfit⟩ := Option.bind_eq_some_iff.1 h
    split at hfit
    · next hle =>
        cases hfit
        exact ⟨_, ⟨source, a, rfl, ha, hle, rfl⟩, by rw [Buffer.take_eq]⟩
    · cases hfit
  · rintro ⟨bs, ⟨_, a, heq, ha, hle, rfl⟩, rfl⟩
    cases heq
    rw [ha, ← Buffer.take_eq]
    exact if_pos hle

theorem Passes.length_le {room : Nat} {bs : Bytes} (h : Passes input room bs) :
    bs.length ≤ room := by
  obtain ⟨source, a, -, -, hle, rfl⟩ := h
  rw [List.length_take]
  omega

theorem Passes.unique {room : Nat} {bs other : Bytes} (h : Passes input room bs)
    (hother : Passes input room other) : bs = other := by
  obtain ⟨source, a, rfl, ha, -, rfl⟩ := h
  obtain ⟨_, a', heq, ha', -, rfl⟩ := hother
  cases heq
  rw [ha] at ha'
  cases ha'
  rfl

theorem length_startWith {bs : Bytes} (h : bs.length ≤ draft.length) :
    (draft.startWith bs).length = draft.length := by
  have hlength : (draft.startWith bs).length = bs.length + (draft.length - bs.length) := rfl
  omega

theorem startWith_carried {bs : Bytes} (h : Passes input draft.length bs) :
    Carried .passthrough s input (draft.startWith bs) := by
  have hsame : Passes input (draft.startWith bs).length bs := by
    rw [length_startWith h.length_le]
    exact h
  have hsome : ¬ (Mode.passthrough = .silent ∨
      ∀ other, ¬ Passes input (draft.startWith bs).length other) := by
    rintro (hmode | hno)
    · cases hmode
    · exact hno bs hsame
  refine ⟨?_, fun hno => absurd hno hsome, fun hno => absurd hno hsome⟩
  intro _ other hother
  rw [hother.unique hsame, Buffer.bytes_startWith]
  exact List.prefix_append _ _

theorem output_carried (mode : Mode) (s : Schema) (input : Option Buffer) (draft : Buffer) :
    (output mode s.vocabulary input draft).length = draft.length ∧
      Carried mode s input (output mode s.vocabulary input draft) := by
  cases mode with
  | silent => exact ⟨length_silence _ draft, silence_carried (.inl rfl)⟩
  | passthrough =>
      cases hpass : input.bind fun source => passOn source draft with
      | some out =>
          obtain ⟨source, rfl, hout⟩ := Option.bind_eq_some_iff.1 hpass
          obtain ⟨bs, hbs, rfl⟩ := passOn_eq_some.1 hout
          rw [output, hpass]
          exact ⟨length_startWith hbs.length_le, startWith_carried hbs⟩
      | none =>
          have hno : ∀ bs, ¬ Passes input draft.length bs := by
            intro bs hbs
            obtain ⟨source, a, rfl, hrest⟩ := id hbs
            have hout := passOn_eq_some.2 ⟨bs, hbs, rfl⟩
            rw [Option.bind_some, hout] at hpass
            cases hpass
          rw [output, hpass]
          exact ⟨length_silence _ draft, silence_carried (.inr hno)⟩

theorem getElem?_outputs (mode : Mode) (v : Vocabulary) (inputs drafts : List Buffer) (port : Nat) :
    (outputs mode v inputs drafts)[port]? = drafts[port]?.map (output mode v inputs[port]?) := by
  rw [outputs, List.getElem?_map, List.getElem?_zipIdx, Option.map_map, Nat.zero_add]
  rfl

end Outputs

end Bypass

/-! ## The outputs of a block -/

namespace Host

open Session

section Blocks

variable {σ : Type}

/-- The session in which a script runs over a block. -/
def session (h : Host σ) (script : σ) (outputs : List Buffer) : Session σ where
  script := script
  heap := h.engine.value.heap
  trace := h.engine.value.diagnostics.trace
  outputs := outputs.map (Writer.start h.schema.vocabulary)

/-- How many bytes the run over a block has written to an output, none when there is no script to
run. -/
def extent (language : Language σ) (h : Host σ) (inputs outputs : List Buffer) (frames : UInt32)
    (port : Nat) : Nat :=
  match h.engine.value.script with
  | none => 0
  | some script =>
      let ended := play language h.schema h.replay (inputs.map Buffer.atom?) frames
        (h.session script outputs)
      ((Action.left ended).outputs[port]?.map Writer.offset).getD 0

/-- What a block leaves in the outputs that are served. -/
structure Serves (h : Host σ) (language : Language σ) (inputs outputs : List Buffer)
    (frames : UInt32) (outcome : Outcome) (served : List Buffer) : Prop where
  lengths : served.map Buffer.length = outputs.map Buffer.length
  processed : ∀ replayed, outcome = .processed replayed →
    ∀ (port : Nat) buffer, served[port]? = some buffer →
      h.extent language inputs outputs frames port < Writer.sequenceLimit → buffer.Readable h.schema
  bypassed : (∀ replayed, outcome ≠ .processed replayed) →
    ∀ (port : Nat) buffer, served[port]? = some buffer →
      Bypass.Carried h.settings.bypass h.schema inputs[port]? buffer

variable {language : Language σ} {h : Host σ} {script : σ} {inputs outputs : List Buffer}
variable {frames : UInt32}

theorem run_buffers (language : Language σ) (h : Host σ) (script : σ) (inputs outputs : List Buffer)
    (frames : UInt32) :
    ∃ ended engine, h.run language script inputs outputs frames = (ended, engine,
        (Action.left (play language h.schema h.replay (inputs.map Buffer.atom?) frames
          (h.session script outputs))).outputs.map Writer.buffer) ∧
      (ended = .ok () ↔ ∃ s, play language h.schema h.replay (inputs.map Buffer.atom?) frames
        (h.session script outputs) = .ok () s) := by
  rw [Host.run]
  cases hplay : play language h.schema h.replay (inputs.map Buffer.atom?) frames
    (h.session script outputs) with
  | ok _ s =>
      simp only [session] at hplay
      simp only [hplay]
      exact ⟨_, _, rfl, fun _ => ⟨s, rfl⟩, fun _ => rfl⟩
  | error e s =>
      have hno : ¬ ∃ s', (EStateM.Result.error e s : EStateM.Result _ _ Unit) = .ok () s' := by
        rintro ⟨_, heq⟩
        cases heq
      simp only [session] at hplay
      cases e with
      | refused cause =>
          simp only [hplay]
          exact ⟨_, _, rfl, fun heq => (by cases heq), fun hok => absurd hok hno⟩
      | crashed fault =>
          simp only [hplay]
          exact ⟨_, _, rfl, fun heq => (by cases heq), fun hok => absurd hok hno⟩

theorem lengths_run (hfills : ∀ b, Fills h.schema.vocabulary (language.run b)) (script : σ)
    (inputs outputs : List Buffer) (frames : UInt32) :
    ((Action.left (play language h.schema h.replay (inputs.map Buffer.atom?) frames
      (h.session script outputs))).outputs.map Writer.buffer).map Buffer.length
        = outputs.map Buffer.length := by
  have honward := play_onward hfills h.schema h.replay (inputs.map Buffer.atom?) frames
    (h.session script outputs)
  have hkept : List.Forall₂ (fun buffer w => (Writer.buffer w).length = buffer.length) outputs
      (Action.left (play language h.schema h.replay (inputs.map Buffer.atom?) frames
        (h.session script outputs))).outputs := by
    refine (List.forall₂_map_left_iff.1 honward).imp ?_
    intro buffer w hw
    rw [Writer.length_buffer, hw.2, Writer.capacity_start]
  rw [← List.forall₂_eq_eq_eq, List.map_map, List.forall₂_map_left_iff, List.forall₂_map_right_iff]
  exact hkept.flip

theorem readable_run (hdistinct : h.schema.vocabulary.Distinct)
    (hfills : ∀ b, Fills h.schema.vocabulary (language.run b))
    (hscript : h.engine.value.script = some script) {s : Session σ}
    (hplay : play language h.schema h.replay (inputs.map Buffer.atom?) frames
      (h.session script outputs) = .ok () s) {port : Nat} {buffer : Buffer}
    (hbuffer : (s.outputs.map Writer.buffer)[port]? = some buffer)
    (hlt : h.extent language inputs outputs frames port < Writer.sequenceLimit) :
    buffer.Readable h.schema := by
  have hcloses := play_closes hfills (s := h.session script outputs) rfl hplay
  rw [List.getElem?_map, Option.map_eq_some_iff] at hbuffer
  obtain ⟨w, hw, rfl⟩ := hbuffer
  have hextent : h.extent language inputs outputs frames port = w.offset := by
    simp only [extent, hscript, hplay, Action.left, hw, Option.map_some, Option.getD_some]
  rw [hextent] at hlt
  obtain ⟨hport, rfl⟩ := List.getElem?_eq_some_iff.1 hw
  have hclosed := hcloses.get (hcloses.length_eq ▸ hport) hport
  exact hclosed.readable hdistinct hlt

/-- A host with the settings and the vocabulary of another one. -/
structure Alike (h g : Host σ) : Prop where
  settings_eq : g.settings = h.settings
  schema_eq : g.schema = h.schema

theorem alike_forgetBacklogs (h : Host σ) : h.Alike h.forgetBacklogs := by
  unfold forgetBacklogs
  split <;> exact ⟨rfl, rfl⟩

theorem alike_spendBacklogs (h : Host σ) (engine : Engine σ) (delivered : Bool) :
    let g := { h with engine := { h.engine with value := engine } }
    h.Alike (if h.hasBacklog then g.spendBacklogs delivered else g) := by
  intro g
  split
  · cases delivered <;> exact ⟨rfl, rfl⟩
  · exact ⟨rfl, rfl⟩

theorem Alike.serves {g : Host σ} (hg : h.Alike g) (language : Language σ) (inputs : List Buffer)
    (frames : UInt32) {outcome : Outcome} (houtcome : ∀ replayed, outcome ≠ .processed replayed)
    {drafts : List Buffer} (hdrafts : drafts.map Buffer.length = outputs.map Buffer.length) :
    h.Serves language inputs outputs frames outcome
      (Bypass.outputs g.settings.bypass g.schema.vocabulary inputs drafts) := by
  rw [hg.settings_eq, hg.schema_eq]
  refine ⟨?_, ?_, ?_⟩
  · rw [← hdrafts]
    refine List.ext_getElem? fun port => ?_
    rw [List.getElem?_map, List.getElem?_map, Bypass.getElem?_outputs, Option.map_map]
    cases drafts[port]? with
    | none => rfl
    | some draft => exact congrArg some (Bypass.output_carried _ h.schema inputs[port]? draft).1
  · intro replayed heq
    exact absurd heq (houtcome replayed)
  · intro _ port buffer hbuffer
    rw [Bypass.getElem?_outputs, Option.map_eq_some_iff] at hbuffer
    obtain ⟨draft, -, rfl⟩ := hbuffer
    exact (Bypass.output_carried _ h.schema inputs[port]? draft).2

theorem processHeld_serves (hdistinct : h.schema.vocabulary.Distinct)
    (hfills : ∀ b, Fills h.schema.vocabulary (language.run b)) (inputs outputs : List Buffer)
    (frames : UInt32) :
    ∃ after outcome served,
      h.processHeld language inputs outputs frames = (after, outcome, served) ∧
        after.settings = h.settings ∧ h.Serves language inputs outputs frames outcome served := by
  have hforget := h.alike_forgetBacklogs
  have hreason : ∀ reason replayed, Outcome.bypassed reason ≠ .processed replayed := by
    intro reason replayed heq
    cases heq
  rw [processHeld]
  cases hscript : h.engine.value.script with
  | none =>
      exact ⟨_, _, _, rfl, hforget.settings_eq,
        hforget.serves language inputs frames (hreason .noScript) rfl⟩
  | some script =>
      by_cases hdisabled : h.engine.value.diagnostics.disabled = true
      · simp only [if_pos hdisabled]
        exact ⟨_, _, _, rfl, hforget.settings_eq,
          hforget.serves language inputs frames (hreason .disabled) rfl⟩
      · obtain ⟨ended, engine, hrun, hok⟩ :=
          run_buffers language h script inputs outputs frames
        have hlengths := lengths_run hfills script inputs outputs frames
        simp only [if_neg hdisabled, hrun]
        cases ended with
        | ok _ =>
            obtain ⟨s, hplay⟩ := hok.1 rfl
            have hg := h.alike_spendBacklogs engine true
            rw [hplay] at hlengths ⊢
            refine ⟨_, _, _, rfl, hg.settings_eq, hlengths, ?_, fun hno => absurd rfl (hno _)⟩
            intro _ _ port buffer hbuffer hlt
            exact readable_run hdistinct hfills hscript hplay hbuffer hlt
        | error cause =>
            have hg := h.alike_spendBacklogs engine false
            by_cases hfatal : cause.isDisabling = true
            · simp only [if_pos hfatal]
              exact ⟨_, _, _, rfl, hg.settings_eq,
                hg.serves language inputs frames (hreason .error) hlengths⟩
            · by_cases hmemory : cause = .outOfMemory
              · simp only [if_neg hfatal, if_pos hmemory]
                exact ⟨_, _, _, rfl, hg.settings_eq,
                  hg.serves language inputs frames (hreason .outOfMemory) hlengths⟩
              · simp only [if_neg hfatal, if_neg hmemory]
                exact ⟨_, _, _, rfl, hg.settings_eq,
                  hg.serves language inputs frames (hreason .overflow) hlengths⟩

theorem extent_le (hfills : ∀ b, Fills h.schema.vocabulary (language.run b)) {port : Nat}
    {buffer : Buffer} (hbuffer : outputs[port]? = some buffer) :
    h.extent language inputs outputs frames port ≤ buffer.length := by
  unfold extent
  cases h.engine.value.script with
  | none => exact Nat.zero_le _
  | some script =>
      have hlengths := lengths_run hfills script inputs outputs frames
      cases hw : (Action.left (play language h.schema h.replay (inputs.map Buffer.atom?) frames
        (h.session script outputs))).outputs[port]? with
      | none =>
          simp only [hw]
          exact Nat.zero_le _
      | some w =>
          have hport := congrArg (fun lengths : List Nat => lengths[port]?) hlengths
          simp only [List.getElem?_map, hw, hbuffer, Option.map_some, Option.some.injEq,
            Writer.length_buffer] at hport
          simp only [hw, Option.map_some, Option.getD_some, ← hport]
          exact Nat.le_add_right _ _

end Blocks

/-! ## A script that floods its output -/

open Command

/-- The standard settings, with a script from the start on. -/
def scripted (code : String) : Settings := { Settings.standard with code := some code }

/-- What a flood writes: one chunk of so many bytes, at the last frame. -/
def flooded (v : Vocabulary) (frames : UInt32) (size : Nat) : Int64 × Atom :=
  (Int64.ofNat (frames.toNat - 1), .ofBody (v.id .chunk) (List.replicate size floodByte))

theorem length_flooded (v : Vocabulary) (frames : UInt32) (size : Nat) :
    (encodeEvents [flooded v frames size]).length = 8 + padded (8 + size) := by
  rw [length_encodeEvents, List.map_singleton, List.sum_singleton, Backlog.eventSize, flooded,
    Atom.body_ofBody, List.length_replicate]
  rfl

theorem lastFrame_nonneg (b : Block) : 0 ≤ b.lastFrame := by
  have hlt := b.frames.toNat_lt
  rw [Int64.le_iff_toInt_le, Block.lastFrame, Int64.toInt_zero, Int64.toInt_ofNat_of_lt (by omega)]
  omega

section Flood

variable {v : Vocabulary} {buffer : Buffer} {size : Nat}

theorem writeFlood_holding (b : Block)
    (hroom : Atom.headerSize + (encodeEvents [flooded v b.frames size]).length ≤ buffer.length) :
    (do Writer.time b.lastFrame; writeFlood size) (Writer.holding v buffer [])
      = .ok () (Writer.holding v buffer [flooded v b.frames size]) := by
  have hpadded := le_padded (8 + size)
  rw [length_flooded, Atom.headerSize] at hroom
  have hempty : (Writer.holding v buffer []).room = buffer.length - 8 :=
    Writer.room_holding v buffer []
  -- All calls are on the one buffer, which is longer than the chunk.
  have hcapacity : (Writer.holding v buffer []).capacity = buffer.length := by
    have hopened : Writer.openSequence (Writer.start v buffer)
        = .ok Writer.firstFrame (Writer.holding v buffer []) :=
      Writer.openSequence_start (by unfold Atom.headerSize; omega)
    rw [(Writer.openSequence_onward.of_ok hopened).2, Writer.capacity_start]
  have htime := (Writer.appends_time (w := Writer.holding v buffer []) rfl rfl
    (lastFrame_nonneg b)).1 (by rw [Bytes.length_int64, hempty]; omega)
  have hmid := ((Writer.time_onward b.lastFrame).of_ok htime).2
  have hchunk := (Writer.appends_put (w := ((Writer.holding v buffer []).append
    (Bytes.int64 b.lastFrame)).withFrames [⟨0, .sequence, b.lastFrame⟩]) rfl rfl (v.id .chunk)
    (List.replicate size floodByte)).1 (by
      rw [Atom.length_encode, List.length_replicate, Writer.room_withFrames, Writer.room_append,
        Bytes.length_int64, hempty]
      omega)
  have hflood : ∀ w : Writer, w.vocabulary = v → size ≤ w.capacity →
      writeFlood size w = Writer.put (v.id .chunk) (List.replicate size floodByte) w := by
    intro w hv hle
    have hmin : min size (w.capacity + 1) = size := Nat.min_eq_left (by omega)
    have hput : writeFlood size w = Writer.put (w.vocabulary.id .chunk)
        (List.replicate (min size (w.capacity + 1)) floodByte) w := rfl
    rw [hput, hv, hmin]
  refine (Action.bind_ok htime).trans ?_
  rw [hflood _ rfl (by rw [hmid, hcapacity]; omega), hchunk, Writer.append_withFrames,
    Writer.append_append]
  exact congrArg _ (Writer.holding_step v buffer [] b.lastFrame (flooded v b.frames size).2)

end Flood

/-- A script that only floods its output leaves one event there, when there is room for it. -/
theorem play_flood {v : Vocabulary} {buffer : Buffer} {s : Session Program} {size : Nat}
    (schema : Schema) (inputs : List (Option Atom)) (frames : UInt32)
    (hsteps : s.script.steps = [⟨.flood size, none⟩]) (hs : s.outputs = [Writer.start v buffer])
    (hroom : Atom.headerSize + (encodeEvents [flooded v frames size]).length ≤ buffer.length) :
    play language schema none inputs frames s = .ok () (s.withOutputs (closed v [buffer] fun _ =>
      [flooded v frames size])) := by
  have hopen : openOutputs s.outputs.length s
      = .ok (List.replicate [buffer].length Writer.firstFrame)
        (s.withOutputs (filled v [buffer] fun _ => [])) := by
    have hstart : s.outputs = [buffer].map (Writer.start v) := hs
    rw [hstart, List.length_map]
    refine openOutputs_eq (fun other hother => ?_) hstart
    rw [List.mem_singleton.1 hother]
    omega
  have hrun : language.run { schema, frames, inputs }
      (s.withOutputs (filled v [buffer] fun _ => []))
        = .ok () (s.withOutputs (filled v [buffer] fun _ => [flooded v frames size])) := by
    refine (runAll_single (s := s.withOutputs (filled v [buffer] fun _ => [])) hsteps).trans ?_
    exact discard_ok (onOutput_ok rfl (writeFlood_holding _ hroom))
  have hfilled : (s.withOutputs (filled v [buffer] fun _ => [flooded v frames size])).outputs
      = filled v [buffer] fun _ => [flooded v frames size] := rfl
  exact (Action.bind_ok hopen).trans ((Action.bind_ok hrun).trans (closeOutputs_eq hfilled))

/-- A host that is about to run a script which floods its only output. -/
structure Flooding (h : Host Program) (size : Nat) : Prop where
  script : ∃ script, h.engine.value.script = some script ∧ script.steps = [⟨.flood size, none⟩]
  free : h.engine.holder = none
  enabled : h.engine.value.diagnostics.disabled = false
  empty : h.hasBacklog = false
  outputs_eq : h.settings.outputs = 1

theorem Flooding.process {h : Host Program} {size : Nat} (hh : h.Flooding size) (buffer : Buffer)
    (rest : List Buffer) (frames : UInt32)
    (hroom : Atom.headerSize + (encodeEvents [flooded h.schema.vocabulary frames size]).length
      ≤ buffer.length) :
    ∃ after, h.process language [] (buffer :: rest) frames = .ok (after, .processed false,
      ((Writer.start h.schema.vocabulary buffer).append (Atom.encode (h.schema.id .sequence)
        (encodeEvents [flooded h.schema.vocabulary frames size]))).buffer :: rest) := by
  obtain ⟨script, hscript, hsteps⟩ := hh.script
  have hnone : h.entered.replay = none := by
    have hsame : h.entered.hasBacklog = h.hasBacklog := rfl
    rw [replay, hsame, hh.empty]
    rfl
  have hplay := play_flood (s := h.entered.session script [buffer]) h.schema [] frames hsteps rfl
    hroom
  obtain ⟨ended, engine, hrun, hok⟩ := run_buffers language h.entered script [] [buffer] frames
  rw [hnone] at hrun hok
  obtain rfl := hok.2 ⟨_, hplay⟩
  obtain ⟨after, hheld, hplayed⟩ := processHeld_of_run (h := h.entered) hscript hh.enabled hrun
  refine ⟨after.leave.concluded h.heap.requestCount, ?_⟩
  have hsettings : after.settings = h.settings := hplayed.settings_eq
  have hbacklog : h.entered.hasBacklog = false := hh.empty
  have htake : (buffer :: rest).take 1 = [buffer] := rfl
  rw [process_of_free hh.free, List.take_nil, hh.outputs_eq, htake, hheld, hbacklog]
  simp only [hsettings, hh.outputs_eq]
  have hended : play language h.entered.schema none ([].map Buffer.atom?) frames
      (h.entered.session script [buffer]) = _ := hplay
  rw [hended]
  rfl

/-! ## Scripts of commands -/

/-- Whatever becomes of a block, all outputs that are served can be read, and the others are as they
were. A block is brought down only by a count that leaves its word while blocks are put aside. -/
theorem outputs_readable {h : Host Program} (hdistinct : h.schema.vocabulary.Distinct)
    (inputs outputs : List Buffer) (frames : UInt32) :
    (∃ after outcome served,
      h.process language inputs outputs frames
          = .ok (after, outcome, served ++ outputs.drop h.settings.outputs) ∧
        h.Serves language (inputs.take h.settings.inputs) (outputs.take h.settings.outputs) frames
          outcome served) ∨
      h.process language inputs outputs frames = .error .addition ∧ h.engine.holder.isSome ∧
        ((∃ b ∈ h.backlogs, 2 ^ 32 ≤ b.blocks + 1) ∨ 2 ^ 63 ≤ h.stashedFrames + frames.toNat ∨
          2 ^ 32 ≤ h.stashedBlocks + 1) := by
  cases hholder : h.engine.holder with
  | none =>
      left
      obtain ⟨after, outcome, served, hheld, hsettings, hserves⟩ :=
        processHeld_serves (h := h.entered) hdistinct language_fills (inputs.take h.settings.inputs)
          (outputs.take h.settings.outputs) frames
      rw [process_of_free hholder, hheld]
      refine ⟨after.leave.concluded h.heap.requestCount, outcome, served, ?_, hserves.lengths,
        hserves.processed, hserves.bypassed⟩
      simp only [hsettings]
      rfl
  | some side =>
      rw [process_of_held hholder]
      rcases processStashed_spec h (inputs.take h.settings.inputs) (outputs.take h.settings.outputs)
        frames with ⟨after, hblock, hstashed⟩ | ⟨hblock, hcounts⟩
      · left
        rw [hblock]
        have hsame : h.Alike h := ⟨rfl, rfl⟩
        refine ⟨after.concluded h.heap.requestCount, .stashed, _, ?_,
          hsame.serves language _ frames (fun _ heq => by cases heq) rfl⟩
        simp only [hstashed.settings_eq]
      · right
        rw [hblock]
        exact ⟨rfl, rfl, hcounts⟩

/-- Settings of a host with more outputs than inputs, which passes its inputs on. -/
def passingSettings : Settings := { Settings.standard with outputs := 2, bypass := .passthrough }

/-- An output with a chunk in it, and one that is not served. -/
theorem outputs_readable_chunk : ∃ h after served, create .ample language (scripted "flood 4") = .ok h ∧
    h.process language [] [.blank 64, .blank 4] 16
      = .ok (after, .processed false, served ++ [.blank 4]) ∧
    served.length = 1 ∧ ∀ buffer ∈ served, buffer.Readable h.schema := by
  obtain ⟨h, hcreate, hh, hdistinct⟩ : ∃ h, create .ample language (scripted "flood 4") = .ok h ∧
      h.Flooding 4 ∧ h.schema.vocabulary.Distinct :=
    ⟨_, rfl, ⟨⟨_, rfl, rfl⟩, rfl, rfl, rfl, rfl⟩, distinct_ofRegistry⟩
  have hlength := length_flooded h.schema.vocabulary 16 4
  obtain ⟨after, hprocess⟩ := hh.process (.blank 64) [.blank 4] 16 (by rw [hlength]; decide)
  rcases outputs_readable hdistinct [] [.blank 64, .blank 4] 16 with
    ⟨after', outcome, served, hserved, hserves⟩ | ⟨hfault, -⟩
  · rw [hh.outputs_eq] at hserved hserves
    have hanswer := hserved
    rw [hprocess] at hanswer
    obtain ⟨rfl, hrest⟩ := Prod.mk.inj (Except.ok.inj hanswer)
    obtain ⟨rfl, -⟩ := Prod.mk.inj hrest
    obtain ⟨buffer, rfl⟩ : ∃ buffer, served = [buffer] := by
      have hone := congrArg List.length hserves.lengths
      rw [List.length_map] at hone
      exact List.length_eq_one_iff.1 hone
    refine ⟨h, after, [buffer], hcreate, hserved, rfl, ?_⟩
    intro b hb
    rw [List.mem_singleton.1 hb]
    have hextent : h.extent language ([].take h.settings.inputs) [.blank 64] 16 0
        ≤ (Buffer.blank 64).length := extent_le language_fills rfl
    exact hserves.processed false rfl 0 buffer rfl (Nat.lt_of_le_of_lt hextent (by decide))
  · rw [hprocess] at hfault
    cases hfault

/-- An input beyond those that the host has is not passed on. An output to which more is written
than a sequence can say is not read as what was written. -/
theorem unreadable_outputs :
    let note : Buffer := .ofBytes (Atom.encode 2 (Bytes.int64 7))
    (∃ h after buffers buffer, create .ample language passingSettings = .ok h ∧
      h.process language [note, note] [.blank 16, .blank 16] 16
        = .ok (after, .bypassed .noScript, buffers) ∧
      buffers[1]? = some buffer ∧
      Bypass.Passes [note, note][1]? buffer.length note.bytes ∧ ¬ note.bytes <+: buffer.bytes) ∧
    ∃ h after buffer, create .ample language (scripted "flood 4294967288") = .ok h ∧
      h.process language [] [.blank (2 ^ 33)] 16 = .ok (after, .processed false, [buffer]) ∧
      ¬ buffer.Readable h.schema := by
  intro note
  constructor
  · refine ⟨_, _, _, _, rfl, rfl, rfl, ?_, ?_⟩
    · exact ⟨note, .ofBody 2 (Bytes.int64 7), rfl, by decide, by decide, by decide⟩
    · decide
  · obtain ⟨h, hcreate, hh⟩ : ∃ h, create .ample language (scripted "flood 4294967288") = .ok h ∧
        h.Flooding 4294967288 := ⟨_, rfl, ⟨⟨_, rfl, rfl⟩, rfl, rfl, rfl, rfl⟩⟩
    have hlength : (encodeEvents [flooded h.schema.vocabulary 16 4294967288]).length = 2 ^ 32 + 8 :=
      (length_flooded _ _ _).trans (by decide)
    obtain ⟨after, hprocess⟩ := hh.process (.blank (2 ^ 33)) [] 16 (by rw [hlength]; decide)
    exact ⟨h, after, _, hcreate, hprocess,
      Buffer.not_readable_of_overlong (Writer.start_append_begins _ _ _) hlength⟩

end Host

end BlockHost
