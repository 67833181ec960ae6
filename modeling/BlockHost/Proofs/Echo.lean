import BlockHost.Commands.Run
import BlockHost.Host.Process
import BlockHost.Proofs.EventStreams

/-!
# A block that is echoed

What a block does with the outputs of a script that echoes: it opens a sequence at each of them,
writes the events that were put aside, sets their times to zero, writes the events of the block
itself, and closes the sequences. Each of these goes over all outputs, and none of them mixes
two outputs, so the outputs are described port by port (`Session.filled`), and
`Session.play_echo` says what the whole block leaves in them.
-/

namespace BlockHost

namespace Session

variable {σ α β γ : Type}

/-! ## Calls on all outputs -/

/-- The session with other outputs. -/
def withOutputs (s : Session σ) (outputs : List Writer) : Session σ :=
  { s with outputs }

@[simp] theorem outputs_withOutputs (s : Session σ) (outputs : List Writer) :
    (s.withOutputs outputs).outputs = outputs := rfl

@[simp] theorem withOutputs_withOutputs (s : Session σ) (outputs others : List Writer) :
    (s.withOutputs outputs).withOutputs others = s.withOutputs others := rfl

@[simp] theorem withOutputs_outputs (s : Session σ) : s.withOutputs s.outputs = s := rfl

theorem onOutput_ok {s : Session σ} {port : Nat} {w w' : Writer} {calls : Write α} {a : α}
    (hw : s.outputs[port]? = some w) (hcalls : calls w = .ok a w') :
    onOutput port calls s = .ok (some a) (s.withOutputs (s.outputs.set port w')) := by
  rw [onOutput, hw]
  simp only [hcalls, withOutputs]

theorem getElem?_front (front : List Writer) (w : Writer) (rest : List Writer) :
    (front ++ w :: rest)[front.length]? = some w := by
  rw [List.getElem?_append_right (Nat.le_refl _), Nat.sub_self]
  rfl

theorem set_front (front : List Writer) (w w' : Writer) (rest : List Writer) :
    (front ++ w :: rest).set front.length w' = (front ++ [w']) ++ rest := by
  rw [List.set_append_right _ _ (Nat.le_refl _), Nat.sub_self, List.append_assoc]
  rfl

theorem onOutputs_map (calls : α → Write β) (a : α) {b : β} (xs : List γ)
    (before after : γ → Writer) (hcalls : ∀ x ∈ xs, calls a (before x) = .ok b (after x))
    (front : List Writer) (s : Session σ) (hs : s.outputs = front ++ xs.map before) :
    onOutputs calls front.length (List.replicate xs.length a) s
      = .ok (List.replicate xs.length (some b)) (s.withOutputs (front ++ xs.map after)) := by
  induction xs generalizing front s with
  | nil =>
      have hsame : s.withOutputs (front ++ [].map after) = s := by
        rw [List.map_nil, ← List.map_nil (f := before), ← hs, withOutputs_outputs]
      rw [hsame]
      rfl
  | cons x xs ih =>
      have hhere : s.outputs[front.length]? = some (before x) := by
        rw [hs, List.map_cons, getElem?_front]
      have hset : s.outputs.set front.length (after x) = (front ++ [after x]) ++ xs.map before := by
        rw [hs, List.map_cons, set_front]
      have hone := onOutput_ok hhere (hcalls x List.mem_cons_self)
      have hrest := ih (fun y hy => hcalls y (List.mem_cons_of_mem _ hy)) (front ++ [after x])
        (s.withOutputs (s.outputs.set front.length (after x))) hset
      rw [List.length_append, List.length_singleton, List.append_assoc] at hrest
      rw [List.length_cons, List.replicate_succ, onOutputs]
      exact (Action.bind_ok hone).trans (Action.bind_ok hrest)

theorem discard_ok {x : ScriptAction σ α} {s s' : Session σ} {a : α} (h : x s = .ok a s') :
    (discard x : ScriptAction σ Unit) s = .ok () s' := by
  simp only [discard, Functor.discard, Functor.mapConst, Function.comp, EStateM.map, h]

theorem forM_range {n : Nat} (f : Nat → ScriptAction σ Unit) (between : Nat → Session σ)
    (hf : ∀ i < n, f i (between i) = .ok () (between (i + 1))) :
    (List.range n).forM f (between 0) = .ok () (between n) := by
  induction n with
  | zero => rfl
  | succ n ih =>
      have hfront := ih fun i hi => hf i (Nat.lt_succ_of_lt hi)
      have hlast : [n].forM f (between n) = .ok () (between (n + 1)) :=
        Action.bind_ok (hf n (Nat.lt_succ_self n))
      have hsplit : (List.range n ++ [n]).forM f
          = (List.range n).forM f >>= fun _ => [n].forM f := List.forM_append
      rw [List.range_succ, hsplit]
      exact (Action.bind_ok hfront).trans hlast

/-! ## Outputs that are being filled -/

/-- Outputs each of which holds what is said of its port. -/
def filled (v : Vocabulary) (buffers : List Buffer) (content : Nat → List (Int64 × Atom)) :
    List Writer :=
  buffers.zipIdx.map fun (buffer, port) => Writer.holding v buffer (content port)

section Filled

variable {v : Vocabulary} {buffers : List Buffer} {content : Nat → List (Int64 × Atom)}
variable {s : Session σ}

theorem length_filled (v : Vocabulary) (buffers : List Buffer)
    (content : Nat → List (Int64 × Atom)) :
    (filled v buffers content).length = buffers.length := by
  rw [filled, List.length_map, List.length_zipIdx]

theorem getElem?_filled (v : Vocabulary) (buffers : List Buffer)
    (content : Nat → List (Int64 × Atom)) (port : Nat) :
    (filled v buffers content)[port]?
      = buffers[port]?.map fun buffer => Writer.holding v buffer (content port) := by
  rw [filled, List.getElem?_map, List.getElem?_zipIdx, Option.map_map, Nat.zero_add]
  rfl

theorem filled_congr {other : Nat → List (Int64 × Atom)}
    (h : ∀ port < buffers.length, content port = other port) :
    filled v buffers content = filled v buffers other := by
  refine List.map_congr_left fun x hx => ?_
  obtain ⟨hlt, -⟩ := List.getElem?_eq_some_iff.1 (List.mem_zipIdx_iff_getElem?.1 hx)
  simp only [h x.2 hlt]

theorem set_filled {port : Nat} {buffer : Buffer} (hbuffer : buffers[port]? = some buffer)
    (more : List (Int64 × Atom)) :
    (filled v buffers content).set port (Writer.holding v buffer more)
      = filled v buffers fun other => if other = port then more else content other := by
  refine List.ext_getElem? fun other => ?_
  rw [List.getElem?_set, getElem?_filled, getElem?_filled, length_filled]
  by_cases hother : other = port
  · obtain ⟨hlt, -⟩ := List.getElem?_eq_some_iff.1 hbuffer
    rw [hother, if_pos rfl, if_pos hlt, hbuffer, if_pos rfl]
    rfl
  · rw [if_neg (Ne.symm hother), if_neg hother]

theorem start_zipIdx (v : Vocabulary) (buffers : List Buffer) :
    buffers.zipIdx.map (fun x => Writer.start v x.1) = buffers.map (Writer.start v) := by
  conv => rhs; rw [← List.zipIdx_map_fst 0 buffers]
  rw [List.map_map]
  rfl

theorem openOutputs_eq (hfit : ∀ buffer ∈ buffers, Atom.headerSize ≤ buffer.length)
    (hs : s.outputs = buffers.map (Writer.start v)) :
    openOutputs buffers.length s = .ok (List.replicate buffers.length Writer.firstFrame)
      (s.withOutputs (filled v buffers fun _ => [])) := by
  have hall := onOutputs_map (fun () => Writer.openSequence) () buffers.zipIdx
    (fun x : Buffer × Nat => Writer.start v x.1) (fun x => Writer.holding v x.1 [])
    (fun x hx => Writer.openSequence_start (hfit x.1 (List.fst_mem_of_mem_zipIdx hx))) [] s
    (hs.trans (start_zipIdx v buffers).symm)
  have hframes : (List.replicate buffers.length (some Writer.firstFrame)).filterMap id
      = List.replicate buffers.length Writer.firstFrame :=
    List.filterMap_replicate_of_some rfl
  rw [List.length_zipIdx] at hall
  rw [openOutputs, ← hframes]
  exact Action.bind_ok hall

theorem restartOutputs_eq (hwhole : ∀ port, Whole (content port))
    (hs : s.outputs = filled v buffers content) :
    restartOutputs (List.replicate buffers.length Writer.firstFrame) s
      = .ok () (s.withOutputs (filled v buffers fun port => atZero (content port))) := by
  have hall := onOutputs_map Writer.restartTimes Writer.firstFrame buffers.zipIdx
    (fun x : Buffer × Nat => Writer.holding v x.1 (content x.2))
    (fun x => Writer.holding v x.1 (atZero (content x.2)))
    (fun x _ => Writer.restartTimes_holding v x.1 (hwhole x.2)) [] s hs
  rw [List.length_zipIdx] at hall
  exact discard_ok hall

/-- The outputs when their sequences are closed. -/
def closed (v : Vocabulary) (buffers : List Buffer) (content : Nat → List (Int64 × Atom)) :
    List Writer :=
  buffers.zipIdx.map fun (buffer, port) =>
    (Writer.start v buffer).append (Atom.encode (v.id .sequence) (encodeEvents (content port)))

theorem closeOutputs_eq (hs : s.outputs = filled v buffers content) :
    closeOutputs (List.replicate buffers.length Writer.firstFrame) s
      = .ok () (s.withOutputs (closed v buffers content)) := by
  have hcall : ∀ (buffer : Buffer) (events : List (Int64 × Atom)),
      closeOutput Writer.firstFrame (Writer.holding v buffer events) = .ok ()
        ((Writer.start v buffer).append (Atom.encode (v.id .sequence) (encodeEvents events))) := by
    intro buffer events
    exact Action.bind_ok (Writer.close_holding v buffer events)
  have hall := onOutputs_map closeOutput Writer.firstFrame buffers.zipIdx
    (fun x : Buffer × Nat => Writer.holding v x.1 (content x.2))
    (fun x => (Writer.start v x.1).append
      (Atom.encode (v.id .sequence) (encodeEvents (content x.2))))
    (fun x _ => hcall x.1 (content x.2)) [] s hs
  rw [List.length_zipIdx] at hall
  exact discard_ok hall

end Filled

end Session

/-! ## The script that echoes -/

namespace Command

open Session

/-- The events that a block shows at a port. -/
def shown (b : Block) (port : Nat) : List (Int64 × Atom) :=
  eventsOf b.schema (b.input? port)

section Echo

variable {v : Vocabulary} {buffers : List Buffer} {content : Nat → List (Int64 × Atom)}
variable {b : Block} {s : Session Program}

theorem echoPort_eq {port : Nat} {buffer : Buffer} (hbuffer : buffers[port]? = some buffer)
    (hordered : Ordered (lastTime 0 (content port)) (shown b port))
    (hroom : (encodeEvents (shown b port)).length ≤ (Writer.holding v buffer (content port)).room)
    (hs : s.outputs = filled v buffers content) :
    (match b.input? port with
      | none => return ()
      | some input => discard (onOutput port (Writer.events (input.events b.schema))) :
        Action Unit) s
      = .ok () (s.withOutputs (filled v buffers fun other =>
          if other = port then content port ++ shown b port else content other)) := by
  cases hinput : b.input? port with
  | none =>
      have hsame : (fun other =>
          if other = port then content port ++ shown b port else content other) = content := by
        funext other
        split
        · next hother => rw [hother, shown, hinput, eventsOf, List.append_nil]
        · rfl
      rw [hsame, ← hs]
      rfl
  | some input =>
      have hshown : shown b port = input.events b.schema := by rw [shown, hinput, eventsOf]
      rw [hshown] at hordered hroom ⊢
      have hwriter : s.outputs[port]? = some (Writer.holding v buffer (content port)) := by
        rw [hs, getElem?_filled, hbuffer]
        rfl
      have hcalls := (Writer.appends_events hordered).1 hroom
      rw [← set_filled hbuffer, ← hs]
      exact discard_ok (onOutput_ok hwriter hcalls)

/-- What the outputs hold when the ports in front of one have got their events. -/
def upTo (i : Nat) (content more : Nat → List (Int64 × Atom)) (port : Nat) : List (Int64 × Atom) :=
  if port < i then content port ++ more port else content port

theorem upTo_zero (content more : Nat → List (Int64 × Atom)) : upTo 0 content more = content := by
  funext port
  exact if_neg (Nat.not_lt_zero port)

theorem upTo_self (i : Nat) (content more : Nat → List (Int64 × Atom)) :
    upTo i content more i = content i :=
  if_neg (Nat.lt_irrefl i)

theorem upTo_succ (i : Nat) (content more : Nat → List (Int64 × Atom)) :
    (fun port => if port = i then upTo i content more i ++ more i else upTo i content more port)
      = upTo (i + 1) content more := by
  funext port
  rw [upTo_self, upTo, upTo]
  rcases Nat.lt_trichotomy port i with hport | rfl | hport
  · rw [if_neg (Nat.ne_of_lt hport), if_pos hport, if_pos (by omega)]
  · rw [if_pos rfl, if_pos (Nat.lt_succ_self port)]
  · rw [if_neg (Nat.ne_of_gt hport), if_neg (by omega), if_neg (by omega)]

/-- Behind the last port that has an input nothing is shown. -/
theorem filled_upTo (v : Vocabulary) (buffers : List Buffer) (content : Nat → List (Int64 × Atom))
    (b : Block) :
    filled v buffers (upTo (min b.inputs.length buffers.length) content (shown b))
      = filled v buffers fun port => content port ++ shown b port := by
  refine filled_congr fun port hlt => ?_
  rw [upTo]
  split
  · rfl
  · next hno =>
    have hinput : b.input? port = none := by
      rw [Block.input?, List.getElem?_eq_none (by omega)]
      rfl
    rw [shown, hinput, eventsOf, List.append_nil]

/-- What a block shows is put at each port behind what the output of this port holds. -/
theorem echoPorts_eq
    (hports : ∀ port buffer, buffers[port]? = some buffer →
      Ordered (lastTime 0 (content port)) (shown b port) ∧
        (encodeEvents (shown b port)).length ≤ (Writer.holding v buffer (content port)).room)
    (hs : s.outputs = filled v buffers content) :
    echoPorts b s
      = .ok () (s.withOutputs (filled v buffers fun port => content port ++ shown b port)) := by
  have hlength : s.outputs.length = buffers.length := by rw [hs, length_filled]
  let between (i : Nat) : Session Program :=
    s.withOutputs (filled v buffers (upTo i content (shown b)))
  have hstep : ∀ i < min b.inputs.length buffers.length,
      (match b.input? i with
        | none => return ()
        | some input => discard (onOutput i (Writer.events (input.events b.schema))) :
          Action Unit) (between i) = .ok () (between (i + 1)) := by
    intro i hi
    have hlt : i < buffers.length := by omega
    have hbuffer : buffers[i]? = some buffers[i] := List.getElem?_eq_getElem hlt
    obtain ⟨hordered, hroom⟩ := hports i _ hbuffer
    have hheld : (between i).outputs = filled v buffers (upTo i content (shown b)) := rfl
    have hport := echoPort_eq hbuffer (by rw [upTo_self]; exact hordered)
      (by rw [upTo_self]; exact hroom) hheld
    rw [upTo_succ, withOutputs_withOutputs] at hport
    exact hport
  have hfirst : between 0 = s := by
    simp only [between, upTo_zero, ← hs, withOutputs_outputs]
  have hlast : between (min b.inputs.length buffers.length)
      = s.withOutputs (filled v buffers fun port => content port ++ shown b port) := by
    simp only [between, filled_upTo]
  have hloop := forM_range _ between hstep
  rw [hfirst, hlast, ← hlength] at hloop
  exact hloop

theorem runAll_single {c : Command} (hsteps : s.script.steps = [⟨c, none⟩]) :
    runAll b s = c.run b 0 s := by
  have hrun : runAll b s = (s.script.steps.zipIdx.forM fun x =>
    x.1.command.run b x.2 : Action Unit) s := rfl
  rw [hrun, hsteps]
  cases h : c.run b 0 s with
  | ok u after => exact Action.bind_ok h
  | error e after => exact Action.bind_error h

theorem runAll_echo (hsteps : s.script.steps = [⟨.echo, none⟩]) : runAll b s = echoPorts b s :=
  runAll_single hsteps

/-- The events that the blocks put aside show at a port. -/
def replayed (schema : Schema) (replay : Option Replay) (port : Nat) : List (Int64 × Atom) :=
  match replay with
  | none => []
  | some r => eventsOf schema (r.inputs[port]?).join

/-- What a block leaves at a port: the events that were put aside, at time zero, and then its
own. -/
def echoed (schema : Schema) (replay : Option Replay) (inputs : List (Option Atom)) (port : Nat) :
    List (Int64 × Atom) :=
  atZero (replayed schema replay port) ++ eventsOf schema (inputs[port]?).join

/-- A run of the script puts what the block shows behind what the outputs hold. -/
theorem run_eq (hsteps : s.script.steps = [⟨.echo, none⟩])
    (hs : s.outputs = filled v buffers content)
    (hports : ∀ port buffer, buffers[port]? = some buffer →
      Ordered (lastTime 0 (content port)) (shown b port) ∧
        Atom.headerSize + ((encodeEvents (content port)).length
          + (encodeEvents (shown b port)).length) ≤ buffer.length) :
    language.run b s
      = .ok () (s.withOutputs (filled v buffers fun port => content port ++ shown b port)) := by
  refine (runAll_echo hsteps).trans (echoPorts_eq (fun port buffer hbuffer => ?_) hs)
  obtain ⟨hordered, hfit⟩ := hports port buffer hbuffer
  refine ⟨hordered, ?_⟩
  rw [Writer.room_holding]
  omega

theorem play_echo {schema : Schema} {replay : Option Replay} {inputs : List (Option Atom)}
    (frames : UInt32) (hsteps : s.script.steps = [⟨.echo, none⟩])
    (hs : s.outputs = buffers.map (Writer.start v))
    (hports : ∀ port buffer, buffers[port]? = some buffer →
      Ordered 0 (replayed schema replay port) ∧ Ordered 0 (eventsOf schema (inputs[port]?).join) ∧
        Atom.headerSize + (encodeEvents (echoed schema replay inputs port)).length
          ≤ buffer.length) :
    play language schema replay inputs frames s
      = .ok () (s.withOutputs (closed v buffers (echoed schema replay inputs))) := by
  have hroom : ∀ port buffer, buffers[port]? = some buffer → Atom.headerSize
      + ((encodeEvents (replayed schema replay port)).length
        + (encodeEvents (eventsOf schema (inputs[port]?).join)).length) ≤ buffer.length := by
    intro port buffer hbuffer
    have hfit := (hports port buffer hbuffer).2.2
    rwa [echoed, encodeEvents_append, List.length_append, length_encodeEvents_atZero] at hfit
  have hopen : openOutputs s.outputs.length s
      = .ok (List.replicate buffers.length Writer.firstFrame)
        (s.withOutputs (filled v buffers fun _ => [])) := by
    rw [hs, List.length_map]
    refine openOutputs_eq (fun buffer hbuffer => ?_) hs
    obtain ⟨port, hport⟩ := List.mem_iff_getElem?.1 hbuffer
    have hfit := hroom port buffer hport
    omega
  -- The block itself comes behind what was put aside, in the same way whether anything was or not.
  have hlive : ∀ front : Session Program, front.script = s.script →
      front.outputs = filled v buffers (fun port => atZero (replayed schema replay port)) →
      (do
        language.run { schema, frames, inputs }
        closeOutputs (List.replicate buffers.length Writer.firstFrame) : Action Unit) front
        = .ok () (front.withOutputs (closed v buffers (echoed schema replay inputs))) := by
    intro front hscript hfront
    have hrun := run_eq (b := { schema, frames, inputs }) (by rw [hscript]; exact hsteps) hfront
      (fun port buffer hbuffer => by
        rw [lastTime_atZero, length_encodeEvents_atZero]
        exact ⟨(hports port buffer hbuffer).2.1, hroom port buffer hbuffer⟩)
    exact (Action.bind_ok hrun).trans (closeOutputs_eq rfl)
  refine (Action.bind_ok hopen).trans ?_
  cases replay with
  | none => exact hlive (s.withOutputs (filled v buffers fun _ => [])) rfl rfl
  | some r =>
      have hempty : (s.withOutputs (filled v buffers fun _ => [])).outputs
          = filled v buffers fun _ => [] := rfl
      have hrun := run_eq (b := { schema, frames := r.frames, inputs := r.inputs })
        (s := s.withOutputs (filled v buffers fun _ => [])) hsteps hempty
        (fun port buffer hbuffer => by
          refine ⟨(hports port buffer hbuffer).1, ?_⟩
          have hfit := hroom port buffer hbuffer
          have hshown : shown { schema, frames := r.frames, inputs := r.inputs } port
              = replayed schema (some r) port := rfl
          rw [encodeEvents_nil, List.length_nil, hshown]
          omega)
      have hrestart := restartOutputs_eq
        (fun port => whole_eventsOf schema (r.inputs[port]?).join)
        (outputs_withOutputs s
          (filled v buffers fun port => eventsOf schema (r.inputs[port]?).join))
      refine (Action.bind_ok hrun).trans ?_
      refine (Action.bind_ok hrestart).trans ?_
      exact hlive _ rfl rfl

end Echo

end Command

end BlockHost
