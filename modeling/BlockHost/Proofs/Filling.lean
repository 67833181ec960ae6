import BlockHost.Proofs.Echo
import BlockHost.Proofs.Shelves
import Mathlib.Data.List.Forall2

/-!
# Outputs while a script runs

A run that ends with a failure may leave anything in an output: half an event, or an open sequence.
All that is known then is that no output has another length (`Writer.Onward`). A run that gets
through leaves more. At every step each output holds an open sequence of whole events whose times do
not decrease (`Writer.Carries`), for no call that would break this is answered.

Both are said together of an action of a script (`Session.Fills`). When all runs of a language fill
the outputs in this sense, then a block that the script gets through closes every output as such a
sequence (`Session.play_closes`), the events that were put aside at time zero in front of the
others. The commands fill the outputs (`Command.run_fills`), one case for each.

The sizes of sequences are kept in 32 bits. So all of this is said of an output as long as fewer
than `Writer.sequenceLimit` bytes have been written to it. What has been written is never taken
back, and therefore this needs to be known only at the end of a block.
-/

namespace BlockHost

namespace Writer

/-! ## What every call keeps -/

/-- The writer has not gone back, and its buffer is as long as it was. -/
def Onward (w w' : Writer) : Prop :=
  w.offset ≤ w'.offset ∧ w'.capacity = w.capacity

instance : IsPreorder Writer Onward where
  refl _ := ⟨Nat.le_refl _, rfl⟩
  trans _ _ _ h h' := ⟨Nat.le_trans h.1 h'.1, h'.2.trans h.2⟩

theorem capacity_start (v : Vocabulary) (buffer : Buffer) :
    (start v buffer).capacity = buffer.length := by
  rw [← length_buffer, ← Buffer.length_bytes, start, bytes_buffer_startAt, Buffer.length_bytes]

theorem Extends.onward {w w' : Writer} (h : Extends w w') : Onward w w' := by
  refine ⟨?_, h.2⟩
  rw [← length_written, ← length_written]
  exact h.1.length_le

theorem emit_onward (bs : Bytes) : Action.Keeps Onward (emit bs) :=
  (emit_extends bs).mono fun _ _ => Extends.onward

theorem put_onward (type : UInt32) (body : Bytes) : Action.Keeps Onward (put type body) :=
  (put_extends type body).mono fun _ _ => Extends.onward

theorem time_onward (t : Int64) : Action.Keeps Onward (time t) := by
  intro w
  have hemit := emit_onward (Bytes.int64 t) w
  unfold time
  split
  · exact refl w
  · split
    · split
      · exact refl w
      · cases h : emit (Bytes.int64 t) w with
        | ok _ after =>
            rw [h] at hemit
            exact hemit
        | error e after =>
            rw [h] at hemit
            exact hemit
    · exact refl w

theorem openSequence_onward : Action.Keeps Onward openSequence := by
  intro w
  have hemit := emit_onward (Atom.header (w.vocabulary.id .sequence) 0 ++ []) w
  unfold openSequence enter
  split
  · exact refl w
  · split
    · exact refl w
    · split
      · exact refl w
      · cases h : emit (Atom.header (w.vocabulary.id .sequence) 0 ++ []) w with
        | ok _ after =>
            rw [h] at hemit
            exact hemit
        | error e after =>
            rw [h] at hemit
            exact hemit

theorem restartTimes_onward (frame : Frame) : Action.Keeps Onward (restartTimes frame) := by
  intro w
  unfold restartTimes
  split
  · exact refl w
  · split
    · split
      · exact ⟨Nat.le_refl _, rfl⟩
      · exact refl w
    · exact refl w

theorem close_onward (frame : Frame) : Action.Keeps Onward (close frame) := by
  intro w
  unfold close
  split
  · exact refl w
  · split
    · exact refl w
    · next top outer _ =>
        split
        -- Putting the size in changes no length, and padding only goes on.
        · exact emit_onward _
            { w.putSize (w.offset - top.header - Atom.headerSize) with frames := outer }
        · exact refl w

theorem closeOutput_onward (frame : Frame) : Action.Keeps Onward (Session.closeOutput frame) := by
  refine (close_onward frame).bind fun _ => Action.keeps_get.bind fun w => ?_
  cases w.finish with
  | ok n => exact Action.keeps_pure _
  | error cause => exact Action.keeps_throw cause

/-! ## What an answer means for an open sequence -/

/-- A sequence with its header that has fewer bytes can say its size. -/
def sequenceLimit : Nat := 2 ^ 32 + Atom.headerSize

/-- An output that is being filled, with whole events whose times do not decrease, unless so much
has been written to it that a sequence cannot say its size. -/
def Carries (v : Vocabulary) (buffer : Buffer) (w : Writer) : Prop :=
  w.offset < sequenceLimit →
    ∃ events, Whole events ∧ Ordered 0 events ∧ w = holding v buffer events

/-- Whatever output is being filled, it still is. -/
def Carrying (v : Vocabulary) (w w' : Writer) : Prop :=
  ∀ buffer, Carries v buffer w → Carries v buffer w'

instance (v : Vocabulary) : IsPreorder Writer (Carrying v) where
  refl _ _ h := h
  trans _ _ _ h h' buffer hw := h' buffer (h buffer hw)

/-- What is below the limit after a call was below it before. -/
theorem Carries.before {v : Vocabulary} {buffer : Buffer} {w w' : Writer}
    (hw : Carries v buffer w) (honward : Onward w w') (hlt : w'.offset < sequenceLimit) :
    ∃ events, Whole events ∧ Ordered 0 events ∧ w = holding v buffer events :=
  hw (Nat.lt_of_le_of_lt honward.1 hlt)

end Writer

theorem Ordered.snoc {first t : Int64} {a : Atom} {events : List (Int64 × Atom)}
    (h : Ordered first events) (hle : lastTime first events ≤ t) :
    Ordered first (events ++ [(t, a)]) := by
  induction events generalizing first with
  | nil => exact List.pairwise_pair.2 hle
  | cons e events ih =>
      obtain ⟨s, b⟩ := e
      rw [lastTime_cons] at hle
      obtain ⟨hs, hrest⟩ := h.cons
      have hmore := ih hrest hle
      obtain ⟨hfirst, -⟩ := List.pairwise_cons.1 hmore
      refine List.pairwise_cons.2 ⟨?_, hmore⟩
      intro u hu
      rcases List.mem_cons.1 hu with rfl | hu
      · exact hs
      · exact Int64.le_trans hs (hfirst u hu)

theorem ordered_atZero (events : List (Int64 × Atom)) : Ordered 0 (atZero events) := by
  have htimes : 0 :: (atZero events).map Prod.fst = List.replicate (events.length + 1) 0 := by
    rw [atZero, List.map_map, List.replicate_succ]
    exact congrArg (List.cons 0) List.map_const'
  rw [Ordered, htimes]
  exact List.pairwise_replicate.2 (.inr (Int64.le_refl 0))

namespace Writer

section Calls

variable {v : Vocabulary} {buffer : Buffer} {events : List (Int64 × Atom)}

theorem offset_holding (v : Vocabulary) (buffer : Buffer) (events : List (Int64 × Atom)) :
    (holding v buffer events).offset = Atom.headerSize + (encodeEvents events).length := by
  rw [holding, offset_withFrames, offset_append, offset_start, List.length_append,
    Atom.length_header, Nat.zero_add]
  rfl

theorem le_of_time_ok {t : Int64} {w' : Writer} (h : time t (holding v buffer events) = .ok () w') :
    lastTime 0 events ≤ t := by
  refine Int64.not_lt.1 ?_
  intro hlt
  have hrefused : time t (holding v buffer events)
      = .error .timeDecreasing (holding v buffer events) := if_pos hlt
  rw [hrefused] at h
  cases h

/-- Calls that put one atom. -/
def Puts (calls : Write Unit) : Prop :=
  ∀ w, ∃ type body, calls w = put type body w

theorem puts_copy (a : Atom) : Puts (copy a) :=
  fun _ => ⟨a.type, a.body, rfl⟩

theorem puts_scalar (n : Scalar) : Puts (scalar n) :=
  fun w => ⟨w.vocabulary.id n.term, n.body, rfl⟩

variable {calls : Write Unit}

theorem Puts.onward (h : Puts calls) : Action.Keeps Onward calls := by
  intro w
  obtain ⟨type, body, heq⟩ := h w
  rw [heq]
  exact put_onward type body w

theorem Puts.event_ok (h : Puts calls) {t : Int64} {w' : Writer}
    (hok : (do time t; calls) (holding v buffer events) = .ok () w') :
    lastTime 0 events ≤ t ∧
      ∃ type body, w' = holding v buffer (events ++ [(t, .ofBody type body)]) := by
  obtain ⟨⟨⟩, mid, htime, hput⟩ := Action.of_bind_ok hok
  have hle := le_of_time_ok htime
  obtain ⟨-, rfl⟩ := (appends_time (w := holding v buffer events) rfl rfl hle).eq_of_ok htime
  obtain ⟨type, body, heq⟩ := h _
  rw [heq] at hput
  obtain ⟨-, rfl⟩ := (appends_put rfl rfl type body).eq_of_ok hput
  refine ⟨hle, type, body, ?_⟩
  rw [append_withFrames, append_append]
  exact holding_step v buffer events t (.ofBody type body)

theorem whole_snoc {type : UInt32} {body : Bytes} {t : Int64} (hwhole : Whole events)
    (hlt : (holding v buffer (events ++ [(t, .ofBody type body)])).offset < sequenceLimit) :
    Whole (events ++ [(t, .ofBody type body)]) := by
  have hroom := le_padded (8 + body.length)
  rw [offset_holding, encodeEvents_append, encodeEvents_cons, encodeEvents_nil, List.append_nil,
    List.length_append, List.length_append, Bytes.length_int64, Atom.length_encode,
    Atom.body_ofBody, sequenceLimit] at hlt
  refine hwhole.append ?_
  intro e he
  rw [List.mem_singleton.1 he]
  exact (Nat.mod_eq_of_lt (by omega : body.length < 2 ^ 32)).symm

theorem Puts.event_leads (h : Puts calls) (v : Vocabulary) (t : Int64) :
    Action.Leads Onward (Carrying v) (do time t; calls) := by
  have honward : Action.Keeps Onward (do time t; calls) := (time_onward t).bind fun _ => h.onward
  refine ⟨honward, ?_⟩
  intro w _ w' hok buffer hw hlt
  obtain ⟨events, hwhole, hordered, rfl⟩ := hw.before (honward.of_ok hok) hlt
  obtain ⟨htime, type, body, rfl⟩ := h.event_ok hok
  exact ⟨_, whole_snoc hwhole hlt, hordered.snoc htime, rfl⟩

theorem events_leads (v : Vocabulary) (items : List (Int64 × Atom)) :
    Action.Leads Onward (Carrying v) (Writer.events items) :=
  Action.leads_forM fun e _ => (puts_copy e.2).event_leads v e.1

/-- A time before the one that has just been written is refused. -/
theorem Puts.rewind_leads (h : Puts calls) (v : Vocabulary) {t earlier : Int64}
    (hlt : earlier < t) : Action.Leads Onward (Carrying v) (do time t; calls; time earlier) := by
  have honward : Action.Keeps Onward (do time t; calls; time earlier) :=
    (time_onward t).bind fun _ => h.onward.bind fun _ => time_onward earlier
  refine ⟨honward, ?_⟩
  intro w _ w' hok buffer hw hbelow
  obtain ⟨events, -, -, rfl⟩ := hw.before (honward.of_ok hok) hbelow
  obtain ⟨⟨⟩, mid, htime, hrest⟩ := Action.of_bind_ok hok
  obtain ⟨⟨⟩, mid', hput, hagain⟩ := Action.of_bind_ok hrest
  obtain ⟨-, type, body, rfl⟩ := h.event_ok ((Action.bind_ok htime).trans hput)
  have hback := le_of_time_ok hagain
  rw [lastTime_append, lastTime_cons, lastTime_nil] at hback
  exact absurd hlt (Int64.not_lt.2 hback)

theorem restartTimes_leads (v : Vocabulary) :
    Action.Leads Onward (Carrying v) (restartTimes firstFrame) := by
  refine ⟨restartTimes_onward firstFrame, ?_⟩
  intro w _ w' hok buffer hw hlt
  obtain ⟨events, hwhole, -, rfl⟩ := hw.before ((restartTimes_onward firstFrame).of_ok hok) hlt
  rw [restartTimes_holding v buffer hwhole] at hok
  cases hok
  exact ⟨atZero events, hwhole.atZero, ordered_atZero events, rfl⟩

/-! ## Opening and closing -/

theorem openSequence_start_ok {frame : Frame} {w' : Writer}
    (h : openSequence (start v buffer) = .ok frame w') :
    frame = firstFrame ∧ Carries v buffer w' := by
  have hopen :=
    appends_enter (w := start v buffer) rfl rfl (Nat.zero_lt_succ 7) .sequence .sequence []
  have hfit := hopen.ok_iff.1 ⟨frame, w', h⟩
  rw [room_start, List.append_nil, Atom.length_header] at hfit
  rw [openSequence_start hfit] at h
  cases h
  exact ⟨rfl, fun _ => ⟨[], fun _ he => absurd he List.not_mem_nil, ordered_nil 0, rfl⟩⟩

/-- An output whose sequence is closed, with whole events whose times do not decrease. -/
def Closes (v : Vocabulary) (buffer : Buffer) (w : Writer) : Prop :=
  w.offset < sequenceLimit → ∃ events, Whole events ∧ Ordered 0 events ∧
    w = (start v buffer).append (Atom.encode (v.id .sequence) (encodeEvents events))

theorem Carries.close_ok {w w' : Writer} (hw : Carries v buffer w)
    (h : Session.closeOutput firstFrame w = .ok () w') : Closes v buffer w' := by
  intro hlt
  obtain ⟨events, hwhole, hordered, rfl⟩ :=
    hw.before ((closeOutput_onward firstFrame).of_ok h) hlt
  have hclose : Session.closeOutput firstFrame (holding v buffer events) = .ok ()
      ((start v buffer).append (Atom.encode (v.id .sequence) (encodeEvents events))) :=
    Action.bind_ok (close_holding v buffer events)
  rw [hclose] at h
  cases h
  exact ⟨events, hwhole, hordered, rfl⟩

end Calls

end Writer

/-! ## Sessions -/

namespace Session

variable {σ α β : Type} {R Q : Writer → Writer → Prop}

/-- Each output stands in a relation to what it was. -/
def Ports (R : Writer → Writer → Prop) (s s' : Session σ) : Prop :=
  List.Forall₂ R s.outputs s'.outputs

theorem forall₂_trans {γ δ : Type} {P : γ → δ → Prop} {R : δ → δ → Prop} {xs : List γ}
    {ys zs : List δ} (h : List.Forall₂ P xs ys) (hR : List.Forall₂ R ys zs)
    (hstep : ∀ x y z, P x y → R y z → P x z) : List.Forall₂ P xs zs := by
  induction h generalizing zs with
  | nil =>
      cases hR
      exact .nil
  | cons hxy _ ih =>
      cases hR with
      | cons hyz hrest => exact .cons (hstep _ _ _ hxy hyz) (ih hrest)

instance [IsPreorder Writer R] : IsPreorder (Session σ) (Ports R) where
  refl s := List.forall₂_refl s.outputs
  trans _ _ _ h h' := forall₂_trans h h' fun _ _ _ => trans_of R

theorem leads_of_outputs [IsPreorder Writer R] [IsPreorder Writer Q] {x : ScriptAction σ α}
    (h : ∀ s, (Action.left (x s)).outputs = s.outputs) : Action.Leads (Ports R) (Ports Q) x := by
  refine ⟨?_, ?_⟩
  · intro s
    rw [Ports, h]
    exact List.forall₂_refl s.outputs
  · intro s a s' hok
    have hsame := h s
    rw [hok] at hsame
    rw [Ports, ← hsame]
    exact List.forall₂_refl _

theorem forall₂_set [IsPreorder Writer R] {ws : List Writer} {port : Nat} {w w' : Writer}
    (hw : ws[port]? = some w) (hR : R w w') : List.Forall₂ R ws (ws.set port w') := by
  induction ws generalizing port with
  | nil => cases hw
  | cons first ws ih =>
      cases port with
      | zero =>
          cases hw
          exact .cons hR (List.forall₂_refl ws)
      | succ port => exact .cons (refl first) (ih hw)

theorem leads_onOutput [IsPreorder Writer R] [IsPreorder Writer Q] {calls : Write α}
    (h : Action.Leads R Q calls) (port : Nat) :
    Action.Leads (Ports R) (Ports Q) (onOutput port calls : ScriptAction σ (Option α)) := by
  refine ⟨?_, ?_⟩
  · intro s
    rw [onOutput]
    cases hw : s.outputs[port]? with
    | none => exact refl s
    | some w =>
        have hleft := h.keeps w
        cases hcalls : calls w with
        | ok a w' =>
            rw [hcalls] at hleft
            simp only [hcalls]
            exact forall₂_set hw hleft
        | error cause w' =>
            rw [hcalls] at hleft
            simp only [hcalls]
            exact forall₂_set hw hleft
  · intro s a s' hok
    rw [onOutput] at hok
    cases hw : s.outputs[port]? with
    | none =>
        rw [hw] at hok
        cases hok
        exact refl s
    | some w =>
        rw [hw] at hok
        cases hcalls : calls w with
        | ok b w' =>
            simp only [hcalls] at hok
            cases hok
            exact forall₂_set hw (h.answers hcalls)
        | error cause w' =>
            simp only [hcalls] at hok
            cases hok

theorem onOutput_keeps [IsPreorder Writer R] {calls : Write α} (h : Action.Keeps R calls)
    (port : Nat) : Action.Keeps (Ports R) (onOutput port calls : ScriptAction σ (Option α)) :=
  (leads_onOutput h.leads port).keeps

theorem onOutputs_keeps [IsPreorder Writer R] {calls : α → Write β}
    (h : ∀ a, Action.Keeps R (calls a)) (port : Nat) (items : List α) :
    Action.Keeps (Ports R) (onOutputs calls port items : ScriptAction σ (List (Option β))) := by
  induction items generalizing port with
  | nil => exact Action.keeps_pure _
  | cons a items ih =>
      exact (onOutput_keeps (h a) port).bind fun _ => (ih (port + 1)).bind fun _ =>
        Action.keeps_pure _

/-- The same call on every output, when it is known what the call answers and what it makes of an
output of which something is known. -/
theorem onOutputs_ok (front : List Writer) {P P' : Buffer → Writer → Prop} {calls : α → Write β}
    {a : α} (b : β)
    (hcalls : ∀ {buffer w b' w'}, P buffer w → calls a w = .ok b' w' → b' = b ∧ P' buffer w')
    {buffers : List Buffer} {ws : List Writer} {s s' : Session σ} {bs : List (Option β)}
    (hP : List.Forall₂ P buffers ws) (hs : s.outputs = front ++ ws)
    (h : onOutputs calls front.length (List.replicate ws.length a) s = .ok bs s') :
    bs = List.replicate ws.length (some b) ∧
      ∃ ws', s'.outputs = front ++ ws' ∧ List.Forall₂ P' buffers ws' := by
  induction hP generalizing front s bs with
  | nil =>
      cases h
      exact ⟨rfl, [], hs, .nil⟩
  | @cons buffer w buffers ws hw _ ih =>
      have hhere : s.outputs[front.length]? = some w := by
        rw [hs, getElem?_front]
      rw [List.length_cons, List.replicate_succ, onOutputs] at h
      obtain ⟨answer, mid, hone, hrest⟩ := Action.of_bind_ok h
      obtain ⟨answers, last, hothers, hdone⟩ := Action.of_bind_ok hrest
      cases hdone
      rw [onOutput, hhere] at hone
      cases hcall : calls a w with
      | error cause w' =>
          simp only [hcall] at hone
          cases hone
      | ok b' w' =>
          simp only [hcall] at hone
          cases hone
          obtain ⟨rfl, hw'⟩ := hcalls hw hcall
          have hset : s.outputs.set front.length w' = (front ++ [w']) ++ ws := by
            rw [hs, set_front]
          obtain ⟨rfl, ws', houtputs, hP'⟩ := @ih (front ++ [w'])
            (s.withOutputs (s.outputs.set front.length w')) _ hset (by
              rw [List.length_append, List.length_singleton]
              exact hothers)
          refine ⟨rfl, w' :: ws', ?_, .cons hw' hP'⟩
          rw [houtputs, List.append_assoc, List.singleton_append]

section Play

variable {v : Vocabulary} {buffers : List Buffer} {s s' : Session σ} {frames : List Frame}

theorem openOutputs_ok (hs : s.outputs = buffers.map (Writer.start v))
    (h : openOutputs s.outputs.length s = .ok frames s') :
    frames = List.replicate buffers.length Writer.firstFrame ∧
      List.Forall₂ (Writer.Carries v) buffers s'.outputs := by
  have hstart : List.Forall₂ (fun buffer w => w = Writer.start v buffer) buffers s.outputs := by
    rw [hs, List.forall₂_map_right_iff]
    exact List.forall₂_same.2 fun _ _ => rfl
  obtain ⟨opened, mid, hopen, hframes⟩ := Action.of_bind_ok h
  cases hframes
  obtain ⟨rfl, ws, houtputs, hcarries⟩ := onOutputs_ok [] Writer.firstFrame
    (fun {buffer w b' w'} hw hcall => Writer.openSequence_start_ok (by rw [← hw]; exact hcall))
    hstart rfl hopen
  rw [houtputs]
  refine ⟨?_, hcarries⟩
  rw [hstart.length_eq]
  exact List.filterMap_replicate_of_some rfl

theorem of_discard_ok {x : ScriptAction σ α} (h : (discard x : ScriptAction σ Unit) s = .ok () s') :
    ∃ a, x s = .ok a s' := by
  cases hx : x s with
  | ok a after =>
      rw [discard_ok hx] at h
      cases h
      exact ⟨a, rfl⟩
  | error e after =>
      simp only [discard, Functor.discard, Functor.mapConst, Function.comp, EStateM.map, hx] at h
      cases h

theorem restartOutputs_ok (hs : List.Forall₂ (Writer.Carries v) buffers s.outputs)
    (h : restartOutputs (List.replicate buffers.length Writer.firstFrame) s = .ok () s') :
    List.Forall₂ (Writer.Carries v) buffers s'.outputs := by
  obtain ⟨bs, hall⟩ := of_discard_ok h
  rw [hs.length_eq] at hall
  obtain ⟨-, ws, houtputs, hcarries⟩ := onOutputs_ok [] ()
    (fun {buffer _ _ _} hw hcall => ⟨rfl, (Writer.restartTimes_leads v).answers hcall buffer hw⟩)
    hs rfl hall
  rw [houtputs]
  exact hcarries

theorem closeOutputs_ok (hs : List.Forall₂ (Writer.Carries v) buffers s.outputs)
    (h : closeOutputs (List.replicate buffers.length Writer.firstFrame) s = .ok () s') :
    List.Forall₂ (Writer.Closes v) buffers s'.outputs := by
  obtain ⟨bs, hall⟩ := of_discard_ok h
  rw [hs.length_eq] at hall
  obtain ⟨-, ws, houtputs, hcloses⟩ := onOutputs_ok [] ()
    (fun {_ _ _ _} hw hcall => ⟨rfl, hw.close_ok hcall⟩) hs rfl hall
  rw [houtputs]
  exact hcloses

/-- An action of a script that fills outputs. Whatever comes of it, no output gets another length,
and when it answers, every output that was being filled still is. -/
def Fills (v : Vocabulary) (x : ScriptAction σ α) : Prop :=
  Action.Leads (Ports Writer.Onward) (Ports (Writer.Carrying v)) x

theorem Fills.carries {x : ScriptAction σ α} (hx : Fills v x) {a : α} (h : x s = .ok a s')
    (hs : List.Forall₂ (Writer.Carries v) buffers s.outputs) :
    List.Forall₂ (Writer.Carries v) buffers s'.outputs :=
  forall₂_trans hs (hx.answers h) fun buffer _ _ hw hstep => hstep buffer hw

variable {language : Language σ} {schema : Schema} {replay : Option Replay}
variable {inputs : List (Option Atom)} {count : UInt32}

/-- However a block ends, no output has another length than before. -/
theorem play_onward (hrun : ∀ b, Fills v (language.run b)) (schema : Schema)
    (replay : Option Replay) (inputs : List (Option Atom)) (count : UInt32) :
    Action.Keeps (Ports Writer.Onward) (play language schema replay inputs count) := by
  have hopen : ∀ n,
      Action.Keeps (Ports Writer.Onward) (openOutputs n : ScriptAction σ (List Frame)) := by
    intro n
    exact (onOutputs_keeps (fun _ => Writer.openSequence_onward) 0 _).bind fun _ =>
      Action.keeps_pure _
  have hrestart : ∀ frames,
      Action.Keeps (Ports Writer.Onward) (restartOutputs frames : ScriptAction σ Unit) := by
    intro frames
    exact (onOutputs_keeps Writer.restartTimes_onward 0 frames).leads.discard.keeps
  have hlive : ∀ frames, Action.Keeps (Ports Writer.Onward) (do
      language.run { schema, frames := count, inputs }
      closeOutputs frames : ScriptAction σ Unit) := by
    intro frames
    have hclose : Action.Keeps (Ports Writer.Onward) (closeOutputs frames : ScriptAction σ Unit) :=
      (onOutputs_keeps Writer.closeOutput_onward 0 frames).leads.discard.keeps
    exact (hrun _).keeps.bind fun _ => hclose
  refine Action.keeps_get.bind fun s => (hopen _).bind fun frames => ?_
  cases replay with
  | none => exact hlive frames
  | some r => exact (hrun _).keeps.bind fun _ => (hrestart frames).bind fun _ => hlive frames

theorem play_closes (hrun : ∀ b, Fills v (language.run b))
    (hs : s.outputs = buffers.map (Writer.start v))
    (h : play language schema replay inputs count s = .ok () s') :
    List.Forall₂ (Writer.Closes v) buffers s'.outputs := by
  obtain ⟨_, _, hget, hplay⟩ := Action.of_bind_ok h
  cases hget
  obtain ⟨frames, opened, hopen, hrest⟩ := Action.of_bind_ok hplay
  obtain ⟨rfl, hopened⟩ := openOutputs_ok hs hopen
  have hlive : ∀ {front : Session σ}, List.Forall₂ (Writer.Carries v) buffers front.outputs →
      (do
        language.run { schema, frames := count, inputs }
        closeOutputs (List.replicate buffers.length Writer.firstFrame) : ScriptAction σ Unit) front
        = .ok () s' → List.Forall₂ (Writer.Closes v) buffers s'.outputs := by
    intro front hfront hlast
    obtain ⟨⟨⟩, played, hplay, hclose⟩ := Action.of_bind_ok hlast
    exact closeOutputs_ok ((hrun _).carries hplay hfront) hclose
  cases replay with
  | none => exact hlive hopened hrest
  | some r =>
      obtain ⟨⟨⟩, played, hplay, hafter⟩ := Action.of_bind_ok hrest
      obtain ⟨⟨⟩, restarted, hrestart, hlast⟩ := Action.of_bind_ok hafter
      exact hlive (restartOutputs_ok ((hrun _).carries hplay hopened) hrestart) hlast

end Play

end Session

/-! ## The commands -/

namespace Command

open Session

variable {α : Type} {v : Vocabulary}

theorem onHeap_fills (action : HeapAction α) : Fills v (onHeap action : Action α) := by
  refine leads_of_outputs fun s => ?_
  rw [onHeap]
  cases action s.heap with
  | ok a heap => rfl
  | error cause heap => cases cause <;> rfl

theorem state_fills : Fills v (state : Action Program) :=
  leads_of_outputs fun _ => rfl

theorem setState_fills (p : Program) : Fills v (setState p : Action Unit) :=
  leads_of_outputs fun _ => rfl

theorem echoPorts_fills (b : Block) : Fills v (echoPorts b) := by
  refine Action.leads_get.bind fun s => Action.leads_forM fun port _ => ?_
  cases b.input? port with
  | none => exact Action.leads_pure _
  | some input => exact (leads_onOutput (Writer.events_leads v _) port).discard

theorem addToCounter_fills (n : Nat) : Fills v (addToCounter n) := by
  refine state_fills.bind fun p => ?_
  show Fills v (if p.counter.toInt + n < 2 ^ 63 then _ else _)
  split
  · exact setState_fills _
  · exact Action.leads_throw _

theorem writeLast_fills (b : Block) {calls : Write Unit} (h : Writer.Puts calls) :
    Fills v (writeLast b calls) :=
  (leads_onOutput (h.event_leads v b.lastFrame) 0).discard

theorem puts_writeFlood (size : Nat) : Writer.Puts (writeFlood size) :=
  fun w => ⟨w.vocabulary.id .chunk, List.replicate (min size (w.capacity + 1)) floodByte, rfl⟩

theorem holdAt_fills (position size : Nat) : Fills v (holdAt position size) := by
  refine state_fills.bind fun p => ?_
  cases (p.steps[position]?).bind Step.held with
  | some _ => exact Action.leads_pure _
  | none =>
      exact (onHeap_fills _).bind fun _ => state_fills.bind fun _ => setState_fills _

theorem run_fills (b : Block) (position : Nat) (c : Command) : Fills v (c.run b position) := by
  cases c with
  | echo => exact echoPorts_fills b
  | count =>
      have hwrite : Fills v (do
          let p ← state
          writeLast b (Writer.scalar (.long p.counter)) : Action Unit) :=
        state_fills.bind fun p => writeLast_fills b (Writer.puts_scalar _)
      rw [Command.run]
      cases b.input? 0 with
      | none => exact hwrite
      | some input => exact (addToCounter_fills _).bind fun _ => hwrite
  | hold size => exact holdAt_fills position size
  | churn size => exact (onHeap_fills _).bind fun p => onHeap_fills _
  | trace text => exact leads_of_outputs fun _ => rfl
  | flood size => exact writeLast_fills b (puts_writeFlood size)
  | rewind =>
      exact (leads_onOutput ((Writer.puts_scalar (.int 0)).rewind_leads v (by decide)) 0).discard
  | fail => exact Action.leads_throw _
  | panic => exact Action.leads_throw _

theorem language_fills (b : Block) : Fills v (language.run b) :=
  state_fills.bind fun _ => Action.leads_forM fun x _ => run_fills b x.2 x.1.command

end Command

end BlockHost
