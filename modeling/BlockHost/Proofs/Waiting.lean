import BlockHost.Proofs.HostCalls

/-!
# Calls that wait

A host is called again and again, and each call finds the gate free or held by another side. The
calls since the last one that found the gate free are waiting: a run falls into rounds, in each
of which one call that finds the gate free takes with it the calls that have waited for it
(`Host.rounds`). What waits in a backlog is said by the waiting calls alone, and one more call
that has to wait adds its own events (`Backlog.Waits.append`).
-/

namespace BlockHost

/-- The events at a port, none when nothing lies there. -/
def eventsAt (s : Schema) (buffers : List Buffer) (port : Nat) : List (Int64 × Atom) :=
  eventsOf s ((buffers[port]?).bind Buffer.atom?)

namespace Host

variable {σ : Type}

/-- A call of the audio side. -/
structure Call where
  /-- Whether another side holds the gate. -/
  contended : Bool
  inputs : List Buffer
  outputs : List Buffer
  frames : UInt32

/-- What a call brings about. -/
structure Answer (σ : Type) where
  host : Host σ
  outcome : Outcome
  outputs : List Buffer

/-- Answers a call. The other side takes the gate before a contended call and leaves it
afterwards. -/
def answer (language : Language σ) (h : Host σ) (c : Call) : Except Fault (Answer σ) :=
  if c.contended then
    match h.hold.process language c.inputs c.outputs c.frames with
    | .ok (h, outcome, outputs) => .ok ⟨h.leave, outcome, outputs⟩
    | .error fault => .error fault
  else
    match h.process language c.inputs c.outputs c.frames with
    | .ok (h, outcome, outputs) => .ok ⟨h, outcome, outputs⟩
    | .error fault => .error fault

/-- Answers calls, one after the other, until one is brought down. -/
def answers (language : Language σ) : Host σ → List Call → List (Answer σ) × Option Fault
  | _, [] => ([], none)
  | h, c :: rest =>
      match h.answer language c with
      | .error fault => ([], some fault)
      | .ok a =>
          let (others, fault) := answers language a.host rest
          (a :: others, fault)

namespace Call

/-- The events that a call shows at a port. -/
def events (settings : Settings) (s : Schema) (port : Nat) (c : Call) : List (Int64 × Atom) :=
  eventsAt s (c.inputs.take settings.inputs) port

/-- Times do not decrease, and lie in the block. -/
def Timely (settings : Settings) (s : Schema) (c : Call) : Prop :=
  ∀ port, Ordered 0 (c.events settings s port) ∧
    ∀ e ∈ c.events settings s port, e.1.toInt ≤ c.frames.toNat

/-- The events of a call as they are to be carried: at time zero when the block had to wait. -/
def due (settings : Settings) (s : Schema) (port : Nat) (c : Call) : List (Int64 × Atom) :=
  if c.contended then atZero (c.events settings s port) else c.events settings s port

end Call

/-- A call that finds the gate free, and the calls before it that had to wait for it. -/
structure Round where
  waiting : List Call
  call : Call

/-- The rounds of a run that begins with calls waiting. -/
def rounds : (waiting : List Call) → List Call → List Round
  | _, [] => []
  | waiting, c :: rest =>
      if c.contended then rounds (waiting ++ [c]) rest
      else ⟨waiting, c⟩ :: rounds [] rest

namespace Round

/-- What a round is to carry at a port. -/
def events (settings : Settings) (s : Schema) (port : Nat) (r : Round) : List (Int64 × Atom) :=
  atZero (r.waiting.flatMap (Call.events settings s port)) ++ r.call.events settings s port

/-- Every served output has room for what it is to carry, and its size is that of an atom. -/
def Fits (settings : Settings) (s : Schema) (r : Round) : Prop :=
  ∀ port buffer, (r.call.outputs.take settings.outputs)[port]? = some buffer →
    Atom.headerSize + (encodeEvents (r.events settings s port)).length ≤ buffer.length ∧
      (encodeEvents (r.events settings s port)).length < 2 ^ 32

end Round

/-- What a run carries at a port, answer by answer, where the gate was free. -/
def carried (s : Schema) (port : Nat) (calls : List Call) (as : List (Answer σ)) :
    List (List (Int64 × Atom)) :=
  ((calls.zip as).filter fun x => !x.1.contended).map fun x => eventsAt s x.2.outputs port

theorem flatMap_due (settings : Settings) (s : Schema) (port : Nat) {waiting : List Call}
    (h : ∀ c ∈ waiting, c.contended = true) :
    waiting.flatMap (Call.due settings s port)
      = atZero (waiting.flatMap (Call.events settings s port)) := by
  induction waiting with
  | nil => rfl
  | cons c rest ih =>
      have hrest := ih fun c hc => h c (List.mem_cons_of_mem _ hc)
      rw [List.flatMap_cons, List.flatMap_cons, hrest, Call.due, if_pos (h c List.mem_cons_self),
        atZero_append]

/-- Round by round the same events are carried as call by call, when no call waits in the end. -/
theorem flatMap_rounds (settings : Settings) (s : Schema) (port : Nat) {calls : List Call} :
    ∀ {waiting : List Call}, (∀ c ∈ waiting, c.contended = true) →
      (∀ c, (waiting ++ calls).getLast? = some c → c.contended = false) →
      (rounds waiting calls).flatMap (Round.events settings s port)
        = (waiting ++ calls).flatMap (Call.due settings s port) := by
  induction calls with
  | nil =>
      intro waiting hwaiting hlast
      cases hend : waiting.getLast? with
      | none =>
          rw [List.getLast?_eq_none_iff.1 hend]
          rfl
      | some c =>
          have hfree := hlast c (by rw [List.append_nil]; exact hend)
          have hheld := hwaiting c (List.mem_of_getLast? hend)
          rw [hfree] at hheld
          cases hheld
  | cons c rest ih =>
      intro waiting hwaiting hlast
      rw [rounds]
      split
      · next hheld =>
        have hmore : ∀ c' ∈ waiting ++ [c], c'.contended = true := by
          intro c' hc
          rcases List.mem_append.1 hc with hc | hc
          · exact hwaiting c' hc
          · rw [List.mem_singleton.1 hc]
            exact hheld
        have hrest := ih hmore (by rw [List.append_assoc]; exact hlast)
        rw [hrest, List.append_assoc]
        rfl
      · next hfree =>
        have hrest := @ih [] (fun c hc => absurd hc List.not_mem_nil) (fun c' hc' => by
          rw [List.nil_append] at hc'
          refine hlast c' ?_
          rw [List.getLast?_append, List.getLast?_cons, hc']
          rfl)
        rw [List.nil_append] at hrest
        rw [List.flatMap_cons, hrest, List.flatMap_append, flatMap_due settings s port hwaiting,
          List.flatMap_cons, Round.events, Call.due, if_neg hfree, List.append_assoc]

/-! ## Backlogs of waiting calls -/

end Host

/-- The backlog of a port holds the events that the waiting calls have shown there. -/
structure Backlog.Waits (settings : Settings) (s : Schema) (waiting : List Host.Call) (port : Nat)
    (b : Backlog) : Prop where
  schema_eq : b.schema = s
  good : b.failed = false
  offset_eq : b.offset = (waiting.map fun c => c.frames.toNat).sum
  blocks_eq : b.blocks = waiting.length
  events_eq : atZero b.events = atZero (waiting.flatMap (Host.Call.events settings s port))
  ordered : Ordered 0 b.events
  times_le : ∀ e ∈ b.events, e.1.toInt ≤ b.offset

section Waits

variable {settings : Settings} {s : Schema} {waiting : List Host.Call} {port : Nat} {b : Backlog}

theorem Host.whole_waiting (settings : Settings) (s : Schema) (port : Nat)
    (waiting : List Host.Call) :
    Whole (waiting.flatMap (Host.Call.events settings s port)) := by
  intro e he
  obtain ⟨c, -, hc⟩ := List.mem_flatMap.1 he
  exact whole_eventsOf s _ e hc

theorem Backlog.Waits.whole (h : b.Waits settings s waiting port) : Whole b.events := by
  refine Whole.of_atZero ?_
  rw [h.events_eq]
  exact (Host.whole_waiting settings s port waiting).atZero

theorem Backlog.Waits.eq_appended (h : b.Waits settings s waiting port) {c : Host.Call}
    {after : Backlog}
    (hafter : b.append (((c.inputs.take settings.inputs)[port]?).bind Buffer.atom?) c.frames
      = .ok after) :
    after = b.appended (c.events settings s port) c.frames := by
  have hshown : eventsOf b.schema (((c.inputs.take settings.inputs)[port]?).bind Buffer.atom?)
      = c.events settings s port := by
    rw [h.schema_eq]
    rfl
  rw [b.append_eq, hshown] at hafter
  split at hafter
  · cases hafter
    rfl
  · cases hafter

/-- A block put aside joins those that wait. -/
theorem Backlog.Waits.append (h : b.Waits settings s waiting port) {c : Host.Call}
    (hc : c.Timely settings s) (hframes : b.offset + c.frames.toNat ≤ Backlog.lastTime)
    (hkept : (b.appended (c.events settings s port) c.frames).failed = false) :
    (b.appended (c.events settings s port) c.frames).Waits settings s (waiting ++ [c]) port := by
  obtain ⟨-, hle, -⟩ := (Backlog.failed_foldl_iff b _).1 hkept
  have hevents := Backlog.events_appended hkept
  obtain ⟨hordered, hinside⟩ := hc port
  have hlater := mem_later hle
  have hoffset : (b.appended (c.events settings s port) c.frames).offset
      = b.offset + c.frames.toNat := Nat.min_eq_left hframes
  refine ⟨(Backlog.frame_foldl b _).2.2.1.trans h.schema_eq, hkept, ?_, ?_, ?_, ?_, ?_⟩
  · rw [hoffset, h.offset_eq, List.map_append, List.sum_append]
    rfl
  · rw [List.length_append, ← h.blocks_eq]
    rfl
  · rw [hevents, List.flatMap_append, atZero, atZero, List.map_append, List.map_append, ← atZero,
      ← atZero, ← atZero, ← atZero, h.events_eq, atZero_later, List.flatMap_singleton]
  · rw [hevents]
    refine h.ordered.append (hordered.later hle) fun e he e' he' => ?_
    obtain ⟨e'', he'', heq⟩ := hlater e' he'
    have htime := h.times_le e he
    have hpos := hordered.nonneg e'' he''
    omega
  · intro e he
    rw [hevents] at he
    rw [hoffset]
    rcases List.mem_append.1 he with he | he
    · have htime := h.times_le e he
      omega
    · obtain ⟨e', he', heq⟩ := hlater e he
      have htime := hinside e' he'
      omega

theorem Backlog.waits_reset (h : b.schema = s) : b.reset.Waits settings s [] port where
  schema_eq := h
  good := rfl
  offset_eq := rfl
  blocks_eq := rfl
  events_eq := rfl
  ordered := ordered_nil 0
  times_le := fun _ he => absurd he List.not_mem_nil

end Waits

end BlockHost
