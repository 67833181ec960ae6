import BlockHost.Proofs.Recording

/-!
# What a script counts

Each `count` of a script adds the events at the first input of a block to the counter, and no other
command touches it. So a run over a block raises the counter by at most these events, once for each
`count` (`Command.runAll_raises`), and the play over a block by at most the events of the blocks that
there are to show (`Command.play_raises`).

Both are said of the session that is left, whatever the run has come to. For a run can fail when the
counter has been raised already, and the counter stays raised then.
-/

namespace BlockHost

open Session

variable {σ α β : Type}

namespace Session

/-- Neither the script nor the heap has been touched. -/
def Untouched (s s' : Session σ) : Prop :=
  s'.script = s.script ∧ s'.heap = s.heap

instance : IsPreorder (Session σ) Untouched where
  refl _ := ⟨rfl, rfl⟩
  trans _ _ _ h h' := ⟨h'.1.trans h.1, h'.2.trans h.2⟩

theorem onOutput_untouched (port : Nat) (calls : Write α) :
    Action.Keeps Untouched (onOutput port calls : ScriptAction σ (Option α)) := by
  intro s
  rw [onOutput]
  cases s.outputs[port]? with
  | none => exact refl s
  | some w =>
      simp only
      cases calls w <;> exact ⟨rfl, rfl⟩

theorem onOutputs_untouched (calls : α → Write β) (port : Nat) (items : List α) :
    Action.Keeps Untouched (onOutputs calls port items : ScriptAction σ (List (Option β))) := by
  induction items generalizing port with
  | nil => exact Action.keeps_pure _
  | cons a items ih =>
      exact (onOutput_untouched port (calls a)).bind fun _ => (ih (port + 1)).bind fun _ =>
        Action.keeps_pure _

/-- The script of the session has not been touched. -/
def SameScript (s s' : Session σ) : Prop :=
  s'.script = s.script

instance : IsPreorder (Session σ) SameScript where
  refl _ := rfl
  trans _ _ _ h h' := h'.trans h

theorem sameScript_of_untouched {x : ScriptAction σ α} (h : Action.Keeps Untouched x) :
    Action.Keeps SameScript x :=
  h.mono fun _ _ hs => hs.1

end Session

/-- The events at the first input of a block. -/
def Block.countable (b : Block) : Nat :=
  (eventsOf b.schema (b.input? 0)).length

namespace Command

/-- The commands of a script, without the memory that they keep. -/
def Program.commands (p : Program) : List Command :=
  p.steps.map Step.command

/-- Whatever comes of the action, a script of the given commands keeps them, and its counter rises by
at most so much. -/
def Raises (commands : List Command) (most : Nat) (x : ScriptAction Program α) : Prop :=
  ∀ s, s.script.commands = commands → (Action.left (x s)).script.commands = commands ∧
    (Action.left (x s)).script.counter.toInt ≤ s.script.counter.toInt + most

section Raises

variable {commands : List Command} {most more : Nat} {x : ScriptAction Program α}

theorem raises_of_sameScript (h : Action.Keeps SameScript x) : Raises commands 0 x := by
  intro s hs
  have hsame : (Action.left (x s)).script = s.script := h s
  rw [hsame]
  exact ⟨hs, Int.le_of_eq (Int.add_zero _).symm⟩

theorem Raises.mono (h : Raises commands most x) (hle : most ≤ more) : Raises commands more x := by
  intro s hs
  obtain ⟨hcommands, hcounter⟩ := h s hs
  exact ⟨hcommands, by omega⟩

theorem Raises.bind {f : α → ScriptAction Program β} (hx : Raises commands most x)
    (hf : ∀ a, Raises commands more (f a)) : Raises commands (most + more) (x >>= f) := by
  intro s hs
  obtain ⟨hcommands, hcounter⟩ := hx s hs
  cases h : x s with
  | ok a mid =>
      rw [h] at hcommands hcounter
      obtain ⟨hrest, hcounter'⟩ := hf a mid hcommands
      rw [Action.bind_ok h]
      exact ⟨hrest, by simp only [Action.left] at hcounter; omega⟩
  | error stop mid =>
      rw [h] at hcommands hcounter
      rw [Action.bind_error h]
      exact ⟨hcommands, by simp only [Action.left] at hcounter ⊢; omega⟩

theorem Raises.after {f : α → ScriptAction Program β} (hx : Action.Keeps SameScript x)
    (hf : ∀ a, Raises commands more (f a)) : Raises commands more (x >>= f) :=
  ((raises_of_sameScript hx).bind hf).mono (Nat.le_of_eq (Nat.zero_add more))

theorem Raises.before {f : α → ScriptAction Program β} (hx : Raises commands most x)
    (hf : ∀ a, Action.Keeps SameScript (f a)) : Raises commands most (x >>= f) :=
  hx.bind fun a => raises_of_sameScript (hf a)

theorem raises_forM {xs : List α} {f : α → ScriptAction Program PUnit} {most : α → Nat}
    (h : ∀ a, Raises commands (most a) (f a)) : Raises commands (xs.map most).sum (xs.forM f) := by
  induction xs with
  | nil => exact raises_of_sameScript (Action.keeps_pure _)
  | cons a xs ih => exact (h a).bind fun _ => ih

end Raises

section Run

variable {commands : List Command}

theorem onHeap_sameScript (action : HeapAction α) :
    Action.Keeps SameScript (onHeap action : ScriptAction Program α) := by
  intro s
  unfold onHeap
  cases action s.heap with
  | ok a heap => rfl
  | error stop heap => cases stop <;> rfl

theorem echoPorts_untouched (b : Block) : Action.Keeps Untouched (echoPorts b) := by
  refine Action.keeps_get.bind fun s => Action.Leads.keeps (Q := Untouched) ?_
  refine Action.leads_forM fun port _ => ?_
  cases b.input? port with
  | none => exact Action.leads_pure _
  | some input => exact (onOutput_untouched port _).leads.discard

theorem writeLast_untouched (b : Block) (calls : Write Unit) :
    Action.Keeps Untouched (writeLast b calls) :=
  (onOutput_untouched 0 _).leads.discard.keeps

theorem state_untouched : Action.Keeps Untouched (state : ScriptAction Program Program) :=
  Action.keeps_get.bind fun s => Action.keeps_pure s.script

/-- A sum outside the range of the counter crashes, and then the counter stays as it is. -/
theorem addToCounter_eq (n : Nat) (s : Session Program) :
    addToCounter n s =
      if s.script.counter.toInt + n < 2 ^ 63 then
        .ok ⟨⟩ { s with script :=
          { s.script with counter := Int64.ofInt (s.script.counter.toInt + n) } }
      else .error (.crashed .addition) s := by
  show (if s.script.counter.toInt + n < 2 ^ 63 then _ else _ : ScriptAction Program Unit) s = _
  split <;> rfl

theorem addToCounter_raises (n : Nat) : Raises commands n (addToCounter n) := by
  intro s hs
  have hleast := s.script.counter.le_toInt
  rw [addToCounter_eq]
  split
  · next hlt =>
      have hsum : (Int64.ofInt (s.script.counter.toInt + n)).toInt = s.script.counter.toInt + n :=
        Int64.toInt_ofInt_of_le (by omega) (by omega)
      exact ⟨hs, Int.le_of_eq hsum⟩
  · exact ⟨hs, by simp only [Action.left]; omega⟩

theorem modifyState_raises {f : Program → Program}
    (h : ∀ p, (f p).commands = p.commands ∧ (f p).counter = p.counter) :
    Raises commands 0 (do
      let p ← state
      setState (f p) : ScriptAction Program Unit) := by
  intro s hs
  obtain ⟨hcommands, hcounter⟩ := h s.script
  refine ⟨hcommands.trans hs, ?_⟩
  show (f s.script).counter.toInt ≤ _
  rw [hcounter]
  omega

theorem commands_keep (p : Program) (position : Nat) (holding : Holding) :
    ({ p with steps := p.steps.modify position fun s => { s with held := some holding } }
      : Program).commands = p.commands := by
  refine List.ext_getElem? fun i => ?_
  rw [Program.commands, Program.commands, List.getElem?_map, List.getElem?_map,
    List.getElem?_modify]
  cases p.steps[i]? with
  | none => rfl
  | some step => by_cases h : position = i <;> simp [h]

theorem holdAt_raises (position size : Nat) : Raises commands 0 (holdAt position size) := by
  refine .after (sameScript_of_untouched state_untouched) fun p => ?_
  cases (p.steps[position]?).bind Step.held with
  | some _ => exact raises_of_sameScript (Action.keeps_pure _)
  | none =>
      refine .after (onHeap_sameScript _) fun q => ?_
      exact modifyState_raises fun p => ⟨commands_keep p position (q, size), rfl⟩

/-- One case for each command: only `count` raises the counter. -/
theorem run_raises (b : Block) (position : Nat) (c : Command) :
    Raises commands (if c = .count then b.countable else 0) (c.run b position) := by
  cases c with
  | echo => exact raises_of_sameScript (sameScript_of_untouched (echoPorts_untouched b))
  | count =>
      have hwrite : Action.Keeps SameScript (do
          let p ← state
          writeLast b (Writer.scalar (.long p.counter)) : ScriptAction Program Unit) :=
        sameScript_of_untouched (state_untouched.bind fun p => writeLast_untouched b _)
      rw [if_pos rfl, Block.countable, run]
      cases b.input? 0 with
      | none => exact raises_of_sameScript hwrite
      | some input => exact (addToCounter_raises _).before fun _ => hwrite
  | hold size => exact holdAt_raises position size
  | churn size =>
      exact raises_of_sameScript ((onHeap_sameScript _).bind fun _ => onHeap_sameScript _)
  | trace text => exact raises_of_sameScript (Action.keeps_modify fun _ => rfl)
  | flood size => exact raises_of_sameScript (sameScript_of_untouched (writeLast_untouched b _))
  | rewind =>
      exact raises_of_sameScript
        (sameScript_of_untouched (onOutput_untouched 0 _).leads.discard.keeps)
  | fail => exact raises_of_sameScript (Action.keeps_throw _)
  | panic => exact raises_of_sameScript (Action.keeps_throw _)

theorem sum_zipIdx (steps : List Step) (first each : Nat) :
    ((steps.zipIdx first).map fun x => if x.1.command = .count then each else 0).sum
      = (steps.map Step.command).count .count * each := by
  induction steps generalizing first with
  | nil => exact (Nat.zero_mul each).symm
  | cons step steps ih =>
      rw [List.zipIdx_cons, List.map_cons, List.sum_cons, ih, List.map_cons, List.count_cons,
        Nat.add_mul, Nat.add_comm]
      by_cases h : step.command = .count <;> simp [h]

/-- A script raises the counter by the events of the block, once for each `count` in it. -/
theorem runAll_raises (b : Block) :
    Raises commands (commands.count .count * b.countable) (runAll b) := by
  intro s hs
  have hloop : Raises commands _ (s.script.steps.zipIdx.forM fun x => x.1.command.run b x.2) :=
    raises_forM fun x => run_raises b x.2 x.1.command
  rw [sum_zipIdx, show s.script.steps.map Step.command = commands from hs] at hloop
  exact hloop s hs

theorem play_raises (schema : Schema) (replay : Option Replay) (inputs : List (Option Atom))
    (frames : UInt32) :
    Raises commands
      (commands.count .count
        * ((blocksOf schema replay { schema, frames, inputs }).map Block.countable).sum)
      (Session.play language schema replay inputs frames) := by
  let live : Block := { schema, frames, inputs }
  have hlive : ∀ sequences, Raises commands (commands.count .count * live.countable) (do
      language.run live
      closeOutputs sequences : ScriptAction Program Unit) :=
    fun sequences => (runAll_raises live).before fun _ =>
      sameScript_of_untouched (onOutputs_untouched closeOutput 0 sequences).leads.discard.keeps
  have hopened : ∀ sequences, Raises commands
      (commands.count .count * ((blocksOf schema replay live).map Block.countable).sum)
      (playOpen language schema replay live sequences) := by
    intro sequences
    rw [blocksOf, List.map_append, List.sum_append, List.map_singleton, List.sum_singleton,
      Nat.mul_add]
    cases replay with
    | none => exact (hlive sequences).mono (Nat.le_add_left _ _)
    | some r =>
        rw [Option.map_some, Option.toList_some, List.map_singleton, List.sum_singleton]
        exact (runAll_raises (Replay.block schema r)).bind fun _ =>
          .after (sameScript_of_untouched
            (onOutputs_untouched Writer.restartTimes 0 sequences).leads.discard.keeps) fun _ =>
            hlive sequences
  intro s hs
  have hopen : Action.Keeps SameScript
      (openOutputs s.outputs.length : ScriptAction Program (List Frame)) :=
    sameScript_of_untouched ((onOutputs_untouched _ 0 _).bind fun _ => Action.keeps_pure _)
  rw [play_eq]
  exact Raises.after hopen hopened s hs

end Run

/-! ## Scripts that have been compiled -/

theorem assemble_counter {number : Nat} {steps : List Step} {reserved : List Holding}
    {lines : List String} {heap after : Heap} {p : Program}
    (h : assemble number steps reserved lines heap = .ok p after) : p.counter = 0 := by
  have hrefuse : ∀ {number : Nat} {reserved : List Holding} {cause : LineFailure} {heap : Heap},
      refuse number reserved cause heap ≠ .ok p after := by
    intro number reserved cause heap hok
    rw [refuse] at hok
    cases hrelease : Heap.releaseAll reserved heap <;> rw [hrelease] at hok <;> cases hok
  induction lines generalizing number steps reserved heap with
  | nil =>
      cases h
      rfl
  | cons line rest ih =>
      rw [assemble] at h
      cases hline : Statement.parse line with
      | error cause =>
          rw [hline] at h
          exact absurd h hrefuse
      | ok statement =>
          rw [hline] at h
          cases statement with
          | nothing => exact ih h
          | command c =>
              cases c with
              | flood size =>
                  cases hroom : Fault.addressable size with
                  | error fault =>
                      simp only [hroom] at h
                      cases h
                  | ok _ =>
                      simp only [hroom] at h
                      exact ih h
              | _ => exact ih h
          | reserve size =>
              simp only at h
              cases hallocate : heap.allocate size with
              | ok q heap' =>
                  rw [hallocate] at h
                  exact ih h
              | error stop heap' =>
                  rw [hallocate] at h
                  cases stop with
                  | refused cause => exact absurd h hrefuse
                  | crashed fault => cases h

theorem compile_counter {source : String} {heap after : Heap} {p : Program}
    (h : compile source heap = .ok p after) : p.counter = 0 :=
  assemble_counter h

theorem compile_count (heap : Heap) :
    compile "count" heap
      = .ok { steps := [⟨.count, none⟩], reserved := [], counter := 0 } heap := by
  rfl

end Command

end BlockHost
