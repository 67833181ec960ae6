import BlockHost.Proofs.HeapPlans
import BlockHost.Proofs.Leaks
import BlockHost.Proofs.Losses

/-!
# What the counts tell

A host counts its blocks while it answers them, in several places and on branches of their own. All of
this comes to one rule: what is counted for a block can be read off its outcome (`Tally.noting`). The
outcome is reported to whoever has sent the block, so the counts say nothing that the reports of a run
do not say (`Tally.Tells`).

The number of lost events is an exception, which is dealt with elsewhere. The number of regions is one
as well, because blocks do not touch it: it goes with the heap, in which the first region has not been
counted (`Host.Grown`). That a script cannot add regions is up to its language
(`Language.KeepsRegions`).
-/

namespace BlockHost

variable {σ α : Type}

/-- Whether the script got through the block. -/
def Outcome.isProcessed : Outcome → Bool
  | .processed _ => true
  | _ => false

/-- Whether the block was bypassed. -/
def Outcome.isBypassed : Outcome → Bool
  | .bypassed _ => true
  | _ => false

namespace Tally

/-- The counts after a block of which this has become. -/
def noting (t : Tally) : Outcome → Tally
  | .processed replayed =>
      { t with processed := t.processed + 1, replays := t.replays + if replayed then 1 else 0 }
  | .stashed => { t with stashed := t.stashed + 1 }
  | .bypassed reason =>
      { t with bypassed := t.bypassed + 1, errors := t.errors + if reason = .error then 1 else 0 }

/-- The counts are those of blocks of which this has become. -/
structure Tells (t : Tally) (outcomes : List Outcome) : Prop where
  processed : t.processed = outcomes.countP Outcome.isProcessed
  stashed : t.stashed = outcomes.count .stashed
  bypassed : t.bypassed = outcomes.countP Outcome.isBypassed
  replays : t.replays = outcomes.count (.processed true)
  errors : t.errors = outcomes.count (.bypassed .error)

variable {t : Tally} {outcomes : List Outcome}

theorem Tells.noting (ht : t.Tells outcomes) (outcome : Outcome) (dropped : Nat) :
    Tells { t.noting outcome with dropped } (outcomes ++ [outcome]) := by
  refine ⟨?_, ?_, ?_, ?_, ?_⟩
  · rw [List.countP_append, List.countP_singleton, ← ht.processed]
    cases outcome <;> rfl
  · rw [List.count_append, List.count_singleton, ← ht.stashed]
    cases outcome <;> rfl
  · rw [List.countP_append, List.countP_singleton, ← ht.bypassed]
    cases outcome <;> rfl
  · rw [List.count_append, List.count_singleton, ← ht.replays]
    cases outcome with
    | processed replayed => cases replayed <;> rfl
    | stashed | bypassed reason => rfl
  · rw [List.count_append, List.count_singleton, ← ht.errors]
    cases outcome with
    | bypassed reason => cases reason <;> rfl
    | processed replayed | stashed => rfl

theorem Tells.committing (ht : t.Tells outcomes) (committed : Nat) :
    Tells { t with committed } outcomes :=
  ⟨ht.processed, ht.stashed, ht.bypassed, ht.replays, ht.errors⟩

theorem tells_zero : Tally.zero.Tells [] :=
  ⟨rfl, rfl, rfl, rfl, rfl⟩

/-- Every block is counted once. -/
theorem Tells.blocks (ht : t.Tells outcomes) :
    t.processed + t.stashed + t.bypassed = outcomes.length := by
  rw [ht.processed, ht.stashed, ht.bypassed]
  clear ht
  induction outcomes with
  | nil => rfl
  | cons outcome rest ih =>
      rw [List.countP_cons, List.countP_cons, List.count_cons, List.length_cons, ← ih]
      cases outcome <;> simp [Outcome.isProcessed, Outcome.isBypassed] <;> omega

end Tally

/-! ## Blocks -/

namespace Host

variable {language : Language σ} {h after : Host σ} {inputs outputs : List Buffer} {frames : UInt32}

/-- A block is counted by its outcome, and it is called a replay if blocks were waiting. -/
structure Noted (h : Host σ) (outcome : Outcome) (after : Host σ) : Prop where
  tally : ∃ dropped, after.tally = { h.tally.noting outcome with dropped }
  replayed : ∀ {replayed : Bool}, outcome = .processed replayed → replayed = h.hasBacklog

theorem tally_forgetBacklogs (h : Host σ) : h.forgetBacklogs.tally = h.tally := by
  rw [forgetBacklogs]
  split <;> rfl

theorem noted_processHeld (language : Language σ) (h : Host σ) (inputs outputs : List Buffer)
    (frames : UInt32) :
    Noted h (h.processHeld language inputs outputs frames).2.1
      (h.processHeld language inputs outputs frames).1 := by
  have hforgotten : ∀ reason, reason ≠ .error →
      Noted h (.bypassed reason) h.forgetBacklogs.countBypass := by
    intro reason hreason
    refine ⟨⟨h.tally.dropped, ?_⟩, fun heq => by cases heq⟩
    simp only [countBypass, tally_forgetBacklogs, Tally.noting, if_neg hreason, Nat.add_zero]
  rw [processHeld]
  cases h.engine.value.script with
  | none => exact hforgotten .noScript (by decide)
  | some script =>
      cases h.engine.value.diagnostics.disabled with
      | true => exact hforgotten .disabled (by decide)
      | false =>
          simp only [Bool.false_eq_true, if_false]
          generalize h.run language script inputs outputs frames = ran
          obtain ⟨ended, engine, served⟩ := ran
          -- With the backlogs the losses are counted, and a replay if the script got through.
          have hspent : ∀ delivered, ∃ dropped,
              (if h.hasBacklog = true then
                ({ h with engine := { h.engine with value := engine } } : Host σ).spendBacklogs delivered
              else { h with engine := { h.engine with value := engine } }).tally
                = { h.tally with
                    dropped
                    replays := h.tally.replays + if h.hasBacklog && delivered then 1 else 0 } := by
            intro delivered
            cases h.hasBacklog with
            | false => exact ⟨h.tally.dropped, rfl⟩
            | true => cases delivered <;> exact ⟨h.tally.dropped + h.lost, rfl⟩
          cases ended with
          | ok _ =>
              obtain ⟨dropped, htally⟩ := hspent true
              refine ⟨⟨dropped, ?_⟩, fun heq => by cases heq; rfl⟩
              rw [Bool.and_true] at htally
              simp only [send, htally, Tally.noting]
          | error cause =>
              obtain ⟨dropped, htally⟩ := hspent false
              rw [Bool.and_false] at htally
              simp only
              -- Whatever the reason is, the block has failed.
              split
              on_goal 2 => split
              all_goals
                refine ⟨⟨dropped, ?_⟩, fun heq => by cases heq⟩
                simp only [send, countBypass, htally, Tally.noting]
                rfl

theorem answer_noted {c : Call} {a : Answer σ} (hidle : h.engine.holder = none)
    (ha : h.answer language c = .ok a) : Noted h a.outcome a.host := by
  cases hc : c.contended with
  | true =>
      obtain ⟨-, houtcome, htally⟩ := answer_stashed hidle hc ha
      rw [houtcome]
      exact ⟨⟨h.tally.dropped, htally⟩, fun heq => by cases heq⟩
  | false =>
      have hfree : ¬ c.contended = true := by
        rw [hc]
        exact Bool.false_ne_true
      rw [answer, if_neg hfree, process_of_free hidle] at ha
      cases ha
      obtain ⟨⟨dropped, htally⟩, hreplayed⟩ := noted_processHeld language h.entered
        (c.inputs.take h.settings.inputs) (c.outputs.take h.settings.outputs) c.frames
      refine ⟨⟨dropped, ?_⟩, hreplayed⟩
      show (concluded _ _).tally = _
      rw [tally_concluded]
      exact htally

end Host

/-! ## Regions -/

namespace Heap

/-- No region has been added. -/
def SameRegions (h h' : Heap) : Prop :=
  h'.regionCount = h.regionCount

instance : IsPreorder Heap SameRegions where
  refl _ := rfl
  trans _ _ _ h h' := Eq.trans h' h

theorem Asks.regionCount {h h' : Heap} (hasks : Asks h.plan h') : h'.regionCount = h.regionCount := by
  rw [← length_regions, ← length_regions]
  cases hasks with
  | kept hplan | ended _ _ _ _ hplan | sent _ _ _ _ _ hplan => rw [hplan]

theorem regionCount_takeRequest {h h' : Heap} {index : Nat}
    (hrun : h.takeRequest = some (index, h')) : h'.regionCount = h.regionCount := by
  rw [takeRequest] at hrun
  split at hrun
  · cases hrun
  · cases hrun
    rfl

theorem regionCount_commit {h h' : Heap} {region : Region} (hrun : h.commit region = .ok h') :
    h'.regionCount = h.regionCount + 1 := by
  rw [commit] at hrun
  split at hrun
  · cases hrun
  · split at hrun
    · cases hrun
    · split at hrun
      · cases hrun
      · cases hrun
        exact List.length_append

theorem allocate_sameRegions (size : Nat) : Action.Keeps SameRegions (Heap.allocate size) :=
  fun h => (allocate_checked h size).1.regionCount

theorem free_sameRegions (p : Pointer) (size : Nat) : Action.Keeps SameRegions (Heap.free p size) :=
  fun h => (free_checked h p size).1.regionCount

theorem release_sameRegions (p : Pointer) (size : Nat) :
    Action.Keeps SameRegions (release p size) := by
  intro h
  have hfree := free_sameRegions p size h
  rw [release]
  cases hrun : h.free p size with
  | ok _ h' =>
      rw [hrun] at hfree
      exact hfree
  | error stop h' =>
      rw [hrun] at hfree
      cases stop <;> exact hfree

theorem releaseAll_sameRegions (held : List (Pointer × Nat)) :
    Action.Keeps SameRegions (releaseAll held) := by
  induction held with
  | nil => exact Action.keeps_pure _
  | cons x held ih => exact (release_sameRegions x.1 x.2).bind fun _ => ih

end Heap

namespace Session

open BlockHost.Action (Keeps)

/-- No region has been added to the heap. -/
def SameRegions (s s' : Session σ) : Prop :=
  s.heap.SameRegions s'.heap

instance : IsPreorder (Session σ) SameRegions where
  refl s := refl s.heap
  trans _ _ _ h h' := trans_of Heap.SameRegions h h'

theorem sameRegions_of_untouched {x : ScriptAction σ α} (hx : Keeps Untouched x) :
    Keeps SameRegions x :=
  hx.mono fun _ _ hs => congrArg Heap.regionCount hs.2

theorem onHeap_sameRegions {action : HeapAction α} (haction : Keeps Heap.SameRegions action) :
    Keeps SameRegions (onHeap action : ScriptAction σ α) := by
  intro s
  have hheap := haction s.heap
  rw [onHeap]
  cases hrun : action s.heap with
  | ok a heap =>
      rw [hrun] at hheap
      exact hheap
  | error stop heap =>
      rw [hrun] at hheap
      cases stop <;> exact hheap

end Session

/-- A language that leaves it to the host to add regions. -/
structure Language.KeepsRegions (language : Language σ) : Prop where
  compile : ∀ source, Action.Keeps Heap.SameRegions (language.compile source)
  run : ∀ b, Action.Keeps Session.SameRegions (language.run b)
  release : ∀ script, Action.Keeps Heap.SameRegions (language.release script)

namespace Command

open BlockHost.Action (Keeps)
open Session

theorem refuse_sameRegions (number : Nat) (reserved : List Holding) (cause : LineFailure) :
    Keeps Heap.SameRegions (refuse (α := α) number reserved cause) := by
  intro h
  have hrelease := Heap.releaseAll_sameRegions reserved h
  rw [refuse]
  cases hrun : Heap.releaseAll reserved h with
  | ok _ h' | error fault h' =>
      rw [hrun] at hrelease
      exact hrelease

theorem assemble_sameRegions (number : Nat) (steps : List Step) (reserved : List Holding)
    (lines : List String) : Keeps Heap.SameRegions (assemble number steps reserved lines) := by
  induction lines generalizing number steps reserved with
  | nil => exact Action.keeps_pure _
  | cons line rest ih =>
      rw [assemble]
      cases Statement.parse line with
      | error cause => exact refuse_sameRegions number reserved cause
      | ok statement =>
          cases statement with
          | nothing => exact ih _ _ _
          | command c =>
              cases c with
              | flood size =>
                  simp only
                  cases Fault.addressable size with
                  | error fault => exact Action.keeps_throw _
                  | ok _ => exact ih _ _ _
              | _ => exact ih _ _ _
          | reserve size =>
              intro h
              have hallocate := Heap.allocate_sameRegions size h
              simp only
              cases hrun : h.allocate size with
              | ok p h' =>
                  rw [hrun] at hallocate
                  exact trans_of Heap.SameRegions hallocate (ih _ _ _ h')
              | error stop h' =>
                  rw [hrun] at hallocate
                  cases stop with
                  | refused cause =>
                      exact trans_of Heap.SameRegions hallocate (refuse_sameRegions _ _ _ h')
                  | crashed fault => exact hallocate

theorem addToCounter_sameRegions (n : Nat) : Keeps SameRegions (addToCounter n) := by
  intro s
  rw [addToCounter_eq]
  split <;> exact Eq.refl s.heap.regionCount

theorem holdAt_sameRegions (position size : Nat) : Keeps SameRegions (holdAt position size) := by
  refine (sameRegions_of_untouched state_untouched).bind fun p => ?_
  cases (p.steps[position]?).bind Step.held with
  | some _ => exact Action.keeps_pure _
  | none =>
      refine (onHeap_sameRegions (Heap.allocate_sameRegions size)).bind fun q => ?_
      exact (sameRegions_of_untouched state_untouched).bind fun p =>
        Action.keeps_modify fun s => Eq.refl s.heap.regionCount

/-- One case for each command: none of them can do more with the heap than allocate and give back. -/
theorem run_sameRegions (b : Block) (position : Nat) (c : Command) :
    Keeps SameRegions (c.run b position) := by
  cases c with
  | echo => exact sameRegions_of_untouched (echoPorts_untouched b)
  | count =>
      have hwrite : Keeps SameRegions (do
          let p ← state
          writeLast b (Writer.scalar (.long p.counter)) : Action Unit) :=
        sameRegions_of_untouched (state_untouched.bind fun p => writeLast_untouched b _)
      rw [run]
      cases b.input? 0 with
      | none => exact hwrite
      | some input => exact (addToCounter_sameRegions _).bind fun _ => hwrite
  | hold size => exact holdAt_sameRegions position size
  | churn size =>
      exact (onHeap_sameRegions (Heap.allocate_sameRegions size)).bind fun p =>
        onHeap_sameRegions (Heap.free_sameRegions p size)
  | trace text => exact Action.keeps_modify fun s => Eq.refl s.heap.regionCount
  | flood size => exact sameRegions_of_untouched (writeLast_untouched b _)
  | rewind => exact sameRegions_of_untouched (onOutput_untouched 0 _).leads.discard.keeps
  | fail => exact Action.keeps_throw _
  | panic => exact Action.keeps_throw _

theorem runAll_sameRegions (b : Block) : Keeps SameRegions (runAll b) := by
  intro s
  have hloop : Keeps SameRegions
      (s.script.steps.zipIdx.forM fun x => x.1.command.run b x.2) :=
    (Action.leads_forM fun x _ => (run_sameRegions b x.2 x.1.command).leads).keeps
  exact hloop s

theorem keepsRegions : language.KeepsRegions where
  compile source := assemble_sameRegions 1 [] [] (Text.lines source)
  run := runAll_sameRegions
  release p := Heap.releaseAll_sameRegions p.holdings

end Command

namespace Session

open BlockHost.Action (Keeps)

theorem play_sameRegions {language : Language σ} (hlanguage : language.KeepsRegions) (schema : Schema)
    (replay : Option Replay) (inputs : List (Option Atom)) (frames : UInt32) :
    Keeps SameRegions (play language schema replay inputs frames) := by
  have hlive : ∀ (b : Block) (sequences : List Frame), Keeps SameRegions (do
      language.run b
      closeOutputs sequences : ScriptAction σ Unit) := by
    intro b sequences
    exact (hlanguage.run b).bind fun _ =>
      sameRegions_of_untouched (onOutputs_untouched closeOutput 0 sequences).leads.discard.keeps
  intro s
  have hopen : Keeps SameRegions
      (openOutputs s.outputs.length : ScriptAction σ (List Frame)) :=
    sameRegions_of_untouched ((onOutputs_untouched _ 0 _).bind fun _ => Action.keeps_pure _)
  rw [play_eq]
  refine hopen.bind (fun sequences => ?_) s
  cases replay with
  | none => exact hlive _ sequences
  | some r =>
      exact (hlanguage.run _).bind fun _ => (sameRegions_of_untouched
        (onOutputs_untouched Writer.restartTimes 0 sequences).leads.discard.keeps).bind fun _ =>
          hlive _ sequences

end Session

/-! ## Operations -/

/-- Nor is one added when a script takes the place of another one. -/
theorem Engine.install_sameRegions {language : Language σ} (hlanguage : language.KeepsRegions)
    (script : σ) (source : String) (e : Engine σ) :
    e.heap.SameRegions (Action.left (e.install language script source)).heap := by
  rw [install]
  cases e.script with
  | none => exact refl e.heap
  | some old =>
      have hrelease := hlanguage.release old e.heap
      simp only
      cases hrun : language.release old e.heap with
      | ok _ heap | error fault heap =>
          rw [hrun] at hrelease
          exact hrelease

namespace Host

open BlockHost.Action (Keeps Under)

variable {language : Language σ} {h after : Host σ}

/-- All regions but the first have been counted. -/
def Grown (h : Host σ) : Prop :=
  h.tally.committed + 1 = h.heap.regionCount

theorem Grown.of_same (hgrown : h.Grown) (hcommitted : after.tally.committed = h.tally.committed)
    (hregions : h.heap.SameRegions after.heap) : after.Grown := by
  rw [Grown, hcommitted, hregions]
  exact hgrown

theorem Grown.noted {outcome : Outcome} (hgrown : h.Grown) (hnoted : h.Noted outcome after)
    (hregions : h.heap.SameRegions after.heap) : after.Grown := by
  obtain ⟨dropped, htally⟩ := hnoted.tally
  refine hgrown.of_same ?_ hregions
  rw [htally]
  cases outcome <;> rfl

theorem answer_sameRegions (hlanguage : language.KeepsRegions) (hidle : h.engine.holder = none)
    {c : Call} {a : Answer σ} (ha : h.answer language c = .ok a) :
    h.heap.SameRegions a.host.heap := by
  cases hc : c.contended with
  | true =>
      rcases answer_held language hidle hc with ⟨after, buffers, hanswer, hstashed⟩ | ⟨hanswer, -⟩
      · rw [ha] at hanswer
        cases hanswer
        rw [Host.heap, Host.heap, hstashed.engine_eq]
        exact refl h.heap
      · rw [ha] at hanswer
        cases hanswer
  | false =>
      obtain ⟨after, outcome, buffers, hanswer, hended⟩ := answer_free language hidle hc
      rw [ha] at hanswer
      cases hanswer
      cases hended with
      | noScript _ hspent | disabled _ _ hspent =>
          rw [Host.heap, Host.heap, hspent.engine_eq]
          exact refl h.heap
      | @run script _ _ hspent =>
          rw [Host.heap, Host.heap, hspent.engine_eq, Gate.free, Engine.heap_noted]
          exact Session.play_sameRegions hlanguage h.schema h.replay
            ((c.inputs.take h.settings.inputs).map Buffer.atom?) c.frames
            (h.session script (c.outputs.take h.settings.outputs))

theorem tell_grown (hgrown : h.Grown) (buffer : Buffer) (frames : UInt32) :
    (h.tell buffer frames).2.2.Grown := by
  rw [tell, Gate.tryEnter]
  cases h.engine.holder with
  | some side =>
      simp only
      cases writeControl frames [] (Writer.start h.schema.vocabulary buffer) <;> exact hgrown
  | none =>
      simp only
      cases writeControl frames (pendingMessages h.engine.value)
        (Writer.start h.schema.vocabulary buffer) <;> exact hgrown

theorem Grown.hold (hgrown : h.Grown) : h.hold.Grown := by
  rw [Grown, Host.heap, value_hold]
  exact hgrown

/-- To take the gate and to leave it adds no regions. -/
theorem atGate_grown {α : Type} {action : HostAction σ α} (haction : Keeps (Under Grown) action) :
    Keeps (Under Grown) (atGate action) :=
  atGate_under (fun _ hgrown => hgrown.hold) (fun _ hgrown => hgrown) haction

theorem replaceScript_grown (hlanguage : language.KeepsRegions) (source : String) (room : Buffer) :
    Keeps (Under Grown) (replaceScript language source room) := by
  intro h hgrown
  have hcompile := hlanguage.compile source h.heap
  simp only [replaceScript]
  rw [pass_eq]
  simp only [Host.heap] at hcompile ⊢
  cases hrun : language.compile source h.engine.value.heap with
  | error stop heap =>
      rw [hrun] at hcompile
      cases stop <;> exact hgrown.of_same rfl hcompile
  | ok script heap =>
      rw [hrun] at hcompile
      simp only
      generalize Host.carryOver language _ _ script = heir
      have hinstall := Engine.install_sameRegions hlanguage heir source
        { h.engine.value with heap }
      cases hput : Engine.install language heir source { h.engine.value with heap } with
      | ok _ engine | error fault engine =>
          rw [hput] at hinstall
          exact hgrown.of_same rfl (trans_of Heap.SameRegions hcompile hinstall)

theorem load_grown (hlanguage : language.KeepsRegions) (source : String) :
    Keeps (Under Grown) (load language source) := by
  intro h hgrown
  rw [load]
  cases h.stateRoom with
  | error fault => exact hgrown
  | ok room => exact atGate_grown (replaceScript_grown hlanguage source room) h hgrown

theorem receive_grown (hlanguage : language.KeepsRegions) (message : Bytes) :
    Keeps (Under Grown) (receive language message) := by
  intro h hgrown
  rw [receive]
  generalize (Atom.parse message).bind (Message.ofAtom? h.schema) = parsed
  cases parsed with
  | none => exact hgrown
  | some m =>
      cases m with
      | error text | trace text => exact hgrown
      | code source =>
          have hload := load_grown hlanguage source h hgrown
          cases hresult : load language source h with
          | ok _ after | error stop after =>
              rw [hresult] at hload
              simp only [hresult]
              exact hload

theorem save_grown (language : Language σ) : Keeps (Under Grown) (save language) := by
  intro h hgrown
  rw [save]
  cases h.stateRoom with
  | error fault => exact hgrown
  | ok room =>
      refine atGate_grown (fun h hgrown => ?_) h hgrown
      rw [saveScript]
      cases h.engine.value.script with
      | none => exact hgrown
      | some script =>
          simp only
          cases h.stateOf language room script <;> exact hgrown

theorem restoreScript_grown (language : Language σ) (state : Atom) :
    Keeps (Under Grown) (restoreScript language state) := by
  intro h hgrown
  rw [restoreScript]
  cases h.engine.value.script with
  | none => exact hgrown
  | some script =>
      simp only
      rw [pass_eq]
      cases language.restore h.schema state script <;> exact hgrown

theorem restore_grown (language : Language σ) (saved : Bytes) :
    Keeps (Under Grown) (restore language saved) := by
  intro h hgrown
  rw [restore]
  cases Atom.parseWhole saved with
  | none => exact hgrown
  | some state => exact atGate_grown (restoreScript_grown language state) h hgrown

theorem answerRequests_grown (supply : Supply) (pending committed : Nat) :
    Keeps (Under Grown) (answerRequests (σ := σ) supply pending committed) := by
  induction pending generalizing committed with
  | zero => exact fun h hgrown => hgrown
  | succ pending ih =>
      intro h hgrown
      rw [answerRequests_succ]
      cases hrequest : h.heap.takeRequest with
      | none => exact hgrown
      | some taken =>
          obtain ⟨index, heap⟩ := taken
          have htaken := Heap.regionCount_takeRequest hrequest
          simp only
          cases heap.regionFor supply index with
          | error cause => exact hgrown.of_same rfl htaken
          | ok region =>
              simp only
              cases hcommit : heap.commit region with
              | error cause => exact hgrown.of_same rfl htaken
              | ok heap' =>
                  refine ih (committed + 1) _ ?_
                  show h.tally.committed + 1 + 1 = heap'.regionCount
                  rw [Heap.regionCount_commit hcommit, htaken, ← hgrown]

theorem perform_grown (hlanguage : language.KeepsRegions) (hidle : h.engine.holder = none)
    (hgrown : h.Grown) {op : Operation} {report : Report}
    (hop : h.perform language op = .ok (after, report)) : after.Grown := by
  cases perform_leaves hop with
  | block ha => exact hgrown.noted (answer_noted hidle ha) (answer_sameRegions hlanguage hidle ha)
  | tellHeld buffer frames => exact tell_grown hgrown.hold buffer frames
  | tell buffer frames => exact tell_grown hgrown buffer frames
  | load source => exact load_grown hlanguage source h hgrown
  | receive message => exact receive_grown hlanguage message h hgrown
  | save => exact save_grown language h hgrown
  | restore saved => exact restore_grown language saved h hgrown
  | grow supply => exact answerRequests_grown supply _ 0 h hgrown

theorem grown_create (hlanguage : language.KeepsRegions) {supply : Supply} {settings : Settings}
    (hcreate : create supply language settings = .ok h) : h.Grown := by
  obtain ⟨-, heap, hheap, hengine⟩ := create_engine hcreate
  have hone : heap.regionCount = 1 := by
    rw [← Heap.length_regions, Heap.plan_create hheap]
    rfl
  rw [Grown, tally_create hcreate, Host.heap]
  rcases hengine with hengine | ⟨source, script, heap', hcompile, hengine⟩
  · rw [hengine]
    exact hone.symm
  · have hcompiled := (hlanguage.compile source).of_ok hcompile
    rw [hengine]
    exact (Eq.trans hcompiled hone).symm

/-! ## Runs -/

/-- What has become of a block, if the operation was one. -/
def Report.outcome? : Report → Option Outcome
  | .block outcome _ => some outcome
  | _ => none

/-- What has become of the blocks of a run. -/
def outcomesOf (reports : List Report) : List Outcome :=
  reports.filterMap Report.outcome?

theorem outcomesOf_cons (report : Report) (reports : List Report) :
    outcomesOf (report :: reports) = report.outcome?.toList ++ outcomesOf reports := by
  rw [outcomesOf, List.filterMap_cons]
  cases report.outcome? <;> rfl

theorem perform_block {c : Call} {report : Report}
    (hop : h.perform language (.block c) = .ok (after, report)) :
    ∃ a, h.answer language c = .ok a ∧ after = a.host ∧ report = .block a.outcome a.outputs := by
  obtain ⟨a, ha, hrest⟩ := of_bind_ok hop
  cases hrest
  exact ⟨a, ha, rfl, rfl⟩

theorem perform_other {op : Operation} {report : Report} (hother : op.call? = none)
    (hop : h.perform language op = .ok (after, report)) :
    report.outcome? = none ∧ ∃ committed, after.tally = { h.tally with committed } := by
  refine ⟨?_, ?_⟩
  · cases op with
    | block c => cases hother
    | tell contended buffer frames =>
        cases contended <;> cases hop <;> rfl
    | load source | receive message | save | restore saved | grow =>
        cases hop
        rfl
  · rcases (perform_leaves hop).upkept with ⟨c, rfl⟩ | ⟨_, committed, _, rfl⟩
    · cases hother
    · exact ⟨committed, rfl⟩

/-- The counts tell what has become of the blocks so far, and so do the backlogs and the heap. -/
structure Tallied (settings : Settings) (s : Schema) (past : List Call) (outcomes : List Outcome)
    (h : Host σ) : Prop where
  awaits : h.Awaits settings s (waitingAfter past)
  tells : h.tally.Tells outcomes
  grown : h.Grown
  length_eq : outcomes.length = past.length

section Tallied

variable {settings : Settings} {s : Schema} {past : List Call} {outcomes : List Outcome}

theorem Tallied.perform (hlanguage : language.KeepsRegions) (hh : h.Tallied settings s past outcomes)
    {op : Operation} {report : Report} (hop : h.perform language op = .ok (after, report)) :
    after.Tallied settings s (past ++ op.call?.toList) (outcomes ++ report.outcome?.toList) := by
  have hawaits := hh.awaits.perform hop
  have hgrown := perform_grown hlanguage hh.awaits.idle hh.grown hop
  cases hcall : op.call? with
  | none =>
      obtain ⟨hreport, committed, htally⟩ := perform_other hcall hop
      rw [hcall] at hawaits
      rw [hreport]
      simp only [Option.toList_none, List.append_nil] at hawaits ⊢
      exact ⟨hawaits, htally ▸ hh.tells.committing committed, hgrown, hh.length_eq⟩
  | some c =>
      obtain rfl : op = .block c := by
        cases op with
        | block c' => exact congrArg Operation.block (Option.some.inj hcall)
        | _ => cases hcall
      obtain ⟨a, ha, rfl, rfl⟩ := perform_block hop
      obtain ⟨dropped, htally⟩ := (answer_noted hh.awaits.idle ha).tally
      refine ⟨hawaits, htally ▸ hh.tells.noting a.outcome dropped, hgrown, ?_⟩
      rw [List.length_append, List.length_append, hh.length_eq]
      rfl

theorem Tallied.performAll (hlanguage : language.KeepsRegions) {ops : List Operation}
    {reports : List Report} (hh : h.Tallied settings s past outcomes)
    (hrun : h.performAll language ops = .ok (after, reports)) :
    after.Tallied settings s (past ++ callsOf ops) (outcomes ++ outcomesOf reports) := by
  induction ops generalizing h past outcomes reports with
  | nil =>
      cases hrun
      rw [callsOf, outcomesOf, List.filterMap_nil, List.filterMap_nil, List.append_nil,
        List.append_nil]
      exact hh
  | cons op rest ih =>
      obtain ⟨mid, report, others, hop, hrest, rfl⟩ := performAll_cons hrun
      rw [callsOf_cons, outcomesOf_cons, ← List.append_assoc, ← List.append_assoc]
      exact ih (hh.perform hlanguage hop) hrest

theorem Tallied.hasBacklog_iff (hh : h.Tallied settings s past outcomes) :
    h.hasBacklog = true ↔ waitingAfter past ≠ [] := by
  rw [hasBacklog, hh.awaits.blocks_eq, decide_eq_true_iff]
  exact List.length_pos_iff

end Tallied

theorem tallied_create (hlanguage : language.KeepsRegions) {supply : Supply} {settings : Settings}
    (hcreate : create supply language settings = .ok h) : h.Tallied settings h.schema [] [] :=
  ⟨(created hcreate).awaits, tally_create hcreate ▸ Tally.tells_zero, grown_create hlanguage hcreate,
    rfl⟩

/-- The counts tell the story of a run. Every block of it has been counted once, as what has become of
it; the replays and the failures among these outcomes are counted as well; and the regions that have
been counted are those that the heap has beyond its first one. The next block goes on with the counts
according to its outcome, and it replays blocks if and only if some have had to wait since the last one
that found the gate free. No other operation counts blocks. -/
theorem performAll_tallied {supply : Supply} {settings : Settings} {first h : Host Command.Program}
    {ops : List Operation} {reports : List Report}
    (hcreate : create supply Command.language settings = .ok first)
    (hrun : first.performAll Command.language ops = .ok (h, reports)) :
    h.tally.Tells (outcomesOf reports) ∧ (outcomesOf reports).length = (callsOf ops).length ∧
      h.tally.processed + h.tally.stashed + h.tally.bypassed = (callsOf ops).length ∧
      h.tally.committed + 1 = h.heap.regionCount ∧
      (∀ c after report, h.perform Command.language (.block c) = .ok (after, report) →
        ∃ outcome outputs dropped, report = .block outcome outputs ∧
          after.tally = { h.tally.noting outcome with dropped } ∧
          ∀ replayed, outcome = .processed replayed →
            (replayed = true ↔ waitingAfter (callsOf ops) ≠ [])) ∧
      ∀ op after report, op.call? = none → h.perform Command.language op = .ok (after, report) →
        report.outcome? = none ∧ ∃ committed, after.tally = { h.tally with committed } := by
  have hh := (tallied_create Command.keepsRegions hcreate).performAll Command.keepsRegions hrun
  rw [List.nil_append, List.nil_append] at hh
  refine ⟨hh.tells, hh.length_eq, hh.tells.blocks.trans hh.length_eq, hh.grown, ?_, ?_⟩
  · intro c after report hop
    obtain ⟨a, ha, rfl, rfl⟩ := perform_block hop
    obtain ⟨⟨dropped, htally⟩, hreplayed⟩ := answer_noted hh.awaits.idle ha
    refine ⟨a.outcome, a.outputs, dropped, rfl, htally, fun replayed houtcome => ?_⟩
    rw [hreplayed houtcome]
    exact hh.hasBacklog_iff
  · intro op after report hother hop
    exact perform_other hother hop

/-- Settings for a heap that begins with 128 bytes. -/
def smallSettings (code : String) : Settings :=
  { Settings.standard with regionSize := 128, code := some code }

/-- Blocks of each kind: one that has to wait before it is replayed, one that runs dry, one that fails,
and one that finds the script disabled. In between the heap grows twice, and then the system refuses it
more memory. -/
theorem performAll_tallied_mixed :
    let ops : List Operation := [.block (plainCall false), .grow .ample, .block (plainCall true),
      .block (plainCall false), .load "hold 200\nhold 1000", .block (plainCall false), .grow .ample,
      .load "hold 300\nhold 200", .block (plainCall false), .grow fun _ => .refused "no memory",
      .load "fail", .block (plainCall false), .block (plainCall true), .block (plainCall false)]
    ∃ first h reports, create .ample Command.language (smallSettings "hold 80") = .ok first ∧
      first.performAll Command.language ops = .ok (h, reports) ∧
      outcomesOf reports = [.processed false, .stashed, .processed true, .bypassed .outOfMemory,
        .processed false, .bypassed .error, .stashed, .bypassed .disabled] ∧
      h.tally.Tells (outcomesOf reports) ∧ h.tally.committed + 1 = h.heap.regionCount ∧
      h.heap.regionCount = 3 ∧ h.heap.requestCount = 3 ∧ h.heap.complete = true := by
  intro ops
  have hcheck : ((create .ample Command.language (smallSettings "hold 80")).toOption.bind fun first =>
      (first.performAll Command.language ops).toOption.map fun x =>
        (outcomesOf x.2, x.1.heap.regionCount, x.1.heap.requestCount, x.1.heap.complete)) =
      some ([.processed false, .stashed, .processed true, .bypassed .outOfMemory,
        .processed false, .bypassed .error, .stashed, .bypassed .disabled], 3, 3, true) := by
    decide +kernel
  simp only [Option.bind_eq_some_iff, Option.map_eq_some_iff, toOption_eq_some, Prod.exists,
    Prod.mk.injEq] at hcheck
  obtain ⟨first, hcreate, h, reports, hrun, houtcomes, hregions, hrequests, hcomplete⟩ := hcheck
  obtain ⟨htells, -, -, hgrown, -, -⟩ := performAll_tallied hcreate hrun
  exact ⟨first, h, reports, hcreate, hrun, houtcomes, htells, hgrown, hregions,
    hrequests, hcomplete⟩

end Host

end BlockHost
