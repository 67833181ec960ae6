import BlockHost.Proofs.HeapRuns
import BlockHost.Proofs.Ownership
import BlockHost.Proofs.Upkeep

/-!
# No memory is lost

All memory that is in use belongs to the script that is there. This is so of a new host, and every
operation keeps it so (`Host.perform_owning`): a block, whatever becomes of it, because the script's
steps keep what they are handed; a load, which has two scripts' memory in the heap for a while and
gives back that of the script that does not stay; and growth, which adds room only.

There is one way to lose memory. A source that crashes the compiler leaves what its first lines have
reserved without an owner, and nobody can give that back any more. Such memory stays on lease to
others for good, and so the accounts stay right all the same, for others that there are more of.
-/

namespace BlockHost

open Heap (Accounted Lease Owned)

variable {σ α : Type} {language : Language σ} {holdings : σ → List (Pointer × Nat)}
variable {others : List Lease}

/-! ## Blocks -/

namespace Session

open BlockHost.Action (Keeps Under)

theorem owning_of_untouched {x : ScriptAction σ α} (hx : Keeps Untouched x) :
    Keeps (Under (Owning holdings others)) x := by
  intro s howned
  obtain ⟨hscript, hheap⟩ := hx s
  rw [Owning, hscript, hheap]
  exact howned

theorem play_owning (hacc : language.Accounts holdings) (schema : Schema) (replay : Option Replay)
    (inputs : List (Option Atom)) (frames : UInt32) :
    Keeps (Under (Owning holdings others)) (play language schema replay inputs frames) := by
  have hopen : ∀ n, Keeps (Under (Owning holdings others))
      (openOutputs n : ScriptAction σ (List Frame)) := by
    intro n
    exact owning_of_untouched ((onOutputs_untouched _ 0 _).bind fun _ => Action.keeps_pure _)
  have hlive : ∀ (b : Block) (sequences : List Frame), Keeps (Under (Owning holdings others)) (do
      language.run b
      closeOutputs sequences : ScriptAction σ Unit) := by
    intro b sequences
    exact hacc.run.bind fun _ =>
      owning_of_untouched (onOutputs_untouched closeOutput 0 sequences).leads.discard.keeps
  intro s howned
  rw [play_eq]
  refine (hopen s.outputs.length).bind (fun sequences => ?_) s howned
  cases replay with
  | none => exact hlive _ sequences
  | some r =>
      exact hacc.run.bind fun _ => (owning_of_untouched
        (onOutputs_untouched Writer.restartTimes 0 sequences).leads.discard.keeps).bind fun _ =>
          hlive _ sequences

end Session

@[simp] theorem Engine.heap_noted (e : Engine σ) (ended : Except ScriptFailure Unit) :
    (e.noted ended).heap = e.heap := by
  cases ended with
  | ok _ => rfl
  | error cause =>
      rw [noted]
      split <;> rfl

/-! ## Loads -/

namespace Host

/-- All memory that the script holds, if there is one. -/
def held (holdings : σ → List (Pointer × Nat)) (h : Host σ) : List (Pointer × Nat) :=
  h.engine.value.script.elim [] holdings

/-- All memory in use belongs to the script, or to the others. -/
def Owning (holdings : σ → List (Pointer × Nat)) (others : List Lease) (h : Host σ) : Prop :=
  Owned h.heap (h.held holdings) others

variable {h after : Host σ} {source : String} {room : Buffer} {script : σ} {heap heap' : Heap}

/-- The host with a script in the place of the old one. -/
def swapped (h : Host σ) (script : σ) (source : String) (heap : Heap) : Host σ :=
  { h.pass .scriptSwap with
    engine := .free
      { script := some script, heap, code := source
        diagnostics := h.engine.value.diagnostics.afterLoading } }

/-- The host after a source that has been refused. -/
def refused (h : Host σ) (cause : ScriptFailure) (heap : Heap) : Host σ :=
  { h.pass .scriptSwap with
    engine := .free
      { h.engine.value with
        heap
        diagnostics := h.engine.value.diagnostics.record cause.message false } }

/-- Gives the memory of the script back, if there is one. -/
def releaseOld (language : Language σ) (h : Host σ) : EStateM Fault Heap Unit :=
  h.engine.value.script.elim (pure ()) language.release

theorem load_of_ok (hroom : h.stateRoom = .ok room)
    (hcompile : language.compile source h.heap = .ok script heap)
    (hrelease : h.releaseOld language heap = .ok () heap') :
    load language source h =
      .ok () (h.swapped (h.carryOver language (h.heritage language room) script) source heap') := by
  obtain ⟨side, hhold⟩ := h.exists_hold
  simp only [load, hroom, atGate, hhold, replaceScript, swapped, pass_eq]
  rw [Host.heap] at hcompile
  simp only [Host.heap, hcompile, Engine.install]
  cases hscript : h.engine.value.script with
  | none =>
      rw [releaseOld, hscript] at hrelease
      cases hrelease
      rfl
  | some old =>
      rw [releaseOld, hscript] at hrelease
      simp only [show language.release old heap = .ok () heap' from hrelease]
      rfl

theorem load_of_refused {cause : ScriptFailure} (hroom : h.stateRoom = .ok room)
    (hcompile : language.compile source h.heap = .error (.refused cause) heap) :
    load language source h = .error (.refused (.script cause)) (h.refused cause heap) := by
  obtain ⟨side, hhold⟩ := h.exists_hold
  simp only [load, hroom, atGate, hhold, replaceScript, refused, pass_eq]
  rw [Host.heap] at hcompile
  simp only [Host.heap, hcompile]
  rfl

theorem load_of_crashed {fault : Fault} (hroom : h.stateRoom = .ok room)
    (hcompile : language.compile source h.heap = .error (.crashed fault) heap) :
    load language source h = .error (.crashed fault) ((h.pass .scriptSwap).withHeap heap).leave := by
  obtain ⟨side, hhold⟩ := h.exists_hold
  simp only [load, hroom, atGate, hhold, replaceScript, pass_eq]
  rw [Host.heap] at hcompile
  simp only [Host.heap, hcompile]
  rfl

theorem releaseOld_ok (hacc : language.Accounts holdings) (howned : Owned heap (h.held holdings) others) :
    ∃ heap', h.releaseOld language heap = .ok () heap' ∧ Accounted heap' others := by
  rw [held] at howned
  rw [releaseOld]
  cases hscript : h.engine.value.script with
  | none =>
      rw [hscript] at howned
      exact ⟨heap, rfl, howned.accounted⟩
  | some old =>
      rw [hscript] at howned
      exact hacc.release howned

theorem holdings_carryOver (hacc : language.Accounts holdings) (h : Host σ) (saved : Bytes)
    (script : σ) : holdings (h.carryOver language saved script) = holdings script := by
  rw [carryOver]
  cases Atom.parseWhole saved with
  | none => rfl
  | some state =>
      simp only
      cases hrestore : language.restore h.schema state script with
      | ok script' => exact hacc.restore hrestore
      | error cause => rfl

/-- Of a source that compiles, the new script's memory takes the place of the old one's. -/
theorem load_installs (hacc : language.Accounts holdings) (howned : h.Owning holdings others)
    (hroom : h.stateRoom = .ok room) (hcompile : language.compile source h.heap = .ok script heap) :
    ∃ heap', load language source h = .ok ()
        (h.swapped (h.carryOver language (h.heritage language room) script) source heap') ∧
      Owned heap' (holdings script) others := by
  obtain ⟨own, hown, hk⟩ := howned.exists_accounted
  have hcompiled := hacc.compile source hk
  rw [hcompile] at hcompiled
  obtain ⟨fresh, hfresh, hboth⟩ := Owned.exists_accounted hcompiled
  -- Seen from the old script, the memory of the new one belongs to others.
  have hold : Owned heap (h.held holdings) (fresh ++ others) :=
    ⟨own, hown ▸ .refl _, hboth.perm (by
      rw [← List.append_assoc, ← List.append_assoc]
      exact List.perm_append_comm.append_right others)⟩
  obtain ⟨heap', hrelease, hk'⟩ := releaseOld_ok hacc hold
  exact ⟨heap', load_of_ok hroom hcompile hrelease, fresh, hfresh ▸ .refl _, hk'⟩

end Host

/-- Whether a source brings the compiler down. -/
def Language.crashesOn (language : Language σ) (source : String) (heap : Heap) : Bool :=
  match language.compile source heap with
  | .error (.crashed _) _ => true
  | _ => false

namespace Host

variable {h after : Host σ}

theorem load_owning (hacc : language.Accounts holdings) (howned : h.Owning holdings others)
    (source : String) :
    ∃ lost, (Action.left (load language source h)).Owning holdings (lost ++ others) ∧
      (language.crashesOn source h.heap = false → lost = []) := by
  cases hroom : h.stateRoom with
  | error fault =>
      rw [load, hroom]
      exact ⟨[], howned, fun _ => rfl⟩
  | ok room =>
      obtain ⟨own, hown, hk⟩ := howned.exists_accounted
      have hcompiled := hacc.compile source hk
      rw [Language.crashesOn]
      cases hcompile : language.compile source h.heap with
      | ok script heap =>
          obtain ⟨heap', hload, hnew⟩ := load_installs hacc howned hroom hcompile
          rw [hload]
          refine ⟨[], ?_, fun _ => rfl⟩
          show Owned heap' (holdings (h.carryOver _ _ _)) others
          rwa [holdings_carryOver hacc]
      | error stop heap =>
          rw [hcompile] at hcompiled
          cases stop with
          | refused cause =>
              rw [load_of_refused hroom hcompile]
              exact ⟨[], ⟨own, hown ▸ .refl _, hcompiled⟩, fun _ => rfl⟩
          | crashed fault =>
              obtain ⟨lost, hlost⟩ := hcompiled
              rw [load_of_crashed hroom hcompile, pass_eq]
              refine ⟨lost, ⟨own, hown ▸ .refl _, hlost.perm ?_⟩, fun hsound => by cases hsound⟩
              rw [← List.append_assoc, ← List.append_assoc]
              exact List.perm_append_comm.append_right others

/-! ## Operations -/

/-- The source that an operation loads, if it loads one. -/
def Operation.source? (schema : Schema) : Operation → Option String
  | .load source => some source
  | .receive message =>
      match (Atom.parse message).bind (Message.ofAtom? schema) with
      | some (.code source) => some source
      | _ => none
  | _ => none

/-- Whether an operation loads a source that brings the compiler down. -/
def crashesOn (language : Language σ) (h : Host σ) (op : Operation) : Bool :=
  (op.source? h.schema).any fun source => language.crashesOn source h.heap

theorem Owning.of_same (howned : h.Owning holdings others)
    (hscript : after.engine.value.script = h.engine.value.script) (hheap : after.heap = h.heap) :
    after.Owning holdings others := by
  rw [Owning, held, hscript, hheap]
  exact howned

theorem answer_owning (hacc : language.Accounts holdings) (hidle : h.engine.holder = none)
    (howned : h.Owning holdings others) {c : Call} {a : Answer σ} (ha : h.answer language c = .ok a) :
    a.host.Owning holdings others := by
  cases hc : c.contended with
  | true =>
      rcases answer_held language hidle hc with ⟨after, buffers, hanswer, hstashed⟩ | ⟨hanswer, -⟩
      · rw [ha] at hanswer
        cases hanswer
        have hengine := hstashed.engine_eq
        exact howned.of_same (by rw [hengine]) (by rw [Host.heap, hengine, Host.heap])
      · rw [ha] at hanswer
        cases hanswer
  | false =>
      obtain ⟨after, outcome, buffers, hanswer, hended⟩ := answer_free language hidle hc
      rw [ha] at hanswer
      cases hanswer
      cases hended with
      | noScript _ hspent | disabled _ _ hspent =>
          have hengine := hspent.engine_eq
          exact howned.of_same (by rw [hengine]; rfl) (by rw [Host.heap, hengine]; rfl)
      | @run script hscript _ hspent =>
          have hbefore : (h.session script (c.outputs.take h.settings.outputs)).Owning holdings
              others := by
            rw [Owning, held, hscript] at howned
            exact howned
          have hplayed := Session.play_owning hacc h.schema h.replay
            ((c.inputs.take h.settings.inputs).map Buffer.atom?) c.frames _ hbefore
          rw [Owning, held, Host.heap, hspent.engine_eq, Gate.free, Engine.script_noted,
            Engine.heap_noted]
          exact hplayed

theorem tell_owning (howned : h.Owning holdings others) (buffer : Buffer) (frames : UInt32) :
    (h.tell buffer frames).2.2.Owning holdings others := by
  rw [tell, Gate.tryEnter]
  cases h.engine.holder with
  | some side =>
      simp only
      cases writeControl frames [] (Writer.start h.schema.vocabulary buffer) <;> exact howned
  | none =>
      simp only
      cases writeControl frames (pendingMessages h.engine.value)
        (Writer.start h.schema.vocabulary buffer) <;> exact howned

theorem receive_owning (hacc : language.Accounts holdings) (howned : h.Owning holdings others)
    (message : Bytes) :
    ∃ lost, (Action.left (receive language message h)).Owning holdings (lost ++ others) ∧
      (h.crashesOn language (.receive message) = false → lost = []) := by
  rw [receive, crashesOn, Operation.source?]
  generalize (Atom.parse message).bind (Message.ofAtom? h.schema) = parsed
  cases parsed with
  | none => exact ⟨[], howned, fun _ => rfl⟩
  | some m =>
      cases m with
      | error text | trace text => exact ⟨[], howned, fun _ => rfl⟩
      | code source =>
          have hload := load_owning hacc howned source
          cases hresult : load language source h with
          | ok _ after | error stop after =>
              rw [hresult] at hload
              simp only [hresult]
              exact hload

theorem Owning.hold (howned : h.Owning holdings others) : h.hold.Owning holdings others :=
  howned.of_same (by rw [value_hold]) (by rw [Host.heap, value_hold, Host.heap])

/-- To take the gate and to leave it changes nobody's memory. -/
theorem atGate_owning {α : Type} {action : HostAction σ α}
    (haction : Action.Keeps (Action.Under (Owning holdings others)) action) :
    Action.Keeps (Action.Under (Owning holdings others)) (atGate action) :=
  atGate_under (fun _ howned => howned.hold) (fun _ howned => howned) haction

theorem save_owning (howned : h.Owning holdings others) :
    (Action.left (save language h)).Owning holdings others := by
  rw [save]
  cases h.stateRoom with
  | error fault => exact howned
  | ok room =>
      refine atGate_owning (fun h howned => ?_) h howned
      rw [saveScript]
      cases h.engine.value.script with
      | none => exact howned
      | some script =>
          simp only
          cases h.stateOf language room script <;> exact howned

theorem restoreScript_owning (hacc : language.Accounts holdings) (state : Atom) :
    Action.Keeps (Action.Under (Owning holdings others)) (restoreScript language state) := by
  intro h howned
  rw [restoreScript]
  cases hscript : h.engine.value.script with
  | none => exact howned
  | some script =>
      simp only
      rw [pass_eq]
      cases hrestore : language.restore h.schema state script with
      | error cause =>
          simp only
          exact howned
      | ok script' =>
          have hsame := hacc.restore hrestore
          rw [Owning, held, hscript, Option.elim_some] at howned
          simp only
          show Owned h.heap (holdings script') others
          rwa [hsame]

theorem restore_owning (hacc : language.Accounts holdings) (howned : h.Owning holdings others)
    (saved : Bytes) : (Action.left (restore language saved h)).Owning holdings others := by
  rw [restore]
  cases Atom.parseWhole saved with
  | none => exact howned
  | some state => exact atGate_owning (restoreScript_owning hacc state) h howned

theorem answerRequests_owning (howned : h.Owning holdings others) (supply : Supply)
    (pending committed : Nat) :
    (Action.left (answerRequests supply pending committed h)).Owning holdings others := by
  induction pending generalizing committed h with
  | zero => exact howned
  | succ pending ih =>
      rw [answerRequests_succ]
      cases hrequest : h.heap.takeRequest with
      | none => exact howned
      | some taken =>
          obtain ⟨index, heap⟩ := taken
          have htaken : Owned heap (h.held holdings) others :=
            howned.of_accounted fun _ hk => hk.takeRequest hrequest
          simp only
          cases heap.regionFor supply index with
          | error cause => exact htaken.of_accounted fun _ hk => hk.giveUpGrowth
          | ok region =>
              simp only
              cases hcommit : heap.commit region with
              | error cause => exact htaken
              | ok heap' =>
                  have hcounted : (h.withHeap heap').leave.countRegion.Owning holdings others :=
                    htaken.of_accounted fun _ hk => hk.commit hcommit
                  exact ih hcounted (committed + 1)

/-- Nothing is lost in an operation, unless it is a load that crashes the compiler. -/
theorem perform_owning (hacc : language.Accounts holdings) (hidle : h.engine.holder = none)
    (howned : h.Owning holdings others) {op : Operation} {report : Report}
    (hop : h.perform language op = .ok (after, report)) :
    ∃ lost, after.Owning holdings (lost ++ others) ∧
      (h.crashesOn language op = false → lost = []) := by
  cases perform_leaves hop with
  | block ha => exact ⟨[], answer_owning hacc hidle howned ha, fun _ => rfl⟩
  | tellHeld buffer frames => exact ⟨[], tell_owning howned.hold buffer frames, fun _ => rfl⟩
  | tell buffer frames => exact ⟨[], tell_owning howned buffer frames, fun _ => rfl⟩
  | load source => exact load_owning hacc howned source
  | receive message => exact receive_owning hacc howned message
  | save => exact ⟨[], save_owning howned, fun _ => rfl⟩
  | restore saved => exact ⟨[], restore_owning hacc howned saved, fun _ => rfl⟩
  | grow supply => exact ⟨[], answerRequests_owning howned supply _ 0, fun _ => rfl⟩

/-! ## Runs -/

/-- Whether no source that is loaded in a run brings the compiler down. -/
def loadsCleanly (language : Language σ) : Host σ → List Operation → Bool
  | _, [] => true
  | h, op :: rest =>
      !h.crashesOn language op &&
        match h.perform language op with
        | .ok (after, _) => loadsCleanly language after rest
        | .error _ => true

/-- Nothing is lost in a whole run, unless some load of it crashes the compiler. -/
theorem performAll_owning (hacc : language.Accounts holdings) {ops : List Operation} {last : Host σ}
    {reports : List Report} (hidle : h.engine.holder = none) (howned : h.Owning holdings others)
    (hrun : h.performAll language ops = .ok (last, reports)) :
    ∃ lost, last.Owning holdings (lost ++ others) ∧ (h.loadsCleanly language ops = true → lost = []) := by
  induction ops generalizing h others reports with
  | nil =>
      cases hrun
      exact ⟨[], howned, fun _ => rfl⟩
  | cons op rest ih =>
      obtain ⟨mid, report, _, hop, hrest, -⟩ := performAll_cons hrun
      obtain ⟨lost, hmid, hkept⟩ := perform_owning hacc hidle howned hop
      -- From here on what is lost belongs to others.
      obtain ⟨more, hlast, hclean⟩ := ih ((perform_switched hidle hop).idle.trans hidle) hmid hrest
      refine ⟨more ++ lost, by rwa [List.append_assoc], fun hloads => ?_⟩
      rw [loadsCleanly, hop, Bool.and_eq_true, Bool.not_eq_true'] at hloads
      rw [hclean hloads.2, hkept hloads.1, List.append_nil]

theorem create_owning (hacc : language.Accounts holdings) {supply : Supply} {settings : Settings}
    (hcreate : create supply language settings = .ok h) : h.Owning holdings [] := by
  obtain ⟨hvalid, heap, hheap, hengine⟩ := create_engine hcreate
  have hk := Heap.accounted_create hvalid hheap
  rw [Owning, held, Host.heap]
  rcases hengine with hengine | ⟨source, script, heap', hcompile, hengine⟩
  · rw [hengine]
    exact hk.owned
  · have hcompiled := hacc.compile source hk
    rw [hcompile] at hcompiled
    rw [hengine]
    exact hcompiled

/-- What a host is seen to have in use is what its script holds. -/
structure Tidy (h : Host Command.Program) : Prop where
  used_eq : h.heap.used = ((h.held Command.Program.holdings).map Prod.snd).sum
  allocations_perm : h.heap.allocations.Perm ((h.held Command.Program.holdings).map Prod.fst)
  nodup : h.heap.allocations.Nodup
  live : ∀ x ∈ h.held Command.Program.holdings,
    ∃ size, h.heap.payloadSize x.1 = some size ∧ x.2 ≤ size

/-- No memory is lost over the life of a host: after any operations, of which no load crashes the
compiler, what is in use is exactly what the script that is there holds, all of it is live, and
nothing else is. -/
theorem performAll_tidy {supply : Supply} {settings : Settings} {first last : Host Command.Program}
    {ops : List Operation} {reports : List Report}
    (hcreate : create supply Command.language settings = .ok first)
    (hrun : first.performAll Command.language ops = .ok (last, reports))
    (hloads : first.loadsCleanly Command.language ops = true) : last.Tidy := by
  have hfirst := create_owning Command.accounts hcreate
  obtain ⟨lost, howned, hlost⟩ :=
    performAll_owning Command.accounts (created hcreate).idle hfirst hrun
  rw [hlost hloads] at howned
  refine ⟨howned.used_eq, ?_, howned.nodup_allocations, fun x hx => howned.payloadSize hx⟩
  have hperm := howned.allocations_perm
  rwa [List.append_nil, List.map_nil, List.append_nil] at hperm

/-- A script that reserves and holds memory, and runs dry over a later line; a source that is refused
behind a line that has reserved; growth; another script; and growth for which there is no memory. -/
theorem performAll_tidy_swapping :
    let ops : List Operation := [.block (plainCall false), .block (plainCall true),
      .load "reserve 40\nwobble", .grow .ample, .block (plainCall false),
      .load "reserve 24\nhold 200000\nfail", .block (plainCall false),
      .grow fun _ => .refused "no memory"]
    ∃ first last reports,
      create .ample Command.language (scripted "reserve 100\nhold 90000\nhold 700000") = .ok first ∧
      first.performAll Command.language ops = .ok (last, reports) ∧
      first.loadsCleanly Command.language ops = true ∧ last.Tidy ∧ last.heap.used = 200024 ∧
      last.heap.regionCount = 2 ∧ last.heap.complete = true := by
  intro ops
  have hcheck : ((create .ample Command.language
      (scripted "reserve 100\nhold 90000\nhold 700000")).toOption.bind fun first =>
        (first.performAll Command.language ops).toOption.map fun x =>
          (first.loadsCleanly Command.language ops,
            ((x.1.held Command.Program.holdings).map Prod.snd).sum, x.1.heap.regionCount,
            x.1.heap.complete)) = some (true, 200024, 2, true) := by
    decide +kernel
  simp only [Option.bind_eq_some_iff, Option.map_eq_some_iff, toOption_eq_some, Prod.exists,
    Prod.mk.injEq] at hcheck
  obtain ⟨first, hcreate, last, reports, hrun, hclean, hused, hregions, hcomplete⟩ := hcheck
  have htidy := performAll_tidy hcreate hrun hclean
  exact ⟨first, last, reports, hcreate, hrun, hclean, htidy, htidy.used_eq.trans hused, hregions,
    hcomplete⟩

end Host

end BlockHost
