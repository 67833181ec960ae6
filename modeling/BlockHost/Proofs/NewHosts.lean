import BlockHost.Host.Basic
import BlockHost.Proofs.Backlogs

/-!
# Hosts that have just been built

A host can be built in two ways, without a script and with one. Either way nothing waits in its
backlogs, nobody holds its gate, and a script is not disabled (`Host.created`).
-/

namespace BlockHost

namespace Backlog

/-- Nothing has been put aside, and nothing has been lost. -/
structure Fresh (b : Backlog) : Prop where
  events_eq : b.events = []
  offset_eq : b.offset = 0
  blocks_eq : b.blocks = 0
  failed_eq : b.failed = false
  dropped_eq : b.dropped = 0

variable {s : Schema}

theorem fresh_reset (b : Backlog) : b.reset.Fresh := ⟨rfl, rfl, rfl, rfl, rfl⟩

theorem Fresh.reset_eq {b : Backlog} (h : b.Fresh) : b.reset = b := by
  obtain ⟨schema, capacity, backwards, size, hsize, hle, offset, blocks, failed, dropped⟩ := b
  obtain ⟨hevents, hoffset, hblocks, hfailed, hdropped⟩ := h
  have hbackwards : backwards = [] := List.reverse_eq_nil_iff.1 hevents
  subst hbackwards hoffset hblocks hfailed hdropped hsize
  rfl

theorem fresh_create {capacity : Nat} {b : Backlog} (h : create s capacity = .ok b) :
    b.Fresh ∧ b.schema = s ∧ b.capacity ≤ Fault.maxLength := by
  unfold create at h
  cases hroom : Fault.addressable (max capacity minCapacity) with
  | error fault =>
      rw [hroom] at h
      cases h
  | ok =>
      rw [hroom] at h
      cases h
      refine ⟨⟨rfl, rfl, rfl, rfl, rfl⟩, rfl, ?_⟩
      unfold Fault.addressable at hroom
      split at hroom
      · assumption
      · cases hroom

theorem Fresh.sequence_eq {b : Backlog} (h : b.Fresh) :
    b.sequence = Atom.encode (b.schema.id .sequence) [] := by
  have hsize : b.size = Atom.headerSize := by
    have hback : b.backwards = [] := List.reverse_eq_nil_iff.1 h.events_eq
    rw [b.size_eq, hback]
    rfl
  rw [sequence, h.events_eq, hsize]
  rfl

end Backlog

theorem Settings.inputs_le {settings : Settings} (h : settings.validate = .ok ()) :
    settings.inputs ≤ maxPorts := by
  unfold validate at h
  split at h
  · cases h
  · split at h
    · cases h
    · split at h
      · cases h
      · split at h
        · cases h
        · next hports => omega

theorem Settings.le_stateCapacity {settings : Settings} (h : settings.validate = .ok ()) :
    Backlog.minCapacity ≤ settings.stateCapacity := by
  unfold validate at h
  split at h
  · cases h
  · split at h
    · cases h
    · split at h
      · cases h
      · split at h
        · cases h
        · split at h
          · cases h
          · split at h
            · cases h
            · next hstate => exact Nat.le_of_not_lt hstate

namespace Host

variable {σ : Type}

/-- A host as it is built for the given settings. -/
structure New (language : Language σ) (settings : Settings) (h : Host σ) : Prop where
  settings_eq : h.settings = settings
  schema_eq : h.schema = Schema.ofVocabulary (Vocabulary.ofRegistry .empty).1
  idle : h.engine.holder = none
  enabled : h.engine.value.diagnostics.disabled = false
  script_eq : h.engine.value.script = none ↔ settings.code = none
  compiled : ∀ script, h.engine.value.script = some script →
    ∃ source heap after, settings.code = some source ∧
      language.compile source heap = .ok script after
  backlogs : ∀ b ∈ h.backlogs, b.Fresh ∧ b.schema = h.schema
  capacity_le : ∀ b ∈ h.backlogs, b.capacity ≤ Fault.maxLength
  inputs_le : settings.inputs ≤ Settings.maxPorts
  length_backlogs : h.backlogs.length = settings.inputs
  frames_eq : h.stashedFrames = 0
  blocks_eq : h.stashedBlocks = 0

theorem distinct_ofRegistry : (Vocabulary.ofRegistry .empty).1.Distinct := by
  decide

theorem create_of_mapM {s : Schema} {capacities : List Nat} {backlogs : List Backlog}
    (h : capacities.mapM (Backlog.create s) = .ok backlogs) :
    backlogs.length = capacities.length ∧
      ∀ b ∈ backlogs, ∃ capacity, Backlog.create s capacity = .ok b := by
  induction capacities generalizing backlogs with
  | nil =>
      cases h
      exact ⟨rfl, fun b hb => absurd hb List.not_mem_nil⟩
  | cons capacity rest ih =>
      rw [List.mapM_cons] at h
      obtain ⟨first, hfirst, h⟩ := of_bind_ok h
      obtain ⟨others, hrest, h⟩ := of_bind_ok h
      cases h
      obtain ⟨hlength, hcreated⟩ := ih hrest
      refine ⟨congrArg (· + 1) hlength, fun b hb => ?_⟩
      rcases List.mem_cons.1 hb with rfl | hb
      · exact ⟨capacity, hfirst⟩
      · exact hcreated b hb

theorem created {supply : Supply} {language : Language σ} {settings : Settings} {h : Host σ}
    (hcreate : create supply language settings = .ok h) : h.New language settings := by
  have hinstall : ∀ (script : σ) (source : String) (heap : Heap),
      Engine.install language script source (Engine.idle heap)
        = .ok () ⟨some script, heap, Diagnostics.empty.afterLoading, source⟩ :=
    fun _ _ _ => rfl
  cases hvalid : settings.validate with
  | error cause =>
      simp only [create, hvalid, bind, Except.bind] at hcreate
      cases hcreate
  | ok =>
    cases hheap : Heap.create supply settings.regionSize settings.maxRegions with
    | error cause =>
        simp only [create, hvalid, hheap, bind, Except.bind] at hcreate
        cases hcreate
    | ok heap =>
      simp only [create, hvalid, hheap, bind, Except.bind] at hcreate
      cases hbacklogs : (List.replicate settings.inputs settings.backlogCapacity).mapM
          (Backlog.create (Schema.ofVocabulary (Vocabulary.ofRegistry .empty).1)) with
      | error fault =>
          -- The script is compiled before the backlogs are created.
          cases hcode : settings.code with
          | none =>
              simp only [hcode, hbacklogs, pure, Except.pure] at hcreate
              cases hcreate
          | some source =>
              cases hcompile : language.compile source heap with
              | error stop after =>
                  simp only [hcode, hcompile, pure, Except.pure] at hcreate
                  cases stop <;> cases hcreate
              | ok script after =>
                  simp only [hcode, hcompile, hinstall, hbacklogs, pure, Except.pure] at hcreate
                  cases hcreate
      | ok backlogs =>
          obtain ⟨hlength, hmade⟩ := create_of_mapM hbacklogs
          rw [List.length_replicate] at hlength
          have hfresh : ∀ b ∈ backlogs,
              b.Fresh ∧ b.schema = Schema.ofVocabulary (Vocabulary.ofRegistry .empty).1 := by
            intro b hb
            obtain ⟨capacity, hcreated⟩ := hmade b hb
            exact ⟨(Backlog.fresh_create hcreated).1, (Backlog.fresh_create hcreated).2.1⟩
          have hcapacity : ∀ b ∈ backlogs, b.capacity ≤ Fault.maxLength := by
            intro b hb
            obtain ⟨capacity, hcreated⟩ := hmade b hb
            exact (Backlog.fresh_create hcreated).2.2
          cases hcode : settings.code with
          | none =>
              simp only [hcode, hbacklogs, pure, Except.pure] at hcreate
              cases hcreate
              exact ⟨rfl, rfl, rfl, rfl, iff_of_true rfl hcode, fun _ hscript => (by cases hscript),
                hfresh, hcapacity, Settings.inputs_le hvalid, hlength, rfl, rfl⟩
          | some source =>
              cases hcompile : language.compile source heap with
              | error stop after =>
                  simp only [hcode, hcompile, pure, Except.pure] at hcreate
                  cases stop <;> cases hcreate
              | ok script after =>
                  simp only [hcode, hcompile, hinstall, hbacklogs, pure, Except.pure] at hcreate
                  cases hcreate
                  refine ⟨rfl, rfl, rfl, rfl, ?_, ?_, hfresh, hcapacity, Settings.inputs_le hvalid,
                    hlength, rfl, rfl⟩
                  · rw [hcode]
                    exact iff_of_false (Option.some_ne_none script) (Option.some_ne_none source)
                  · intro other hother
                    cases hother
                    exact ⟨source, heap, after, hcode, hcompile⟩

/-- What is behind the gate of a host that is built: a new heap, or one in which the first script has
been compiled. -/
theorem create_engine {supply : Supply} {language : Language σ} {settings : Settings} {h : Host σ}
    (hcreate : create supply language settings = .ok h) :
    settings.validate = .ok () ∧ ∃ heap,
      Heap.create supply settings.regionSize settings.maxRegions = .ok heap ∧
        (h.engine = .free (Engine.idle heap) ∨
          ∃ source script heap', language.compile source heap = .ok script heap' ∧
            h.engine = .free ⟨some script, heap', Diagnostics.empty.afterLoading, source⟩) := by
  cases hvalid : settings.validate with
  | error cause =>
      simp only [create, hvalid, bind, Except.bind] at hcreate
      cases hcreate
  | ok =>
    cases hheap : Heap.create supply settings.regionSize settings.maxRegions with
    | error cause =>
        simp only [create, hvalid, hheap, bind, Except.bind] at hcreate
        cases hcreate
    | ok heap =>
      refine ⟨rfl, heap, rfl, ?_⟩
      simp only [create, hvalid, hheap, bind, Except.bind] at hcreate
      cases hcode : settings.code with
      | none =>
          simp only [hcode, pure, Except.pure] at hcreate
          split at hcreate
          · cases hcreate
          · cases hcreate
            exact .inl rfl
      | some source =>
          cases hcompile : language.compile source heap with
          | error stop after =>
              simp only [hcode, hcompile, pure, Except.pure] at hcreate
              cases stop <;> cases hcreate
          | ok script after =>
              simp only [hcode, hcompile, pure, Except.pure, Engine.install, Engine.idle] at hcreate
              split at hcreate
              · cases hcreate
              · cases hcreate
                exact .inr ⟨source, script, after, hcompile, rfl⟩

theorem tally_create {supply : Supply} {language : Language σ} {settings : Settings} {h : Host σ}
    (hcreate : create supply language settings = .ok h) : h.tally = .zero := by
  obtain ⟨hvalid, heap, hheap, -⟩ := create_engine hcreate
  simp only [create, hvalid, hheap, bind, Except.bind] at hcreate
  cases hcode : settings.code with
  | none =>
      simp only [hcode, pure, Except.pure] at hcreate
      split at hcreate
      · cases hcreate
      · cases hcreate
        rfl
  | some source =>
      cases hcompile : language.compile source heap with
      | error stop after =>
          simp only [hcode, hcompile, pure, Except.pure] at hcreate
          cases stop <;> cases hcreate
      | ok script after =>
          simp only [hcode, hcompile, pure, Except.pure, Engine.install, Engine.idle] at hcreate
          split at hcreate
          · cases hcreate
          · cases hcreate
            rfl

end Host

end BlockHost
