import BlockHost.Proofs.Leaks
import BlockHost.Proofs.TreeReading

/-!
# All or nothing

A load that succeeds puts another script into the place of the old one: with the counter of that one,
and with nothing left of its memory. A load that fails leaves all as it was, apart from the error that
there is to tell now. In between, the memory of two scripts lies in one heap, so neither is said of the
heap as a whole: what belongs to the old script goes, or stays with every byte of it, and what belongs
to others stays in any case.

The bytes come into it through leases that say all about their payloads (`Heap.Accounted.full`). An
account that is kept for such leases is kept for every byte.
-/

namespace BlockHost

/-! ## What clients see of a heap -/

namespace Heap

variable {h h' : Heap} {L others : List Lease} {held held' : List (Pointer × Nat)}

/-- What clients have in a heap, and how much of it is in use, is as before. -/
structure Unchanged (h h' : Heap) : Prop where
  live_eq : h'.live = h.live
  payloads : SamePayloads h.allocations h h'
  used_eq : h'.used = h.used

theorem Unchanged.refl (h : Heap) : h.Unchanged h :=
  ⟨rfl, fun _ _ => ⟨rfl, fun _ => rfl⟩, rfl⟩

theorem Accounted.full (hk : Accounted h L) : Accounted h (L.map (Lease.full h)) := by
  obtain ⟨F, hbooked⟩ := hk.booked
  refine ⟨⟨F, hbooked.full⟩, hk.used.trans ?_⟩
  rw [List.map_map]
  rfl

theorem Owned.full (hk : Owned h held others) : Owned h held (others.map (Lease.full h)) := by
  obtain ⟨own, hown, hk⟩ := hk
  have hfull := hk.full
  rw [List.map_append] at hfull
  refine ⟨own.map (Lease.full h), ?_, hfull⟩
  rw [List.map_map]
  exact hown

theorem Booked.releaseAll {own : List Lease} {F U : List Block}
    (hk : Booked h ⟨own ++ L, F, U⟩) : ∃ U', Booked h ⟨L, F, U'⟩ := by
  induction own generalizing U with
  | nil => exact ⟨U, hk⟩
  | cons l own ih => exact ih hk.release

/-- What others have has not been touched, when that could be any bytes. -/
theorem Owned.samePayloads (hk : Owned h held others)
    (hk' : Owned h' held' (others.map (Lease.full h))) :
    SamePayloads (others.map fun l => l.block.pointer) h h' := by
  obtain ⟨own, -, hk⟩ := hk
  obtain ⟨own', -, hk'⟩ := hk'
  obtain ⟨F, hbooked⟩ := hk.booked
  obtain ⟨F', hbooked'⟩ := hk'.booked
  obtain ⟨U, hloose⟩ := hbooked.releaseAll
  obtain ⟨U', hloose'⟩ := hbooked'.releaseAll
  exact hloose.samePayloads hloose'

theorem Accounted.unchanged (hk : Accounted h L) (hk' : Accounted h' (L.map (Lease.full h))) :
    h.Unchanged h' := by
  obtain ⟨F, hbooked⟩ := hk.booked
  obtain ⟨F', hbooked'⟩ := hk'.booked
  have hblocks : (L.map (Lease.full h)).map Lease.block = L.map Lease.block := by
    rw [List.map_map]
    rfl
  have hsizes : (L.map (Lease.full h)).map Lease.size = L.map Lease.size := by
    rw [List.map_map]
    rfl
  refine ⟨hbooked.live_eq hbooked' (.of_eq hblocks.symm), fun p hp => ?_, ?_⟩
  · exact hbooked.samePayloads hbooked' p (hbooked.allocations_perm.mem_iff.1 hp)
  · rw [hk'.used, hsizes, hk.used]

end Heap

open Heap (Accounted Lease Owned SamePayloads)

/-! ## The state of a script of commands -/

namespace Command

variable {h : Host Program} {p : Program} {room : Buffer}

/-- A counter that is written. -/
def counterAtom (s : Schema) (n : Int64) : Bytes :=
  Atom.encode (s.id .long) (Bytes.int64 n)

theorem length_counterAtom (s : Schema) (n : Int64) : (counterAtom s n).length = 16 := by
  simp [counterAtom, padded]

theorem stateOf_counter (hroom : 16 ≤ room.length) :
    h.stateOf language room p = .ok (counterAtom h.schema p.counter) := by
  let w := Writer.start h.schema.vocabulary room
  let atom := counterAtom h.schema p.counter
  have hfit : atom.length ≤ w.room := by
    rw [Writer.room_start, length_counterAtom]
    exact hroom
  have hscalar : Writer.scalar (.long p.counter) w = .ok () (w.append atom) :=
    (Writer.appends_put rfl rfl (h.schema.id .long) (Bytes.int64 p.counter)).1 hfit
  have hsave : language.save p w = .ok () (w.append atom) := by
    show EStateM.adaptExcept ScriptFailure.writer (Writer.scalar (.long p.counter)) w = _
    rw [EStateM.adaptExcept, hscalar]
  have hfinish : (w.append atom).finish = .ok atom.length := by
    show Except.ok (w.append atom).offset = _
    rw [Writer.offset_append, Writer.offset_start, Nat.zero_add]
  have hwritten : w.written = [] := rfl
  rw [Host.stateOf, hsave]
  simp only [hfinish]
  rw [Buffer.take_eq, Writer.bytes_buffer, Writer.written_append, hwritten, List.nil_append,
    List.take_left' rfl]

theorem carryOver_counter (hdistinct : h.schema.vocabulary.Distinct) (n : Int64) (p : Program) :
    h.carryOver language (counterAtom h.schema n) p = { p with counter := n } := by
  have hparse := Atom.parseWhole_encode (h.schema.id .long) (Bytes.int64 n) [] (by simp)
  have hvalue : (Atom.ofBody (h.schema.id .long) (Bytes.int64 n)).value? h.schema = some (.long n) :=
    Scalar.value?_body hdistinct (.long n)
  have hrestore : language.restore h.schema (Atom.ofBody (h.schema.id .long) (Bytes.int64 n)) p
      = .ok { p with counter := n } := by
    show restore h.schema _ p = _
    rw [restore, hvalue]
  rw [List.append_nil] at hparse
  rw [Host.carryOver, counterAtom, hparse]
  simp only [hrestore]

end Command

/-! ## The memory of two scripts -/

/-- What was held of a heap has been given back, something else is held now, and the rest has not been
touched. -/
structure Heap.Exchanged (old new : List (Pointer × Nat)) (h h' : Heap) : Prop where
  rest : ∃ rest, h.allocations.Perm (old.map Prod.fst ++ rest) ∧
    h'.allocations.Perm (new.map Prod.fst ++ rest) ∧ SamePayloads rest h h'
  freed : ∀ x ∈ old, x.1 ∉ h'.allocations
  used_eq : h'.used + (old.map Prod.snd).sum = h.used + (new.map Prod.snd).sum

namespace Host

section Memory

variable {σ : Type} {language : Language σ} {holdings : σ → List (Pointer × Nat)}
variable {others : List Lease} {h : Host σ} {source : String} {room : Buffer} {script : σ}
variable {heap : Heap}

theorem load_exchanges (hacc : language.Accounts holdings) (howned : h.Owning holdings others)
    (hroom : h.stateRoom = .ok room) (hcompile : language.compile source h.heap = .ok script heap) :
    ∃ heap', load language source h = .ok ()
        (h.swapped (h.carryOver language (h.heritage language room) script) source heap') ∧
      Heap.Exchanged (h.held holdings) (holdings script) h.heap heap' := by
  have hfull : h.Owning holdings (others.map (Lease.full h.heap)) := Owned.full howned
  obtain ⟨heap', hload, hnew⟩ := load_installs hacc hfull hroom hcompile
  obtain ⟨own, hown, hk⟩ := howned.exists_accounted
  have hcompiled := hacc.compile source hk
  rw [hcompile] at hcompiled
  -- While both scripts are there, no two of all the allocations are the same.
  have hdistinct := hcompiled.allocations_perm.nodup_iff.1 hcompiled.nodup_allocations
  rw [List.map_append, List.nodup_append] at hdistinct
  obtain ⟨-, hrest, hnew_apart⟩ := hdistinct
  have hrest_apart := (List.nodup_append.1 hrest).2.2
  have hpointers : (others.map (Lease.full h.heap)).map (fun l => l.block.pointer)
      = others.map fun l => l.block.pointer := by
    rw [List.map_map]
    rfl
  have hsizes : (others.map (Lease.full h.heap)).map Lease.size = others.map Lease.size := by
    rw [List.map_map]
    rfl
  have hallocations := hnew.allocations_perm
  rw [hpointers] at hallocations
  refine ⟨heap', hload, ?_, ?_, ?_⟩
  · exact ⟨_, howned.allocations_perm, hallocations, howned.samePayloads hnew⟩
  · intro x hx hlive
    obtain ⟨l, hl, rfl⟩ := List.mem_map.1 (hown ▸ hx)
    have hpointer : l.block.pointer ∈ own.map fun l => l.block.pointer := List.mem_map_of_mem hl
    rcases List.mem_append.1 (hallocations.mem_iff.1 hlive) with hfresh | hother
    · exact hnew_apart _ hfresh _ (List.mem_append_left _ hpointer) rfl
    · exact hrest_apart _ hpointer _ hother rfl
  · have hbefore := howned.used_eq
    rw [hnew.used_eq, hsizes, hbefore]
    omega

theorem compile_refused_unchanged (hacc : language.Accounts holdings)
    (howned : h.Owning holdings others) {cause : ScriptFailure}
    (hcompile : language.compile source h.heap = .error (.refused cause) heap) :
    h.heap.Unchanged heap := by
  obtain ⟨own, -, hk⟩ := howned
  have hcompiled := hacc.compile source hk.full
  rw [hcompile] at hcompiled
  exact hk.unchanged hcompiled

end Memory

/-! ## Loads -/

/-- The counter of the script, zero if there is none. -/
def counter (h : Host Command.Program) : Int64 :=
  h.engine.value.script.elim 0 Command.Program.counter

/-- Nothing in front of the gate has been touched, apart from a checkpoint, and the gate is free. -/
def Aside {σ : Type} (h after : Host σ) : Prop :=
  after = { h with engine := .free after.engine.value, passed := after.passed }

/-- The host after a load that has gone through. -/
structure Swapped (source : String) (h after : Host Command.Program) : Prop where
  aside : h.Aside after
  script : ∃ fresh heap, Command.language.compile source h.heap = .ok fresh heap ∧
    after.engine.value.script = some { fresh with counter := h.counter }
  code_eq : after.engine.value.code = source
  diagnostics_eq : after.engine.value.diagnostics
    = ⟨.empty, h.engine.value.diagnostics.trace, false, true, false⟩
  memory : Heap.Exchanged (h.held Command.Program.holdings) (after.held Command.Program.holdings)
    h.heap after.heap

/-- The host after a load that has failed: the source has been refused, or there cannot be room for the
state of the old script. -/
structure Kept (source : String) (stop : Stop HostFailure) (h after : Host Command.Program) :
    Prop where
  aside : h.Aside after
  stopped : (∃ cause heap, Command.language.compile source h.heap = .error (.refused cause) heap ∧
      stop = .refused (.script cause)) ∨
    Fault.maxLength < h.settings.stateCapacity ∧ stop = .crashed .capacity
  script_eq : after.engine.value.script = h.engine.value.script
  code_eq : after.engine.value.code = h.engine.value.code
  diagnostics_eq : after.engine.value.diagnostics =
    match stop with
    | .refused cause =>
        { h.engine.value.diagnostics with
          error := BoundedText.empty.push cause.message, errorPending := true }
    | .crashed _ => h.engine.value.diagnostics
  memory : h.heap.Unchanged after.heap

variable {h : Host Command.Program} {source : String} {room : Buffer} {p : Command.Program}

theorem stateRoom_length (hroom : h.stateRoom = .ok room) :
    room.length = h.settings.stateCapacity := by
  rw [stateRoom, Buffer.create] at hroom
  cases haddress : Fault.addressable h.settings.stateCapacity with
  | error fault =>
      rw [haddress] at hroom
      cases hroom
  | ok _ =>
      rw [haddress] at hroom
      cases hroom
      rfl

theorem stateRoom_error {fault : Fault} (hroom : h.stateRoom = .error fault) :
    Fault.maxLength < h.settings.stateCapacity ∧ fault = .capacity := by
  rw [stateRoom, Buffer.create, Fault.addressable] at hroom
  split at hroom
  · cases hroom
  · next hlarge =>
      cases hroom
      exact ⟨Nat.lt_of_not_le hlarge, rfl⟩

theorem carryOver_heritage (hdistinct : h.schema.vocabulary.Distinct) (hroom : 16 ≤ room.length)
    (hnew : p.counter = 0) :
    h.carryOver Command.language (h.heritage Command.language room) p
      = { p with counter := h.counter } := by
  rw [heritage, counter]
  cases h.engine.value.script with
  | none =>
      show p = { p with counter := 0 }
      rw [← hnew]
  | some old =>
      simp only [Command.stateOf_counter hroom, Except.toOption, Option.getD_some,
        Option.elim_some]
      exact Command.carryOver_counter hdistinct old.counter p

/-- The worker has left the gate. -/
theorem aside_of_pass (h : Host Command.Program) (e : Engine Command.Program) :
    h.Aside { h.pass .scriptSwap with engine := .free e } := by
  rw [pass_eq]
  rfl

theorem swapped_of_compiled (hdistinct : h.schema.vocabulary.Distinct)
    (hstate : 16 ≤ h.settings.stateCapacity)
    {others : List Lease} (howned : h.Owning Command.Program.holdings others)
    (hroom : h.stateRoom = .ok room) {heap : Heap}
    (hcompile : Command.language.compile source h.heap = .ok p heap) :
    ∃ after, load Command.language source h = .ok () after ∧ Swapped source h after := by
  obtain ⟨heap', hload, hmemory⟩ := load_exchanges Command.accounts howned hroom hcompile
  -- The state was saved before the source was compiled, and the new script reads it back.
  have hcarried := carryOver_heritage hdistinct ((stateRoom_length hroom).symm ▸ hstate)
    (Command.compile_counter hcompile)
  rw [hcarried] at hload
  exact ⟨_, hload, aside_of_pass h _, ⟨p, heap, hcompile, rfl⟩, rfl, rfl, hmemory⟩

theorem kept_of_refused {others : List Lease}
    (howned : h.Owning Command.Program.holdings others) (hroom : h.stateRoom = .ok room)
    {cause : ScriptFailure} {heap : Heap}
    (hcompile : Command.language.compile source h.heap = .error (.refused cause) heap) :
    ∃ after, load Command.language source h = .error (.refused (.script cause)) after ∧
      Kept source (.refused (.script cause)) h after := by
  have hmemory := compile_refused_unchanged Command.accounts howned hcompile
  refine ⟨_, load_of_refused hroom hcompile, aside_of_pass h _, .inl ⟨cause, heap, hcompile, rfl⟩,
    rfl, rfl, ?_, hmemory⟩
  simp [refused, Gate.free, Diagnostics.record, HostFailure.message]

/-- A load is all or nothing, after any operations on a host: it puts the script of the source into the
place of the old one, or leaves the old one as it was. -/
theorem load_allOrNothing {supply : Supply} {settings : Settings} {first : Host Command.Program}
    {ops : List Operation} {reports : List Report}
    (hcreate : create supply Command.language settings = .ok first)
    (hrun : first.performAll Command.language ops = .ok (h, reports)) {source : String}
    (hsound : Command.language.crashesOn source h.heap = false) :
    (∃ after, load Command.language source h = .ok () after ∧ Swapped source h after) ∨
      ∃ stop after, load Command.language source h = .error stop after ∧
        Kept source stop h after := by
  have hnew := created hcreate
  obtain ⟨lost, howned, -⟩ :=
    performAll_owning Command.accounts hnew.idle (create_owning Command.accounts hcreate) hrun
  obtain ⟨hidle, hsettings, -⟩ := performAll_switched hnew.idle hrun
  have hdistinct : h.schema.vocabulary.Distinct := by
    rw [schema_performAll hnew.idle hrun, hnew.schema_eq]
    exact distinct_ofRegistry
  have hstate : 16 ≤ h.settings.stateCapacity := by
    have hvalid := Settings.le_stateCapacity (create_engine hcreate).1
    rw [hsettings, hnew.settings_eq]
    exact Nat.le_trans (by decide) hvalid
  cases hroom : h.stateRoom with
  | error fault =>
      obtain ⟨hlarge, rfl⟩ := stateRoom_error hroom
      have hload : load Command.language source h = .error (.crashed .capacity) h := by
        rw [load, hroom]
      refine .inr ⟨_, h, hload, ?_, .inr ⟨hlarge, rfl⟩, rfl, rfl, rfl, .refl _⟩
      rw [Aside, Gate.free, ← hidle]
  | ok room =>
      rw [Language.crashesOn] at hsound
      cases hcompile : Command.language.compile source h.heap with
      | ok p heap =>
          exact .inl (swapped_of_compiled hdistinct hstate howned hroom hcompile)
      | error stop heap =>
          rw [hcompile] at hsound
          cases stop with
          | refused cause => exact .inr ⟨_, kept_of_refused howned hroom hcompile⟩
          | crashed fault => cases hsound

/-- A script that has counted one event, and has memory and a line of trace, while a block waits and the
heap has been refused more memory. One source replaces it, and another one is refused behind a line that
has reserved. -/
theorem load_allOrNothing_counting :
    let s := Schema.ofVocabulary (Vocabulary.ofRegistry .empty).1
    let ops : List Operation := [.block (noteCall s false 3), .grow fun _ => .refused "no memory",
      .block (noteCall s true 3)]
    let good := "reserve 24\ncount"
    let bad := "reserve 40\nwobble"
    ∃ first h reports,
      create .ample Command.language (scripted "reserve 100\ntrace here\nhold 90000\ncount")
        = .ok first ∧
      first.performAll Command.language ops = .ok (h, reports) ∧ h.counter = 1 ∧
      h.heap.complete = true ∧
      Command.language.crashesOn good h.heap = false ∧
      Command.language.crashesOn bad h.heap = false ∧
      (∃ after, load Command.language good h = .ok () after ∧ Swapped good h after) ∧
      ∃ stop after, load Command.language bad h = .error stop after ∧ Kept bad stop h after := by
  intro s ops good bad
  have hcheck : ((create .ample Command.language
      (scripted "reserve 100\ntrace here\nhold 90000\ncount")).toOption.bind fun first =>
        (first.performAll Command.language ops).toOption.map fun x =>
          (x.1.counter, x.1.heap.complete, Command.language.crashesOn good x.1.heap,
            Command.language.crashesOn bad x.1.heap,
            load Command.language good x.1 matches .ok _ _,
            load Command.language bad x.1 matches .ok _ _))
      = some (1, true, false, false, true, false) := by
    decide +kernel
  simp only [Option.bind_eq_some_iff, Option.map_eq_some_iff, toOption_eq_some, Prod.exists,
    Prod.mk.injEq] at hcheck
  obtain ⟨first, hcreate, h, reports, hrun, hcounter, hcomplete, hgood, hbad, hloads, hrefuses⟩ :=
    hcheck
  refine ⟨first, h, reports, hcreate, hrun, hcounter, hcomplete, hgood, hbad, ?_, ?_⟩
  · rcases load_allOrNothing hcreate hrun hgood with hswapped | ⟨stop, after, hload, -⟩
    · exact hswapped
    · rw [hload] at hloads
      cases hloads
  · rcases load_allOrNothing hcreate hrun hbad with ⟨after, hload, -⟩ | hkept
    · rw [hload] at hrefuses
      cases hrefuses
    · exact hkept

end Host

end BlockHost
