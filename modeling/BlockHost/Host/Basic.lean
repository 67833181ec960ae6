import BlockHost.Checkpoint
import BlockHost.Gate
import BlockHost.Message
import BlockHost.Script.Language
import BlockHost.Settings
import BlockHost.Signal

/-!
# The host

The host runs a script over the blocks of an event stream. Behind the gate is the engine: the script,
its heap, and what there is to tell about it. In front of the gate are the backlogs, one for each
input, into which blocks go while the engine is held elsewhere.
-/

namespace BlockHost

/-- Why an operation outside the audio side is refused. -/
inductive HostFailure where
  | settings (cause : SettingsFailure)
  | region (cause : RegionFailure)
  | heap (cause : HeapFailure)
  | script (cause : ScriptFailure)
  | writer (cause : WriteFailure)
  /-- There is no script. -/
  | noScript
  /-- A saved state is not a whole atom. -/
  | invalidState
deriving DecidableEq, Repr

/-- The name of a refusal, with that of the part that refuses. -/
def HostFailure.label : HostFailure → String
  | settings cause => cause.label
  | region cause => cause.label
  | heap cause => cause.label
  | script cause => cause.label
  | writer cause => cause.label
  | noScript => "NoScript"
  | invalidState => "InvalidState"

/-- The wording of a refusal. -/
def HostFailure.message : HostFailure → String
  | settings cause => cause.message
  | region cause => cause.message
  | heap cause => cause.message
  | script cause => cause.message
  | writer cause => cause.message
  | noScript => "no script loaded"
  | invalidState => "state is not a complete atom"

/-- Why a block is bypassed. -/
inductive Bypass.Reason where
  /-- There has never been a script. -/
  | noScript
  /-- The script is disabled. -/
  | disabled
  /-- The heap ran dry in this block. -/
  | outOfMemory
  /-- An output ran out of room in this block. -/
  | overflow
  /-- The script failed in this block. -/
  | error
deriving DecidableEq, Repr

/-- The name of a reason. -/
def Bypass.Reason.name : Bypass.Reason → String
  | noScript => "NoScript"
  | disabled => "Disabled"
  | outOfMemory => "OutOfMemory"
  | overflow => "Overflow"
  | error => "Error"

/-- What became of a block. -/
inductive Outcome where
  /-- The script ran over it, and before that over the blocks that had been put aside, if any. -/
  | processed (replayed : Bool)
  /-- It was put aside. -/
  | stashed
  | bypassed (reason : Bypass.Reason)
deriving DecidableEq, Repr

/-- How often things have happened since the host was built. -/
structure Tally where
  /-- Blocks that the script got through. -/
  processed : Nat
  /-- Blocks that were put aside. -/
  stashed : Nat
  /-- Blocks that were bypassed. -/
  bypassed : Nat
  /-- Times that blocks put aside were shown to the script. -/
  replays : Nat
  /-- Events lost because a backlog had no room. -/
  dropped : Nat
  /-- Failures that disabled the script. -/
  errors : Nat
  /-- Regions added to the heap. -/
  committed : Nat
deriving DecidableEq, Repr

/-- Nothing has happened yet. -/
def Tally.zero : Tally := ⟨0, 0, 0, 0, 0, 0, 0⟩

/-- What the two sides share. -/
structure Engine (σ : Type) where
  script : Option σ
  heap : Heap
  diagnostics : Diagnostics
  /-- The source of the script. -/
  code : String

/-- The host of scripts of type `σ`. -/
structure Host (σ : Type) where
  settings : Settings
  schema : Schema
  registry : Registry
  engine : Gate (Engine σ)
  /-- The backlog of each input. -/
  backlogs : List Backlog
  /-- The frames of the blocks that have been put aside. -/
  stashedFrames : Nat
  /-- How many blocks have been put aside. -/
  stashedBlocks : Nat
  signals : SignalQueue
  tally : Tally
  /-- The checkpoints passed by the host itself. -/
  passed : List Checkpoint

namespace Engine

variable {σ : Type}

/-- An engine without a script. -/
def idle (heap : Heap) : Engine σ where
  script := none
  heap := heap
  diagnostics := .empty
  code := ""

/-- Puts a script in the place of the old one, which gives its memory back. -/
def install (language : Language σ) (script : σ) (source : String) :
    EStateM Fault (Engine σ) Unit := fun e =>
  let old := e.script
  let e := { e with script := some script }
  let done (e : Engine σ) : Engine σ :=
    { e with code := source, diagnostics := e.diagnostics.afterLoading }
  match old with
  | none => .ok () (done e)
  | some old =>
      match language.release old e.heap with
      | .ok _ heap => .ok () (done { e with heap })
      | .error fault heap => .error fault { e with heap }

end Engine

namespace Host

variable {σ : Type}

/-- The heap of a host. -/
def heap (h : Host σ) : Heap :=
  h.engine.value.heap

/-- Whether blocks wait to be shown to the script. -/
def hasBacklog (h : Host σ) : Bool :=
  0 < h.stashedBlocks

/-- The checkpoints passed while the host was built and since then. -/
def checkpoints (h : Host σ) : List Checkpoint :=
  h.passed ++ if 1 < h.heap.regionCount then [.regionOrder, .spaceConsistent] else []

/-- Builds a host. The settings are checked first; then the heap is created, if the system has memory
for its first region, then the first script is compiled, and then the backlogs are created. -/
def create (supply : Supply) (language : Language σ) (settings : Settings) :
    Except (Stop HostFailure) (Host σ) := do
  match settings.validate with
  | .error cause => throw (.refused (.settings cause))
  | .ok () => pure ()
  let (vocabulary, registry) := Vocabulary.ofRegistry .empty
  let schema := Schema.ofVocabulary vocabulary
  let heap ←
    match Heap.create supply settings.regionSize settings.maxRegions with
    | .error cause => throw (.refused (.region cause))
    | .ok heap => pure heap
  let engine ←
    match settings.code with
    | none => pure (Engine.idle heap)
    | some source =>
        match language.compile source heap with
        | .error (.refused cause) _ => throw (.refused (.script cause))
        | .error (.crashed fault) _ => throw (.crashed fault)
        | .ok script heap =>
            match Engine.install language script source (Engine.idle heap) with
            | .ok _ engine => pure engine
            | .error fault _ => throw (.crashed fault)
  let backlogs ←
    match (List.replicate settings.inputs settings.backlogCapacity).mapM (Backlog.create schema) with
    | .error fault => throw (.crashed fault)
    | .ok backlogs => pure backlogs
  return {
    settings
    schema
    registry
    engine := .free engine
    backlogs
    stashedFrames := 0
    stashedBlocks := 0
    signals := .empty
    tally := .zero
    passed := [.kindsSorted, .initialRegion, .portsBound] }

/-- The number of a URI, a new one when the URI is seen for the first time. -/
def intern (h : Host σ) (uri : String) : UInt32 × Host σ :=
  let (id, registry) := h.registry.intern uri
  (id, { h with registry })

end Host

end BlockHost
