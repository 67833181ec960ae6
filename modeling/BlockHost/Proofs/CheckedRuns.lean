import BlockHost.Proofs.CheckedCalls
import BlockHost.Proofs.Disabling

/-!
# Runs with every sum and range checked

A machine is operated like a host. Between two blocks sources are loaded, states are saved and
restored, the heap grows, and the user is told of errors. None of this looks at what has been put
aside, or changes it: with something else put aside, the same would be done (`Host.Blind`). This is
said once for each action, by going through it twice at the same time, and it is good for two things.
The operations do not mind in which form the backlogs are kept, so that a machine goes through them
like a host (`Machine.perform_mirrors`), and what waits before one of them waits after it as well
(`Host.Blind.kept`).

Blocks are all that is left (`Host.perform_cases`), and for them there is `Machine.answer_mirrors`.
-/

namespace BlockHost

/-- What an operation on a machine came to. -/
inductive Machine.Report where
  | block (outcome : Outcome) (outputs : List Bytes)
  /-- What an operation came to that is not a block. -/
  | other (report : Host.Report)

namespace Host

variable {σ α : Type}

/-- What is reported, with the outputs as bytes. -/
def Report.raw : Report → Machine.Report
  | .block outcome outputs => .block outcome (outputs.map Buffer.bytes)
  | report => .other report

/-- The call that an operation is, if it is one. -/
def Operation.call? : Operation → Option Call
  | .block c => some c
  | _ => none

/-- The calls among some operations. -/
def callsOf (ops : List Operation) : List Call :=
  ops.filterMap Operation.call?

theorem callsOf_cons (op : Operation) (rest : List Operation) :
    callsOf (op :: rest) = op.call?.toList ++ callsOf rest := by
  rw [callsOf, List.filterMap_cons]
  cases op.call? <;> rfl

/-! ## What has been put aside -/

/-- The host with something else put aside. -/
def aside (h : Host σ) (backlogs : List Backlog) (frames blocks : Nat) : Host σ :=
  { h with backlogs, stashedFrames := frames, stashedBlocks := blocks }

/-- An action that does not look at what has been put aside, and leaves it alone. -/
def Blind (x : Host σ → α × Host σ) : Prop :=
  ∀ h backlogs frames blocks,
    x (h.aside backlogs frames blocks) = ((x h).1, (x h).2.aside backlogs frames blocks)

section Blind

variable {x : Host σ → α × Host σ} {language : Language σ}

/-- The host that was is one with the same put aside. -/
theorem Blind.kept (hx : Blind x) (h : Host σ) :
    (x h).2 = (x h).2.aside h.backlogs h.stashedFrames h.stashedBlocks :=
  congrArg Prod.snd (hx h h.backlogs h.stashedFrames h.stashedBlocks)

theorem Blind.reported (hx : Blind x) (report : α → Report) :
    Blind fun h => (report (x h).1, (x h).2) := by
  intro h backlogs frames blocks
  show (report (x _).1, (x _).2) = _
  rw [hx]

theorem pass_aside (h : Host σ) (c : Checkpoint) (backlogs : List Backlog) (frames blocks : Nat) :
    (h.aside backlogs frames blocks).pass c = (h.pass c).aside backlogs frames blocks := by
  unfold pass
  show (if h.passed.contains c then _ else _ : Host σ) = _
  split <;> rfl

theorem tell_blind (buffer : Buffer) (frames : UInt32) :
    Blind fun h : Host σ =>
      (((h.tell buffer frames).1, (h.tell buffer frames).2.1), (h.tell buffer frames).2.2) := by
  intro h backlogs count blocks
  have hengine : (h.aside backlogs count blocks).engine = h.engine := rfl
  have hschema : (h.aside backlogs count blocks).schema = h.schema := rfl
  simp only [tell, hengine, hschema]
  cases h.engine.tryEnter .audio with
  | none => cases writeControl frames [] (Writer.start h.schema.vocabulary buffer) <;> rfl
  | some held =>
      simp only
      cases writeControl frames (pendingMessages held.value)
        (Writer.start h.schema.vocabulary buffer) <;> rfl

theorem settle_atGate (action : HostAction σ α) (h : Host σ) :
    settle (atGate action) h = ((settle action h.hold).1, (settle action h.hold).2.leave) := by
  rw [settle, atGate, settle]
  cases action h.hold <;> rfl

theorem atGate_blind {action : HostAction σ α} (haction : Blind (settle action)) :
    Blind (settle (atGate action)) := by
  intro h backlogs frames blocks
  have hgate := haction h.hold backlogs frames blocks
  rw [settle_atGate, settle_atGate]
  exact congrArg (fun x => (x.1, x.2.leave)) hgate

theorem replaceScript_blind (language : Language σ) (source : String) (room : Buffer) :
    Blind (settle (replaceScript language source room)) := by
  intro h backlogs frames blocks
  rw [settle, settle, replaceScript, replaceScript, pass_aside]
  generalize h.pass .scriptSwap = mid
  have hheap : (mid.aside backlogs frames blocks).heap = mid.heap := rfl
  have hengine : (mid.aside backlogs frames blocks).engine = mid.engine := rfl
  have hsaved : (mid.aside backlogs frames blocks).heritage language room
      = mid.heritage language room := rfl
  have hcarry : (mid.aside backlogs frames blocks).carryOver language = mid.carryOver language := rfl
  simp only [hheap, hengine, hsaved, hcarry]
  cases language.compile source mid.heap with
  | error stop heap => cases stop <;> rfl
  | ok script heap =>
      simp only
      cases Engine.install language (mid.carryOver language (mid.heritage language room) script)
        source { mid.engine.value with heap } <;> rfl

theorem load_blind (language : Language σ) (source : String) :
    Blind (settle (load language source)) := by
  intro h backlogs frames blocks
  have hroom : (h.aside backlogs frames blocks).stateRoom = h.stateRoom := rfl
  rw [settle, settle, load, load, hroom]
  cases h.stateRoom with
  | error fault => rfl
  | ok room => exact atGate_blind (replaceScript_blind language source room) h backlogs frames blocks

theorem receive_blind (language : Language σ) (message : Bytes) :
    Blind (settle (receive language message)) := by
  intro h backlogs frames blocks
  have hschema : (h.aside backlogs frames blocks).schema = h.schema := rfl
  rw [settle, settle, receive, receive, hschema]
  cases (Atom.parse message).bind (Message.ofAtom? h.schema) with
  | none => rfl
  | some m =>
      cases m with
      | error text | trace text => rfl
      | code source =>
          have hload := load_blind language source h backlogs frames blocks
          rw [settle, settle] at hload
          simp only
          -- Both loads end in the same way.
          cases hleft : load language source (h.aside backlogs frames blocks) <;>
            cases hright : load language source h <;>
            rw [hleft, hright] at hload <;> cases hload <;> rfl

theorem saveScript_blind (language : Language σ) (room : Buffer) :
    Blind (settle (saveScript language room)) := by
  intro h backlogs frames blocks
  have hengine : (h.aside backlogs frames blocks).engine = h.engine := rfl
  rw [settle, settle, saveScript, saveScript, hengine]
  cases h.engine.value.script with
  | none => rfl
  | some script =>
      have hstate : (h.aside backlogs frames blocks).stateOf language room script
          = h.stateOf language room script := rfl
      simp only [hstate]
      cases h.stateOf language room script <;> rfl

theorem save_blind (language : Language σ) : Blind (settle (save language)) := by
  intro h backlogs frames blocks
  have hroom : (h.aside backlogs frames blocks).stateRoom = h.stateRoom := rfl
  rw [settle, settle, save, save, hroom]
  cases h.stateRoom with
  | error fault => rfl
  | ok room => exact atGate_blind (saveScript_blind language room) h backlogs frames blocks

theorem restoreScript_blind (language : Language σ) (state : Atom) :
    Blind (settle (restoreScript language state)) := by
  intro h backlogs frames blocks
  have hengine : (h.aside backlogs frames blocks).engine = h.engine := rfl
  rw [settle, settle, restoreScript, restoreScript, hengine]
  cases h.engine.value.script with
  | none => rfl
  | some script =>
      simp only [pass_aside]
      have hschema : ((h.pass .stateRestored).aside backlogs frames blocks).schema
          = (h.pass .stateRestored).schema := rfl
      rw [hschema]
      cases language.restore (h.pass .stateRestored).schema state script <;> rfl

theorem restore_blind (language : Language σ) (saved : Bytes) :
    Blind (settle (restore language saved)) := by
  intro h backlogs frames blocks
  rw [settle, settle, restore, restore]
  cases Atom.parseWhole saved with
  | none => rfl
  | some state => exact atGate_blind (restoreScript_blind language state) h backlogs frames blocks

theorem answerRequests_blind (supply : Supply) (pending committed : Nat) :
    Blind (settle (σ := σ) (answerRequests supply pending committed)) := by
  induction pending generalizing committed with
  | zero => exact fun _ _ _ _ => rfl
  | succ pending ih =>
      intro h backlogs frames blocks
      have hheap : (h.aside backlogs frames blocks).heap = h.heap := rfl
      rw [settle, settle, answerRequests_succ, answerRequests_succ, hheap]
      cases h.heap.takeRequest with
      | none => rfl
      | some taken =>
          obtain ⟨index, heap⟩ := taken
          simp only
          cases heap.regionFor supply index with
          | error cause => rfl
          | ok region =>
              simp only
              cases heap.commit region with
              | error cause => rfl
              | ok heap =>
                  exact ih (committed + 1) (h.withHeap heap).leave.countRegion backlogs frames blocks

theorem grow_blind (supply : Supply) : Blind (settle (σ := σ) (grow supply)) :=
  fun h => answerRequests_blind supply h.heap.requests.length 0 h

/-- An operation is a block, or it has nothing to do with what has been put aside. -/
theorem perform_cases (language : Language σ) (op : Operation) :
    (∃ c, op = .block c) ∨ op.call? = none ∧ ∃ x : Host σ → Report × Host σ, Blind x ∧
      ∀ h, h.perform language op = .ok ((x h).2, (x h).1) ∧ (x h).1.raw = .other (x h).1 := by
  cases op with
  | block c => exact .inl ⟨c, rfl⟩
  | tell contended buffer frames =>
      have htell := (tell_blind buffer frames).reported (σ := σ) fun r => .told r.1 r.2
      cases contended with
      | true =>
          have hheld : Blind fun h : Host σ =>
              (Report.told (h.hold.tell buffer frames).1 (h.hold.tell buffer frames).2.1,
                (h.hold.tell buffer frames).2.2.leave) :=
            fun h backlogs count blocks =>
              congrArg (fun y => (y.1, y.2.leave)) (htell h.hold backlogs count blocks)
          exact .inr ⟨rfl, _, hheld, fun h => ⟨rfl, rfl⟩⟩
      | false => exact .inr ⟨rfl, _, htell, fun h => ⟨rfl, rfl⟩⟩
  | load source =>
      exact .inr ⟨rfl, _, (load_blind language source).reported .loaded, fun h => ⟨rfl, rfl⟩⟩
  | receive message =>
      exact .inr ⟨rfl, _, (receive_blind language message).reported .received, fun h => ⟨rfl, rfl⟩⟩
  | save => exact .inr ⟨rfl, _, (save_blind language).reported .saved, fun h => ⟨rfl, rfl⟩⟩
  | restore saved =>
      exact .inr ⟨rfl, _, (restore_blind language saved).reported .restored, fun h => ⟨rfl, rfl⟩⟩
  | grow supply => exact .inr ⟨rfl, _, (grow_blind supply).reported .grown, fun h => ⟨rfl, rfl⟩⟩

end Blind

end Host

/-- A shelf that has just been made: zeros, emptied before they are used. -/
def Shelf.ofRoom (schema : Schema) (capacity : Nat) : Shelf :=
  reset
    { schema
      buffer := .blank capacity
      size := Atom.headerSize
      offset := 0
      blocks := 0
      failed := false
      dropped := 0 }

namespace Machine

variable {σ : Type}

/-- Performs an operation. Whatever is not a block has nothing to do with the shelves. -/
def perform (language : Language σ) (m : Machine σ) (op : Host.Operation) :
    Except Fault (Machine σ × Report) :=
  match op.call? with
  | some c => do
      let a ← m.answer language c
      return (a.machine, .block a.outcome a.outputs)
  | none => do
      let (host, report) ← m.host.perform language op
      return ({ m with host }, .other report)

/-- Performs operations, one after the other. -/
def performAll (language : Language σ) :
    Machine σ → List Host.Operation → Except Fault (Machine σ × List Report)
  | m, [] => return (m, [])
  | m, op :: rest => do
      let (after, report) ← m.perform language op
      let (last, reports) ← performAll language after rest
      return (last, report :: reports)

/-- The machine of a host that has just been built, with a shelf for each backlog. -/
def ofNew (h : Host σ) : Machine σ where
  host := { h with backlogs := [] }
  shelves := h.backlogs.map fun b => Shelf.ofRoom b.schema b.capacity

section Runs

variable {language : Language σ} {settings : Settings} {m : Machine σ} {h after : Host σ}
variable {op : Host.Operation} {report : Host.Report}

theorem ofNew_mirrors (hnew : h.New language settings) : (ofNew h).Mirrors h where
  host_eq := rfl
  shelves := by
    refine List.forall₂_map_left_iff.2 (List.forall₂_same.2 fun b hb => ?_)
    have hroom : Shelf.Holds (Shelf.ofRoom b.schema b.capacity) b.reset :=
      Shelf.reset_holds rfl rfl
    rw [(hnew.backlogs b hb).1.reset_eq] at hroom
    exact hroom

/-- An operation that a host gets through does not bring the machine down. -/
theorem perform_mirrors (hm : m.Mirrors h) (hrange : h.InRange)
    (hop : h.perform language op = .ok (after, report)) :
    ∃ m', m.perform language op = .ok (m', report.raw) ∧ m'.Mirrors after := by
  rcases Host.perform_cases language op with ⟨c, rfl⟩ | ⟨hcall, x, hx, hperform⟩
  · rw [Host.perform] at hop
    obtain ⟨a, ha, hop⟩ := of_bind_ok hop
    cases hop
    obtain ⟨m', hanswer, hm'⟩ := answer_mirrors hm hrange ha
    refine ⟨m', ?_, hm'⟩
    show (do let a ← m.answer language c; _ : Except Fault _) = _
    rw [hanswer]
    rfl
  · obtain ⟨hop', hraw⟩ := hperform h
    rw [hop] at hop'
    cases hop'
    have hside : m.host = h.aside [] h.stashedFrames h.stashedBlocks := hm.host_eq
    have hmachine := (hperform m.host).1
    rw [hside, hx h, ← hside] at hmachine
    refine ⟨{ m with host := (x h).2.aside [] h.stashedFrames h.stashedBlocks }, ?_, ?_, ?_⟩
    · rw [perform, hcall, hraw]
      simp only [bind, Except.bind, hmachine]
      rfl
    · rw [hx.kept h]
      rfl
    · rw [hx.kept h]
      exact hm.shelves

end Runs

end Machine

end BlockHost
