import BlockHost.Proofs.Disabling

/-!
# What upkeep leaves alone

All that the worker does, and telling the user, happens behind the gate. Of the host itself such an
operation changes next to nothing: it may note that a checkpoint has been passed, and count the regions
that have been added (`Host.Upkept`). What has been put aside, what has been lost, and what the host
was built from stay, whatever the operation comes to (`Host.perform_upkept`).
-/

namespace BlockHost.Host

variable {σ α : Type}

/-- Apart from what is behind the gate, only a count of regions and the checkpoints may be others. -/
def Upkept (h after : Host σ) : Prop :=
  ∃ engine committed passed,
    after = { h with engine, passed, tally := { h.tally with committed } }

instance : IsPreorder (Host σ) Upkept where
  refl h := ⟨h.engine, h.tally.committed, h.passed, rfl⟩
  trans h mid after := by
    rintro ⟨_, _, _, rfl⟩ ⟨_, _, _, rfl⟩
    exact ⟨_, _, _, rfl⟩

variable {language : Language σ} {h after : Host σ}

theorem updateEngine_upkept (h : Host σ) (f : Engine σ → Engine σ) : Upkept h (h.updateEngine f) :=
  ⟨_, _, _, rfl⟩

theorem pass_upkept (h : Host σ) (c : Checkpoint) : Upkept h (h.pass c) := by
  rw [pass_eq]
  exact ⟨_, _, _, rfl⟩

theorem tell_upkept (h : Host σ) (buffer : Buffer) (frames : UInt32) :
    Upkept h (h.tell buffer frames).2.2 := by
  unfold tell
  cases h.engine.tryEnter .audio with
  | none =>
      simp only
      cases writeControl frames [] (Writer.start h.schema.vocabulary buffer) <;> exact refl h
  | some held =>
      simp only
      cases writeControl frames (pendingMessages held.value)
        (Writer.start h.schema.vocabulary buffer) with
      | ok size w => exact ⟨_, _, _, rfl⟩
      | error cause w => exact ⟨_, _, _, rfl⟩

/-- To take the gate and to leave it touches nothing in front of it. -/
theorem atGate_upkept {action : HostAction σ α} (haction : Action.Keeps Upkept action) :
    Action.Keeps Upkept (atGate action) := by
  intro h
  have hgate := haction h.hold
  rw [atGate]
  cases hresult : action h.hold with
  | ok _ after | error stop after =>
      rw [hresult] at hgate
      obtain ⟨_, _, _, rfl⟩ := hgate
      exact ⟨_, _, _, rfl⟩

/-- What holds whoever has the gate is kept by what keeps it behind the gate. -/
theorem atGate_under {I : Host σ → Prop} {action : HostAction σ α} (hhold : ∀ h, I h → I h.hold)
    (hleave : ∀ h, I h → I h.leave) (haction : Action.Keeps (Action.Under I) action) :
    Action.Keeps (Action.Under I) (atGate action) := by
  intro h hh
  have hgate := haction h.hold (hhold h hh)
  rw [atGate]
  cases hresult : action h.hold with
  | ok _ after | error stop after =>
      rw [hresult] at hgate
      exact hleave after hgate

theorem replaceScript_upkept (language : Language σ) (source : String) (room : Buffer) :
    Action.Keeps Upkept (replaceScript language source room) := by
  intro h
  rw [replaceScript]
  refine trans_of Upkept (pass_upkept h .scriptSwap) ?_
  generalize h.pass .scriptSwap = mid
  simp only
  cases language.compile source mid.heap with
  | error stop heap => cases stop <;> exact ⟨_, _, _, rfl⟩
  | ok script heap =>
      simp only
      cases Engine.install language (mid.carryOver language (mid.heritage language room) script)
        source { mid.engine.value with heap } <;> exact ⟨_, _, _, rfl⟩

theorem load_upkept (language : Language σ) (source : String) :
    Action.Keeps Upkept (load language source) := by
  intro h
  rw [load]
  cases h.stateRoom with
  | error fault => exact refl h
  | ok room => exact atGate_upkept (replaceScript_upkept language source room) h

theorem receive_upkept (language : Language σ) (message : Bytes) :
    Action.Keeps Upkept (receive language message) := by
  intro h
  rw [receive]
  generalize (Atom.parse message).bind (Message.ofAtom? h.schema) = parsed
  cases parsed with
  | none => exact refl h
  | some m =>
      cases m with
      | error text | trace text => exact refl h
      | code source =>
          have hload := load_upkept language source h
          cases hresult : load language source h with
          | ok _ after | error stop after =>
              rw [hresult] at hload
              simp only [hresult]
              exact hload

theorem saveScript_upkept (language : Language σ) (room : Buffer) :
    Action.Keeps Upkept (saveScript language room) := by
  intro h
  rw [saveScript]
  cases h.engine.value.script with
  | none => exact refl h
  | some script =>
      simp only
      cases h.stateOf language room script <;> exact refl h

theorem save_upkept (language : Language σ) : Action.Keeps Upkept (save language) := by
  intro h
  rw [save]
  cases h.stateRoom with
  | error fault => exact refl h
  | ok room => exact atGate_upkept (saveScript_upkept language room) h

theorem restoreScript_upkept (language : Language σ) (state : Atom) :
    Action.Keeps Upkept (restoreScript language state) := by
  intro h
  rw [restoreScript]
  cases h.engine.value.script with
  | none => exact refl h
  | some script =>
      refine trans_of Upkept (pass_upkept h .stateRestored) ?_
      simp only
      cases language.restore (h.pass .stateRestored).schema state script with
      | error cause => exact refl _
      | ok script => exact updateEngine_upkept _ _

theorem restore_upkept (language : Language σ) (saved : Bytes) :
    Action.Keeps Upkept (restore language saved) := by
  intro h
  rw [restore]
  cases Atom.parseWhole saved with
  | none => exact refl h
  | some state => exact atGate_upkept (restoreScript_upkept language state) h

theorem answerRequests_upkept (supply : Supply) (pending committed : Nat) :
    Action.Keeps Upkept (answerRequests (σ := σ) supply pending committed) := by
  induction pending generalizing committed with
  | zero => exact fun h => refl h
  | succ pending ih =>
      intro h
      rw [answerRequests_succ]
      cases h.heap.takeRequest with
      | none => exact refl h
      | some taken =>
          obtain ⟨index, heap⟩ := taken
          simp only
          cases heap.regionFor supply index with
          | error cause => exact ⟨_, _, _, rfl⟩
          | ok region =>
              simp only
              cases heap.commit region with
              | error cause => exact ⟨_, _, _, rfl⟩
              | ok heap => exact trans_of Upkept ⟨_, _, _, rfl⟩ (ih (committed + 1) _)

/-! ## Operations -/

/-- What an operation leaves of a host. -/
inductive Leaves (language : Language σ) (h : Host σ) : Operation → Host σ → Prop
  | block {c : Call} {a : Answer σ} (ha : h.answer language c = .ok a) :
      Leaves language h (.block c) a.host
  | tellHeld (buffer : Buffer) (frames : UInt32) :
      Leaves language h (.tell true buffer frames) (h.hold.tell buffer frames).2.2.leave
  | tell (buffer : Buffer) (frames : UInt32) :
      Leaves language h (.tell false buffer frames) (h.tell buffer frames).2.2
  | load (source : String) :
      Leaves language h (.load source) (Action.left (Host.load language source h))
  | receive (message : Bytes) :
      Leaves language h (.receive message) (Action.left (Host.receive language message h))
  | save : Leaves language h .save (Action.left (Host.save language h))
  | restore (saved : Bytes) :
      Leaves language h (.restore saved) (Action.left (Host.restore language saved h))
  | grow (supply : Supply) :
      Leaves language h (.grow supply) (Action.left (Host.grow supply h))

theorem perform_leaves {op : Operation} {report : Report}
    (hop : h.perform language op = .ok (after, report)) : Leaves language h op after := by
  cases op with
  | block c =>
      rw [perform] at hop
      cases ha : h.answer language c with
      | error fault =>
          rw [ha] at hop
          cases hop
      | ok a =>
          rw [ha] at hop
          cases hop
          exact .block ha
  | tell contended buffer frames =>
      cases contended with
      | true =>
          cases hop
          exact .tellHeld buffer frames
      | false =>
          cases hop
          exact .tell buffer frames
  | load source =>
      cases hop
      show Leaves language h _ (settle (Host.load language source) h).2
      rw [snd_settle]
      exact .load source
  | receive message =>
      cases hop
      show Leaves language h _ (settle (Host.receive language message) h).2
      rw [snd_settle]
      exact .receive message
  | save =>
      cases hop
      show Leaves language h _ (settle (Host.save language) h).2
      rw [snd_settle]
      exact .save
  | restore saved =>
      cases hop
      show Leaves language h _ (settle (Host.restore language saved) h).2
      rw [snd_settle]
      exact .restore saved
  | grow supply =>
      cases hop
      show Leaves language h _ (settle (Host.grow supply) h).2
      rw [snd_settle]
      exact .grow supply

/-- An operation is a block, or upkeep. -/
theorem Leaves.upkept {op : Operation} (hop : Leaves language h op after) :
    (∃ c, op = .block c) ∨ Upkept h after := by
  cases hop with
  | block ha => exact .inl ⟨_, rfl⟩
  | tellHeld buffer frames =>
      obtain ⟨_, _, _, htell⟩ := tell_upkept h.hold buffer frames
      rw [htell]
      exact .inr ⟨_, _, _, rfl⟩
  | tell buffer frames => exact .inr (tell_upkept h buffer frames)
  | load source => exact .inr (load_upkept language source h)
  | receive message => exact .inr (receive_upkept language message h)
  | save => exact .inr (save_upkept language h)
  | restore saved => exact .inr (restore_upkept language saved h)
  | grow supply => exact .inr (answerRequests_upkept supply _ 0 h)

theorem schema_perform {op : Operation} {report : Report} (hidle : h.engine.holder = none)
    (hop : h.perform language op = .ok (after, report)) : after.schema = h.schema := by
  have hleaves := perform_leaves hop
  rcases hleaves.upkept with ⟨c, rfl⟩ | ⟨_, _, _, rfl⟩
  · cases hleaves with | block ha =>
    cases hc : c.contended with
    | true =>
        rcases answer_held language hidle hc with ⟨_, _, hanswer, hstashed⟩ | ⟨hanswer, -⟩
        · rw [ha] at hanswer
          cases hanswer
          exact hstashed.schema_eq
        · rw [ha] at hanswer
          cases hanswer
    | false =>
        obtain ⟨_, _, _, hanswer, hended⟩ := answer_free language hidle hc
        rw [ha] at hanswer
        cases hanswer
        obtain ⟨_, hspent⟩ := hended.spent
        exact hspent.schema_eq
  · rfl

theorem schema_performAll {ops : List Operation} {reports : List Report}
    (hidle : h.engine.holder = none) (hrun : h.performAll language ops = .ok (after, reports)) :
    after.schema = h.schema := by
  induction ops generalizing h reports with
  | nil =>
      cases hrun
      rfl
  | cons op rest ih =>
      obtain ⟨mid, report, others, hop, hrest, -⟩ := performAll_cons hrun
      exact (ih ((perform_switched hidle hop).idle.trans hidle) hrest).trans (schema_perform hidle hop)

end BlockHost.Host
