import BlockHost.Host.Process

/-!
# Outside the audio side

What the operations of the worker are made of. The worker waits until the gate is free, so its
operations begin with a free gate. What they do to the engine they do with the gate in their hands
(`Host.atGate`), and they leave the gate whatever that comes to; while the worker holds it
(`Host.hold`), blocks are put aside. An operation that is refused or brought down leaves the host as it
had become.
-/

namespace BlockHost

/-- An operation outside the audio side. -/
abbrev HostAction (σ : Type) := EStateM (Stop HostFailure) (Host σ)

namespace Host

variable {σ α : Type}

/-- The host while the worker holds the gate. -/
def hold (h : Host σ) : Host σ :=
  { h with engine := (h.engine.tryEnter .worker).getD h.engine }

/-- The host after the gate's holder has left. -/
def leave (h : Host σ) : Host σ :=
  { h with engine := h.engine.leave }

/-- What the worker does between taking the gate and leaving it. It leaves also when it is refused or
brought down. -/
def atGate (action : HostAction σ α) : HostAction σ α := fun h =>
  match action h.hold with
  | .ok a h => .ok a h.leave
  | .error stop h => .error stop h.leave

/-- The host with another engine. -/
def updateEngine (h : Host σ) (f : Engine σ → Engine σ) : Host σ :=
  { h with engine := h.engine.update f }

/-- The host with another heap. -/
def withHeap (h : Host σ) (heap : Heap) : Host σ :=
  h.updateEngine fun e => { e with heap }

/-- Of the gate only its holder changes when it is taken. -/
theorem exists_hold (h : Host σ) :
    ∃ side, h.hold = { h with engine := ⟨some side, h.engine.value⟩ } := by
  obtain ⟨_, _, _, ⟨holder, _⟩⟩ := h
  cases holder <;> exact ⟨_, rfl⟩

@[simp] theorem value_hold (h : Host σ) : h.hold.engine.value = h.engine.value := by
  obtain ⟨side, hhold⟩ := h.exists_hold
  rw [hhold]

/-- Nothing is left of having held the gate. -/
theorem leave_updateEngine_hold (h : Host σ) (f : Engine σ → Engine σ) :
    (h.hold.updateEngine f).leave = (h.updateEngine f).leave := by
  obtain ⟨side, hhold⟩ := h.exists_hold
  rw [hhold]
  rfl

theorem leave_hold (h : Host σ) : h.hold.leave = h.leave :=
  leave_updateEngine_hold h id

theorem leave_of_idle {h : Host σ} (hidle : h.engine.holder = none) : h.leave = h := by
  rw [leave, Gate.leave, ← hidle]

/-- The host after a checkpoint. -/
def pass (h : Host σ) (c : Checkpoint) : Host σ :=
  if h.passed.contains c then h else { h with passed := h.passed ++ [c] }

theorem pass_eq (h : Host σ) (c : Checkpoint) :
    h.pass c = { h with passed := if h.passed.contains c then h.passed else h.passed ++ [c] } := by
  unfold pass
  split <;> rfl

end Host

end BlockHost
