import Mathlib.Order.Defs.Unbundled

/-!
# Running actions

The heap, the writer and the session are changed by actions that answer or stop, and either way
say which state they leave. A proof about an action is a walk along its binds: each one is
opened by what its first part is known to do. The laws here are those steps, once and for all
states.

Where it does not matter what comes of an action, it is enough to know how the state that it leaves
stands to the state it began with (`Keeps`). This is known of a whole action as soon as it is known
of its parts.

An action that stops halfway often keeps less than one that answers. `Leads` says both at once: what
holds in any case, and what an answer adds to it.
-/

namespace BlockHost.Action

variable {ε ε' σ α β : Type}

theorem bind_ok {x : EStateM ε σ α} {f : α → EStateM ε σ β} {s s' : σ} {a : α}
    (h : x s = .ok a s') : (x >>= f) s = f a s' := by
  simp only [bind, EStateM.bind, h]

theorem bind_error {x : EStateM ε σ α} {f : α → EStateM ε σ β} {s s' : σ} {e : ε}
    (h : x s = .error e s') : (x >>= f) s = .error e s' := by
  simp only [bind, EStateM.bind, h]

theorem get_bind {f : σ → EStateM ε σ β} {s : σ} : (get >>= f) s = f s s := rfl

theorem modify_bind {g : σ → σ} {f : PUnit → EStateM ε σ β} {s : σ} :
    ((modify g : EStateM ε σ PUnit) >>= f) s = f ⟨⟩ (g s) := rfl

theorem of_bind_ok {x : EStateM ε σ α} {f : α → EStateM ε σ β} {s s' : σ} {b : β}
    (h : (x >>= f) s = .ok b s') : ∃ a mid, x s = .ok a mid ∧ f a mid = .ok b s' := by
  cases hx : x s with
  | ok a mid =>
      rw [bind_ok hx] at h
      exact ⟨a, mid, rfl, h⟩
  | error e mid =>
      rw [bind_error hx] at h
      cases h

/-! ## What an action keeps -/

/-- The state that is left when an action has answered or stopped. -/
def left : EStateM.Result ε σ α → σ
  | .ok _ s => s
  | .error _ s => s

/-- Whatever comes of the action, it leaves a state that stands in a relation to the state before.
-/
def Keeps (R : σ → σ → Prop) (x : EStateM ε σ α) : Prop :=
  ∀ s, R s (left (x s))

section Keeps

variable {R : σ → σ → Prop} {x : EStateM ε σ α} {f : α → EStateM ε σ β} {s s' : σ} {a : α} {e : ε}

theorem Keeps.of_ok (hx : Keeps R x) (h : x s = .ok a s') : R s s' := by
  have hleft := hx s
  rwa [h] at hleft

theorem Keeps.of_error (hx : Keeps R x) (h : x s = .error e s') : R s s' := by
  have hleft := hx s
  rwa [h] at hleft

theorem Keeps.mono {R' : σ → σ → Prop} (hx : Keeps R x) (h : ∀ s s', R s s' → R' s s') :
    Keeps R' x :=
  fun s => h s _ (hx s)

theorem keeps_modify {g : σ → σ} (h : ∀ s, R s (g s)) :
    Keeps R (modify g : EStateM ε σ PUnit) :=
  h

variable [IsPreorder σ R]

theorem keeps_pure (a : α) : Keeps R (pure a : EStateM ε σ α) :=
  fun s => refl s

theorem keeps_throw (e : ε) : Keeps R (throw e : EStateM ε σ α) :=
  fun s => refl s

theorem keeps_get : Keeps R (get : EStateM ε σ σ) :=
  fun s => refl s

theorem Keeps.bind (hx : Keeps R x) (hf : ∀ a, Keeps R (f a)) : Keeps R (x >>= f) := by
  intro s
  cases h : x s with
  | ok a mid =>
      rw [bind_ok h]
      exact trans_of R (hx.of_ok h) (hf a mid)
  | error e mid =>
      rw [bind_error h]
      exact hx.of_error h

end Keeps

/-- What holds before, holds afterwards. -/
def Under (I : σ → Prop) (s s' : σ) : Prop :=
  I s → I s'

instance (I : σ → Prop) : IsPreorder σ (Under I) where
  refl _ h := h
  trans _ _ _ h h' hs := h' (h hs)

/-! ## What an answer means -/

/-- Whatever comes of the action, it leaves a state that stands in one relation to the state before,
and when it answers, in another one as well. -/
structure Leads (R Q : σ → σ → Prop) (x : EStateM ε σ α) : Prop where
  keeps : Keeps R x
  answers : ∀ {s : σ} {a : α} {s' : σ}, x s = .ok a s' → Q s s'

theorem Keeps.leads {R : σ → σ → Prop} {x : EStateM ε σ α} (hx : Keeps R x) : Leads R R x :=
  ⟨hx, hx.of_ok⟩

section Leads

variable {R Q : σ → σ → Prop} [IsPreorder σ R] [IsPreorder σ Q]
variable {x : EStateM ε σ α} {f : α → EStateM ε σ β}

theorem leads_pure (a : α) : Leads R Q (pure a : EStateM ε σ α) := by
  refine ⟨keeps_pure a, fun h => ?_⟩
  cases h
  exact refl _

omit [IsPreorder σ Q] in
theorem leads_throw (e : ε) : Leads R Q (throw e : EStateM ε σ α) :=
  ⟨keeps_throw e, fun h => (by cases h)⟩

theorem leads_get : Leads R Q (get : EStateM ε σ σ) := by
  refine ⟨keeps_get, fun h => ?_⟩
  cases h
  exact refl _

theorem Leads.bind (hx : Leads R Q x) (hf : ∀ a, Leads R Q (f a)) : Leads R Q (x >>= f) := by
  refine ⟨hx.keeps.bind fun a => (hf a).keeps, fun h => ?_⟩
  obtain ⟨a, mid, hfirst, hrest⟩ := of_bind_ok h
  exact trans_of Q (hx.answers hfirst) ((hf a).answers hrest)

theorem leads_forM {xs : List α} {f : α → EStateM ε σ PUnit} (h : ∀ a ∈ xs, Leads R Q (f a)) :
    Leads R Q (xs.forM f) := by
  induction xs with
  | nil => exact leads_pure _
  | cons a xs ih =>
      exact (h a List.mem_cons_self).bind fun _ => ih fun b hb => h b (List.mem_cons_of_mem a hb)

omit [IsPreorder σ R] [IsPreorder σ Q] in
theorem Leads.discard (hx : Leads R Q x) : Leads R Q (discard x : EStateM ε σ PUnit) := by
  have hrun : ∀ s, (Functor.discard x : EStateM ε σ PUnit) s =
      match x s with
      | .ok _ s' => .ok ⟨⟩ s'
      | .error e s' => .error e s' := by
    intro s
    simp only [Functor.discard, Functor.mapConst, Function.comp, EStateM.map]
    cases x s <;> rfl
  refine ⟨?_, ?_⟩
  · intro s
    have hleft := hx.keeps s
    rw [hrun]
    cases hs : x s with
    | ok a s' =>
        rw [hs] at hleft
        exact hleft
    | error e s' =>
        rw [hs] at hleft
        exact hleft
  · intro s a s' h
    rw [hrun] at h
    cases hs : x s with
    | ok b after =>
        rw [hs] at h
        cases h
        exact hx.answers hs
    | error e after =>
        rw [hs] at h
        cases h

end Leads

end BlockHost.Action

/-! ## Values that may fail -/

namespace BlockHost

variable {ε α β : Type} {x : Except ε α}

theorem of_bind_ok {f : α → Except ε β} {b : β} (h : x >>= f = .ok b) :
    ∃ a, x = .ok a ∧ f a = .ok b := by
  cases x with
  | error e => cases h
  | ok a => exact ⟨a, rfl, h⟩

theorem toOption_eq_some {a : α} : x.toOption = some a ↔ x = .ok a := by
  cases x with
  | error e => exact ⟨fun h => (by cases h), fun h => (by cases h)⟩
  | ok b => exact ⟨fun h => congrArg Except.ok (Option.some.inj h), fun h => (by cases h; rfl)⟩

end BlockHost
