import BlockHost.Proofs.HeapPlans
import BlockHost.Proofs.HeapRuns

/-!
# A heap asks in time, and not too often

Whenever more than half of a heap's space is used, a region has been asked for or there is none left
to ask for. Clients' calls see to that at their end; a commit does not look, and need not. What is
used never exceeds the space, and each region is larger than all before it together, so that after a
commit no more than half of the space is used (`Booked.used_le_space`, `Accounted.commit_low`).

The requests of a run are numbered upwards, because a request carries the number of regions there
are when it is sent, and the next one is sent only when there are more (`Charted`). So there are
fewer of them than regions, and the queue, which has a place for each region, is never full, whether
or not anybody takes requests out.
-/

namespace BlockHost.Heap

/-! ## What is used, and what there is -/

section Space

variable {h h' : Heap} {L : List Lease} {F U : List Block}

theorem space_eq_lengths (h : Heap) :
    h.space = ((List.range h.segments.length).map h.lengthAt).sum := by
  rw [space]
  congr 1
  refine List.ext_getElem (by simp) fun i hi hi' => ?_
  have hlt : i < h.segments.length := by rwa [List.length_map] at hi
  rw [List.getElem_map, List.getElem_map, List.getElem_range]
  exact (answers_of_lt hlt).2.1

/-- Sizes that double add up to one less of the next. -/
theorem Ground.Sound.sum_lengths {g : Ground} (hg : g.Sound) {n : Nat} (hn : n ≤ g.count) :
    ((List.range n).map g.length).sum + g.baseSize = g.baseSize * 2 ^ n := by
  induction n with
  | zero => simp
  | succ n ih =>
      have hrest := ih (by omega)
      rw [List.range_succ, List.map_append, List.sum_append, List.map_singleton, List.sum_singleton,
        hg.length_eq n hn, Nat.pow_succ, ← Nat.mul_assoc]
      omega

theorem Booked.space_eq {k : Books} (hk : Booked h k) :
    h.space + h.baseSize = h.baseSize * 2 ^ h.segments.length := by
  rw [space_eq_lengths]
  exact hk.tiled.sound.sum_lengths (Nat.le_refl _)

theorem Booked.used_le_space (hk : Booked h ⟨L, F, U⟩) : (L.map Lease.size).sum ≤ h.space := by
  have hsizes : (L.map Lease.size).sum ≤ ((L.map Lease.block).map Block.size).sum := by
    rw [List.map_map]
    refine List.sum_le_sum fun l hl => ?_
    have hroom := (hk.held l hl).room
    simp only [Function.comp]
    omega
  have hall : _ ≤ ((List.range h.segments.length).map h.lengthAt).sum :=
    hk.tiled.sum_size_le_lengths
  rw [← space_eq_lengths] at hall
  simp only [Books.blocks, List.map_append, List.sum_append] at hall
  omega

/-- A region that is added is larger than all the others together. -/
theorem Accounted.commit_low {region : Region} (hk : Accounted h L)
    (hrun : Heap.commit h region = .ok h') : h'.used ≤ h'.space / 2 := by
  obtain ⟨F, hbooked⟩ := hk.booked
  have hle := hbooked.used_le_space
  have hspace := hbooked.space_eq
  obtain ⟨rfl, -, hlength⟩ := commit_eq hbooked.tiled.sound hrun
  have hmore : space { h with segments := h.segments ++ [⟨region, 0⟩], awaiting := false }
      = h.space + region.size := by
    simp only [space, List.map_append, List.sum_append, List.map_singleton, List.sum_singleton]
  rw [hmore, hlength]
  show h.used ≤ _
  rw [hk.used]
  omega

end Space

/-! ## The numbers of requests -/

/-- What the requests that were sent so far have to do with the plan. -/
structure Charted (p : Plan) (sent : List Nat) : Prop where
  first : 0 < p.regions.length
  regions_le : p.regions.length ≤ p.maxRegions
  increasing : sent.Pairwise (· < ·)
  range : ∀ index ∈ sent, 1 ≤ index ∧ index < p.maxRegions
  le_regions : ∀ index ∈ sent, index ≤ p.regions.length
  /-- While nothing is in flight and growth goes on, all requests have been answered. -/
  lt_regions : p.awaiting = false → p.complete = false → ∀ index ∈ sent, index < p.regions.length
  /-- What has not been taken was sent last. -/
  queue : p.requests <:+ sent
  count_eq : p.requestCount = sent.length

section Charted

variable {p : Plan} {sent : List Nat}

theorem Charted.length_lt (hp : Charted p sent) : sent.length < p.maxRegions := by
  have hnodup : sent.Nodup := hp.increasing.imp fun hlt => Nat.ne_of_lt hlt
  have hsub : sent ⊆ List.range' 1 (p.maxRegions - 1) := by
    intro index hindex
    have hrange := hp.range index hindex
    rw [List.mem_range'_1]
    omega
  have hle := (hnodup.subperm hsub).length_le
  have hfirst := hp.first
  have hregions := hp.regions_le
  rw [List.length_range'] at hle
  omega

theorem Charted.queue_lt (hp : Charted p sent) : p.requests.length < p.maxRegions :=
  Nat.lt_of_le_of_lt hp.queue.length_le hp.length_lt

/-- A call of a client keeps the chart: a request that it sends is numbered above all others. -/
theorem Charted.asks (hp : Charted p sent) {h : Heap} (hasks : Asks p h) :
    Charted h.plan (sent ++ h.requests.drop p.requests.length) := by
  have hnext : ∀ q : Plan, h.plan = q → h.requests = q.requests := by
    rintro q rfl
    rfl
  rcases hasks with hplan | ⟨-, -, -, -, hplan⟩ | ⟨hidle, hopen, -, hleft, -, hplan⟩
  · rw [hnext _ hplan, List.drop_length, List.append_nil, hplan]
    exact hp
  · rw [hnext _ hplan, List.drop_length, List.append_nil, hplan]
    exact { hp with lt_regions := fun _ hopen => by cases hopen }
  · rw [hnext _ hplan, List.drop_left, hplan]
    have hlt := hp.lt_regions hidle hopen
    have hfirst := hp.first
    refine
      { first := hfirst
        regions_le := hp.regions_le
        increasing := ?_
        range := fun index hindex => ?_
        le_regions := fun index hindex => ?_
        lt_regions := fun hidle => by cases hidle
        queue := ?_
        count_eq := ?_ }
    · refine List.pairwise_append.2 ⟨hp.increasing, List.pairwise_singleton _ _, ?_⟩
      intro index hindex last hlast
      rw [List.mem_singleton.1 hlast]
      exact hlt index hindex
    · rcases List.mem_append.1 hindex with hindex | hindex
      · exact hp.range index hindex
      · rw [List.mem_singleton.1 hindex]
        exact ⟨hfirst, hleft⟩
    · rcases List.mem_append.1 hindex with hindex | hindex
      · exact hp.le_regions index hindex
      · exact Nat.le_of_eq (List.mem_singleton.1 hindex)
    · obtain ⟨taken, htaken⟩ := hp.queue
      refine ⟨taken, ?_⟩
      rw [← htaken, List.append_assoc]
    · rw [List.length_append, ← hp.count_eq]
      rfl

/-- Another region makes room between the requests so far and the next one. -/
theorem Charted.commit (hp : Charted p sent) (region : UInt32 × Nat)
    (hroom : p.regions.length < p.maxRegions) :
    Charted { p with regions := p.regions ++ [region], awaiting := false } sent where
  first := by rw [List.length_append]; exact Nat.succ_pos _
  regions_le := by rw [List.length_append]; exact hroom
  increasing := hp.increasing
  range := hp.range
  le_regions index hindex := by
    rw [List.length_append]
    exact Nat.le_succ_of_le (hp.le_regions index hindex)
  lt_regions _ _ index hindex := by
    rw [List.length_append]
    exact Nat.lt_succ_of_le (hp.le_regions index hindex)
  queue := hp.queue
  count_eq := hp.count_eq

theorem Charted.take (hp : Charted p sent) : Charted { p with requests := p.requests.tail } sent :=
  { hp with queue := (List.tail_suffix p.requests).trans hp.queue }

theorem Charted.giveUp (hp : Charted p sent) :
    Charted { p with awaiting := false, complete := true } sent :=
  { hp with lt_regions := fun _ hopen => by cases hopen }

end Charted

/-! ## Every run -/

namespace Tenancy

/-- The requests that a call has sent: what stands in the queue behind what stood there before. -/
def sentBy (t t' : Tenancy) : List Nat :=
  t'.heap.requests.drop t.heap.requests.length

/-- The requests that the calls of a run have sent, in their order. -/
def sent (t : Tenancy) : List Request → List Nat
  | [] => []
  | request :: rest =>
      match t.step request with
      | .ok (_, t') => t.sentBy t' ++ t'.sent rest
      | .error _ => []

/-- A state from which the heap keeps asking in time. -/
structure Timely (t : Tenancy) (sent : List Nat) : Prop where
  kept : t.Kept
  charted : Charted t.heap.plan sent
  asked : t.heap.space / 2 < t.heap.used → t.heap.awaiting = true ∨ t.heap.complete = true

theorem plan_of_commit {h h' : Heap} {region : Region} (hcommit : h.commit region = .ok h') :
    h'.plan = { h.plan with
      regions := h.plan.regions ++ [(region.index, region.size)], awaiting := false } := by
  rw [Heap.commit] at hcommit
  split at hcommit
  · cases hcommit
  split at hcommit
  · cases hcommit
  split at hcommit
  · cases hcommit
  rw [← Except.ok.inj hcommit]
  simp only [plan, List.map_append, List.map_singleton]

/-- How a call can change the plan, and when it sends a request. -/
inductive Advance (t t' : Tenancy) : Prop
  /-- A client's call, with the check at its end. -/
  | asks (hasks : Asks t.heap.plan t'.heap) (hwatched : t.heap.Watched → t'.heap.Watched)
  | take (hplan : t'.heap.plan = { t.heap.plan with requests := t.heap.requests.tail })
      (hspace : t'.heap.space = t.heap.space) (hused : t'.heap.used = t.heap.used)
  | commit (region : Region) (hcommit : t.heap.commit region = .ok t'.heap)
  | giveUp (hheap : t'.heap = t.heap.giveUpGrowth)

section Calls

variable {t t' : Tenancy} {outcome : Option HeapFailure}

theorem Advance.of_checked {α : Type} {after : α → List Allocation}
    {r : EStateM.Result (Stop HeapFailure) Heap α} (hr : Checked t.heap r)
    (hstep : t.conclude after r = .ok (outcome, t')) : t.Advance t' := by
  obtain ⟨hasks, hwatched⟩ := hr
  match r with
  | .ok a h =>
      cases hstep
      refine .asks hasks fun hw => ?_
      rcases hwatched hw with ⟨_, _, hcrash⟩ | hw
      · cases hcrash
      · exact hw
  | .error (.refused cause) h =>
      cases hstep
      refine .asks hasks fun hw => ?_
      rcases hwatched hw with ⟨_, _, hcrash⟩ | hw
      · cases hcrash
      · exact hw
  | .error (.crashed fault) h => cases hstep

theorem Advance.refl (t : Tenancy) : t.Advance t :=
  .asks (.kept rfl) id

theorem writeAt_samePlan {h h' : Heap} {p : Pointer} {start : Nat} {bs : Bytes}
    (hrun : h.writeAt p start bs = some h') : SamePlan h h' ∧ h'.used = h.used := by
  obtain ⟨before, -, hwrite⟩ := Option.bind_eq_some_iff.1 hrun
  exact write_samePlan hwrite

/-- Every call does one of four things to the plan. -/
theorem advance_of_step {request : Request} (hstep : t.step request = .ok (outcome, t')) :
    t.Advance t' := by
  have hunheld : ∀ {t' : Tenancy} {outcome : Option HeapFailure},
      (.ok (none, t) : Except Fault (Option HeapFailure × Tenancy)) = .ok (outcome, t') →
        t.Advance t' := by
    intro t' outcome h
    cases h
    exact .refl t
  cases request with
  | allocate size => exact .of_checked (allocate_checked t.heap size) hstep
  | obtain old new => exact .of_checked (resize_checked t.heap none old new) hstep
  | reallocate place new =>
      rw [step] at hstep
      split at hstep
      · exact hunheld hstep
      · exact .of_checked (reallocate_checked t.heap _ _ new) hstep
  | free place =>
      rw [step] at hstep
      split at hstep
      · exact hunheld hstep
      · exact .of_checked (free_checked t.heap _ _) hstep
  | resize place new =>
      rw [step] at hstep
      split at hstep
      · exact hunheld hstep
      · exact .of_checked (resize_checked t.heap _ _ new) hstep
  | write place start bs =>
      rw [step] at hstep
      split at hstep
      · exact hunheld hstep
      · split at hstep
        · exact hunheld hstep
        · next heap hwrite =>
            cases hstep
            obtain ⟨hsame, hused⟩ := writeAt_samePlan hwrite
            exact .asks (.kept hsame) fun hw => hw.of_samePlan hsame hused
  | commit region =>
      rw [step] at hstep
      split at hstep
      · next heap hcommit =>
          cases hstep
          exact .commit region hcommit
      · cases hstep
        exact .refl t
  | takeRequest =>
      rw [step] at hstep
      split at hstep
      · exact hunheld hstep
      · next heap htake =>
          cases hstep
          rw [Heap.takeRequest] at htake
          split at htake
          · cases htake
          · next index rest hrequests =>
              cases htake
              refine .take ?_ rfl rfl
              rw [hrequests]
              rfl
  | giveUpGrowth =>
      cases hstep
      exact .giveUp rfl

/-- A call that leaves the queue as it was has sent nothing. -/
theorem sentBy_eq_nil (hle : t'.heap.requests.length ≤ t.heap.requests.length) :
    t.sentBy t' = [] :=
  List.drop_eq_nil_of_le hle

theorem Timely.watched {sent : List Nat} (ht : t.Timely sent) : t.heap.Watched := by
  intro hhigh
  rcases ht.asked hhigh with h | h
  · exact .inl h
  · exact .inr (.inl h)

/-- The heap goes on asking in time, and the chart goes on with what the call has sent. -/
theorem Timely.step {sent : List Nat} (ht : t.Timely sent) {request : Request}
    (hstep : t.step request = .ok (outcome, t')) : t'.Timely (sent ++ t.sentBy t') := by
  have hkept : t'.Kept := by
    obtain ⟨_, _, hstep', hkept, -⟩ := ht.kept.step request
    rw [hstep] at hstep'
    cases hstep'
    exact hkept
  rcases advance_of_step hstep with ⟨hasks, hwatched⟩ | ⟨hplan, hspace, hused⟩ |
    ⟨region, hcommit⟩ | hheap
  · have hcharted := ht.charted.asks hasks
    refine ⟨hkept, hcharted, fun hhigh => ?_⟩
    rcases hwatched ht.watched hhigh with h | h | hfull
    · exact .inl h
    · exact .inr h
    · exact absurd hcharted.queue_lt (Nat.not_lt.2 hfull)
  · have hrequests : t'.heap.requests = t.heap.requests.tail := congrArg Plan.requests hplan
    have hawaiting : t'.heap.awaiting = t.heap.awaiting := congrArg Plan.awaiting hplan
    have hcomplete : t'.heap.complete = t.heap.complete := congrArg Plan.complete hplan
    rw [sentBy_eq_nil (by rw [hrequests, List.length_tail]; omega), List.append_nil]
    refine ⟨hkept, ?_, ?_⟩
    · rw [hplan]
      exact ht.charted.take
    · rw [hspace, hused, hawaiting, hcomplete]
      exact ht.asked
  · obtain ⟨L, hk, -⟩ := ht.kept
    have hlow := hk.commit_low hcommit
    obtain ⟨F, hbooked⟩ := hk.booked
    obtain ⟨hheap, hroom, -⟩ := commit_eq hbooked.tiled.sound hcommit
    rw [sentBy_eq_nil (by rw [hheap]), List.append_nil]
    refine ⟨hkept, ?_, fun hhigh => absurd hlow (Nat.not_le.2 hhigh)⟩
    rw [plan_of_commit hcommit]
    exact ht.charted.commit _ (by rw [length_regions]; exact hroom)
  · rw [sentBy_eq_nil (by rw [hheap]; exact Nat.le_refl _), List.append_nil]
    refine ⟨hkept, ?_, fun _ => .inr (by rw [hheap]; rfl)⟩
    rw [hheap]
    exact ht.charted.giveUp

/-- A request is sent only by a call that begins with nothing in flight and a region left to ask
for, and ends with more than half of the space used; it asks for the next region. -/
theorem sentBy_of_step {request : Request} (hstep : t.step request = .ok (outcome, t')) :
    t.sentBy t' = [] ∨
      t.sentBy t' = [t.heap.regionCount] ∧ t'.heap.space / 2 < t'.heap.used ∧
        t.heap.awaiting = false ∧ t.heap.complete = false ∧
        t.heap.regionCount < t.heap.maxRegions := by
  rcases advance_of_step hstep with ⟨hasks, -⟩ | ⟨hplan, -, -⟩ | ⟨region, hcommit⟩ | hheap
  · have hcount := t.heap.length_regions
    rcases hasks with hplan | ⟨-, -, -, -, hplan⟩ | ⟨hidle, hopen, hhigh, hleft, -, hplan⟩
    · have hrequests : t'.heap.requests = t.heap.requests := congrArg Plan.requests hplan
      exact .inl (sentBy_eq_nil (by rw [hrequests]))
    · have hrequests : t'.heap.requests = t.heap.requests := congrArg Plan.requests hplan
      exact .inl (sentBy_eq_nil (by rw [hrequests]))
    · have hrequests : t'.heap.requests = t.heap.requests ++ [t.heap.plan.regions.length] :=
        congrArg Plan.requests hplan
      rw [hcount] at hleft hrequests
      refine .inr ⟨?_, hhigh, hidle, hopen, hleft⟩
      rw [sentBy, hrequests, List.drop_left]
  · have hrequests : t'.heap.requests = t.heap.requests.tail := congrArg Plan.requests hplan
    exact .inl (sentBy_eq_nil (by rw [hrequests, List.length_tail]; omega))
  · have hrequests : t'.heap.requests = t.heap.requests :=
      congrArg Plan.requests (plan_of_commit hcommit)
    exact .inl (sentBy_eq_nil (by rw [hrequests]))
  · exact .inl (sentBy_eq_nil (by rw [hheap]; exact Nat.le_refl _))

theorem eq_of_commit_refused {region : Region} {cause : HeapFailure}
    (hstep : t.step (.commit region) = .ok (some cause, t')) : t' = t := by
  rw [step] at hstep
  split at hstep
  · cases hstep
  · cases hstep
    rfl

theorem Timely.run {sent : List Nat} (ht : t.Timely sent) {requests : List Request}
    (hrun : t.run requests = .ok t') : t'.Timely (sent ++ t.sent requests) := by
  induction requests generalizing t sent with
  | nil =>
      cases hrun
      rw [Tenancy.sent, List.append_nil]
      exact ht
  | cons request rest ih =>
      rw [Tenancy.run] at hrun
      rw [Tenancy.sent]
      cases hstep : t.step request with
      | error fault =>
          rw [hstep] at hrun
          cases hrun
      | ok result =>
          obtain ⟨outcome, mid⟩ := result
          rw [hstep] at hrun
          rw [← List.append_assoc]
          exact ih (ht.step hstep) hrun

theorem maxRegions_step {request : Request} (hstep : t.step request = .ok (outcome, t')) :
    t'.heap.maxRegions = t.heap.maxRegions := by
  have hof : ∀ {p : Plan}, t'.heap.plan = p → t'.heap.maxRegions = p.maxRegions := by
    rintro p rfl
    rfl
  rcases advance_of_step hstep with ⟨hasks, -⟩ | ⟨hplan, -, -⟩ | ⟨region, hcommit⟩ | hheap
  · rcases hasks with hplan | ⟨-, -, -, -, hplan⟩ | ⟨-, -, -, -, -, hplan⟩
    · exact hof hplan
    · exact hof hplan
    · exact hof hplan
  · exact hof hplan
  · exact hof (plan_of_commit hcommit)
  · rw [hheap]
    rfl

theorem maxRegions_run {requests : List Request} (hrun : t.run requests = .ok t') :
    t'.heap.maxRegions = t.heap.maxRegions := by
  induction requests generalizing t with
  | nil =>
      cases hrun
      rfl
  | cons request rest ih =>
      rw [Tenancy.run] at hrun
      cases hstep : t.step request with
      | error fault =>
          rw [hstep] at hrun
          cases hrun
      | ok result =>
          obtain ⟨outcome, mid⟩ := result
          rw [hstep] at hrun
          exact (ih hrun).trans (maxRegions_step hstep)

end Calls

end Tenancy

/-- A heap made from checked settings has as many regions to come as the settings say. -/
theorem maxRegions_create {supply : Supply} {s : Settings} (hs : s.validate = .ok ()) {h : Heap}
    (hcreate : create supply s.regionSize s.maxRegions = .ok h) : h.maxRegions = s.maxRegions := by
  have hlimits : 1 ≤ s.maxRegions ∧ s.maxRegions ≤ regionLimit := by
    simp only [Settings.validate] at hs
    split at hs
    · cases hs
    split at hs
    · cases hs
    next hcount =>
    omega
  have hmax : h.maxRegions = max 1 (min s.maxRegions regionLimit) :=
    congrArg Plan.maxRegions (plan_create hcreate)
  omega

theorem timely_create {supply : Supply} {s : Settings} {h : Heap}
    (hcreate : create supply s.regionSize s.maxRegions = .ok h) (hk : Accounted h []) :
    Tenancy.Timely ⟨h, []⟩ [] := by
  have hused : h.used = 0 := hk.used
  refine ⟨⟨[], hk, rfl⟩, ?_, fun hhigh => absurd hhigh (Nat.not_lt.2 ?_)⟩
  · rw [plan_create hcreate]
    exact
      { first := Nat.zero_lt_one
        regions_le := Nat.le_max_left 1 _
        increasing := List.Pairwise.nil
        range := fun index hindex => absurd hindex List.not_mem_nil
        le_regions := fun index hindex => absurd hindex List.not_mem_nil
        lt_regions := fun _ _ index hindex => absurd hindex List.not_mem_nil
        queue := List.suffix_refl []
        count_eq := rfl }
  · rw [hused]
    exact Nat.zero_le _

/-- In every state that is reached, more than half of the space used means that a region has been
asked for or that there is none to ask for. The requests sent on the way are numbered upwards, fewer
than regions, and never fill the queue. From there on a call sends at most the request for the next
region, for the reason there is to send it, and a commit that is refused changes nothing. -/
theorem high_water {supply : Supply} {s : Settings} (hs : s.validate = .ok ())
    (hgranted : supply s.regionSize = .granted) (requests : List Request) :
    ∃ h t, create supply s.regionSize s.maxRegions = .ok h ∧
      Tenancy.run ⟨h, []⟩ requests = .ok t ∧
      (t.heap.space / 2 < t.heap.used → t.heap.awaiting = true ∨ t.heap.complete = true) ∧
      (Tenancy.sent ⟨h, []⟩ requests).Pairwise (· < ·) ∧
      (∀ index ∈ Tenancy.sent ⟨h, []⟩ requests, 1 ≤ index ∧ index < s.maxRegions) ∧
      (Tenancy.sent ⟨h, []⟩ requests).length ≤ s.maxRegions - 1 ∧
      t.heap.requestCount = (Tenancy.sent ⟨h, []⟩ requests).length ∧
      t.heap.maxRegions = s.maxRegions ∧ t.heap.requests.length < s.maxRegions ∧
      ∀ request outcome t', t.step request = .ok (outcome, t') →
        (t.sentBy t' = [] ∨
          t.sentBy t' = [t.heap.regionCount] ∧ t'.heap.space / 2 < t'.heap.used ∧
            t.heap.awaiting = false ∧ t.heap.complete = false ∧
            t.heap.regionCount < t.heap.maxRegions) ∧
        (∀ region cause, request = .commit region → outcome = some cause → t' = t) := by
  obtain ⟨h, hcreate, hk⟩ := exists_create hs hgranted
  have hstart := timely_create hcreate hk
  obtain ⟨t, hrun, -⟩ := hstart.kept.run requests
  have ht := hstart.run hrun
  rw [List.nil_append] at ht
  have hmax : t.heap.maxRegions = s.maxRegions :=
    (Tenancy.maxRegions_run hrun).trans (maxRegions_create hs hcreate)
  have hplanMax : t.heap.plan.maxRegions = s.maxRegions := hmax
  have hlength := ht.charted.length_lt
  have hqueue := ht.charted.queue_lt
  rw [hplanMax] at hlength hqueue
  refine ⟨h, t, hcreate, hrun, ht.asked, ht.charted.increasing, fun index hindex => ?_, by omega,
    ht.charted.count_eq, hmax, hqueue, fun request outcome t' hstep => ⟨?_, ?_⟩⟩
  · rw [← hplanMax]
    exact ht.charted.range index hindex
  · exact Tenancy.sentBy_of_step hstep
  · rintro region cause rfl rfl
    exact Tenancy.eq_of_commit_refused hstep

/-- Two requests are sent, and the first is answered. One block is still held, and the second region is
awaited. -/
theorem high_water_standard :
    let requests : List Request := [.allocate 70000, .allocate 9000, .commit ⟨1, 262144, .blank⟩,
      .allocate 200000, .reallocate 0 40, .free 1]
    Settings.standard.validate = .ok () ∧ Supply.ample Settings.standard.regionSize = .granted ∧
      ∃ h t, create .ample Settings.standard.regionSize Settings.standard.maxRegions = .ok h ∧
        Tenancy.run ⟨h, []⟩ requests = .ok t ∧
        Tenancy.sent ⟨h, []⟩ requests = [1, 2] ∧
        t.live.map Allocation.size = [40, 70000] ∧
        (t.heap.space / 2 < t.heap.used → t.heap.awaiting = true ∨ t.heap.complete = true) ∧
        (Tenancy.sent ⟨h, []⟩ requests).Pairwise (· < ·) ∧
        (∀ index ∈ Tenancy.sent ⟨h, []⟩ requests, 1 ≤ index ∧ index < Settings.standard.maxRegions) ∧
        (Tenancy.sent ⟨h, []⟩ requests).length ≤ Settings.standard.maxRegions - 1 ∧
        t.heap.requestCount = (Tenancy.sent ⟨h, []⟩ requests).length ∧
        t.heap.maxRegions = Settings.standard.maxRegions ∧
        t.heap.requests.length < Settings.standard.maxRegions ∧
        ∀ request outcome t', t.step request = .ok (outcome, t') →
          (t.sentBy t' = [] ∨
            t.sentBy t' = [t.heap.regionCount] ∧ t'.heap.space / 2 < t'.heap.used ∧
              t.heap.awaiting = false ∧ t.heap.complete = false ∧
              t.heap.regionCount < t.heap.maxRegions) ∧
          (∀ region cause, request = .commit region → outcome = some cause → t' = t) := by
  intro requests
  have hcheck : ((create .ample Settings.standard.regionSize
      Settings.standard.maxRegions).toOption.bind fun h =>
      (Tenancy.run ⟨h, []⟩ requests).toOption.map fun t =>
        (Tenancy.sent ⟨h, []⟩ requests, t.live.map Allocation.size))
      = some ([1, 2], [40, 70000]) := by
    decide +kernel
  have hgranted : Supply.ample Settings.standard.regionSize = .granted := rfl
  obtain ⟨h, t, hcreate, hrun, hrest⟩ := high_water (s := Settings.standard) rfl hgranted requests
  simp only [hcreate, hrun, Except.toOption, Option.bind_some, Option.map_some, Option.some.injEq,
    Prod.mk.injEq] at hcheck
  exact ⟨rfl, hgranted, h, t, hcreate, hrun, hcheck.1, hcheck.2, hrest⟩

end BlockHost.Heap
