import BlockHost.Host.Growth
import BlockHost.Proofs.HeapPlans

/-!
# The worker answers what the heap asks for

The heap is used on one side and made larger on the other, and the two sides do not wait for each
other. The worker takes a request, acquires the region without the gate, and comes back with the
region or with the news that there is none. Between any two of these steps the audio side can make
whatever calls it likes, each of which checks for growth again.

What holds the two sides together is `Exchange.Agrees`. Either nothing is outstanding, and then the
answers so far are one commit for each region but the first; or one request is, it is for the region
that comes next, and the heap is waiting for it; or growth has been given up for good. An exchange
goes from such a state to such a state by every step (`Agrees.step`), so that every run keeps to it.
`answerRequests_exchange` says that the worker's loop makes just these steps in a row.
-/

namespace BlockHost.Heap

/-! ## The exchange, step by step -/

/-- A call of the audio side. A pointer need not be one that the heap has given. -/
inductive Use where
  | allocate (size : Nat)
  | reallocate (p : Pointer) (old new : Nat)
  | free (p : Pointer) (size : Nat)
  | resize (p : Option Pointer) (old new : Nat)
  | write (p : Pointer) (bs : Bytes)

/-- The heap after a call, however the call ends. -/
def Use.run (h : Heap) : Use → Heap
  | .allocate size => Action.left (Heap.allocate size h)
  | .reallocate p old new => Action.left (Heap.reallocate p old new h)
  | .free p size => Action.left (Heap.free p size h)
  | .resize p old new => Action.left (Heap.resize p old new h)
  | .write p bs => (h.write p bs).getD h

/-- What the worker has in hand. -/
inductive Hand where
  | nothing
  /-- A request that it has taken from the queue. -/
  | request (index : Nat)
  | region (r : Region)
  /-- A request for which it could not get a region. -/
  | failure (index : Nat)

/-- The requests that the worker has taken and not answered. -/
def Hand.indices : Hand → List Nat
  | nothing => []
  | request index => [index]
  | region r => [r.index.toNat]
  | failure index => [index]

/-- The worker can answer the request: with a region, or by giving growth up. -/
def Hand.ReadyFor (hand : Hand) (index : Nat) : Prop :=
  (∃ r, hand = .region r ∧ r.index.toNat = index) ∨ hand = .failure index

/-- How a request is answered. -/
inductive Reply where
  | committed
  | refused (cause : HeapFailure)
  | givenUp
deriving DecidableEq, Repr

/-- Whether the answer was a new region of the heap. -/
def Reply.isCommitted : Reply → Bool
  | committed => true
  | _ => false

/-- A heap, its worker, and what has passed between them. -/
structure Exchange where
  heap : Heap
  hand : Hand
  sent : List Nat
  answered : List (Nat × Reply)

/-- A step of one of the two sides. -/
inductive Move where
  | use (call : Use)
  | take
  /-- The worker acquires the region for its request, or the system refuses the memory. -/
  | acquire (supply : Supply)
  /-- The worker, with the gate, commits its region or gives the growth up. -/
  | answer

namespace Exchange

/-- A heap of which nothing has been asked yet. -/
def start (h : Heap) : Exchange :=
  ⟨h, .nothing, [], []⟩

/-- One step. A step of the worker for which it has not the right thing in hand is none. -/
def step (e : Exchange) : Move → Exchange
  | .use call =>
      { e with heap := call.run e.heap
               sent := e.sent ++ (call.run e.heap).requests.drop e.heap.requests.length }
  | .take =>
      match e.hand, e.heap.takeRequest with
      | .nothing, some (index, heap) => { e with heap, hand := .request index }
      | _, _ => e
  | .acquire supply =>
      match e.hand with
      | .request index =>
          match e.heap.regionFor supply index with
          | .ok region => { e with hand := .region region }
          | .error _ => { e with hand := .failure index }
      | _ => e
  | .answer =>
      match e.hand with
      | .region region =>
          match e.heap.commit region with
          | .ok heap =>
              { e with heap, hand := .nothing
                       answered := e.answered ++ [(region.index.toNat, .committed)] }
          | .error cause =>
              { e with hand := .nothing
                       answered := e.answered ++ [(region.index.toNat, .refused cause)] }
      | .failure index =>
          { e with heap := e.heap.giveUpGrowth, hand := .nothing
                   answered := e.answered ++ [(index, .givenUp)] }
      | _ => e

/-- The exchange after a row of steps, in whatever order those of the two sides fall. -/
def run (e : Exchange) (moves : List Move) : Exchange :=
  moves.foldl step e

/-- The requests without an answer, the one in the worker's hands first. -/
def outstanding (e : Exchange) : List Nat :=
  e.hand.indices ++ e.heap.requests

end Exchange

theorem Use.asks (h : Heap) (call : Use) : Asks h.plan (call.run h) := by
  cases call with
  | allocate size => exact (allocate_checked h size).1
  | reallocate p old new => exact (reallocate_checked h p old new).1
  | free p size => exact (free_checked h p size).1
  | resize p old new => exact (resize_checked h p old new).1
  | write p bs =>
      rw [Use.run]
      cases hrun : h.write p bs with
      | none => exact .kept rfl
      | some h' => exact .kept (write_samePlan hrun).1

namespace Exchange

/-! ## What the two sides agree on -/

/-- The answers that have made so many regions out of one. -/
def commits (regions : Nat) : List (Nat × Reply) :=
  (List.range' 1 (regions - 1)).map fun index => (index, .committed)

/-- How the plan of the heap, what is outstanding and what has been answered belong together: nothing is
outstanding; or the request for the next region is; or growth has been given up over the last request. -/
inductive Phase (p : Plan) (outstanding : List Nat) (answered : List (Nat × Reply)) : Prop
  | quiet (hidle : p.awaiting = false) (hnone : outstanding = [])
      (hanswered : answered = commits p.regions.length)
  | waiting (hawaiting : p.awaiting = true) (hone : outstanding = [p.regions.length])
      (hleft : p.regions.length < p.maxRegions) (hanswered : answered = commits p.regions.length)
  | over (hidle : p.awaiting = false) (hcomplete : p.complete = true) (hnone : outstanding = [])
      (hanswered : answered = commits p.regions.length ++ [(p.regions.length, .givenUp)])

/-- What is true of an exchange between any two steps. -/
structure Agrees (e : Exchange) : Prop where
  limit : e.heap.plan.maxRegions ≤ regionLimit
  first : 0 < e.heap.plan.regions.length
  sent_eq : e.sent = e.answered.map Prod.fst ++ e.outstanding
  phase : Phase e.heap.plan e.outstanding e.answered
  size_eq : ∀ r, e.hand = .region r →
    r.size = (Region.sizeAt e.heap.baseSize r.index.toNat).getD 0

section Steps

variable {e : Exchange}

theorem start_agrees {supply : Supply} {baseSize maxRegions : Nat} {h : Heap}
    (hcreate : create supply baseSize maxRegions = .ok h) : (start h).Agrees := by
  have hplan := plan_create hcreate
  have hnone : (start h).outstanding = [] := congrArg Plan.requests hplan
  exact
    { limit := by
        rw [start, hplan]
        exact Nat.max_le.2 ⟨by decide, Nat.min_le_right maxRegions regionLimit⟩
      first := by
        rw [start, hplan]
        exact Nat.zero_lt_one
      sent_eq := by
        rw [hnone]
        rfl
      phase := by
        rw [hnone, start, hplan]
        exact .quiet rfl rfl rfl
      size_eq := fun r hr => by cases hr }

theorem regionFor_ok {supply : Supply} {h : Heap} {index : Nat} {r : Region}
    (hregion : h.regionFor supply index = .ok r) (hsmall : index < 2 ^ 32) :
    r.index.toNat = index ∧ r.size = (Region.sizeAt h.baseSize index).getD 0 := by
  rw [regionFor] at hregion
  obtain ⟨-, -, rfl⟩ := Region.acquire_ok_iff.1 hregion
  exact ⟨UInt32.toNat_ofNat_of_lt' hsmall, rfl⟩

theorem Agrees.index_lt (he : e.Agrees) {n : Nat} (hn : n ∈ e.outstanding) :
    n = e.heap.regionCount ∧ e.heap.regionCount < e.heap.maxRegions ∧ n < 2 ^ 32 := by
  have hlimit : e.heap.maxRegions ≤ 16 := he.limit
  rw [← e.heap.length_regions]
  rcases he.phase with ⟨-, hnone, -⟩ | ⟨-, hone, hleft, -⟩ | ⟨-, -, hnone, -⟩
  · rw [hnone] at hn
    cases hn
  · rw [hone, List.mem_singleton] at hn
    have hlt : e.heap.plan.regions.length < e.heap.maxRegions := hleft
    omega
  · rw [hnone] at hn
    cases hn

theorem Agrees.withHeap (he : e.Agrees) {heap : Heap}
    (hregions : heap.plan.regions = e.heap.plan.regions) (hbase : heap.baseSize = e.heap.baseSize)
    (hmax : heap.maxRegions = e.heap.maxRegions) (hrequests : heap.requests = e.heap.requests)
    (hphase : Phase heap.plan e.outstanding e.answered) : Agrees { e with heap } := by
  have hout : ({ e with heap } : Exchange).outstanding = e.outstanding :=
    congrArg (e.hand.indices ++ ·) hrequests
  exact
    { limit := Nat.le_trans (Nat.le_of_eq hmax) he.limit
      first := by rw [hregions]; exact he.first
      sent_eq := by rw [hout]; exact he.sent_eq
      phase := by rw [hout]; exact hphase
      size_eq := by rw [hbase]; exact he.size_eq }

/-- A call of the audio side can send one request, when nothing is outstanding and growth has not
been given up. -/
theorem Agrees.use (he : e.Agrees) (call : Use) : (e.step (.use call)).Agrees := by
  have hstep : ∀ more, (call.run e.heap).requests = e.heap.requests ++ more →
      e.step (.use call) = { e with heap := call.run e.heap, sent := e.sent ++ more } := by
    intro more hmore
    rw [step, hmore, List.drop_left]
  have hsilent : (call.run e.heap).requests = e.heap.requests →
      e.step (.use call) = { e with heap := call.run e.heap } := by
    intro hrequests
    rw [hstep [] (by rw [List.append_nil, hrequests]), List.append_nil]
  -- A call that comes to the check finds nothing in flight and growth going on: of the three phases
  -- only the first one is left.
  have hquiet : e.heap.plan.awaiting = false → e.heap.plan.complete = false →
      e.outstanding = [] ∧ e.answered = commits e.heap.plan.regions.length := by
    intro hidle hopen
    rcases he.phase with ⟨-, hnone, hanswered⟩ | ⟨hawaiting, -⟩ | ⟨-, hcomplete, -⟩
    · exact ⟨hnone, hanswered⟩
    · exact absurd hawaiting (by rw [hidle]; decide)
    · exact absurd hcomplete (by rw [hopen]; decide)
  have hparts : ∀ p : Plan, (call.run e.heap).plan = p →
      (call.run e.heap).requests = p.requests ∧ (call.run e.heap).baseSize = p.baseSize ∧
        (call.run e.heap).maxRegions = p.maxRegions ∧
        (call.run e.heap).plan.regions = p.regions := by
    rintro p rfl
    exact ⟨rfl, rfl, rfl, rfl⟩
  rcases call.asks e.heap with hplan | ⟨hidle, hopen, -, -, hplan⟩ |
    ⟨hidle, hopen, -, hleft, -, hplan⟩
  · obtain ⟨hrequests, hbase, hmax, hregions⟩ := hparts _ hplan
    rw [hsilent hrequests]
    exact he.withHeap hregions hbase hmax hrequests (by rw [hplan]; exact he.phase)
  · obtain ⟨hrequests, hbase, hmax, hregions⟩ := hparts _ hplan
    obtain ⟨hnone, hanswered⟩ := hquiet hidle hopen
    rw [hsilent hrequests]
    exact he.withHeap hregions hbase hmax hrequests
      (by rw [hplan]; exact .quiet hidle hnone hanswered)
  · obtain ⟨hrequests, hbase, hmax, hregions⟩ := hparts _ hplan
    obtain ⟨hnone, hanswered⟩ := hquiet hidle hopen
    have hout : e.hand.indices ++ (call.run e.heap).requests = [e.heap.plan.regions.length] := by
      rw [hrequests, ← List.append_assoc]
      exact congrArg (· ++ [e.heap.plan.regions.length]) hnone
    rw [hstep [e.heap.plan.regions.length] hrequests]
    exact
      { limit := Nat.le_trans (Nat.le_of_eq hmax) he.limit
        first := by rw [hregions]; exact he.first
        sent_eq := by
          show e.sent ++ _ = e.answered.map Prod.fst ++ (e.hand.indices ++ _)
          rw [hout, he.sent_eq, hnone, List.append_nil]
        phase := by
          show Phase _ (e.hand.indices ++ _) e.answered
          rw [hout, hplan]
          exact .waiting rfl rfl hleft hanswered
        size_eq := by rw [hbase]; exact he.size_eq }

theorem Agrees.take (he : e.Agrees) : (e.step .take).Agrees := by
  obtain ⟨heap, hand, sent, answered⟩ := e
  cases hand with
  | nothing =>
      cases hrequests : heap.requests with
      | nil =>
          have htake : heap.takeRequest = none := by rw [takeRequest, hrequests]
          simp only [step, htake]
          exact he
      | cons index rest =>
          have htake : heap.takeRequest = some (index, { heap with requests := rest }) := by
            rw [takeRequest, hrequests]
          have hout : outstanding ⟨heap, .nothing, sent, answered⟩ = index :: rest := hrequests
          obtain ⟨hlimit, hfirst, hsent, hphase, -⟩ := he
          rw [hout] at hsent hphase
          simp only [step, htake]
          refine ⟨hlimit, hfirst, hsent, ?_, fun r hr => by cases hr⟩
          rcases hphase with ⟨-, hnone, -⟩ | ⟨hawaiting, hone, hleft, hanswered⟩ | ⟨-, -, hnone, -⟩
          · cases hnone
          · exact .waiting hawaiting hone hleft hanswered
          · cases hnone
  | request index => exact he
  | region r => exact he
  | failure index => exact he

theorem Agrees.acquire (he : e.Agrees) (supply : Supply) : (e.step (.acquire supply)).Agrees := by
  obtain ⟨heap, hand, sent, answered⟩ := e
  cases hand with
  | nothing => exact he
  | region r => exact he
  | failure index => exact he
  | request index =>
      obtain ⟨-, -, hsmall⟩ := he.index_lt (n := index) List.mem_cons_self
      have hfailure : Agrees ⟨heap, .failure index, sent, answered⟩ :=
        ⟨he.limit, he.first, he.sent_eq, he.phase, fun r hr => by cases hr⟩
      cases hregion : heap.regionFor supply index with
      | error cause =>
          simp only [step, hregion]
          exact hfailure
      | ok region =>
          obtain ⟨hindex, hsize⟩ := regionFor_ok hregion hsmall
          have hout : outstanding ⟨heap, .region region, sent, answered⟩
              = outstanding ⟨heap, .request index, sent, answered⟩ := by
            simp only [outstanding, Hand.indices, hindex]
          simp only [step, hregion]
          refine ⟨he.limit, he.first, ?_, ?_, fun r hr => ?_⟩
          · rw [hout]
            exact he.sent_eq
          · rw [hout]
            exact he.phase
          · cases hr
            rw [hindex, hsize]

/-- The region that comes is the region that is due. -/
theorem Agrees.commit (he : e.Agrees) {r : Region} (hr : e.hand = .region r) :
    e.heap.commit r = .ok { e.heap with
      segments := e.heap.segments ++ [⟨r, 0⟩]
      awaiting := false } := by
  obtain ⟨hindex, hleft, -⟩ := he.index_lt (n := r.index.toNat)
    (by rw [outstanding, hr]; exact List.mem_append_left _ List.mem_cons_self)
  have hsize := he.size_eq r hr
  rw [Heap.commit]
  simp only
  rw [if_neg (Nat.not_le.2 hleft), if_neg fun hne => hne hindex, if_neg fun hne => hne hsize]

theorem commits_succ (n : Nat) (hn : 0 < n) : commits (n + 1) = commits n ++ [(n, .committed)] := by
  obtain ⟨m, rfl⟩ : ∃ m, n = m + 1 := ⟨n - 1, by omega⟩
  rw [commits, commits, Nat.add_sub_cancel, Nat.add_sub_cancel, List.range'_concat, List.map_append,
    List.map_singleton, Nat.one_mul, Nat.add_comm]

theorem Agrees.answer (he : e.Agrees) : (e.step .answer).Agrees := by
  cases hhand : e.hand with
  | nothing =>
      simp only [step, hhand]
      exact he
  | request index =>
      simp only [step, hhand]
      exact he
  | region r =>
      have hout : e.outstanding = r.index.toNat :: e.heap.requests := by
        rw [outstanding, hhand]
        rfl
      have hsent := he.sent_eq
      simp only [step, hhand, he.commit hhand]
      rw [hout] at hsent
      have hphase := he.phase
      rw [hout] at hphase
      rcases hphase with ⟨-, hnone, -⟩ | ⟨-, hone, -, hanswered⟩ | ⟨-, -, hnone, -⟩
      · cases hnone
      · obtain ⟨hindex, hrequests⟩ := List.cons_eq_cons.1 hone
        have hcount := e.heap.length_regions
        have hregions : (plan { e.heap with
            segments := e.heap.segments ++ [⟨r, 0⟩], awaiting := false }).regions.length
              = e.heap.regionCount + 1 := by
          rw [length_regions, regionCount, List.length_append]
          rfl
        refine ⟨he.limit, ?_, ?_, ?_, fun r hr => by cases hr⟩
        · rw [hregions]
          exact Nat.succ_pos _
        · simp only [outstanding, Hand.indices, hrequests, List.append_nil, List.map_append,
            List.map_singleton]
          rw [hsent, hrequests]
        · refine .quiet rfl ?_ ?_
          · simp only [outstanding, Hand.indices, hrequests, List.append_nil]
          · rw [hregions, commits_succ _ (hcount ▸ he.first), hanswered, hindex, hcount]
      · cases hnone
  | failure index =>
      have hout : e.outstanding = index :: e.heap.requests := by
        rw [outstanding, hhand]
        rfl
      have hsent := he.sent_eq
      have hphase := he.phase
      rw [hout] at hsent hphase
      simp only [step, hhand]
      rcases hphase with ⟨-, hnone, -⟩ | ⟨-, hone, -, hanswered⟩ | ⟨-, -, hnone, -⟩
      · cases hnone
      · obtain ⟨hindex, hrequests⟩ := List.cons_eq_cons.1 hone
        have hqueue : e.heap.giveUpGrowth.requests = [] := hrequests
        refine ⟨he.limit, he.first, ?_, ?_, fun r hr => by cases hr⟩
        · simp only [outstanding, Hand.indices, hqueue, List.append_nil, List.map_append,
            List.map_singleton]
          rw [hsent, hrequests]
        · refine .over rfl rfl ?_ ?_
          · simp only [outstanding, Hand.indices, hqueue, List.append_nil]
          · rw [hanswered, hindex]
            rfl
      · cases hnone

theorem Agrees.step (he : e.Agrees) (move : Move) : (e.step move).Agrees := by
  cases move with
  | use call => exact he.use call
  | take => exact he.take
  | acquire supply => exact he.acquire supply
  | answer => exact he.answer

theorem Agrees.run (he : e.Agrees) (moves : List Move) : (e.run moves).Agrees := by
  induction moves generalizing e with
  | nil => exact he
  | cons move rest ih => exact ih (he.step move)

/-! ## Later on -/

/-- Growth has been given up, and nothing is outstanding. -/
structure Over (e : Exchange) : Prop where
  idle : e.heap.awaiting = false
  complete : e.heap.complete = true
  hand_eq : e.hand = .nothing
  queue_eq : e.heap.requests = []

theorem Agrees.over (he : e.Agrees) {index : Nat} (hmem : (index, .givenUp) ∈ e.answered) :
    e.Over := by
  have hnot : (index, .givenUp) ∉ commits e.heap.plan.regions.length := by
    intro hcommits
    obtain ⟨_, -, heq⟩ := List.mem_map.1 hcommits
    cases heq
  rcases he.phase with ⟨-, -, hanswered⟩ | ⟨-, -, -, hanswered⟩ | ⟨hidle, hcomplete, hnone, -⟩
  · exact absurd (hanswered ▸ hmem) hnot
  · exact absurd (hanswered ▸ hmem) hnot
  · obtain ⟨hindices, hqueue⟩ := List.append_eq_nil_iff.1 hnone
    refine ⟨hidle, hcomplete, ?_, hqueue⟩
    cases hhand : e.hand with
    | nothing => rfl
    | _ =>
        rw [hhand] at hindices
        cases hindices

theorem Over.step (h : e.Over) (move : Move) :
    (e.step move).Over ∧ (e.step move).sent = e.sent := by
  cases move with
  | use call =>
      rcases call.asks e.heap with hplan | ⟨-, hopen, -⟩ | ⟨-, hopen, -⟩
      · have hrequests : (call.run e.heap).requests = e.heap.requests :=
          congrArg Plan.requests hplan
        have hidle : (call.run e.heap).awaiting = e.heap.awaiting := congrArg Plan.awaiting hplan
        have hcomplete : (call.run e.heap).complete = e.heap.complete :=
          congrArg Plan.complete hplan
        refine ⟨⟨hidle.trans h.idle, hcomplete.trans h.complete, h.hand_eq,
          hrequests.trans h.queue_eq⟩, ?_⟩
        rw [Exchange.step, hrequests, h.queue_eq]
        exact List.append_nil _
      · exact absurd h.complete (by rw [show e.heap.complete = false from hopen]; decide)
      · exact absurd h.complete (by rw [show e.heap.complete = false from hopen]; decide)
  | take =>
      have htake : e.heap.takeRequest = none := by rw [takeRequest, h.queue_eq]
      simp only [Exchange.step, h.hand_eq, htake]
      exact ⟨h, trivial⟩
  | acquire supply =>
      simp only [Exchange.step, h.hand_eq]
      exact ⟨h, trivial⟩
  | answer =>
      simp only [Exchange.step, h.hand_eq]
      exact ⟨h, trivial⟩

theorem Over.run (h : e.Over) (moves : List Move) : (e.run moves).sent = e.sent := by
  induction moves generalizing e with
  | nil => rfl
  | cons move rest ih =>
      obtain ⟨hstep, hsent⟩ := h.step move
      exact (ih hstep).trans hsent

theorem run_uses (e : Exchange) (calls : List Use) :
    (e.run (calls.map .use)).hand = e.hand ∧ (e.run (calls.map .use)).answered = e.answered := by
  induction calls generalizing e with
  | nil => exact ⟨rfl, rfl⟩
  | cons call rest ih => exact ih (e.step (.use call))

theorem take_hand {index : Nat} (hout : e.outstanding = [index]) :
    (e.step .take).hand.indices = [index] ∧ (e.step .take).answered = e.answered := by
  cases hhand : e.hand with
  | nothing =>
      rw [outstanding, hhand] at hout
      have htake : e.heap.takeRequest = some (index, { e.heap with requests := [] }) := by
        rw [takeRequest, show e.heap.requests = [index] from hout]
      simp only [Exchange.step, hhand, htake]
      exact ⟨rfl, trivial⟩
  | _ =>
      rw [outstanding, hhand] at hout
      simp only [Exchange.step, hhand]
      refine ⟨?_, trivial⟩
      exact List.cons_eq_cons.2 ⟨(List.cons_eq_cons.1 hout).1, rfl⟩

theorem Agrees.acquire_hand (he : e.Agrees) {index : Nat} (hhand : e.hand.indices = [index])
    (supply : Supply) :
    (e.step (.acquire supply)).hand.ReadyFor index ∧
      (e.step (.acquire supply)).answered = e.answered := by
  have hmem : index ∈ e.outstanding := by
    rw [outstanding, hhand]
    exact List.mem_append_left _ List.mem_cons_self
  obtain ⟨-, -, hsmall⟩ := he.index_lt hmem
  cases hcase : e.hand with
  | nothing =>
      rw [hcase] at hhand
      cases hhand
  | region r =>
      rw [hcase] at hhand
      simp only [Exchange.step, hcase]
      exact ⟨.inl ⟨r, rfl, (List.cons_eq_cons.1 hhand).1⟩, trivial⟩
  | failure i =>
      rw [hcase] at hhand
      cases hhand
      simp only [Exchange.step, hcase]
      exact ⟨.inr rfl, trivial⟩
  | request i =>
      rw [hcase] at hhand
      cases hhand
      cases hregion : e.heap.regionFor supply index with
      | error cause =>
          simp only [Exchange.step, hcase, hregion]
          exact ⟨.inr rfl, trivial⟩
      | ok region =>
          simp only [Exchange.step, hcase, hregion]
          exact ⟨.inl ⟨region, rfl, (regionFor_ok hregion hsmall).1⟩, trivial⟩

theorem answer_ready {index : Nat} (hready : e.hand.ReadyFor index) :
    (e.step .answer).answered.map Prod.fst = e.answered.map Prod.fst ++ [index] := by
  rcases hready with ⟨r, hhand, rfl⟩ | hhand
  · simp only [Exchange.step, hhand]
    cases e.heap.commit r with
    | ok heap => exact List.map_append
    | error cause => exact List.map_append
  · simp only [Exchange.step, hhand]
    exact List.map_append

theorem answered_step (e : Exchange) (move : Move) : e.answered <+: (e.step move).answered := by
  cases move with
  | use call => exact List.prefix_refl _
  | take =>
      rw [Exchange.step]
      split <;> exact List.prefix_refl _
  | acquire supply =>
      rw [Exchange.step]
      split
      · split <;> exact List.prefix_refl _
      · exact List.prefix_refl _
  | answer =>
      rw [Exchange.step]
      split
      · split <;> exact List.prefix_append _ _
      · exact List.prefix_append _ _
      · exact List.prefix_refl _

theorem answered_run (e : Exchange) (moves : List Move) :
    e.answered <+: (e.run moves).answered := by
  induction moves generalizing e with
  | nil => exact List.prefix_refl _
  | cons move rest ih => exact (answered_step e move).trans (ih (e.step move))

/-- The worker's next three steps answer all that has been sent by now, whatever the audio side does
between them. -/
theorem Agrees.served (he : e.Agrees) (supply : Supply) (before behind : List Use) :
    e.sent <+: (e.run (.take :: before.map .use ++ .acquire supply :: behind.map .use
      ++ [.answer])).answered.map Prod.fst := by
  have hall : e.outstanding = [] ∨ ∃ index, e.outstanding = [index] := by
    rcases he.phase with ⟨-, hnone, -⟩ | ⟨-, hone, -⟩ | ⟨-, -, hnone, -⟩
    · exact .inl hnone
    · exact .inr ⟨_, hone⟩
    · exact .inl hnone
  rcases hall with hnone | ⟨index, hone⟩
  · rw [he.sent_eq, hnone, List.append_nil]
    exact (answered_run e _).map Prod.fst
  · obtain ⟨htaken, hfirst⟩ := take_hand hone
    obtain ⟨hkeep, hsecond⟩ := run_uses (e.step .take) before
    rw [← hkeep] at htaken
    obtain ⟨hready, hthird⟩ := (he.take.run (before.map .use)).acquire_hand htaken supply
    obtain ⟨hkeep', hfourth⟩ :=
      run_uses (((e.step .take).run (before.map .use)).step (.acquire supply)) behind
    rw [← hkeep'] at hready
    have hlast := answer_ready hready
    rw [hfourth, hthird, hsecond, hfirst] at hlast
    have hrun : e.run (.take :: before.map .use ++ .acquire supply :: behind.map .use ++ [.answer])
        = ((((e.step .take).run (before.map .use)).step (.acquire supply)).run
            (behind.map .use)).step .answer := by
      simp only [Exchange.run, List.foldl_append, List.foldl_cons, List.foldl_nil]
    refine ⟨[], ?_⟩
    rw [List.append_nil, hrun, hlast, he.sent_eq, hone]

/-! ## Every run -/

/-- What the two sides can rely on. -/
structure Orderly (e : Exchange) : Prop where
  /-- No region was ever refused, and the one in the worker's hands will not be. -/
  unrefused : ∀ index cause, (index, .refused cause) ∉ e.answered
  commits : ∀ r, e.hand = .region r → ∃ heap, e.heap.commit r = .ok heap
  /-- The heap waits exactly while one request is outstanding, and there are never two. -/
  awaiting_iff : e.heap.awaiting = true ↔ e.outstanding.length = 1
  single : e.outstanding.length ≤ 1
  /-- Requests are numbered from one on, and each has one answer or is outstanding. -/
  sent_eq : e.sent = List.range' 1 e.sent.length
  answered_once : e.answered.map Prod.fst ++ e.outstanding = e.sent
  served : ∀ (supply : Supply) (before behind : List Use),
    e.sent <+: (e.run (.take :: before.map .use ++ .acquire supply :: behind.map .use
      ++ [.answer])).answered.map Prod.fst
  regionCount_eq : e.heap.regionCount = 1 + e.answered.countP fun x => x.2.isCommitted
  last : ∀ index, (index, .givenUp) ∈ e.answered → ∀ moves, (e.run moves).sent = e.sent

theorem map_fst_commits (n : Nat) : (Exchange.commits n).map Prod.fst = List.range' 1 (n - 1) := by
  rw [Exchange.commits, List.map_map]
  exact List.map_id _

theorem countP_commits (n : Nat) :
    ((Exchange.commits n).countP fun x => x.2.isCommitted) = n - 1 := by
  have hall : ∀ x ∈ Exchange.commits n, x.2.isCommitted = true := by
    intro x hx
    obtain ⟨_, -, rfl⟩ := List.mem_map.1 hx
    rfl
  rw [List.countP_eq_length.2 hall, Exchange.commits, List.length_map, List.length_range']

theorem Agrees.stands (he : e.Agrees) : ∃ n, e.heap.regionCount = n + 1 ∧
    ((e.heap.awaiting = false ∧ e.outstanding = [] ∧ e.answered = Exchange.commits (n + 1)) ∨
      (e.heap.awaiting = true ∧ e.outstanding = [n + 1] ∧
        e.answered = Exchange.commits (n + 1)) ∨
      (e.heap.awaiting = false ∧ e.outstanding = [] ∧
        e.answered = Exchange.commits (n + 1) ++ [(n + 1, .givenUp)])) := by
  have hfirst := he.first
  have hcount := e.heap.length_regions
  obtain ⟨n, hn⟩ : ∃ n, e.heap.plan.regions.length = n + 1 :=
    ⟨e.heap.plan.regions.length - 1, by omega⟩
  refine ⟨n, hcount ▸ hn, ?_⟩
  rcases he.phase with ⟨hidle, hnone, hanswered⟩ | ⟨hbusy, hone, -, hanswered⟩ |
    ⟨hidle, -, hnone, hanswered⟩
  · exact .inl ⟨hidle, hnone, hn ▸ hanswered⟩
  · exact .inr (.inl ⟨hbusy, hn ▸ hone, hn ▸ hanswered⟩)
  · exact .inr (.inr ⟨hidle, hnone, hn ▸ hanswered⟩)

theorem Agrees.orderly (he : e.Agrees) : e.Orderly := by
  have hsent := he.sent_eq
  obtain ⟨n, hn, hstands⟩ := he.stands
  have hnext : List.range' 1 n ++ [n + 1] = List.range' 1 (n + 1) := by
    rw [List.range'_concat, Nat.one_mul, Nat.add_comm]
  have hnot : ∀ index cause, (index, Reply.refused cause) ∉ Exchange.commits (n + 1) := by
    intro index cause hmem
    obtain ⟨_, -, heq⟩ := List.mem_map.1 hmem
    cases heq
  constructor
  case commits => exact fun r hr => ⟨_, he.commit hr⟩
  case answered_once => exact hsent.symm
  case served => exact he.served
  case last => exact fun index hmem moves => (he.over hmem).run moves
  case unrefused =>
    intro index cause hmem
    rcases hstands with ⟨-, -, hanswered⟩ | ⟨-, -, hanswered⟩ | ⟨-, -, hanswered⟩
    · exact hnot index cause (hanswered ▸ hmem)
    · exact hnot index cause (hanswered ▸ hmem)
    · rw [hanswered] at hmem
      rcases List.mem_append.1 hmem with hmem | hmem
      · exact hnot index cause hmem
      · cases List.mem_singleton.1 hmem
  case awaiting_iff =>
    rcases hstands with ⟨hidle, hnone, -⟩ | ⟨hbusy, hone, -⟩ | ⟨hidle, hnone, -⟩
    · rw [hidle, hnone]
      decide
    · rw [hbusy, hone]
      exact ⟨fun _ => rfl, fun _ => rfl⟩
    · rw [hidle, hnone]
      decide
  case single =>
    rcases hstands with ⟨-, hout, -⟩ | ⟨-, hout, -⟩ | ⟨-, hout, -⟩
    all_goals
      rw [hout]
      exact Nat.le_of_ble_eq_true rfl
  case sent_eq =>
    rcases hstands with ⟨-, hout, hanswered⟩ | ⟨-, hout, hanswered⟩ | ⟨-, hout, hanswered⟩
    · rw [hsent, hout, hanswered, map_fst_commits, List.append_nil, List.length_range']
    · rw [hsent, hout, hanswered, map_fst_commits, Nat.add_sub_cancel, hnext, List.length_range']
    · rw [hsent, hout, hanswered, List.map_append, map_fst_commits, List.map_singleton,
        List.append_nil, Nat.add_sub_cancel, hnext, List.length_range']
  case regionCount_eq =>
    rcases hstands with ⟨-, -, hanswered⟩ | ⟨-, -, hanswered⟩ | ⟨-, -, hanswered⟩
    · rw [hanswered, countP_commits, hn, Nat.add_sub_cancel, Nat.add_comm]
    · rw [hanswered, countP_commits, hn, Nat.add_sub_cancel, Nat.add_comm]
    · rw [hanswered, List.countP_append, countP_commits, hn, Nat.add_sub_cancel, Nat.add_comm]
      rfl

end Steps

/-- A new heap and its worker stay in order, however the steps of the two sides fall. -/
theorem run_orderly {supply : Supply} {baseSize maxRegions : Nat} {h : Heap}
    (hcreate : create supply baseSize maxRegions = .ok h) (moves : List Move) :
    ((start h).run moves).Orderly :=
  ((start_agrees hcreate).run moves).orderly

/-- Two requests: the first is answered while the heap is in use, and for the second there is no
memory. Two blocks are in use in the end. -/
theorem run_orderly_refused :
    let moves : List Move := [.use (.allocate 80), .take, .use (.allocate 100), .acquire .ample,
      .use (.free ⟨0, 8⟩ 80), .answer, .use (.allocate 200), .take,
      .acquire fun _ => .refused "no memory", .use (.allocate 40), .answer, .use (.allocate 8)]
    ∃ h, create .ample 128 3 = .ok h ∧ ((start h).run moves).sent = [1, 2] ∧
      ((start h).run moves).answered = [(1, .committed), (2, .givenUp)] ∧
      ((start h).run moves).heap.regionCount = 2 ∧ ((start h).run moves).heap.used = 248 ∧
      ((start h).run moves).Orderly := by
  intro moves
  have hcheck : (create .ample 128 3).toOption.map (fun h =>
      (((start h).run moves).sent, ((start h).run moves).answered,
        ((start h).run moves).heap.regionCount, ((start h).run moves).heap.used))
      = some ([1, 2], [(1, .committed), (2, .givenUp)], 2, 248) := by
    decide +kernel
  simp only [Option.map_eq_some_iff, toOption_eq_some, Prod.mk.injEq] at hcheck
  obtain ⟨h, hcreate, hsent, hanswered, hregions, hused⟩ := hcheck
  exact ⟨h, hcreate, hsent, hanswered, hregions, hused, run_orderly hcreate moves⟩

end Exchange

/-! ## The worker's loop -/

/-- The steps of the worker for one request. -/
def Exchange.round (supply : Supply) : List Move :=
  [.take, .acquire supply, .answer]

theorem Exchange.run_rounds (e : Exchange) (supply : Supply) (rounds : Nat) :
    e.run (List.replicate (rounds + 1) (round supply)).flatten
      = (e.run (round supply)).run (List.replicate rounds (round supply)).flatten := by
  rw [List.replicate_succ, List.flatten_cons, run, List.foldl_append]
  rfl

/-- The worker's loop is a row of its rounds, with no call of the audio side between their steps. -/
theorem answerRequests_exchange {σ : Type} (supply : Supply) (pending committed : Nat) (h : Host σ)
    (sent : List Nat) (answered : List (Nat × Reply)) :
    ∃ rounds ≤ pending,
      (Action.left (Host.answerRequests supply pending committed h)).heap
        = (Exchange.run ⟨h.heap, .nothing, sent, answered⟩
            (List.replicate rounds (Exchange.round supply)).flatten).heap := by
  induction pending generalizing committed h sent answered with
  | zero => exact ⟨0, Nat.le_refl 0, rfl⟩
  | succ pending ih =>
      have hone : (List.replicate 1 (Exchange.round supply)).flatten = Exchange.round supply :=
        List.append_nil _
      rw [Host.answerRequests_succ]
      cases htake : h.heap.takeRequest with
      | none => exact ⟨0, Nat.zero_le _, rfl⟩
      | some taken =>
          obtain ⟨index, heap⟩ := taken
          cases hregion : heap.regionFor supply index with
          | error cause =>
              refine ⟨1, Nat.succ_le_succ (Nat.zero_le pending), ?_⟩
              rw [hone]
              simp only [Exchange.run, Exchange.round, List.foldl_cons, List.foldl_nil,
                Exchange.step, htake, hregion]
              rfl
          | ok region =>
              cases hcommit : heap.commit region with
              | error cause =>
                  refine ⟨1, Nat.succ_le_succ (Nat.zero_le pending), ?_⟩
                  rw [hone]
                  simp only [Exchange.run, Exchange.round, List.foldl_cons, List.foldl_nil,
                    Exchange.step, htake, hregion, hcommit]
                  rfl
              | ok heap' =>
                  simp only [hregion, hcommit]
                  obtain ⟨rounds, hle, hrest⟩ := ih (committed + 1)
                    (h.withHeap heap').leave.countRegion sent
                    (answered ++ [(region.index.toNat, .committed)])
                  refine ⟨rounds + 1, Nat.succ_le_succ hle, hrest.trans ?_⟩
                  have hround : Exchange.run ⟨h.heap, .nothing, sent, answered⟩
                      (Exchange.round supply) = ⟨heap', .nothing, sent,
                          answered ++ [(region.index.toNat, .committed)]⟩ := by
                    simp only [Exchange.run, Exchange.round, List.foldl_cons, List.foldl_nil,
                      Exchange.step, htake, hregion, hcommit]
                  rw [Exchange.run_rounds, hround]
                  rfl

end BlockHost.Heap
