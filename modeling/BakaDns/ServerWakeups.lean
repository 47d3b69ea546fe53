import BakaDns.ServerThreads

/-!
# No lost wake-up

A job in the queue is never left to workers that all sleep, however many producers push and however
the signals are delivered. And with the waiting, the responders and the replies forgotten, every run
of the server is a run of the pool.
-/

namespace BakaDns
open Threads

/-! The queue. -/

section Wakeups

variable {db : BucketTree} {s s' : ServerState} {a : ServerAction} {i j : Fin defaultNThreads}
  {w : ServerWorker} {wakes : Finset (Fin defaultNThreads)}

theorem mem_signalled : i ∈ s.signalled ↔ s.workers i = .signalled := by
  rw [ServerState.signalled, Finset.mem_filter, and_iff_right (Finset.mem_univ i)]
  cases s.workers i <;> simp [ServerWorker.isSignalled]

/-- While a worker waits, every job in the queue has a worker that was signalled and is on its way
to the queue. -/
structure ServerState.Awake (s : ServerState) : Prop where
  contents : ∃ jobs, s.queue.Contents jobs
  signalled : s.waiting.Nonempty → s.queue.len.toNat ≤ s.signalled.card

/-- Fewer jobs, fewer workers that wait, more that were signalled. -/
theorem ServerState.Awake.mono (h : s.Awake) (hcontents : ∃ jobs, s'.queue.Contents jobs)
    (hlen : s'.queue.len.toNat ≤ s.queue.len.toNat) (hwaiting : s'.waiting ⊆ s.waiting)
    (hsignalled : s.signalled ⊆ s'.signalled) : s'.Awake :=
  ⟨hcontents, fun hne => hlen.trans
    ((h.signalled (hne.mono hwaiting)).trans (Finset.card_le_card hsignalled))⟩

/-- A step that concerns only a worker that neither waits nor was signalled. -/
theorem ServerState.Awake.move (h : s.Awake) (hqueue : s'.queue = s.queue)
    (hs : s'.workers = Function.update s.workers i w) (hi : s.workers i ≠ .waiting)
    (hi' : s.workers i ≠ .signalled) (hw : w ≠ .waiting) : s'.Awake := by
  apply h.mono
  · rw [hqueue]
    exact h.contents
  · rw [hqueue]
  · exact (waiting_update hs hi hw).le
  · intro j hj
    rw [mem_signalled] at hj ⊢
    have hne : j ≠ i := by
      rintro rfl
      exact hi' hj
    rwa [hs, Function.update_of_ne hne]

theorem mem_waiting_wake : i ∈ (s.wake wakes).waiting ↔ i ∈ s.waiting ∧ i ∉ wakes := by
  rw [mem_waiting, mem_waiting, ServerState.wake]
  by_cases hi : i ∈ wakes
  · simp [hi]
  · simp [hi]

theorem mem_signalled_wake : i ∈ (s.wake wakes).signalled ↔ i ∈ s.signalled ∨ i ∈ wakes := by
  rw [mem_signalled, mem_signalled, ServerState.wake]
  by_cases hi : i ∈ wakes
  · simp [hi]
  · simp [hi]

/-- A signal does no harm. -/
theorem ServerState.Awake.wake (h : s.Awake) : (s.wake wakes).Awake :=
  h.mono h.contents le_rfl (fun _ hj => (mem_waiting_wake.1 hj).1)
    fun _ hj => mem_signalled_wake.2 (.inl hj)

/-- One more job, and a signal for it. -/
theorem ServerState.Awake.add (h : s.Awake) (hwakes : s.Wakes wakes) {queue : JobQueue Request}
    {responders : Responder → Option Request} {refused : List Request}
    (hcontents : ∃ jobs, queue.Contents jobs) (hlen : queue.len.toNat ≤ s.queue.len.toNat + 1) :
    (({ s with queue := queue, responders := responders, refused := refused } :
      ServerState).wake wakes).Awake := by
  refine ⟨hcontents, fun hne => ?_⟩
  obtain ⟨j, hj⟩ := hne
  have hwaits : s.waiting.Nonempty := ⟨j, (mem_waiting_wake.1 hj).1⟩
  have hbefore := h.signalled hwaits
  have hdisjoint : Disjoint s.signalled wakes := by
    rw [Finset.disjoint_left]
    intro k hk hkw
    have hkwaits := mem_waiting.1 (hwakes.1 hkw)
    rw [mem_signalled.1 hk] at hkwaits
    cases hkwaits
  have hunion : s.signalled ∪ wakes ⊆ (({ s with
      queue := queue, responders := responders, refused := refused } :
      ServerState).wake wakes).signalled := by
    intro k hk
    exact mem_signalled_wake.2 (Finset.mem_union.1 hk)
  have hcard := Finset.card_le_card hunion
  rw [Finset.card_union_of_disjoint hdisjoint] at hcard
  have hpos := Finset.card_pos.2 (hwakes.2 hwaits)
  change queue.len.toNat ≤ _
  omega

/-- A worker takes a job: one job fewer, and at most one worker fewer that was signalled. -/
theorem ServerState.Awake.pulls (h : s.Awake) {queue : JobQueue Request} {job : Option Request}
    (hi : s.workers i = .asking ∨ s.workers i = .signalled)
    (hcontents : ∃ jobs, queue.Contents jobs) (hlen : queue.len.toNat + 1 = s.queue.len.toNat) :
    (({ s with queue := queue } : ServerState).setWorker i (.pulled job)).Awake := by
  have hwait : s.workers i ≠ .waiting := by
    rintro hw
    rw [hw] at hi
    simp at hi
  refine ⟨hcontents, fun hne => ?_⟩
  have hbefore := h.signalled (hne.mono (waiting_update rfl hwait (by simp)).le)
  have herase : s.signalled.erase i ⊆ (({ s with queue := queue } : ServerState).setWorker i
      (.pulled job)).signalled := by
    intro j hj
    obtain ⟨hne, hj⟩ := Finset.mem_erase.1 hj
    rw [mem_signalled] at hj ⊢
    rwa [setWorker_of_ne hne]
  have hcard := Finset.card_le_card herase
  have hpred := Finset.pred_card_le_card_erase (s := s.signalled) (a := i)
  change queue.len.toNat ≤ _
  omega

theorem ServerState.Awake.step (h : s.Awake) (hstep : ServerStepped db s a s') : s'.Awake := by
  obtain ⟨jobs, hjobs⟩ := h.contents
  cases hstep with
  | receive args hfree => exact h.mono h.contents le_rfl (Finset.Subset.refl _) (Finset.Subset.refl _)
  | add r wakes request ret queue hr hadd hwakes =>
    rcases threadpoolAddJob_cases hjobs hadd with ⟨-, hc⟩ | ⟨-, -, rfl⟩
    · apply h.add hwakes ⟨_, hc⟩
      rw [hc.len_eq, hjobs.len_eq, List.length_append, List.length_singleton]
    · exact h.add hwakes ⟨_, hjobs⟩ (Nat.le_succ _)
  | waits i hi queue hpull =>
    rcases pullJob_cases hjobs hpull with ⟨rfl, -, rfl⟩ | ⟨job, rest, -, hne, -⟩
    · refine ⟨⟨_, hjobs⟩, fun _ => ?_⟩
      change s.queue.len.toNat ≤ _
      rw [hjobs.len_eq]
      exact Nat.zero_le _
    · cases hne
  | pulls i hi job queue hpull =>
    rcases pullJob_cases hjobs hpull with ⟨-, hne, -⟩ | ⟨job', rest, rfl, -, hc⟩
    · cases hne
    · apply h.pulls hi ⟨_, hc⟩
      rw [hc.len_eq, hjobs.len_eq, List.length_cons]
  | countOut i job hi => exact h.move rfl rfl (by simp [hi]) (by simp [hi]) (by simp)
  | performs i job op k r shared hi hexec =>
    exact h.move rfl rfl (by simp [hi]) (by simp [hi]) (by simp)
  | faults i job op k fault hi hexec =>
    exact h.move rfl rfl (by simp [hi]) (by simp [hi]) (by simp)
  | send i request reply hi => exact h.move rfl rfl (by simp [hi]) (by simp [hi]) (by simp)
  | countIn i wakes job hi hwakes =>
    exact ServerState.Awake.wake (h.move rfl rfl (by simp [hi]) (by simp [hi]) (by simp))
  | exit i job hi => exact h.move rfl rfl (by simp [hi]) (by simp [hi]) (by simp)
  | spurious i hi =>
    apply ServerState.Awake.mono h
    · exact h.contents
    · exact le_rfl
    · intro j hj
      rw [mem_waiting] at hj ⊢
      by_cases hji : j = i
      · rw [hji, hi]
      · rwa [setWorker_of_ne hji] at hj
    · intro j hj
      rw [mem_signalled] at hj ⊢
      by_cases hji : j = i
      · rw [hji]
        exact setWorker_self s i _
      · rwa [setWorker_of_ne hji]
  | environment a w ha => exact h.mono h.contents le_rfl (Finset.Subset.refl _) (Finset.Subset.refl _)

theorem awake_initial (now : ℕ) : (ServerState.initial now).Awake := by
  refine ⟨⟨[], contents_queueInit⟩, fun _ => Nat.zero_le _⟩

/-- In every run and however signals are delivered: while a worker sleeps, the jobs in the queue are
no more than the workers that have been signalled and are about to ask again. So a queue with a job
in it never finds all workers asleep. -/
theorem serverRun_awake {ok : ServerState → ServerAction → Prop} (hrun : ServerRun db ok s) :
    (∀ i, s.workers i = .waiting → s.queue.len.toNat ≤ s.signalled.card) ∧
      ((∀ i, s.workers i = .waiting) → s.queue.len = 0) := by
  have hawake : s.Awake :=
    hrun.invariant awake_initial fun _ _ _ h _ hstep => h.step hstep
  have hfirst : ∀ i, s.workers i = .waiting → s.queue.len.toNat ≤ s.signalled.card :=
    fun i hi => hawake.signalled ⟨i, mem_waiting.2 hi⟩
  refine ⟨hfirst, fun hall => ?_⟩
  have hnone : s.signalled = ∅ := by
    apply Finset.eq_empty_of_forall_notMem
    intro j hj
    rw [mem_signalled, hall j] at hj
    cases hj
  have hlen := hfirst firstWorker (hall firstWorker)
  rw [hnone, Finset.card_empty] at hlen
  exact UInt8.toNat_inj.1 (Nat.le_zero.1 hlen)

theorem serverRun_awake_status : ∃ s, ServerRun (treeInit rrHash) (fun _ _ => True) s ∧
    (∀ i, s.workers i = .waiting) ∧
      (∀ i, s.workers i = .waiting → s.queue.len.toNat ≤ s.signalled.card) ∧
        ((∀ i, s.workers i = .waiting) → s.queue.len = 0) := by
  obtain ⟨s, hrun, hwaits, -⟩ := statusRun fun _ _ => trivial
  exact ⟨s, hrun, hwaits, serverRun_awake hrun⟩

end Wakeups

/-! The pool underneath. -/

section Pool

variable {J K : Type} {f : J → K} {q q' : JobQueue J}

def JobQueue.map (f : J → K) (q : JobQueue J) : JobQueue K where
  queue := q.queue.map (Option.map f)
  len := q.len
  front := q.front
  back := q.back

def PullResult.map (f : J → K) : PullResult J → PullResult K
  | .waits => .waits
  | .returns job => .returns (job.map f)

theorem queueFront_map (q : JobQueue J) :
    queueFront (q.map f) = (queueFront q).map (Option.map f) := by
  unfold queueFront
  by_cases hlen : q.len = 0
  · simp [JobQueue.map, hlen]
  · simp [JobQueue.map, hlen]

theorem queuePop_map (q : JobQueue J) : queuePop (q.map f) = (queuePop q).map f := by
  unfold queuePop
  by_cases hlen : q.len = 0
  · simp [JobQueue.map, hlen]
  · simp [JobQueue.map, hlen]

/-- The queue does not look into its jobs. -/
theorem pullJob_map (q : JobQueue J) :
    pullJob (q.map f) = (pullJob q).map fun r => (r.1.map f, r.2.map f) := by
  unfold pullJob
  rw [queueFront_map, queuePop_map]
  by_cases hlen : q.len = 0
  · simp [JobQueue.map, PullResult.map, hlen]
  · cases hfront : queueFront q <;> simp [JobQueue.map, PullResult.map, hlen]

theorem threadpoolAddJob_map (q : JobQueue J) (job : J) :
    threadpoolAddJob (q.map f) (f job) =
      (threadpoolAddJob q job).map fun r => (r.1, r.2.map f) := by
  unfold threadpoolAddJob queuePush
  by_cases hlen : q.len.toNat ≥ nThreadsMax
  · simp [JobQueue.map, hlen]
  · by_cases hback : (qindexInc q.back).toNat < nThreadsMax
    · simp [JobQueue.map, hlen, hback, Vector.map_set]
    · simp [JobQueue.map, hlen, hback]

variable {db : BucketTree} {s s' : ServerState} {a : ServerAction} {i : Fin defaultNThreads}

def Request.job (request : Request) : Job := request.args.job

/-- A worker without its signals and its reply. -/
def ServerWorker.worker : ServerWorker → Worker
  | .asking | .waiting | .signalled => .asking
  | .pulled job => .pulled (job.map Request.job)
  | .working _ p => .working p.forget
  | .exited _ => .exited

def ServerState.pool (s : ServerState) : Pool where
  shared := s.shared
  queue := s.queue.map Request.job
  nThreads := s.nThreads
  nThreadsFree := s.nThreadsFree
  workers i := (s.workers i).worker

/-- What a step is to the pool, if it is anything to it. -/
def ServerState.poolAction (s : ServerState) : ServerAction → Option PoolAction
  | .add r _ => (s.responders r).map fun request => .add request.job
  | .pull i => some (.pull i)
  | .countOut i => some (.countOut i)
  | .perform i => some (.perform i)
  | .countIn i _ => some (.countIn i)
  | .exit i => some (.exit i)
  | .environment a => some (.environment a)
  | .receive _ | .send _ | .spurious _ => none

theorem pool_setWorker (s : ServerState) (w : ServerWorker) :
    (s.setWorker i w).pool = s.pool.setWorker i w.worker := by
  unfold ServerState.pool ServerState.setWorker Pool.setWorker
  congr 1
  funext j
  by_cases hj : j = i
  · subst hj
    simp
  · simp [Function.update_of_ne hj]

/-- A worker that takes another place which is the same to the pool. -/
theorem pool_setWorker_eq {w : ServerWorker} (h : w.worker = (s.workers i).worker) :
    (s.setWorker i w).pool = s.pool := by
  rw [pool_setWorker, h, Pool.setWorker]
  congr 1
  exact Function.update_eq_self i _

theorem pool_wake {wakes : Finset (Fin defaultNThreads)} (h : wakes ⊆ s.waiting) :
    (s.wake wakes).pool = s.pool := by
  unfold ServerState.pool ServerState.wake
  congr 1
  funext j
  by_cases hj : j ∈ wakes
  · simp [hj, mem_waiting.1 (h hj), ServerWorker.worker]
  · simp [hj]

theorem prog_forget (job : Option Request) :
    (Request.prog db job).forget = (job.map Request.job).elim (.ret ()) (Job.prog db) := by
  cases job with
  | none => rfl
  | some request => exact replyProg_forget request.args.job

theorem pool_pullJob {result : PullResult Request} {queue : JobQueue Request}
    (h : pullJob s.queue = some (result, queue)) :
    pullJob s.pool.queue = some (result.map Request.job, queue.map Request.job) := by
  change pullJob (s.queue.map Request.job) = _
  rw [pullJob_map, h]
  rfl

/-- A step of the server is a step of the pool, or nothing to it. -/
theorem ServerStepped.pool (h : ServerStepped db s a s') :
    (∃ a', s.poolAction a = some a' ∧ poolStep db s.pool a' = some s'.pool) ∨
      (s.poolAction a = none ∧ s'.pool = s.pool) := by
  have hworker : ∀ i, s.pool.workers i = (s.workers i).worker := fun i => rfl
  cases h with
  | receive args hfree => exact .inr ⟨rfl, rfl⟩
  | add r wakes request ret queue hr hadd hwakes =>
    refine .inl ⟨.add request.job, by simp [ServerState.poolAction, hr], ?_⟩
    have hadd' := threadpoolAddJob_map (f := Request.job) s.queue request
    rw [hadd] at hadd'
    rw [pool_wake (by exact hwakes.1)]
    simp only [poolStep]
    change (threadpoolAddJob (s.queue.map Request.job) request.job).map _ = _
    rw [hadd']
    rfl
  | waits i hi queue hpull =>
    have hasks : s.pool.workers i = .asking := by
      rw [hworker]
      rcases hi with hi | hi <;> rw [hi] <;> rfl
    refine .inl ⟨.pull i, rfl, ?_⟩
    rw [pool_setWorker_eq (by exact hasks.symm)]
    simp only [poolStep, hasks, pool_pullJob hpull, PullResult.map]
    rfl
  | pulls i hi job queue hpull =>
    have hasks : s.pool.workers i = .asking := by
      rw [hworker]
      rcases hi with hi | hi <;> rw [hi] <;> rfl
    refine .inl ⟨.pull i, rfl, ?_⟩
    rw [pool_setWorker]
    simp only [poolStep, hasks, pool_pullJob hpull, PullResult.map]
    rfl
  | countOut i job hi =>
    refine .inl ⟨.countOut i, rfl, ?_⟩
    rw [pool_setWorker]
    simp only [poolStep, hworker, hi, ServerWorker.worker, prog_forget]
    rfl
  | performs i job op k r shared hi hexec =>
    refine .inl ⟨.perform i, rfl, ?_⟩
    have hcall : s.pool.workers i = .working (.call op fun r => (k r).forget) := by
      rw [hworker, hi]
      rfl
    have hexec' : exec i op s.pool.shared = .ok (r, shared) := hexec
    rw [pool_setWorker]
    simp only [poolStep, hcall, hexec']
    rfl
  | faults i job op k fault hi hexec =>
    refine .inl ⟨.perform i, rfl, ?_⟩
    have hcall : s.pool.workers i = .working (.call op fun r => (k r).forget) := by
      rw [hworker, hi]
      rfl
    have hexec' : exec i op s.pool.shared = .error fault := hexec
    rw [pool_setWorker]
    simp only [poolStep, hcall, hexec']
    rfl
  | send i request reply hi =>
    refine .inr ⟨rfl, pool_setWorker_eq ?_⟩
    change _ = (s.workers i).worker
    rw [hi]
    rfl
  | countIn i wakes job hi hwakes =>
    refine .inl ⟨.countIn i, rfl, ?_⟩
    have hret : s.pool.workers i = .working (.ret ()) := by
      rw [hworker, hi]
      rfl
    rw [pool_wake ?_, pool_setWorker]
    · simp only [poolStep, hret]
      rfl
    · have hbefore : s.workers i ≠ .waiting := by simp [hi]
      have hafter : ServerWorker.asking ≠ .waiting := by simp
      exact hwakes.trans (waiting_update rfl hbefore hafter).ge
  | exit i job hi =>
    refine .inl ⟨.exit i, rfl, ?_⟩
    have hfail : s.pool.workers i = .working (.fail .exit) := by
      rw [hworker, hi]
      rfl
    rw [pool_setWorker]
    simp only [poolStep, hfail]
    rfl
  | spurious i hi =>
    refine .inr ⟨rfl, pool_setWorker_eq ?_⟩
    rw [hi]
    rfl
  | environment a w ha =>
    refine .inl ⟨.environment a, rfl, ?_⟩
    change (BakaDns.step db ⟨s.shared, fun _ => .ret ()⟩ a).map _ = _
    rw [ha]
    rfl

theorem map_queueInit : (queueInit : JobQueue J).map f = queueInit := by
  simp [JobQueue.map, queueInit]

theorem pool_initial (now : ℕ) : (ServerState.initial now).pool = Pool.initial now := by
  unfold ServerState.pool Pool.initial
  rw [← map_queueInit]
  rfl

/-- Every run of the server is a run of the pool, under whatever condition the pool's steps meet. -/
theorem serverRun_poolRun {ok : Pool → PoolAction → Prop}
    (hrun : ServerRun db (fun s a => ∀ a' ∈ s.poolAction a, ok s.pool a') s) :
    PoolRun db ok s.pool := by
  induction hrun with
  | start now =>
    rw [pool_initial]
    exact .start now
  | step _ hok hstep ih =>
    rcases (serverStepped_of_step hstep).pool with ⟨a', ha, hpool⟩ | ⟨-, hsame⟩
    · exact ih.step (hok a' ha) hpool
    · rwa [hsame]

theorem serverRun_poolRun_status : ∃ s,
    ServerRun (treeInit rrHash) (fun s a => ∀ a' ∈ s.poolAction a, True) s ∧
      s.received.length = 1 ∧ PoolRun (treeInit rrHash) (fun _ _ => True) s.pool := by
  obtain ⟨s, hrun, -, hreceived, -⟩ := statusRun fun _ _ _ _ => trivial
  exact ⟨s, hrun, hreceived, serverRun_poolRun hrun⟩

end Pool

end BakaDns
