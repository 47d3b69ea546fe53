import BakaDns.ServerWakeups

/-!
# Where the requests are

Requests have numbers, and at any time each number that has been given out is in exactly one place
of the server. Replies are counted against the requests that have nothing left to send.
-/

namespace BakaDns
open Threads

variable {db : BucketTree} {s s' : ServerState} {a : ServerAction} {i : Fin defaultNThreads}
  {w : ServerWorker} {n : ℕ} {request : Request}

/-! Counting by number. -/

/-- How many of the requests have the number `n`. -/
def countNumber (n : ℕ) (requests : List Request) : ℕ := (requests.map Request.number).count n

@[simp] theorem countNumber_nil (n : ℕ) : countNumber n [] = 0 := rfl

@[simp] theorem countNumber_append (n : ℕ) (xs ys : List Request) :
    countNumber n (xs ++ ys) = countNumber n xs + countNumber n ys := by
  simp [countNumber]

theorem countNumber_cons (n : ℕ) (x : Request) (xs : List Request) :
    countNumber n (x :: xs) = countNumber n [x] + countNumber n xs :=
  countNumber_append n [x] xs

theorem countNumber_singleton (n : ℕ) (x : Request) :
    countNumber n [x] = if x.number = n then 1 else 0 := by
  simp [countNumber, List.count_singleton]

/-- The request a worker has, wherever it is with it. -/
def ServerWorker.holds : ServerWorker → List Request
  | .pulled job => job.toList
  | .working job _ => job.toList
  | .exited job => job.toList
  | _ => []

/-- The request whose job has nothing left to send. -/
def ServerWorker.done : ServerWorker → List Request
  | .working job (.ret none) => job.toList
  | _ => []

theorem countNumber_done_le (w : ServerWorker) :
    countNumber n w.done ≤ countNumber n w.holds := by
  cases w with
  | working job p =>
    cases p with
    | ret reply =>
      cases reply with
      | none => exact Nat.le_refl _
      | some bytes => exact Nat.zero_le _
    | fail fault => exact Nat.zero_le _
    | call op k => exact Nat.zero_le _
  | asking | waiting | signalled | pulled job | exited job => exact Nat.zero_le _

/-- A number for each worker, summed up. -/
def workerSum (f : ServerWorker → ℕ) (workers : Fin defaultNThreads → ServerWorker) : ℕ :=
  ∑ i, f (workers i)

theorem workerSum_update (f : ServerWorker → ℕ) (workers : Fin defaultNThreads → ServerWorker)
    (i : Fin defaultNThreads) (w : ServerWorker) :
    workerSum f (Function.update workers i w) + f (workers i) = workerSum f workers + f w := by
  have hmoved : (fun j => f (Function.update workers i w j)) =
      Function.update (fun j => f (workers j)) i (f w) := by
    funext j
    by_cases hj : j = i
    · subst hj
      simp
    · simp [Function.update_of_ne hj]
  have hsplit := Finset.sum_eq_add_sum_sdiff_singleton_of_mem (Finset.mem_univ i)
    fun j => f (workers j)
  unfold workerSum
  rw [hmoved, Finset.sum_update_of_mem (Finset.mem_univ i)]
  omega

theorem workerSum_wake {wakes : Finset (Fin defaultNThreads)} (f : ServerWorker → ℕ)
    (hf : f .signalled = f .waiting) (h : wakes ⊆ s.waiting) :
    workerSum f (s.wake wakes).workers = workerSum f s.workers := by
  apply Finset.sum_congr rfl
  intro j _
  unfold ServerState.wake
  by_cases hj : j ∈ wakes
  · simp [hj, hf, mem_waiting.1 (h hj)]
  · simp [hj]

/-- The places in which a request can be: with its responder, in the queue, with a worker, among
those that were served and among those that were refused. -/
def ServerState.places (s : ServerState) (jobs : List Request) (n : ℕ) : ℕ :=
  countNumber n (s.responders .udp).toList + countNumber n (s.responders .tls).toList +
    countNumber n jobs + workerSum (fun w => countNumber n w.holds) s.workers +
    countNumber n s.served + countNumber n s.refused

/-- The requests with nothing left to send. -/
def ServerState.settled (s : ServerState) (n : ℕ) : ℕ :=
  workerSum (fun w => countNumber n w.done) s.workers + countNumber n s.served

/-- Every request that came in is in one place, and no more replies than requests settled. -/
structure ServerState.Accounted (s : ServerState) : Prop where
  once : ∃ jobs, s.queue.Contents jobs ∧
    ∀ n, s.places jobs n = if n < s.received.length then 1 else 0
  replies : ∀ n, countNumber n (s.sent.map Prod.fst) ≤ s.settled n

/-- A worker that goes on with the request it has. -/
theorem ServerState.Accounted.move (h : s.Accounted) (hqueue : s'.queue = s.queue)
    (hworkers : s'.workers = Function.update s.workers i w)
    (hholds : w.holds = (s.workers i).holds) (hdone : (s.workers i).done = [])
    (hrest : s'.responders = s.responders ∧ s'.received = s.received ∧ s'.refused = s.refused ∧
      s'.sent = s.sent ∧ s'.served = s.served) : s'.Accounted := by
  obtain ⟨jobs, hjobs, hplaces⟩ := h.once
  obtain ⟨hresponders, hreceived, hrefused, hsent, hserved⟩ := hrest
  refine ⟨⟨jobs, hqueue ▸ hjobs, fun n => ?_⟩, fun n => ?_⟩
  · have hsum := workerSum_update (fun w => countNumber n w.holds) s.workers i w
    rw [hholds] at hsum
    have hbefore := hplaces n
    unfold ServerState.places at hbefore ⊢
    rw [hresponders, hreceived, hrefused, hserved, hworkers]
    omega
  · have hsum := workerSum_update (fun w => countNumber n w.done) s.workers i w
    simp only [hdone, countNumber_nil] at hsum
    have hbefore := h.replies n
    unfold ServerState.settled at hbefore ⊢
    rw [hsent, hserved, hworkers]
    omega

/-- A signal moves no request. -/
theorem ServerState.Accounted.wake (h : s.Accounted) {wakes : Finset (Fin defaultNThreads)}
    (hwakes : wakes ⊆ s.waiting) : (s.wake wakes).Accounted := by
  obtain ⟨jobs, hjobs, hplaces⟩ := h.once
  refine ⟨⟨jobs, hjobs, fun n => ?_⟩, fun n => ?_⟩
  · have hbefore := hplaces n
    unfold ServerState.places at hbefore ⊢
    rw [workerSum_wake _ rfl hwakes]
    exact hbefore
  · have hbefore := h.replies n
    unfold ServerState.settled at hbefore ⊢
    rw [workerSum_wake _ rfl hwakes]
    exact hbefore

theorem ServerState.Accounted.receive (h : s.Accounted) {args : ResolvArgs}
    (hfree : s.responders args.job.responder = none) :
    ServerState.Accounted { s with
      responders := Function.update s.responders args.job.responder
        (some ⟨s.received.length, args⟩)
      received := s.received ++ [args] } := by
  obtain ⟨jobs, hjobs, hplaces⟩ := h.once
  refine ⟨⟨jobs, hjobs, fun n => ?_⟩, h.replies⟩
  have hbefore := hplaces n
  have hnew := countNumber_singleton n ⟨s.received.length, args⟩
  unfold ServerState.places at hbefore ⊢
  cases hr : args.job.responder with
  | udp =>
    rw [hr] at hfree
    simp only [hfree, Option.toList_none, countNumber_nil] at hbefore
    simp only [Function.update_self, Option.toList_some, List.length_append,
      List.length_singleton, hnew, Function.update_of_ne (show Responder.tls ≠ .udp by simp)]
    grind
  | tls =>
    rw [hr] at hfree
    simp only [hfree, Option.toList_none, countNumber_nil] at hbefore
    simp only [Function.update_self, Option.toList_some, List.length_append,
      List.length_singleton, hnew, Function.update_of_ne (show Responder.udp ≠ .tls by simp)]
    grind

/-- A responder hands its request on, to the queue or to nobody. -/
theorem ServerState.Accounted.add (h : s.Accounted) {r : Responder} {ret : ℤ}
    {queue : JobQueue Request} (hr : s.responders r = some request)
    (hadd : threadpoolAddJob s.queue request = some (ret, queue)) :
    ServerState.Accounted { s with
      queue := queue
      responders := Function.update s.responders r none
      refused := if ret < 0 then s.refused ++ [request] else s.refused } := by
  obtain ⟨jobs, hjobs, hplaces⟩ := h.once
  have hhands : ∀ n, countNumber n (s.responders .udp).toList +
      countNumber n (s.responders .tls).toList = countNumber n [request] +
        (countNumber n (Function.update s.responders r none .udp).toList +
          countNumber n (Function.update s.responders r none .tls).toList) := by
    intro n
    cases r with
    | udp => simp [hr]
    | tls => simp [hr, Nat.add_comm]
  rcases threadpoolAddJob_cases hjobs hadd with ⟨rfl, hc⟩ | ⟨rfl, -, rfl⟩
  · refine ⟨⟨_, hc, fun n => ?_⟩, h.replies⟩
    have hbefore := hplaces n
    have hhand := hhands n
    unfold ServerState.places at hbefore ⊢
    rw [if_neg (by decide), countNumber_append]
    dsimp only
    omega
  · refine ⟨⟨_, hjobs, fun n => ?_⟩, h.replies⟩
    have hbefore := hplaces n
    have hhand := hhands n
    unfold ServerState.places at hbefore ⊢
    rw [if_pos (by decide), countNumber_append]
    dsimp only
    omega

/-- A worker takes the first request of the queue. -/
theorem ServerState.Accounted.pulls (h : s.Accounted) {job : Option Request}
    {queue : JobQueue Request} (hi : s.workers i = .asking ∨ s.workers i = .signalled)
    (hpull : pullJob s.queue = some (.returns job, queue)) :
    (({ s with queue := queue } : ServerState).setWorker i (.pulled job)).Accounted := by
  obtain ⟨jobs, hjobs, hplaces⟩ := h.once
  have hnone : (s.workers i).holds = [] ∧ (s.workers i).done = [] := by
    rcases hi with hi | hi <;> rw [hi] <;> exact ⟨rfl, rfl⟩
  rcases pullJob_cases hjobs hpull with ⟨-, hne, -⟩ | ⟨request, rest, rfl, hjob, hc⟩
  · cases hne
  · cases hjob
    refine ⟨⟨rest, hc, fun n => ?_⟩, fun n => ?_⟩
    · have hsum := workerSum_update (fun w => countNumber n w.holds) s.workers i
        (.pulled (some request))
      have hbefore := hplaces n
      have hcons := countNumber_cons n request rest
      change _ + countNumber n (s.workers i).holds = _ + countNumber n [request] at hsum
      rw [hnone.1, countNumber_nil] at hsum
      unfold ServerState.places ServerState.setWorker at *
      dsimp only at *
      omega
    · have hsum := workerSum_update (fun w => countNumber n w.done) s.workers i
        (.pulled (some request))
      have hbefore := h.replies n
      change _ + countNumber n (s.workers i).done = _ + 0 at hsum
      rw [hnone.2, countNumber_nil] at hsum
      unfold ServerState.settled ServerState.setWorker at *
      dsimp only at *
      omega

/-- The reply of a worker settles its request. -/
theorem ServerState.Accounted.send (h : s.Accounted) {reply : List UInt8}
    (hi : s.workers i = .working (some request) (.ret (some reply))) :
    (({ s with sent := s.sent ++ [(request, reply)] } : ServerState).setWorker i
      (.working (some request) (.ret none))).Accounted := by
  obtain ⟨jobs, hjobs, hplaces⟩ := h.once
  refine ⟨⟨jobs, hjobs, fun n => ?_⟩, fun n => ?_⟩
  · have hsum := workerSum_update (fun w => countNumber n w.holds) s.workers i
      (.working (some request) (.ret none))
    have hbefore := hplaces n
    rw [hi] at hsum
    unfold ServerState.places ServerState.setWorker at *
    dsimp only [ServerWorker.holds] at *
    omega
  · have hsum := workerSum_update (fun w => countNumber n w.done) s.workers i
      (.working (some request) (.ret none))
    have hbefore := h.replies n
    rw [hi] at hsum
    change _ + 0 = _ + countNumber n [request] at hsum
    unfold ServerState.settled ServerState.setWorker at *
    simp only [List.map_append, List.map_cons, List.map_nil, countNumber_append]
    omega

/-- A worker that counts itself in has served its request. -/
theorem ServerState.Accounted.countIn (h : s.Accounted) {job : Option Request}
    (hi : s.workers i = .working job (.ret none)) (free : UInt8) :
    (({ s with nThreadsFree := free, served := s.served ++ job.toList } :
      ServerState).setWorker i .asking).Accounted := by
  obtain ⟨jobs, hjobs, hplaces⟩ := h.once
  refine ⟨⟨jobs, hjobs, fun n => ?_⟩, fun n => ?_⟩
  · have hsum := workerSum_update (fun w => countNumber n w.holds) s.workers i .asking
    have hbefore := hplaces n
    rw [hi] at hsum
    change _ + countNumber n job.toList = _ + 0 at hsum
    unfold ServerState.places ServerState.setWorker at *
    simp only [countNumber_append]
    omega
  · have hsum := workerSum_update (fun w => countNumber n w.done) s.workers i .asking
    have hbefore := h.replies n
    rw [hi] at hsum
    change _ + countNumber n job.toList = _ + 0 at hsum
    unfold ServerState.settled ServerState.setWorker at *
    simp only [countNumber_append]
    omega

theorem ServerState.Accounted.step (h : s.Accounted) (hstep : ServerStepped db s a s') :
    s'.Accounted := by
  cases hstep with
  | receive args hfree => exact h.receive hfree
  | add r wakes request ret queue hr hadd hwakes => exact (h.add hr hadd).wake hwakes.1
  | waits i hi queue hpull =>
    obtain ⟨jobs, hjobs, -⟩ := h.once
    rcases pullJob_cases hjobs hpull with ⟨-, -, rfl⟩ | ⟨job, rest, -, hne, -⟩
    · rcases hi with hi | hi
      · exact h.move rfl rfl (by rw [hi]; rfl) (by rw [hi]; rfl) ⟨rfl, rfl, rfl, rfl, rfl⟩
      · exact h.move rfl rfl (by rw [hi]; rfl) (by rw [hi]; rfl) ⟨rfl, rfl, rfl, rfl, rfl⟩
    · cases hne
  | pulls i hi job queue hpull =>
    exact h.pulls hi hpull
  | countOut i job hi =>
    exact h.move rfl rfl (by rw [hi]; rfl) (by rw [hi]; rfl) ⟨rfl, rfl, rfl, rfl, rfl⟩
  | performs i job op k r shared hi hexec =>
    exact h.move rfl rfl (by rw [hi]; rfl) (by rw [hi]; rfl) ⟨rfl, rfl, rfl, rfl, rfl⟩
  | faults i job op k fault hi hexec =>
    exact h.move rfl rfl (by rw [hi]; rfl) (by rw [hi]; rfl) ⟨rfl, rfl, rfl, rfl, rfl⟩
  | send i request reply hi => exact h.send hi
  | countIn i wakes job hi hwakes =>
    apply (h.countIn hi _).wake
    have hbefore : s.workers i ≠ .waiting := by simp [hi]
    have hafter : ServerWorker.asking ≠ .waiting := by simp
    exact hwakes.trans (waiting_update rfl hbefore hafter).ge
  | exit i job hi =>
    exact h.move rfl rfl (by rw [hi]; rfl) (by rw [hi]; rfl) ⟨rfl, rfl, rfl, rfl, rfl⟩
  | spurious i hi =>
    exact h.move rfl rfl (by rw [hi]; rfl) (by rw [hi]; rfl) ⟨rfl, rfl, rfl, rfl, rfl⟩
  | environment a w ha => exact ⟨h.once, h.replies⟩

theorem accounted_initial (now : ℕ) : (ServerState.initial now).Accounted := by
  refine ⟨⟨[], contents_queueInit, fun n => ?_⟩, fun n => Nat.zero_le _⟩
  have hnobody : workerSum (fun w => countNumber n w.holds) (ServerState.initial now).workers = 0 :=
    Finset.sum_eq_zero fun i _ => rfl
  unfold ServerState.places
  rw [hnobody, if_neg (show ¬n < (ServerState.initial now).received.length from Nat.not_lt_zero n)]
  rfl

theorem serverRun_accounted {ok : ServerState → ServerAction → Prop} (hrun : ServerRun db ok s) :
    s.Accounted :=
  hrun.invariant accounted_initial fun _ _ _ h _ hstep => h.step hstep

/-- All the requests in the server: with a responder, in the queue, with a worker, among those that
were served and among those that were refused. -/
def ServerState.requests (s : ServerState) (jobs : List Request) : List Request :=
  (s.responders .udp).toList ++ (s.responders .tls).toList ++ jobs ++
    (List.finRange defaultNThreads).flatMap (fun i => (s.workers i).holds) ++ s.served ++ s.refused

theorem countNumber_requests (s : ServerState) (jobs : List Request) (n : ℕ) :
    countNumber n (s.requests jobs) = s.places jobs n := by
  have hworkers : countNumber n
      ((List.finRange defaultNThreads).flatMap fun i => (s.workers i).holds) =
        workerSum (fun w => countNumber n w.holds) s.workers := by
    rw [workerSum, Fin.sum_univ_def, countNumber, List.map_flatMap, List.count_flatMap]
    rfl
  simp only [ServerState.requests, ServerState.places, countNumber_append, hworkers]

theorem countNumber_pos {requests : List Request} :
    0 < countNumber n requests ↔ ∃ request ∈ requests, request.number = n := by
  rw [countNumber, List.count_pos_iff, List.mem_map]

end BakaDns
