import BakaDns.JobReplies

/-!
# The running server

The two responder threads, the workers and the condition variable between them. A worker that finds
no job waits until it is signalled, and one signal may wake any worker that waits, or several. What
came in and what went out is kept, so that a run can be asked what became of a request.
-/

namespace BakaDns
open Threads

/-- `struct sockaddr_in`. -/
structure SockAddr where
  sinAddr : UInt32
  sinPort : UInt16
deriving DecidableEq

/-- `struct resolv_args` behind the pointer of a job. -/
structure ResolvArgs where
  cliaddr : SockAddr
  clientfd : ℤ
  job : Job

/-- What a responder made of one datagram or one connection, numbered in the order in which they
came. -/
structure Request where
  number : ℕ
  args : ResolvArgs

/-- The threads of `udp_responder` and `tls_responder`. -/
inductive Responder
  | udp
  | tls
deriving DecidableEq

def Job.responder : Job → Responder
  | .udp _ _ _ _ => .udp
  | .tls _ _ _ => .tls

/-- Where a worker is in `thread_work`; it waits inside `pthread_cond_wait`, and a thread that has
ended took its job with it. -/
inductive ServerWorker
  | asking
  | waiting
  | signalled
  | pulled (job : Option Request)
  | working (job : Option Request) (p : ResolvProg (Option (List UInt8)))
  | exited (job : Option Request)

def ServerWorker.isWaiting : ServerWorker → Bool
  | .waiting => true
  | _ => false

def ServerWorker.isSignalled : ServerWorker → Bool
  | .signalled => true
  | _ => false

/-- The pool and the responders, with what the sockets have brought, the requests that found the
queue full, the replies that were sent and the requests whose job has come back. -/
structure ServerState where
  shared : Shared
  queue : JobQueue Request
  nThreads : UInt8
  nThreadsFree : UInt8
  workers : Fin defaultNThreads → ServerWorker
  responders : Responder → Option Request
  received : List ResolvArgs
  refused : List Request
  sent : List (Request × List UInt8)
  served : List Request

def ServerState.initial (now : ℕ) : ServerState where
  shared := ⟨now, initCache now, [], [], []⟩
  queue := queueInit
  nThreads := UInt8.ofNat defaultNThreads
  nThreadsFree := UInt8.ofNat defaultNThreads
  workers _ := .asking
  responders _ := none
  received := []
  refused := []
  sent := []
  served := []

def ServerState.waiting (s : ServerState) : Finset (Fin defaultNThreads) :=
  Finset.univ.filter fun i => (s.workers i).isWaiting = true

def ServerState.signalled (s : ServerState) : Finset (Fin defaultNThreads) :=
  Finset.univ.filter fun i => (s.workers i).isSignalled = true

def ServerState.setWorker (s : ServerState) (i : Fin defaultNThreads) (w : ServerWorker) :
    ServerState :=
  { s with workers := Function.update s.workers i w }

/-- `pthread_cond_signal` wakes one of the threads that wait, if there are any; it may wake more. -/
def ServerState.Wakes (s : ServerState) (wakes : Finset (Fin defaultNThreads)) : Prop :=
  wakes ⊆ s.waiting ∧ (s.waiting.Nonempty → wakes.Nonempty)

instance (s : ServerState) (wakes : Finset (Fin defaultNThreads)) : Decidable (s.Wakes wakes) :=
  inferInstanceAs (Decidable (_ ∧ _))

def ServerState.wake (s : ServerState) (wakes : Finset (Fin defaultNThreads)) : ServerState :=
  { s with workers := fun i => if i ∈ wakes then .signalled else s.workers i }

def ServerState.signal (s : ServerState) (wakes : Finset (Fin defaultNThreads)) :
    Option ServerState :=
  if s.Wakes wakes then some (s.wake wakes) else none

/-- What can happen next: a responder takes something from its socket or adds its job, a worker
moves, a worker wakes up without a signal, or the clock, the refresh thread or the allocator act. -/
inductive ServerAction
  | receive (args : ResolvArgs)
  | add (r : Responder) (wakes : Finset (Fin defaultNThreads))
  | pull (i : Fin defaultNThreads)
  | countOut (i : Fin defaultNThreads)
  | perform (i : Fin defaultNThreads)
  | send (i : Fin defaultNThreads)
  | countIn (i : Fin defaultNThreads) (wakes : Finset (Fin defaultNThreads))
  | exit (i : Fin defaultNThreads)
  | spurious (i : Fin defaultNThreads)
  | environment (a : Action)

/-- The worker that moves. -/
def ServerAction.actor : ServerAction → Option (Fin defaultNThreads)
  | .pull i | .countOut i | .perform i | .send i | .countIn i _ | .exit i => some i
  | .receive _ | .add _ _ | .spurious _ | .environment _ => none

/-- The job of a worker, as a program that returns the reply it has to send. -/
def Request.prog (db : BucketTree) (job : Option Request) : ResolvProg (Option (List UInt8)) :=
  job.elim (.ret none) fun request => request.args.job.replyProg db

/-- One step of the server. A crash ends the process; here the other threads go on behind it, which
only adds states to those that are reached. -/
def serverStep (db : BucketTree) (s : ServerState) : ServerAction → Option ServerState
  | .receive args =>
    match s.responders args.job.responder with
    | some _ => none
    | none =>
      some { s with
        responders := Function.update s.responders args.job.responder
          (some ⟨s.received.length, args⟩)
        received := s.received ++ [args] }
  | .add r wakes =>
    match s.responders r with
    | none => none
    | some request =>
      -- `queue_push` signals whether it takes the job or not, and nobody looks at its result
      (threadpoolAddJob s.queue request).bind fun added =>
        { s with
          queue := added.2
          responders := Function.update s.responders r none
          refused := if added.1 < 0 then s.refused ++ [request] else s.refused }.signal wakes
  | .pull i =>
    match s.workers i with
    | .asking | .signalled =>
      match pullJob s.queue with
      | some (.waits, queue) => some ({ s with queue := queue }.setWorker i .waiting)
      | some (.returns job, queue) => some ({ s with queue := queue }.setWorker i (.pulled job))
      | none => none
    | _ => none
  | .countOut i =>
    match s.workers i with
    | .pulled job =>
      some ({ s with nThreadsFree := s.nThreadsFree - 1 }.setWorker i
        (.working job (Request.prog db job)))
    | _ => none
  | .perform i =>
    match s.workers i with
    | .working job (.call op k) =>
      match exec i op s.shared with
      | .ok (r, shared) => some ({ s with shared := shared }.setWorker i (.working job (k r)))
      | .error fault => some (s.setWorker i (.working job (.fail fault)))
    | _ => none
  | .send i =>
    match s.workers i with
    | .working (some request) (.ret (some reply)) =>
      some ({ s with sent := s.sent ++ [(request, reply)] }.setWorker i
        (.working (some request) (.ret none)))
    | _ => none
  | .countIn i wakes =>
    match s.workers i with
    | .working job (.ret none) =>
      let s' := { s with
        nThreadsFree := s.nThreadsFree + 1
        served := s.served ++ job.toList }.setWorker i .asking
      if s'.nThreadsFree = s'.nThreads then s'.signal wakes
      else if wakes = ∅ then some s' else none
    | _ => none
  | .exit i =>
    match s.workers i with
    | .working job (.fail .exit) => some (s.setWorker i (.exited job))
    | _ => none
  | .spurious i =>
    match s.workers i with
    | .waiting => some (s.setWorker i .signalled)
    | _ => none
  | .environment a =>
    (step db ⟨s.shared, fun _ => .ret ()⟩ a).map fun w => { s with shared := w.shared }

/-- The operation that a step of the server performs, if it performs one. -/
def ServerState.opOf (s : ServerState) : ServerAction → Option CacheOp
  | .perform i =>
    match s.workers i with
    | .working _ (.call op _) => some op
    | _ => none
  | _ => none

/-- The states that are reached by steps that meet a condition. -/
inductive ServerRun (db : BucketTree) (ok : ServerState → ServerAction → Prop) : ServerState → Prop
  | start (now : ℕ) : ServerRun db ok (ServerState.initial now)
  | step {s s' : ServerState} {a : ServerAction} (h : ServerRun db ok s) (hok : ok s a)
      (hstep : serverStep db s a = some s') : ServerRun db ok s'

/-! What a step can be. -/

/-- The outcome of a step. -/
inductive ServerStepped (db : BucketTree) (s : ServerState) : ServerAction → ServerState → Prop
  | receive (args : ResolvArgs) (hfree : s.responders args.job.responder = none) :
      ServerStepped db s (.receive args) { s with
        responders := Function.update s.responders args.job.responder
          (some ⟨s.received.length, args⟩)
        received := s.received ++ [args] }
  | add (r : Responder) (wakes : Finset (Fin defaultNThreads)) (request : Request) (ret : ℤ)
      (queue : JobQueue Request) (hr : s.responders r = some request)
      (hadd : threadpoolAddJob s.queue request = some (ret, queue)) (hwakes : s.Wakes wakes) :
      ServerStepped db s (.add r wakes) (({ s with
        queue := queue
        responders := Function.update s.responders r none
        refused := if ret < 0 then s.refused ++ [request] else s.refused } : ServerState).wake wakes)
  | waits (i : Fin defaultNThreads) (hi : s.workers i = .asking ∨ s.workers i = .signalled)
      (queue : JobQueue Request) (hpull : pullJob s.queue = some (.waits, queue)) :
      ServerStepped db s (.pull i) ({ s with queue := queue }.setWorker i .waiting)
  | pulls (i : Fin defaultNThreads) (hi : s.workers i = .asking ∨ s.workers i = .signalled)
      (job : Option Request) (queue : JobQueue Request)
      (hpull : pullJob s.queue = some (.returns job, queue)) :
      ServerStepped db s (.pull i) ({ s with queue := queue }.setWorker i (.pulled job))
  | countOut (i : Fin defaultNThreads) (job : Option Request) (hi : s.workers i = .pulled job) :
      ServerStepped db s (.countOut i) ({ s with nThreadsFree := s.nThreadsFree - 1 }.setWorker i
        (.working job (Request.prog db job)))
  | performs (i : Fin defaultNThreads) (job : Option Request) (op : CacheOp)
      (k : op.Res → ResolvProg (Option (List UInt8))) (r : op.Res) (shared : Shared)
      (hi : s.workers i = .working job (.call op k)) (hexec : exec i op s.shared = .ok (r, shared)) :
      ServerStepped db s (.perform i) ({ s with shared := shared }.setWorker i (.working job (k r)))
  | faults (i : Fin defaultNThreads) (job : Option Request) (op : CacheOp)
      (k : op.Res → ResolvProg (Option (List UInt8))) (fault : Fault)
      (hi : s.workers i = .working job (.call op k)) (hexec : exec i op s.shared = .error fault) :
      ServerStepped db s (.perform i) (s.setWorker i (.working job (.fail fault)))
  | send (i : Fin defaultNThreads) (request : Request) (reply : List UInt8)
      (hi : s.workers i = .working (some request) (.ret (some reply))) :
      ServerStepped db s (.send i) ({ s with sent := s.sent ++ [(request, reply)] }.setWorker i
        (.working (some request) (.ret none)))
  | countIn (i : Fin defaultNThreads) (wakes : Finset (Fin defaultNThreads))
      (job : Option Request) (hi : s.workers i = .working job (.ret none))
      (hwakes : wakes ⊆ s.waiting) :
      ServerStepped db s (.countIn i wakes) (({ s with
        nThreadsFree := s.nThreadsFree + 1
        served := s.served ++ job.toList }.setWorker i .asking).wake wakes)
  | exit (i : Fin defaultNThreads) (job : Option Request)
      (hi : s.workers i = .working job (.fail .exit)) :
      ServerStepped db s (.exit i) (s.setWorker i (.exited job))
  | spurious (i : Fin defaultNThreads) (hi : s.workers i = .waiting) :
      ServerStepped db s (.spurious i) (s.setWorker i .signalled)
  | environment (a : Action) (w : World) (ha : step db ⟨s.shared, fun _ => .ret ()⟩ a = some w) :
      ServerStepped db s (.environment a) { s with shared := w.shared }

theorem signal_eq_some {s s' : ServerState} {wakes : Finset (Fin defaultNThreads)}
    (h : s.signal wakes = some s') : s.Wakes wakes ∧ s' = s.wake wakes := by
  unfold ServerState.signal at h
  split at h
  · next hwakes =>
    cases h
    exact ⟨hwakes, rfl⟩
  · cases h

/-- A signal may wake everybody. -/
theorem signal_waiting (s : ServerState) : s.signal s.waiting = some (s.wake s.waiting) := by
  have hwakes : s.Wakes s.waiting := ⟨Finset.Subset.refl _, id⟩
  rw [ServerState.signal, if_pos hwakes]

@[simp] theorem setWorker_self (s : ServerState) (i : Fin defaultNThreads) (w : ServerWorker) :
    (s.setWorker i w).workers i = w := Function.update_self _ _ _

theorem setWorker_of_ne {s : ServerState} {i j : Fin defaultNThreads} {w : ServerWorker}
    (h : j ≠ i) : (s.setWorker i w).workers j = s.workers j := Function.update_of_ne h _ _

theorem mem_waiting {s : ServerState} {i : Fin defaultNThreads} :
    i ∈ s.waiting ↔ s.workers i = .waiting := by
  rw [ServerState.waiting, Finset.mem_filter, and_iff_right (Finset.mem_univ i)]
  cases s.workers i <;> simp [ServerWorker.isWaiting]

/-- A worker that moves from one place where it does not wait to another. -/
theorem waiting_update {s s' : ServerState} {i : Fin defaultNThreads} {w : ServerWorker}
    (hs : s'.workers = Function.update s.workers i w) (hi : s.workers i ≠ .waiting)
    (hw : w ≠ .waiting) : s'.waiting = s.waiting := by
  ext j
  rw [mem_waiting, mem_waiting, hs]
  by_cases hj : j = i
  · subst hj
    simp [hi, hw]
  · rw [Function.update_of_ne hj]

theorem wake_empty (s : ServerState) : s.wake ∅ = s := by
  simp [ServerState.wake]

/-- A property of workers that the place one is put into has as well. -/
theorem forall_workers_update {s : ServerState} {i : Fin defaultNThreads} {w : ServerWorker}
    {P : ServerWorker → Prop} (h : ∀ j, P (s.workers j)) (hw : P w) (j : Fin defaultNThreads) :
    P ((s.setWorker i w).workers j) := by
  by_cases hj : j = i
  · subst hj
    rwa [setWorker_self]
  · rw [setWorker_of_ne hj]
    exact h j

theorem forall_workers_wake {s : ServerState} {P : ServerWorker → Prop}
    {wakes : Finset (Fin defaultNThreads)} (h : ∀ j, P (s.workers j)) (hw : P .signalled)
    (j : Fin defaultNThreads) : P ((s.wake wakes).workers j) := by
  unfold ServerState.wake
  dsimp only
  split
  · exact hw
  · exact h j

theorem serverStepped_of_step {db : BucketTree} {s s' : ServerState} {a : ServerAction}
    (h : serverStep db s a = some s') : ServerStepped db s a s' := by
  cases a with
  | receive args =>
    simp only [serverStep] at h
    split at h
    · cases h
    · next hfree =>
      cases h
      exact .receive args hfree
  | add r wakes =>
    simp only [serverStep] at h
    split at h
    · cases h
    · next request hr =>
      obtain ⟨⟨ret, queue⟩, hadd, h⟩ := Option.bind_eq_some_iff.1 h
      obtain ⟨hwakes, rfl⟩ := signal_eq_some h
      exact .add r wakes request ret queue hr hadd hwakes
  | pull i =>
    have hpulls : ∀ queue, (s.workers i = .asking ∨ s.workers i = .signalled) →
        (match pullJob s.queue with
          | some (.waits, queue) => some ({ s with queue := queue }.setWorker i .waiting)
          | some (.returns job, queue) =>
            some ({ s with queue := queue }.setWorker i (.pulled job))
          | none => none) = some queue → ServerStepped db s (.pull i) queue := by
      intro s' hi h
      split at h
      · next queue hpull =>
        cases h
        exact .waits i hi queue hpull
      · next job queue hpull =>
        cases h
        exact .pulls i hi job queue hpull
      · cases h
    simp only [serverStep] at h
    split at h
    · next hi => exact hpulls s' (.inl hi) h
    · next hi => exact hpulls s' (.inr hi) h
    · cases h
  | countOut i =>
    simp only [serverStep] at h
    split at h
    · next job hi =>
      cases h
      exact .countOut i job hi
    · cases h
  | perform i =>
    simp only [serverStep] at h
    split at h
    · next job op k hi =>
      split at h
      · next r shared hexec =>
        cases h
        exact .performs i job op k r shared hi hexec
      · next fault hexec =>
        cases h
        exact .faults i job op k fault hi hexec
    · cases h
  | send i =>
    simp only [serverStep] at h
    split at h
    · next request reply hi =>
      cases h
      exact .send i request reply hi
    · cases h
  | countIn i wakes =>
    simp only [serverStep] at h
    split at h
    · next job hi =>
      split at h
      · obtain ⟨hwakes, rfl⟩ := signal_eq_some h
        have hbefore : s.workers i ≠ .waiting := by simp [hi]
        have hafter : ServerWorker.asking ≠ .waiting := by simp
        exact .countIn i wakes job hi (hwakes.1.trans (waiting_update rfl hbefore hafter).le)
      · split at h
        · next hnone =>
          subst hnone
          cases h
          have hstep : ServerStepped db s (.countIn i ∅) _ := .countIn i ∅ job hi (Finset.empty_subset _)
          rwa [wake_empty] at hstep
        · cases h
    · cases h
  | exit i =>
    simp only [serverStep] at h
    split at h
    · next job hi =>
      cases h
      exact .exit i job hi
    · cases h
  | spurious i =>
    simp only [serverStep] at h
    split at h
    · next hi =>
      cases h
      exact .spurious i hi
    · cases h
  | environment a =>
    obtain ⟨w, ha, rfl⟩ := Option.map_eq_some_iff.1 h
    exact .environment a w ha

/-- An invariant that every step meeting the condition keeps. -/
theorem ServerRun.invariant {db : BucketTree} {ok : ServerState → ServerAction → Prop}
    {I : ServerState → Prop} {s : ServerState} (hrun : ServerRun db ok s)
    (hinit : ∀ now, I (ServerState.initial now))
    (hstep : ∀ s a s', I s → ok s a → ServerStepped db s a s' → I s') : I s := by
  induction hrun with
  | start now => exact hinit now
  | step _ hok h ih => exact hstep _ _ _ ih hok (serverStepped_of_step h)

theorem ServerState.opOf_perform {s : ServerState} {i : Fin defaultNThreads} {op : CacheOp} :
    s.opOf (.perform i) = some op ↔ ∃ job k, s.workers i = .working job (.call op k) := by
  rw [ServerState.opOf]
  constructor
  · intro h
    split at h
    · next job op' k hi =>
      cases h
      exact ⟨job, k, hi⟩
    · cases h
  · rintro ⟨job, k, hi⟩
    rw [hi]

/-- What a step does to the shared state. -/
theorem ServerStepped.shared_cases {db : BucketTree} {s s' : ServerState} {a : ServerAction}
    (h : ServerStepped db s a s') : s'.shared = s.shared ∨
      (∃ i op r, a = .perform i ∧ s.opOf (.perform i) = some op ∧
        exec i op s.shared = .ok (r, s'.shared)) ∨
      ∃ a' w, a = .environment a' ∧ step db ⟨s.shared, fun _ => .ret ()⟩ a' = some w ∧
        s'.shared = w.shared := by
  cases h with
  | performs i job op k r shared hi hexec =>
    exact .inr (.inl ⟨i, op, r, rfl, ServerState.opOf_perform.2 ⟨job, k, hi⟩, hexec⟩)
  | environment a w ha => exact .inr (.inr ⟨a, w, rfl, ha, rfl⟩)
  | receive | add | waits | pulls | countOut | faults | send | countIn | exit | spurious =>
    exact .inl rfl

/-- What the operations and the environment keep of the shared state. -/
theorem ServerRun.sharedInvariant {db : BucketTree} {ok : ServerState → ServerAction → Prop}
    {I : Shared → Prop} {s : ServerState} (hrun : ServerRun db ok s)
    (hinit : ∀ now, I (ServerState.initial now).shared)
    (hexec : ∀ {s : ServerState} {i : Fin defaultNThreads} {op : CacheOp} {r : op.Res}
      {shared : Shared}, ok s (.perform i) → s.opOf (.perform i) = some op → I s.shared →
      exec i op s.shared = .ok (r, shared) → I shared)
    (henvironment : ∀ {s : ServerState} {a : Action} {w : World}, ok s (.environment a) →
      I s.shared → BakaDns.step db ⟨s.shared, fun _ => .ret ()⟩ a = some w → I w.shared) :
    I s.shared := by
  refine hrun.invariant (I := fun s => I s.shared) hinit fun s a s' h hok hstep => ?_
  rcases hstep.shared_cases with hsame | ⟨i, op, r, rfl, hop, hshared⟩ | ⟨a, w, rfl, ha, hw⟩
  · rwa [hsame]
  · exact hexec hok hop h hshared
  · rw [hw]
    exact henvironment hok h ha

/-- A schedule whose steps pass a check is a run. -/
theorem ServerRun.playChecked {db : BucketTree} {ok : ServerState → ServerAction → Prop}
    (check : ServerState → ServerAction → Bool) (hcheck : ∀ s a, check s a = true → ok s a)
    {schedule : List ServerAction} {s s' : ServerState} (h : ServerRun db ok s)
    (hplay : schedule.foldlM (fun s a => if check s a then serverStep db s a else none) s =
      some s') : ServerRun db ok s' := by
  induction schedule generalizing s with
  | nil =>
    cases hplay
    exact h
  | cons a schedule ih =>
    rw [List.foldlM_cons] at hplay
    obtain ⟨s₁, hstep, hplay⟩ := Option.bind_eq_some_iff.1 hplay
    split at hstep
    · next hpass => exact ih (h.step (hcheck s a hpass) hstep) hplay
    · cases hstep

theorem ServerRun.play {db : BucketTree} {ok : ServerState → ServerAction → Prop}
    (hok : ∀ s a, ok s a) {schedule : List ServerAction} {s s' : ServerState}
    (h : ServerRun db ok s) (hplay : schedule.foldlM (serverStep db) s = some s') :
    ServerRun db ok s' :=
  h.playChecked (fun _ _ => true) (fun s a _ => hok s a) hplay

/-! A status request from the socket to the end, after which all workers wait. -/

def statusArgs : ResolvArgs := ⟨⟨0x7F000001, 5353⟩, 0, .udp 1 ⟨7, .recvFail⟩ statusRequest 12⟩

def statusPlan : List ServerAction :=
  [.receive statusArgs, .add .udp ∅, .pull firstWorker, .countOut firstWorker,
    .perform firstWorker, .send firstWorker, .countIn firstWorker ∅] ++
    (List.finRange defaultNThreads).map .pull

theorem statusPlan_ends : ∃ t, statusPlan.foldlM (serverStep (treeInit rrHash))
    (ServerState.initial 0) = some t ∧ (∀ i, t.workers i = .waiting) ∧
      ∀ r, t.responders r = none := by
  have hplays : (statusPlan.foldlM (serverStep (treeInit rrHash)) (ServerState.initial 0)).map
      (fun t => (decide (∀ i, (t.workers i).isWaiting = true), (t.responders .udp).isNone,
        (t.responders .tls).isNone)) = some (true, true, true) := by
    decide +kernel
  obtain ⟨t, ht, hfacts⟩ := Option.map_eq_some_iff.1 hplays
  obtain ⟨hwaits, hresponders⟩ := Prod.mk.inj hfacts
  obtain ⟨hudp, htls⟩ := Prod.mk.inj hresponders
  refine ⟨t, ht, fun i => mem_waiting.1 ?_, fun r => ?_⟩
  · exact Finset.mem_filter.2 ⟨Finset.mem_univ i, of_decide_eq_true hwaits i⟩
  · cases r with
    | udp => exact Option.isNone_iff_eq_none.1 hudp
    | tls => exact Option.isNone_iff_eq_none.1 htls

/-- The run that follows the plan. -/
theorem statusRun {ok : ServerState → ServerAction → Prop} (hok : ∀ s a, ok s a) :
    ∃ s, ServerRun (treeInit rrHash) ok s ∧ (∀ i, s.workers i = .waiting) ∧ s.received.length = 1 ∧
      s.sent.map (fun p => p.1.number) = [0] := by
  obtain ⟨s, hplays, hwaits, -⟩ := statusPlan_ends
  have hlists : (statusPlan.foldlM (serverStep (treeInit rrHash)) (ServerState.initial 0)).map
      (fun s => (s.received.length, s.sent.map fun p => p.1.number)) = some (1, [0]) := by
    decide +kernel
  rw [hplays] at hlists
  obtain ⟨hreceived, hsent⟩ := Prod.mk.inj (Option.some.inj hlists)
  exact ⟨s, ServerRun.play hok (.start 0) hplays, hwaits, hreceived, hsent⟩

end BakaDns
