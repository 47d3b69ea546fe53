import BakaDns.TlsConnections

/-!
# The thread pool

`init_threadpool` and `thread_work` over the job queue: a worker asks for a job, counts itself out,
runs the job and counts itself in again. The job runs on the shared cache like any call of the
resolver, one visible step at a time, and it may end the thread that runs it.
-/

namespace BakaDns
open CBytes ReadTrace Threads

def defaultNThreads : ℕ := 12

/-! The jobs as programs. -/

/-- `udp_resolv_and_respond`. -/
def udpProg (fuel : ℕ) (db : BucketTree) (x : Exchange) (rcvbuffer : List UInt8) (nrecv : ℤ) :
    ResolvProg Unit :=
  match (messageFromBuf fuel rcvbuffer (asUint32 nrecv) Message.zero).result with
  | none => .fail .hang
  | some (ret, msgrcv) =>
    if ret < -1 then do
      let _ ← Prog.lift (messageToU8 (constructErrorResponse rcodeFormatError) (fun _ => 0) 0)
      .ret ()
    else resolvProg fuel db x (fun _ => 0) msgrcv

/-- `ssl_resolv_and_respond` for a body that came in completely. -/
def sslBodyProg (fuel : ℕ) (db : BucketTree) (x : Exchange) (recvbuf : List UInt8) :
    ResolvProg Unit :=
  match (messageFromBuf fuel recvbuf recvbuf.length Message.zero).result with
  | none => .fail .hang
  | some (ret, msgrcv) =>
    if ret < 0 then do
      let _ ← Prog.lift (messageToU8 (constructErrorResponse rcodeFormatError) (fun _ => 0) 0)
      .ret ()
    else resolvProg fuel db x (fun _ => 0) msgrcv

/-- `ssl_resolv_and_respond`. -/
def sslProg (fuel : ℕ) (db : BucketTree) (x : Exchange) (session : TlsSession) :
    ResolvProg Unit :=
  if ¬ session.accepted then .ret ()
  else
    match session.size with
    | .data [b₀, b₁] =>
      let expected := (beU16 b₀ b₁).toNat
      match (receiveLoop expected session.reads fuel 0 []).2 with
      | .error fault => .fail fault
      | .ok (failed, recvbuf) =>
        if failed ∨ recvbuf.length ≠ expected then .ret () else sslBodyProg fuel db x recvbuf
    | _ => .ret ()

/-- A `struct job` with what the outside will do to it. -/
inductive Job
  | udp (fuel : ℕ) (x : Exchange) (rcvbuffer : List UInt8) (nrecv : ℤ)
  | tls (fuel : ℕ) (x : Exchange) (session : TlsSession)

def Job.exchange : Job → Exchange
  | .udp _ x _ _ => x
  | .tls _ x _ => x

/-- `job->fun(job->arg)`. -/
def Job.prog (db : BucketTree) : Job → ResolvProg Unit
  | .udp fuel x rcvbuffer nrecv => udpProg fuel db x rcvbuffer nrecv
  | .tls fuel x session => sslProg fuel db x session

/-- The same run by a single thread, from `server.c`. -/
def Job.handled (now : ℕ) (db : BucketTree) (cache : RrCache) : Job → Handled
  | .udp fuel x rcvbuffer nrecv => udpResolvAndRespond fuel now db x cache rcvbuffer nrecv
  | .tls fuel x session => sslResolvAndRespond fuel now db x cache session

/-! The pool. -/

/-- Where a worker is in `thread_work`. -/
inductive Worker
  | asking
  | pulled (job : Option Job)
  | working (p : ResolvProg Unit)
  | exited

/-- A worker between its decrement and its increment. -/
def Worker.isWorking : Worker → Bool
  | .working _ => true
  | _ => false

/-- `struct threadpool` with the threads themselves and the state they share. -/
structure Pool where
  shared : Shared
  queue : JobQueue Job
  nThreads : UInt8
  nThreadsFree : UInt8
  workers : Fin defaultNThreads → Worker

/-- After `init_threadpool`, which runs before anything can add a job. -/
def Pool.initial (now : ℕ) : Pool where
  shared := ⟨now, initCache now, [], [], []⟩
  queue := queueInit
  nThreads := UInt8.ofNat defaultNThreads
  nThreadsFree := UInt8.ofNat defaultNThreads
  workers _ := .asking

/-- What can happen next: a responder adds a job, a worker takes its next step, or the clock, the
refresh thread or the allocator act on the shared state. -/
inductive PoolAction
  | add (job : Job)
  | pull (i : Fin defaultNThreads)
  | countOut (i : Fin defaultNThreads)
  | perform (i : Fin defaultNThreads)
  | countIn (i : Fin defaultNThreads)
  | exit (i : Fin defaultNThreads)
  | environment (a : Action)

def Pool.setWorker (p : Pool) (i : Fin defaultNThreads) (w : Worker) : Pool :=
  { p with workers := Function.update p.workers i w }

/-- One step of the pool. -/
def poolStep (db : BucketTree) (p : Pool) : PoolAction → Option Pool
  | .add job => (threadpoolAddJob p.queue job).map fun r => { p with queue := r.2 }
  | .pull i =>
    match p.workers i with
    | .asking =>
      match pullJob p.queue with
      | some (.waits, queue) => some { p with queue := queue }
      | some (.returns job, queue) => some ({ p with queue := queue }.setWorker i (.pulled job))
      | none => none
    | _ => none
  | .countOut i =>
    match p.workers i with
    | .pulled job =>
      some ({ p with nThreadsFree := p.nThreadsFree - 1 }.setWorker i
        (.working (job.elim (.ret ()) (Job.prog db))))
    | _ => none
  | .perform i =>
    match p.workers i with
    | .working (.call op k) =>
      match exec i op p.shared with
      | .ok (r, shared) => some ({ p with shared := shared }.setWorker i (.working (k r)))
      | .error fault => some (p.setWorker i (.working (.fail fault)))
    | _ => none
  | .countIn i =>
    match p.workers i with
    | .working (.ret _) =>
      some ({ p with nThreadsFree := p.nThreadsFree + 1 }.setWorker i .asking)
    | _ => none
  | .exit i =>
    match p.workers i with
    | .working (.fail .exit) => some (p.setWorker i .exited)
    | _ => none
  | .environment a =>
    (step db ⟨p.shared, fun _ => .ret ()⟩ a).map fun w => { p with shared := w.shared }

/-- The pools that are reached by steps that meet a condition. -/
inductive PoolRun (db : BucketTree) (ok : Pool → PoolAction → Prop) : Pool → Prop
  | start (now : ℕ) : PoolRun db ok (Pool.initial now)
  | step {p p' : Pool} {a : PoolAction} (h : PoolRun db ok p) (hok : ok p a)
      (hstep : poolStep db p a = some p') : PoolRun db ok p'

def Pool.busyCount (p : Pool) : ℕ :=
  (Finset.univ.filter fun i => (p.workers i).isWorking = true).card

/-- No worker is lost and the counter is right: it counts the workers that are not at work, and a
worker that is about to count itself out does not take it below zero. -/
structure Pool.Sound (p : Pool) : Prop where
  in_loop : ∀ i, p.workers i ≠ .exited
  free_eq : (p.nThreadsFree.toNat : ℤ) = p.nThreads.toNat - p.busyCount
  no_wrap : ∀ i job, p.workers i = .pulled job → p.nThreadsFree ≠ 0

/-- A job that has been pulled gets a socket if it asks upstream. -/
def Worker.GetsSocket : Worker → Prop
  | .pulled (some job) => job.exchange.outcome ≠ .socketFail
  | _ => True

/-- The job that a worker is about to run gets its socket. -/
def SocketsOpen (p : Pool) : PoolAction → Prop
  | .countOut i => (p.workers i).GetsSocket
  | _ => True

instance : (w : Worker) → Decidable w.GetsSocket
  | .pulled (some _) => inferInstanceAs (Decidable (¬_ = _))
  | .pulled none | .asking | .working _ | .exited => isTrue trivial

instance (p : Pool) : (a : PoolAction) → Decidable (SocketsOpen p a)
  | .countOut i => inferInstanceAs (Decidable (p.workers i).GetsSocket)
  | .add _ | .pull _ | .perform _ | .countIn _ | .exit _ | .environment _ => isTrue trivial

/-! A job that runs alone does what `server.c` does. -/

section Jobs

variable {i : ℕ} {db : BucketTree}

/-- The report of a malformed packet does not touch the cache. -/
theorem formatError_implements : Prog.Implements (exec i) Shared.view
    (do
      let _ ← Prog.lift (messageToU8 (constructErrorResponse rcodeFormatError) (fun _ => 0) 0)
      .ret () : ResolvProg Unit)
    fun t => (messageToU8 (constructErrorResponse rcodeFormatError) (fun _ => 0) 0).map
      fun _ => ((), t) := by
  refine ((Prog.implements_lift _).bind fun _ => Prog.implements_ret ()).congr fun t => ?_
  cases messageToU8 (constructErrorResponse rcodeFormatError) (fun _ => 0) 0 with
  | error e => rfl
  | ok r => rfl

theorem udpProg_implements (fuel : ℕ) (x : Exchange) (rcvbuffer : List UInt8) (nrecv : ℤ) :
    Prog.Implements (exec i) Shared.view (udpProg fuel db x rcvbuffer nrecv) fun t =>
      (udpResolvAndRespond fuel t.1 db x t.2 rcvbuffer nrecv).outcome.map fun r =>
        ((), (t.1, r.2)) := by
  unfold udpProg udpResolvAndRespond
  cases (messageFromBuf fuel rcvbuffer (asUint32 nrecv) Message.zero).result with
  | none => exact Prog.implements_lift (.error Fault.hang)
  | some r =>
    obtain ⟨ret, msgrcv⟩ := r
    dsimp only
    split
    · refine formatError_implements.congr fun t => ?_
      cases messageToU8 (constructErrorResponse rcodeFormatError) (fun _ => 0) 0 with
      | error e => rfl
      | ok r => rfl
    · refine (resolvProg_implements fuel x (fun _ => 0) msgrcv).congr fun t => ?_
      unfold udpRespond
      cases resolvHandle fuel t.1 db x (fun _ => 0) t.2 msgrcv with
      | error e => rfl
      | ok r =>
        dsimp only
        split <;> rfl

theorem sslBodyProg_implements (fuel : ℕ) (x : Exchange) (session : TlsSession)
    (recvbuf : List UInt8) :
    Prog.Implements (exec i) Shared.view (sslBodyProg fuel db x recvbuf) fun t =>
      (sslHandleBody fuel t.1 db x t.2 session recvbuf).outcome.map fun r => ((), (t.1, r.2)) := by
  unfold sslBodyProg sslHandleBody
  cases (messageFromBuf fuel recvbuf recvbuf.length Message.zero).result with
  | none => exact Prog.implements_lift (.error Fault.hang)
  | some r =>
    obtain ⟨ret, msgrcv⟩ := r
    dsimp only
    split
    · refine formatError_implements.congr fun t => ?_
      cases messageToU8 (constructErrorResponse rcodeFormatError) (fun _ => 0) 0 with
      | error e => rfl
      | ok r => rfl
    · refine (resolvProg_implements fuel x (fun _ => 0) msgrcv).congr fun t => ?_
      unfold sslRespond
      cases resolvHandle fuel t.1 db x (fun _ => 0) t.2 msgrcv with
      | error e => rfl
      | ok r =>
        dsimp only
        split <;> rfl

theorem sslProg_implements (fuel : ℕ) (x : Exchange) (session : TlsSession) :
    Prog.Implements (exec i) Shared.view (sslProg fuel db x session) fun t =>
      (sslResolvAndRespond fuel t.1 db x t.2 session).outcome.map fun r => ((), (t.1, r.2)) := by
  unfold sslProg sslResolvAndRespond
  by_cases haccepted : ¬ session.accepted
  · simp only [if_pos haccepted]
    exact Prog.implements_ret ()
  · simp only [if_neg haccepted]
    generalize session.size = size
    rcases size with _ | (_ | ⟨b₀, _ | ⟨b₁, _ | ⟨b₂, bytes⟩⟩⟩)
    · exact Prog.implements_ret ()
    · exact Prog.implements_ret ()
    · exact Prog.implements_ret ()
    · generalize hloop : receiveLoop (beU16 b₀ b₁).toNat session.reads fuel 0 [] = received
      obtain ⟨calls, result⟩ := received
      simp only [hloop]
      rcases result with fault | ⟨failed, recvbuf⟩
      · exact Prog.implements_lift (.error fault)
      · dsimp only
        by_cases hbroken : failed = true ∨ recvbuf.length ≠ (beU16 b₀ b₁).toNat
        · simp only [if_pos hbroken]
          exact Prog.implements_ret ()
        · simp only [if_neg hbroken]
          exact sslBodyProg_implements fuel x session recvbuf
    · exact Prog.implements_ret ()

/-- A job that nobody interrupts leaves the cache as the handler in `server.c` does. -/
theorem jobProg_implements (job : Job) :
    Prog.Implements (exec i) Shared.view (job.prog db) fun t =>
      (job.handled t.1 db t.2).outcome.map fun r => ((), (t.1, r.2)) := by
  cases job with
  | udp fuel x rcvbuffer nrecv => exact udpProg_implements fuel x rcvbuffer nrecv
  | tls fuel x session => exact sslProg_implements fuel x session

theorem formatError_avoids :
    (do
      let _ ← Prog.lift (messageToU8 (constructErrorResponse rcodeFormatError) (fun _ => 0) 0)
      .ret () : ResolvProg Unit).Avoids .exit :=
  (Prog.avoids_lift (messageToU8_avoids _ _ _)).bind fun _ => trivial

/-- With a socket for its exchange, a job comes back to its worker or keeps it for ever. -/
theorem jobProg_avoids {job : Job} (hsocket : job.exchange.outcome ≠ .socketFail) :
    (job.prog db).Avoids .exit := by
  cases job with
  | udp fuel x rcvbuffer nrecv =>
    unfold Job.prog udpProg
    dsimp only
    split
    · exact nofun
    · split
      · exact formatError_avoids
      · exact resolvProg_avoids hsocket _ _ _
  | tls fuel x session =>
    unfold Job.prog sslProg
    dsimp only
    split
    · trivial
    · split
      · next b₀ b₁ _ =>
        have havoids := receiveLoop_avoids (beU16 b₀ b₁).toNat session.reads fuel 0 []
        split
        · next fault hfault =>
          rintro rfl
          exact havoids hfault
        · split
          · trivial
          · unfold sslBodyProg
            split
            · exact nofun
            · split
              · exact formatError_avoids
              · exact resolvProg_avoids hsocket _ _ _
      · trivial

end Jobs

/-! The counter over whole runs. -/

section Counter

variable {db : BucketTree} {p p' : Pool} {i : Fin defaultNThreads} {w : Worker}

/-- What every step keeps while jobs get their sockets. -/
structure Pool.Inv (p : Pool) : Prop where
  in_loop : ∀ i, p.workers i ≠ .exited
  avoids : ∀ i prog, p.workers i = .working prog → prog.Avoids .exit
  nThreads_eq : p.nThreads = UInt8.ofNat defaultNThreads
  free_add : p.nThreadsFree.toNat + p.busyCount = defaultNThreads

theorem busyCount_eq_sum (p : Pool) :
    p.busyCount = ∑ j, (p.workers j).isWorking.toNat := by
  rw [Pool.busyCount, Finset.card_filter]
  apply Finset.sum_congr rfl
  intro j _
  cases (p.workers j).isWorking <;> rfl

/-- Only the worker that moves changes the count. -/
theorem busyCount_setWorker :
    (p.setWorker i w).busyCount + (p.workers i).isWorking.toNat =
      p.busyCount + w.isWorking.toNat := by
  have hmoved : (fun j => ((p.setWorker i w).workers j).isWorking.toNat) =
      Function.update (fun j => (p.workers j).isWorking.toNat) i w.isWorking.toNat := by
    funext j
    by_cases hj : j = i
    · subst hj
      simp [Pool.setWorker]
    · simp [Pool.setWorker, Function.update_of_ne hj]
  have hsplit := Finset.sum_eq_add_sum_sdiff_singleton_of_mem (Finset.mem_univ i)
    fun j => (p.workers j).isWorking.toNat
  rw [busyCount_eq_sum, busyCount_eq_sum, hmoved, Finset.sum_update_of_mem (Finset.mem_univ i)]
  omega

theorem busyCount_lt (h : (p.workers i).isWorking = false) : p.busyCount < defaultNThreads := by
  have hsub : (Finset.univ.filter fun j => (p.workers j).isWorking = true) ⊂ Finset.univ := by
    apply Finset.filter_ssubset.2
    exact ⟨i, Finset.mem_univ i, by simp [h]⟩
  have hlt := Finset.card_lt_card hsub
  rwa [Finset.card_univ, Fintype.card_fin] at hlt

theorem busyCount_pos (h : (p.workers i).isWorking = true) : 0 < p.busyCount := by
  apply Finset.card_pos.2
  exact ⟨i, Finset.mem_filter.2 ⟨Finset.mem_univ i, h⟩⟩

theorem Pool.Inv.sound (h : p.Inv) : p.Sound := by
  have hfree := h.free_add
  refine ⟨h.in_loop, ?_, ?_⟩
  · rw [h.nThreads_eq]
    change _ = (defaultNThreads : ℤ) - _
    omega
  · intro i job hi hzero
    have hlt : p.busyCount < defaultNThreads := busyCount_lt (i := i) (by simp [hi, Worker.isWorking])
    rw [hzero] at hfree
    simp at hfree
    omega

/-- One worker moves on, and the counter with it. -/
theorem Pool.Inv.move (h : p.Inv) {shared : Shared} {queue : JobQueue Job} {free : UInt8}
    (hexit : w ≠ .exited) (havoids : ∀ prog, w = .working prog → prog.Avoids .exit)
    (hfree : free.toNat + w.isWorking.toNat =
      p.nThreadsFree.toNat + (p.workers i).isWorking.toNat) :
    Pool.Inv ({ p with shared := shared, queue := queue, nThreadsFree := free }.setWorker i w) := by
  refine ⟨?_, ?_, h.nThreads_eq, ?_⟩
  · intro j
    change Function.update p.workers i w j ≠ .exited
    by_cases hj : j = i
    · subst hj
      rw [Function.update_self]
      exact hexit
    · rw [Function.update_of_ne hj]
      exact h.in_loop j
  · intro j prog
    change Function.update p.workers i w j = .working prog → _
    by_cases hj : j = i
    · subst hj
      rw [Function.update_self]
      exact havoids prog
    · rw [Function.update_of_ne hj]
      exact h.avoids j prog
  · have hcount : ({ p with shared := shared, queue := queue, nThreadsFree := free }.setWorker i
        w).busyCount + (p.workers i).isWorking.toNat = p.busyCount + w.isWorking.toNat :=
      busyCount_setWorker
    have hbefore := h.free_add
    change free.toNat + _ = _
    omega

/-- Nothing but the queue or the shared state changes. -/
theorem Pool.Inv.keep (h : p.Inv) (shared : Shared) (queue : JobQueue Job) :
    Pool.Inv { p with shared := shared, queue := queue } := ⟨h.1, h.2, h.3, h.4⟩

theorem Pool.Inv.countOut (h : p.Inv) {job : Option Job} (hi : p.workers i = .pulled job)
    (hsocket : (p.workers i).GetsSocket) :
    Pool.Inv ({ p with nThreadsFree := p.nThreadsFree - 1 }.setWorker i
      (.working (job.elim (.ret ()) (Job.prog db)))) := by
  have hidle : (p.workers i).isWorking = false := by simp [hi, Worker.isWorking]
  have hlt := busyCount_lt hidle
  have hfree := h.free_add
  have hle : 1 ≤ p.nThreadsFree := by
    rw [UInt8.le_iff_toNat_le]
    change 1 ≤ p.nThreadsFree.toNat
    omega
  apply h.move
  · exact nofun
  · rintro prog ⟨⟩
    cases job with
    | none => trivial
    | some job =>
      rw [hi] at hsocket
      exact jobProg_avoids hsocket
  · rw [hidle]
    change (p.nThreadsFree - 1).toNat + 1 = p.nThreadsFree.toNat + 0
    rw [UInt8.toNat_sub_of_le _ _ hle]
    change p.nThreadsFree.toNat - 1 + 1 = _
    omega

theorem Pool.Inv.countIn (h : p.Inv) {prog : ResolvProg Unit} (hi : p.workers i = .working prog) :
    Pool.Inv ({ p with nThreadsFree := p.nThreadsFree + 1 }.setWorker i .asking) := by
  have hbusy : (p.workers i).isWorking = true := by simp [hi, Worker.isWorking]
  have hpos := busyCount_pos hbusy
  have hfree := h.free_add
  have hlt : p.nThreadsFree.toNat + 1 < 2 ^ 8 := by
    rw [defaultNThreads] at hfree
    omega
  apply h.move
  · exact nofun
  · exact nofun
  · rw [hbusy]
    change (p.nThreadsFree + 1).toNat + 0 = p.nThreadsFree.toNat + 1
    rw [UInt8.toNat_add]
    exact Nat.mod_eq_of_lt hlt

theorem Pool.Inv.perform (h : p.Inv) {op : CacheOp} {k : op.Res → ResolvProg Unit}
    (hi : p.workers i = .working (.call op k)) {shared : Shared} {prog : ResolvProg Unit}
    (hprog : (∃ r, prog = k r) ∨ ∃ fault, prog = .fail fault ∧ fault ≠ .exit) :
    Pool.Inv ({ p with shared := shared }.setWorker i (.working prog)) := by
  apply h.move
  · exact nofun
  · rintro _ ⟨⟩
    rcases hprog with ⟨r, rfl⟩ | ⟨fault, rfl, hfault⟩
    · exact h.avoids i _ hi r
    · exact hfault
  · rw [hi]
    rfl

theorem Pool.Inv.step {a : PoolAction} (h : p.Inv) (hok : SocketsOpen p a)
    (hstep : poolStep db p a = some p') : p'.Inv := by
  cases a with
  | add job =>
    obtain ⟨r, -, rfl⟩ := Option.map_eq_some_iff.1 hstep
    exact h.keep p.shared r.2
  | pull i =>
    simp only [poolStep] at hstep
    split at hstep
    · next hi =>
      split at hstep
      · next queue _ =>
        cases hstep
        exact h.keep p.shared queue
      · next job queue _ =>
        cases hstep
        apply h.move
        · exact nofun
        · exact nofun
        · rw [hi]
          rfl
      · cases hstep
    · cases hstep
  | countOut i =>
    simp only [poolStep] at hstep
    split at hstep
    · next job hi =>
      cases hstep
      exact h.countOut hi hok
    · cases hstep
  | perform i =>
    simp only [poolStep] at hstep
    split at hstep
    · next op k hi =>
      split at hstep
      · next r shared _ =>
        cases hstep
        exact h.perform hi (Or.inl ⟨r, rfl⟩)
      · next fault hfault =>
        cases hstep
        apply h.perform hi (Or.inr ⟨fault, rfl, ?_⟩)
        rintro rfl
        exact exec_avoids i op p.shared hfault
    · cases hstep
  | countIn i =>
    simp only [poolStep] at hstep
    split at hstep
    · next hi =>
      cases hstep
      exact h.countIn hi
    · cases hstep
  | exit i =>
    simp only [poolStep] at hstep
    split at hstep
    · next hi => exact absurd rfl (h.avoids i _ hi)
    · cases hstep
  | environment a =>
    obtain ⟨w, -, rfl⟩ := Option.map_eq_some_iff.1 hstep
    exact h.keep w.shared p.queue

theorem poolInitial_inv (now : ℕ) : (Pool.initial now).Inv := by
  refine ⟨nofun, nofun, rfl, ?_⟩
  have hnone : (Pool.initial now).busyCount = 0 := by
    apply Finset.card_eq_zero.2
    apply Finset.filter_eq_empty_iff.2
    intro j _
    simp [Pool.initial, Worker.isWorking]
  rw [hnone]
  rfl

/-- While every job that asks upstream gets a socket, no worker leaves its loop and the counter of
free threads is right, whatever jobs there are and however the threads are scheduled. -/
theorem poolRun_sound (hrun : PoolRun db SocketsOpen p) : p.Sound := by
  apply Pool.Inv.sound
  induction hrun with
  | start now => exact poolInitial_inv now
  | step _ hok hstep ih => exact ih.step hok hstep

end Counter

/-- A schedule of steps that all meet a condition. -/
def poolPlay (db : BucketTree) (ok : Pool → PoolAction → Prop) [∀ p a, Decidable (ok p a)] :
    List PoolAction → Pool → Option Pool
  | [], p => some p
  | a :: schedule, p =>
    if ok p a then (poolStep db p a).bind (poolPlay db ok schedule) else none

theorem PoolRun.play {db : BucketTree} {ok : Pool → PoolAction → Prop} [∀ p a, Decidable (ok p a)]
    {schedule : List PoolAction} {p p' : Pool} (h : PoolRun db ok p)
    (hplay : poolPlay db ok schedule p = some p') : PoolRun db ok p' := by
  induction schedule generalizing p with
  | nil =>
    cases hplay
    exact h
  | cons a schedule ih =>
    rw [poolPlay] at hplay
    split at hplay
    · next hok =>
      obtain ⟨p₁, hstep, hplay⟩ := Option.bind_eq_some_iff.1 hplay
      exact ih (h.step hok hstep) hplay
    · cases hplay

/-- A status request, which is always forwarded. -/
def statusRequest : List UInt8 := [0, 7, 0x10, 0, 0, 0, 0, 0, 0, 0, 0, 0]

def firstWorker : Fin defaultNThreads := ⟨0, by decide⟩

/-- The first worker takes a status request. -/
def statusSchedule (outcome : Upstream) : List PoolAction :=
  [.add (.udp 1 ⟨7, outcome⟩ statusRequest 12), .pull firstWorker, .countOut firstWorker]

def Worker.isExited : Worker → Bool
  | .exited => true
  | _ => false

theorem Worker.eq_exited {w : Worker} (h : w.isExited = true) : w = .exited := by
  cases w with
  | exited => rfl
  | asking => cases h
  | pulled job => cases h
  | working prog => cases h

/-- Without a socket to forward the request the worker is lost. -/
theorem statusSchedule_not_sound :
    ∃ p, PoolRun (treeInit rrHash) (fun _ _ => True) p ∧ ¬ p.Sound := by
  have hplays : ((poolPlay (treeInit rrHash) (fun _ _ => True)
      (statusSchedule .socketFail ++ [.exit firstWorker]) (Pool.initial 0)).map
      fun p => (p.workers firstWorker).isExited) = some true := by
    decide +kernel
  obtain ⟨p, hplay, hexited⟩ := Option.map_eq_some_iff.1 hplays
  refine ⟨p, (PoolRun.start 0).play hplay, ?_⟩
  intro hsound
  exact hsound.in_loop firstWorker (Worker.eq_exited hexited)

/-- With a socket it is counted out and still there. -/
theorem poolRun_sound_status :
    ∃ p, PoolRun (treeInit rrHash) SocketsOpen p ∧ p.nThreadsFree = 11 ∧ p.Sound := by
  have hplays : ((poolPlay (treeInit rrHash) SocketsOpen (statusSchedule .recvFail)
      (Pool.initial 0)).map fun p => p.nThreadsFree) = some 11 := by
    decide +kernel
  obtain ⟨p, hplay, hfree⟩ := Option.map_eq_some_iff.1 hplays
  have hrun : PoolRun (treeInit rrHash) SocketsOpen p := (PoolRun.start 0).play hplay
  exact ⟨p, hrun, hfree, poolRun_sound hrun⟩

end BakaDns
