import BakaDns.ServerAccounts

/-!
# What the jobs keep to

A contract between the jobs and what they share: what an operation may do and what it leaves behind,
and with which reply a job ends. If every job and every step of a run keep to a contract, so does
all that the server sends.
-/

namespace BakaDns
open Threads

/-- What operations may ask for and leave behind, and the replies of the jobs, for a world of which
more and more is known. -/
structure Contract (W : Type) [Preorder W] where
  pre : W → CacheOp → Prop
  post : W → (op : CacheOp) → op.Res → Prop
  Reply : W → Request → Option (List UInt8) → Prop
  mono : ∀ {w w' : W} {request : Request} {reply : Option (List UInt8)},
    w ≤ w' → Reply w request reply → Reply w' request reply

variable {W : Type} [Preorder W] {C : Contract W} {w w' : W} {db : BucketTree}
  {ok : ServerState → ServerAction → Prop} {s s' : ServerState} {a : ServerAction}
  {i : Fin defaultNThreads} {worker : ServerWorker} {request : Request}

/-- The rest of a job keeps to the contract, whatever others do in the meantime. -/
def Contract.Allows (C : Contract W) (job : Option Request)
    (p : ResolvProg (Option (List UInt8))) (w : W) : Prop :=
  p.Safe C.pre C.post (fun w reply => ∀ request ∈ job, C.Reply w request reply) w

/-! What came in, and what goes out. -/

/-- The request is what a socket brought under its number. -/
def ServerState.IsReceived (s : ServerState) (request : Request) : Prop :=
  s.received[request.number]? = some request.args

def ServerState.HasReply (s : ServerState) (request : Request) : Prop :=
  ∃ reply, (request, reply) ∈ s.sent

/-- A worker with a request that came in, whose program keeps to the contract, or of which the reply
was all that was left. -/
def ServerWorker.Genuine (C : Contract W) (w : W) (s : ServerState) : ServerWorker → Prop
  | .pulled job | .exited job => ∀ request ∈ job, s.IsReceived request
  | .working job p => (∀ request ∈ job, s.IsReceived request) ∧
      (C.Allows job p w ∨ (p = .ret none ∧ ∀ request ∈ job, s.HasReply request))
  | _ => True

/-- Nothing is in the server that a socket did not bring, and no reply outside the contract. -/
structure ServerState.Genuine (C : Contract W) (w : W) (s : ServerState) : Prop where
  responders : ∀ r, ∀ request ∈ s.responders r, s.IsReceived request
  queue : ∃ jobs, s.queue.Contents jobs ∧ ∀ request ∈ jobs, s.IsReceived request
  workers : ∀ i, (s.workers i).Genuine C w s
  sent : ∀ p ∈ s.sent, s.IsReceived p.1 ∧ C.Reply w p.1 (some p.2)
  served : ∀ request ∈ s.served,
    s.IsReceived request ∧ (s.HasReply request ∨ C.Reply w request none)
  refused : ∀ request ∈ s.refused, s.IsReceived request

/-- What has been received and sent stays. -/
structure ServerState.Before (s s' : ServerState) : Prop where
  received : s.received <+: s'.received
  sent : s.sent <+: s'.sent

theorem ServerState.Before.rfl : s.Before s := ⟨List.prefix_rfl, List.prefix_rfl⟩

theorem isReceived_mono (h : s.IsReceived request) (hle : s.Before s') :
    s'.IsReceived request := by
  obtain ⟨later, hlater⟩ := hle.received
  unfold ServerState.IsReceived at h ⊢
  rw [← hlater, List.getElem?_append_left (List.getElem?_eq_some_iff.1 h).1]
  exact h

theorem hasReply_mono (h : s.HasReply request) (hle : s.Before s') : s'.HasReply request := by
  obtain ⟨reply, hmem⟩ := h
  exact ⟨reply, hle.sent.subset hmem⟩

theorem ServerStepped.before (h : ServerStepped db s a s') : s.Before s' := by
  cases h with
  | receive args hfree => exact ⟨List.prefix_append _ _, List.prefix_rfl⟩
  | send i request reply hi => exact ⟨List.prefix_rfl, List.prefix_append _ _⟩
  | add | waits | pulls | countOut | performs | faults | countIn | exit | spurious | environment =>
    exact ⟨List.prefix_rfl, List.prefix_rfl⟩

theorem ServerWorker.Genuine.mono (h : worker.Genuine C w s) (hw : w ≤ w') (hle : s.Before s') :
    worker.Genuine C w' s' := by
  cases worker with
  | asking | waiting | signalled => trivial
  | pulled job | exited job => exact fun request hr => isReceived_mono (h request hr) hle
  | working job p =>
    obtain ⟨hreceived, hprogram⟩ := h
    refine ⟨fun request hr => isReceived_mono (hreceived request hr) hle, ?_⟩
    rcases hprogram with hallows | ⟨hret, hreply⟩
    · exact .inl (hallows.mono hw)
    · exact .inr ⟨hret, fun request hr => hasReply_mono (hreply request hr) hle⟩

theorem holds_isReceived (h : worker.Genuine C w s) (hr : request ∈ worker.holds) :
    s.IsReceived request := by
  cases worker with
  | asking | waiting | signalled => cases hr
  | pulled job | exited job => exact h request (Option.mem_toList.1 hr)
  | working job p => exact h.1 request (Option.mem_toList.1 hr)

theorem ServerState.Genuine.mono (h : s.Genuine C w) (hw : w ≤ w') : s.Genuine C w' where
  responders := h.responders
  queue := h.queue
  workers j := (h.workers j).mono hw .rfl
  sent p hp := ⟨(h.sent p hp).1, C.mono hw (h.sent p hp).2⟩
  served request hr := ⟨(h.served request hr).1, (h.served request hr).2.imp_right (C.mono hw)⟩
  refused := h.refused

/-! What a step keeps. -/

/-- A step that leaves the queue, the responders and the lists of requests as they are. -/
theorem ServerState.Genuine.move (h : s.Genuine C w) (hle : s.Before s')
    (hworkers : s'.workers = Function.update s.workers i worker)
    (hworker : worker.Genuine C w s') (hqueue : s'.queue = s.queue)
    (hrest : s'.responders = s.responders ∧ s'.sent = s.sent ∧ s'.served = s.served ∧
      s'.refused = s.refused) : s'.Genuine C w := by
  obtain ⟨hresponders, hsent, hserved, hrefused⟩ := hrest
  refine ⟨?_, ?_, fun j => ?_, ?_, ?_, ?_⟩
  · rw [hresponders]
    exact fun r request hr => isReceived_mono (h.responders r request hr) hle
  · obtain ⟨jobs, hjobs, hall⟩ := h.queue
    exact ⟨jobs, hqueue ▸ hjobs, fun request hr => isReceived_mono (hall request hr) hle⟩
  · rw [hworkers]
    exact forall_workers_update (fun j => (h.workers j).mono le_rfl hle) hworker j
  · rw [hsent]
    exact fun p hp => ⟨isReceived_mono (h.sent p hp).1 hle, (h.sent p hp).2⟩
  · rw [hserved]
    intro request hr
    obtain ⟨hin, hreply⟩ := h.served request hr
    exact ⟨isReceived_mono hin hle, hreply.imp_left fun hsent => hasReply_mono hsent hle⟩
  · rw [hrefused]
    exact fun request hr => isReceived_mono (h.refused request hr) hle

/-- A step of one worker alone. -/
theorem ServerState.Genuine.setWorker (h : s.Genuine C w) (hworker : worker.Genuine C w s) :
    (s.setWorker i worker).Genuine C w := by
  have hle : s.Before (s.setWorker i worker) := ⟨List.prefix_rfl, List.prefix_rfl⟩
  exact h.move hle rfl (hworker.mono le_rfl hle) rfl ⟨rfl, rfl, rfl, rfl⟩

theorem ServerState.Genuine.wake (h : s.Genuine C w) (wakes : Finset (Fin defaultNThreads)) :
    (s.wake wakes).Genuine C w :=
  ⟨h.responders, h.queue, forall_workers_wake h.workers trivial, h.sent, h.served, h.refused⟩

theorem ServerState.Genuine.receive (h : s.Genuine C w) {args : ResolvArgs} :
    ServerState.Genuine C w { s with
      responders := Function.update s.responders args.job.responder
        (some ⟨s.received.length, args⟩)
      received := s.received ++ [args] } := by
  have hle : s.Before { s with
      responders := Function.update s.responders args.job.responder
        (some ⟨s.received.length, args⟩)
      received := s.received ++ [args] } :=
    ⟨List.prefix_append _ _, List.prefix_rfl⟩
  obtain ⟨jobs, hjobs, hall⟩ := h.queue
  refine ⟨fun r request hr => ?_, ⟨jobs, hjobs, fun request hr => ?_⟩,
    fun j => (h.workers j).mono le_rfl hle, fun p hp => ?_, fun request hr => ?_,
    fun request hr => ?_⟩
  · dsimp only at hr
    by_cases hsame : r = args.job.responder
    · subst hsame
      rw [Function.update_self] at hr
      cases hr
      simp [ServerState.IsReceived]
    · rw [Function.update_of_ne hsame] at hr
      exact isReceived_mono (h.responders r request hr) hle
  · exact isReceived_mono (hall request hr) hle
  · exact ⟨isReceived_mono (h.sent p hp).1 hle, (h.sent p hp).2⟩
  · obtain ⟨hin, hreply⟩ := h.served request hr
    exact ⟨isReceived_mono hin hle, hreply.imp_left fun hsent => hasReply_mono hsent hle⟩
  · exact isReceived_mono (h.refused request hr) hle

theorem ServerState.Genuine.add (h : s.Genuine C w) {r : Responder} {ret : ℤ}
    {queue : JobQueue Request} (hr : s.responders r = some request)
    (hadd : threadpoolAddJob s.queue request = some (ret, queue)) :
    ServerState.Genuine C w { s with
      queue := queue
      responders := Function.update s.responders r none
      refused := if ret < 0 then s.refused ++ [request] else s.refused } := by
  obtain ⟨jobs, hjobs, hall⟩ := h.queue
  have hrequest : s.IsReceived request := h.responders r request hr
  refine ⟨fun r' other hother => ?_, ?_, h.workers, h.sent, h.served, fun other hother => ?_⟩
  · dsimp only at hother
    by_cases hsame : r' = r
    · rw [hsame, Function.update_self] at hother
      cases hother
    · rw [Function.update_of_ne hsame] at hother
      exact h.responders r' other hother
  · rcases threadpoolAddJob_cases hjobs hadd with ⟨-, hc⟩ | ⟨-, -, rfl⟩
    · refine ⟨_, hc, fun other hother => ?_⟩
      rcases List.mem_append.1 hother with hother | hother
      · exact hall other hother
      · exact List.mem_singleton.1 hother ▸ hrequest
    · exact ⟨jobs, hjobs, hall⟩
  · dsimp only at hother
    split at hother
    · rcases List.mem_append.1 hother with hother | hother
      · exact h.refused other hother
      · exact List.mem_singleton.1 hother ▸ hrequest
    · exact h.refused other hother

theorem ServerState.Genuine.pulls (h : s.Genuine C w) {job : Option Request}
    {queue : JobQueue Request} (hpull : pullJob s.queue = some (.returns job, queue)) :
    (({ s with queue := queue } : ServerState).setWorker i (.pulled job)).Genuine C w := by
  obtain ⟨jobs, hjobs, hall⟩ := h.queue
  rcases pullJob_cases hjobs hpull with ⟨-, hne, -⟩ | ⟨request, rest, rfl, hjob, hc⟩
  · cases hne
  · cases hjob
    refine ⟨h.responders, ⟨rest, hc, fun other ho => hall other (List.mem_cons_of_mem _ ho)⟩,
      ?_, h.sent, h.served, h.refused⟩
    refine forall_workers_update (s := { s with queue := queue }) h.workers ?_
    rintro _ ⟨⟩
    exact hall request List.mem_cons_self

/-- A worker whose program has come to its end sends a reply that the contract allows. -/
theorem ServerState.Genuine.send (h : s.Genuine C w) {reply : List UInt8}
    (hi : s.workers i = .working (some request) (.ret (some reply))) :
    (({ s with sent := s.sent ++ [(request, reply)] } : ServerState).setWorker i
      (.working (some request) (.ret none))).Genuine C w := by
  have hworker := h.workers i
  rw [hi] at hworker
  obtain ⟨hreceived, hprogram⟩ := hworker
  have hallows : C.Reply w request (some reply) := by
    rcases hprogram with hallows | ⟨hne, -⟩
    · exact hallows _ le_rfl request rfl
    · cases hne
  have hle : s.Before (({ s with sent := s.sent ++ [(request, reply)] } : ServerState).setWorker i
      (.working (some request) (.ret none))) := ⟨List.prefix_rfl, List.prefix_append _ _⟩
  refine ⟨h.responders, h.queue, ?_, ?_, ?_, h.refused⟩
  · refine forall_workers_update (s := { s with sent := s.sent ++ [(request, reply)] })
      (fun j => (h.workers j).mono le_rfl hle) ⟨hreceived, .inr ⟨rfl, ?_⟩⟩
    rintro _ ⟨⟩
    exact ⟨reply, List.mem_append_right _ (List.mem_singleton_self _)⟩
  · intro p hp
    rcases List.mem_append.1 hp with hp | hp
    · exact h.sent p hp
    · rw [List.mem_singleton.1 hp]
      exact ⟨hreceived request rfl, hallows⟩
  · intro other hother
    obtain ⟨hin, hreply⟩ := h.served other hother
    exact ⟨hin, hreply.imp_left fun hsent => hasReply_mono hsent hle⟩

theorem ServerState.Genuine.countIn (h : s.Genuine C w) {job : Option Request}
    (hi : s.workers i = .working job (.ret none)) (free : UInt8) :
    (({ s with nThreadsFree := free, served := s.served ++ job.toList } :
      ServerState).setWorker i .asking).Genuine C w := by
  refine ⟨h.responders, h.queue, ?_, h.sent, ?_, h.refused⟩
  · exact forall_workers_update
      (s := { s with nThreadsFree := free, served := s.served ++ job.toList }) h.workers trivial
  · intro request hr
    rcases List.mem_append.1 hr with hr | hr
    · exact h.served request hr
    · have hworker := h.workers i
      rw [hi] at hworker
      obtain ⟨hreceived, hprogram⟩ := hworker
      have hmem : request ∈ job := Option.mem_toList.1 hr
      refine ⟨hreceived request hmem, ?_⟩
      rcases hprogram with hallows | ⟨-, hreply⟩
      · exact .inr (hallows _ le_rfl request hmem)
      · exact .inl (hreply request hmem)

/-- A program that goes on with what its operation returned. -/
theorem ServerState.Genuine.perform (h : s.Genuine C w) (hle : w ≤ w') {job : Option Request}
    {op : CacheOp} {k : op.Res → ResolvProg (Option (List UInt8))} {r : op.Res} {shared : Shared}
    (hi : s.workers i = .working job (.call op k)) (hpost : C.post w' op r) :
    (({ s with shared := shared } : ServerState).setWorker i
      (.working job (k r))).Genuine C w' := by
  have hworker := h.workers i
  rw [hi] at hworker
  obtain ⟨hreceived, hallows | ⟨hne, -⟩⟩ := hworker
  · have hworks : (ServerWorker.working job (k r)).Genuine C w'
        (({ s with shared := shared } : ServerState).setWorker i (.working job (k r))) :=
      ⟨hreceived, .inl ((hallows _ le_rfl).2 r _ hle hpost)⟩
    exact (h.mono hle).move ⟨List.prefix_rfl, List.prefix_rfl⟩ rfl hworks rfl ⟨rfl, rfl, rfl, rfl⟩
  · cases hne

/-- Every operation finds its precondition. -/
theorem ServerState.Genuine.pre (h : s.Genuine C w) {op : CacheOp}
    (hop : s.opOf (.perform i) = some op) : C.pre w op := by
  obtain ⟨job, k, hi⟩ := ServerState.opOf_perform.1 hop
  have hworker := h.workers i
  rw [hi] at hworker
  obtain ⟨-, hallows | ⟨hne, -⟩⟩ := hworker
  · exact (hallows _ le_rfl).1
  · cases hne

/-- A step after which more is known: the jobs that begin keep to the contract, and so does the
operation that is performed. -/
theorem ServerState.Genuine.step (h : s.Genuine C w) (hle : w ≤ w')
    (hjob : ∀ request, s.IsReceived request →
      C.Allows (some request) (request.args.job.replyProg db) w')
    (hperform : ∀ {i : Fin defaultNThreads} {op : CacheOp} {r : op.Res}, a = .perform i →
      s.opOf (.perform i) = some op → exec i op s.shared = .ok (r, s'.shared) → C.post w' op r)
    (hstep : ServerStepped db s a s') : s'.Genuine C w' := by
  have hat : ∀ {i worker}, s.workers i = worker → worker.Genuine C w' s :=
    fun hi => hi ▸ (h.mono hle).workers _
  cases hstep with
  | receive args hfree => exact (h.mono hle).receive
  | add r wakes request ret queue hr hadd hwakes => exact ((h.mono hle).add hr hadd).wake wakes
  | waits i hi queue hpull =>
    obtain ⟨jobs, hjobs, -⟩ := h.queue
    rcases pullJob_cases hjobs hpull with ⟨-, -, rfl⟩ | ⟨job, rest, -, hne, -⟩
    · have hwaiting : ServerWorker.waiting.Genuine C w' s := trivial
      exact (h.mono hle).setWorker hwaiting
    · cases hne
  | pulls i hi job queue hpull => exact (h.mono hle).pulls hpull
  | countOut i job hi =>
    have hreceived := hat hi
    have hallows : C.Allows job (Request.prog db job) w' := by
      cases job with
      | none => exact fun _ _ request hr => by cases hr
      | some request => exact hjob request (hreceived request rfl)
    have hworks : (ServerWorker.working job (Request.prog db job)).Genuine C w' s :=
      ⟨hreceived, .inl hallows⟩
    exact (h.mono hle).move ⟨List.prefix_rfl, List.prefix_rfl⟩ rfl hworks rfl ⟨rfl, rfl, rfl, rfl⟩
  | performs i job op k r shared hi hexec =>
    exact h.perform hle hi (hperform rfl (ServerState.opOf_perform.2 ⟨job, k, hi⟩) hexec)
  | faults i job op k fault hi hexec => exact (h.mono hle).setWorker ⟨(hat hi).1, .inl trivial⟩
  | send i request reply hi => exact (h.mono hle).send hi
  | countIn i wakes job hi hwakes => exact ((h.mono hle).countIn hi _).wake wakes
  | exit i job hi => exact (h.mono hle).setWorker (hat hi).1
  | spurious i hi =>
    have hsignalled : ServerWorker.signalled.Genuine C w' s := trivial
    exact (h.mono hle).setWorker hsignalled
  | environment a later ha =>
    obtain ⟨hresponders, hqueue, hworkers, hsent, hserved, hrefused⟩ := h.mono hle
    have hbefore : s.Before { s with shared := later.shared } :=
      ⟨List.prefix_rfl, List.prefix_rfl⟩
    exact ⟨hresponders, hqueue, fun j => (hworkers j).mono le_rfl hbefore, hsent, hserved, hrefused⟩

theorem genuine_initial (w : W) (now : ℕ) : (ServerState.initial now).Genuine C w where
  responders _ _ h := by cases h
  queue := ⟨[], contents_queueInit, fun _ h => by cases h⟩
  workers _ := trivial
  sent _ h := by cases h
  served _ h := by cases h
  refused _ h := by cases h

/-! Runs. -/

/-- All jobs keep to the contract, and so do the steps that meet the condition: of the shared state,
`Inv` is kept and what `view` shows only grows. -/
structure Contract.Kept (C : Contract W) (view : Shared → W) (Inv : Shared → Prop)
    (db : BucketTree) (ok : ServerState → ServerAction → Prop) : Prop where
  initial : ∀ now, Inv (ServerState.initial now).shared
  job : ∀ (request : Request) (w : W), C.Allows (some request) (request.args.job.replyProg db) w
  perform : ∀ {s : ServerState} {i : Fin defaultNThreads} {op : CacheOp} {r : op.Res}
    {shared : Shared}, ok s (.perform i) → s.opOf (.perform i) = some op → Inv s.shared →
    C.pre (view s.shared) op → exec i op s.shared = .ok (r, shared) →
    Inv shared ∧ view s.shared ≤ view shared ∧ C.post (view shared) op r
  environment : ∀ {s : ServerState} {a : Action} {w : World},
    ok s (.environment a) → Inv s.shared → step db ⟨s.shared, fun _ => .ret ()⟩ a = some w →
    Inv w.shared ∧ view s.shared ≤ view w.shared

/-- A run under a contract. -/
theorem ServerRun.genuine {view : Shared → W} {Inv : Shared → Prop} (hrun : ServerRun db ok s)
    (hkept : C.Kept view Inv db ok) : s.Genuine C (view s.shared) ∧ Inv s.shared := by
  refine hrun.invariant (I := fun s => s.Genuine C (view s.shared) ∧ Inv s.shared)
    (fun now => ⟨genuine_initial _ now, hkept.initial now⟩) ?_
  rintro s a s' ⟨h, hinv⟩ hok hstep
  have hshared : view s.shared ≤ view s'.shared ∧ Inv s'.shared := by
    rcases hstep.shared_cases with hsame | ⟨i, op, r, rfl, hop, hexec⟩ | ⟨a, w, rfl, ha, hw⟩
    · rw [hsame]
      exact ⟨le_rfl, hinv⟩
    · obtain ⟨hinv', hview, -⟩ := hkept.perform hok hop hinv (h.pre hop) hexec
      exact ⟨hview, hinv'⟩
    · rw [hw]
      exact (hkept.environment hok hinv ha).symm
  refine ⟨h.step hshared.1 (fun request _ => hkept.job request _) ?_ hstep, hshared.2⟩
  rintro i op r rfl hop hexec
  exact (hkept.perform hok hop hinv (h.pre hop) hexec).2.2

end BakaDns
