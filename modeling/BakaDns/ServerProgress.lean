import BakaDns.Lib.Progress
import BakaDns.ServerWakeups

/-!
# Every request gets its turn

What happens in a server that runs for ever and whose threads are scheduled fairly. As long as the
process lives, one worker that is not lost is enough for every queued job to be taken, and if no
worker fails, whatever a socket brings is served, unless the queue was full when its responder came
to it.
-/

namespace BakaDns
open CBytes Threads Progress

/-! Fair executions. -/

def serverRel (db : BucketTree) (s : ServerState) (a : ServerAction) (s' : ServerState) : Prop :=
  serverStep db s a = some s'

abbrev ServerExecution := Execution ServerState ServerAction

def IsStart (s : ServerState) : Prop := ∃ now, s = ServerState.initial now

/-- Worker `i` has a step to take. -/
def CanMove (db : BucketTree) (i : Fin defaultNThreads) (s : ServerState) : Prop :=
  ∃ a, a.actor = some i ∧ (serverStep db s a).isSome

/-- Responder `r` has a job to add. -/
def CanAdd (db : BucketTree) (r : Responder) (s : ServerState) : Prop :=
  ∃ wakes, (serverStep db s (.add r wakes)).isSome

def IsAdd (r : Responder) (a : ServerAction) : Prop := ∃ wakes, a = .add r wakes

/-- Every worker and every responder that can move for ever does so at some time. -/
structure Fair (db : BucketTree) (E : ServerExecution) : Prop where
  workers : ∀ i, WeaklyFair (CanMove db i) (fun a => a.actor = some i) E
  responders : ∀ r, WeaklyFair (CanAdd db r) (IsAdd r) E

/-- A job that has failed under worker `i` keeps it. -/
def ServerState.Failed (s : ServerState) (i : Fin defaultNThreads) : Prop :=
  ∃ job, (∃ fault, s.workers i = .working job (.fail fault)) ∨ s.workers i = .exited job

def Healthy (E : ServerExecution) (i : Fin defaultNThreads) : Prop := ∀ n, ¬ (E.state n).Failed i

/-- A TLS job whose receive loop goes round for ever. -/
def Job.ReceivesForever : Job → Prop
  | .udp _ _ _ _ => False
  | .tls fuel _ session => session.accepted = true ∧ ∃ b₀ b₁, session.size = .data [b₀, b₁] ∧
      (receiveLoop (beU16 b₀ b₁).toNat session.reads fuel 0 []).2 = .error .hang

/-- Worker `i` has ended with `pthread_exit` or is in such a loop. The other threads go on. -/
def ServerState.ThreadLost (s : ServerState) (i : Fin defaultNThreads) : Prop :=
  ∃ job, s.workers i = .exited job ∨ s.workers i = .working job (.fail .exit) ∨
    (s.workers i = .working job (.fail .hang) ∧ ∃ request ∈ job, request.args.job.ReceivesForever)

/-- A worker has crashed, or its decoder follows pointers until the stack is full. That is the end of
the process, with all its threads. -/
def ServerState.ProcessLost (s : ServerState) : Prop :=
  ∃ i job, s.workers i = .working job (.fail .crash) ∨
    (s.workers i = .working job (.fail .hang) ∧ ¬∃ request ∈ job, request.args.job.ReceivesForever)

variable {db : BucketTree} {E : ServerExecution} {s s' : ServerState} {a : ServerAction}
  {i j : Fin defaultNThreads} {job : Option Request} {request : Request} {r : Responder}

/-- A failed job costs the thread or the process. -/
theorem ServerState.Failed.lost (h : s.Failed i) : s.ProcessLost ∨ s.ThreadLost i := by
  obtain ⟨job, ⟨fault, hw⟩ | hw⟩ := h
  · cases fault with
    | crash => exact .inl ⟨i, job, .inl hw⟩
    | exit => exact .inr ⟨job, .inr (.inl hw)⟩
    | hang =>
      by_cases hloop : ∃ request ∈ job, request.args.job.ReceivesForever
      · exact .inr ⟨job, .inr (.inr ⟨hw, hloop⟩)⟩
      · exact .inl ⟨i, job, .inr ⟨hw, hloop⟩⟩
  · exact .inr ⟨job, .inl hw⟩

/-! What every state keeps. -/

/-- What a step of a worker's own or of somebody else's leaves of a worker. -/
theorem worker_of_ne_actor (h : ServerStepped db s a s') (ha : a.actor ≠ some j)
    (hj : s.workers j ≠ .waiting) : s'.workers j = s.workers j := by
  have hwake : ∀ {t : ServerState} {wakes : Finset (Fin defaultNThreads)}, wakes ⊆ s.waiting →
      (t.wake wakes).workers j = t.workers j := by
    intro t wakes hwakes
    have hnot : j ∉ wakes := fun hmem => hj (mem_waiting.1 (hwakes hmem))
    simp [ServerState.wake, hnot]
  cases h with
  | receive args hfree => rfl
  | add r wakes request ret queue hr hadd hwakes => exact hwake hwakes.1
  | waits i hi queue hpull => exact setWorker_of_ne fun h => ha (congrArg some h.symm)
  | pulls i hi job queue hpull => exact setWorker_of_ne fun h => ha (congrArg some h.symm)
  | countOut i job hi => exact setWorker_of_ne fun h => ha (congrArg some h.symm)
  | performs i job op k r shared hi hexec =>
    exact setWorker_of_ne fun h => ha (congrArg some h.symm)
  | faults i job op k fault hi hexec => exact setWorker_of_ne fun h => ha (congrArg some h.symm)
  | send i request reply hi => exact setWorker_of_ne fun h => ha (congrArg some h.symm)
  | countIn i wakes job hi hwakes =>
    rw [hwake hwakes]
    exact setWorker_of_ne fun h => ha (congrArg some h.symm)
  | exit i job hi => exact setWorker_of_ne fun h => ha (congrArg some h.symm)
  | spurious i hi =>
    apply setWorker_of_ne
    rintro rfl
    exact hj hi
  | environment a w ha => rfl

/-- A worker that holds a job where it should. -/
def ServerWorker.Staffed : ServerWorker → Prop
  | .pulled job => job ≠ none
  | .working job _ => job ≠ none
  | _ => True

/-- Workers that are awake enough for the queue, and a job for every worker that is past it. -/
structure ServerState.Lively (s : ServerState) : Prop where
  awake : s.Awake
  staffed : ∀ j, (s.workers j).Staffed

theorem ServerState.Lively.step (h : s.Lively) (hstep : ServerStepped db s a s') : s'.Lively := by
  refine ⟨h.awake.step hstep, fun j => ?_⟩
  obtain ⟨jobs, hjobs⟩ := h.awake.contents
  have hall := h.staffed
  have hat : ∀ {i w}, s.workers i = w → w.Staffed := fun hi => hi ▸ hall _
  cases hstep with
  | receive args hfree => exact hall j
  | add r wakes request ret queue hr hadd hwakes => exact forall_workers_wake hall trivial j
  | waits i hi queue hpull =>
    refine forall_workers_update hall ?_ j
    trivial
  | pulls i hi job queue hpull =>
    refine forall_workers_update hall ?_ j
    rcases pullJob_cases hjobs hpull with ⟨-, hne, -⟩ | ⟨job', rest, -, hjob, -⟩
    · cases hne
    · cases hjob
      exact Option.some_ne_none _
  | countOut i job hi =>
    have hjob := hat hi
    refine forall_workers_update hall ?_ j
    exact hjob
  | performs i job op k r shared hi hexec =>
    have hjob := hat hi
    refine forall_workers_update hall ?_ j
    exact hjob
  | faults i job op k fault hi hexec =>
    have hjob := hat hi
    refine forall_workers_update hall ?_ j
    exact hjob
  | send i request reply hi =>
    refine forall_workers_update hall ?_ j
    exact Option.some_ne_none _
  | countIn i wakes job hi hwakes =>
    refine forall_workers_wake (fun j => forall_workers_update hall ?_ j) ?_ j
    · trivial
    · trivial
  | exit i job hi =>
    refine forall_workers_update hall ?_ j
    trivial
  | spurious i hi =>
    refine forall_workers_update hall ?_ j
    trivial
  | environment a w ha => exact hall j

theorem lively_initial (h : IsStart s) : s.Lively := by
  obtain ⟨now, rfl⟩ := h
  exact ⟨awake_initial now, fun _ => trivial⟩

theorem lively_always (hE : Valid IsStart (serverRel db) E) (n : ℕ) : (E.state n).Lively :=
  hE.invariant (fun _ => lively_initial) (fun _ _ _ h hs => h.step (serverStepped_of_step hs)) n

/-! What a worker does next. -/

/-- A worker can move from any place but where it waits or has failed. -/
theorem canMove_of (h : s.Lively) (hi : s.workers i ≠ .waiting) (hfail : ¬ s.Failed i) :
    CanMove db i s := by
  obtain ⟨jobs, hjobs⟩ := h.awake.contents
  have hasks : s.workers i = .asking ∨ s.workers i = .signalled → CanMove db i s := by
    intro hi
    obtain ⟨result, queue, hpull, -⟩ := pullJob_spec hjobs
    refine ⟨.pull i, rfl, ?_⟩
    rcases hi with hi | hi <;> cases result <;> simp [serverStep, hi, hpull]
  cases hw : s.workers i with
  | asking => exact hasks (.inl hw)
  | waiting => exact absurd hw hi
  | signalled => exact hasks (.inr hw)
  | pulled job => exact ⟨.countOut i, rfl, by simp [serverStep, hw]⟩
  | exited job => exact absurd ⟨job, .inr hw⟩ hfail
  | working job p =>
    cases p with
    | fail fault => exact absurd ⟨job, .inl ⟨fault, hw⟩⟩ hfail
    | call op k =>
      refine ⟨.perform i, rfl, ?_⟩
      simp only [serverStep, hw]
      split <;> rfl
    | ret reply =>
      cases reply with
      | some reply =>
        obtain ⟨request, rfl⟩ : ∃ request, job = some request := by
          have hstaffed := h.staffed i
          rw [hw] at hstaffed
          exact Option.ne_none_iff_exists'.1 hstaffed
        exact ⟨.send i, rfl, by simp [serverStep, hw]⟩
      | none =>
        let s₁ : ServerState := ({ s with
          nThreadsFree := s.nThreadsFree + 1
          served := s.served ++ job.toList } : ServerState).setWorker i .asking
        have hin : ∀ wakes, serverStep db s (.countIn i wakes) =
            if s₁.nThreadsFree = s₁.nThreads then s₁.signal wakes
            else if wakes = ∅ then some s₁ else none := by
          intro wakes
          simp only [serverStep, hw]
          rfl
        by_cases hidle : s₁.nThreadsFree = s₁.nThreads
        · refine ⟨.countIn i s₁.waiting, rfl, ?_⟩
          rw [hin, if_pos hidle, signal_waiting]
          rfl
        · refine ⟨.countIn i ∅, rfl, ?_⟩
          rw [hin, if_neg hidle, if_pos rfl]
          rfl

theorem countOut_of_actor (h : ServerStepped db s a s') (ha : a.actor = some i)
    (hi : s.workers i = .pulled job) : s'.workers i = .working job (Request.prog db job) := by
  cases h <;> simp_all [ServerAction.actor]

theorem perform_of_actor {op : CacheOp} {k : op.Res → ResolvProg (Option (List UInt8))}
    (h : ServerStepped db s a s') (ha : a.actor = some i)
    (hi : s.workers i = .working job (.call op k)) (hfail : ¬ s'.Failed i) :
    ∃ r, s'.workers i = .working job (k r) := by
  cases h with
  | performs j job' op' k' r shared hj hexec =>
    cases ha
    rw [hi] at hj
    cases hj
    exact ⟨r, setWorker_self _ _ _⟩
  | faults j job' op' k' fault hj hexec =>
    cases ha
    exact absurd ⟨job', .inl ⟨fault, setWorker_self _ _ _⟩⟩ hfail
  | _ => simp_all [ServerAction.actor]

theorem send_of_actor {reply : List UInt8} (h : ServerStepped db s a s') (ha : a.actor = some i)
    (hi : s.workers i = .working job (.ret (some reply))) :
    s'.workers i = .working job (.ret none) := by
  cases h <;> simp_all [ServerAction.actor]

/-- The job of a worker that counts itself in has come back. -/
theorem countIn_of_actor (h : ServerStepped db s a s') (ha : a.actor = some i)
    (hi : s.workers i = .working job (.ret none)) :
    s'.workers i = .asking ∧ ∀ request ∈ job, request ∈ s'.served := by
  cases h with
  | countIn j wakes job' hj hwakes =>
    cases ha
    rw [hi] at hj
    cases hj
    have hnot : i ∉ wakes := by
      intro hmem
      have hwaits := mem_waiting.1 (hwakes hmem)
      rw [hi] at hwaits
      cases hwaits
    refine ⟨by simp [ServerState.wake, hnot], fun request hrequest => ?_⟩
    exact List.mem_append_right _ (Option.mem_toList.2 hrequest)
  | _ => simp_all [ServerAction.actor]

theorem pull_of_actor (h : ServerStepped db s a s') (ha : a.actor = some i)
    (hi : s.workers i = .asking ∨ s.workers i = .signalled) : a = .pull i := by
  cases h <;> simp_all [ServerAction.actor]

/-! The rules for one worker. -/

section Worker

variable {P Q : ServerState → Prop} (hE : Valid IsStart (serverRel db) E) (hfair : Fair db E)

include hE hfair

/-- A worker that has not failed gets to its next move, unless something else happens first. -/
theorem leadsTo_move {w : ServerWorker} {I : ServerState → Prop} (hI : ∀ n, I (E.state n))
    (hfail : ∀ s, I s → s.workers i = w → ¬ s.Failed i) (hw : w ≠ .waiting)
    (hothers : ∀ s a s', s.Lively → P s → ServerStepped db s a s' → a.actor ≠ some i →
      P s' ∨ Q s')
    (hmine : ∀ s a s', s.Lively → I s' → P s → s.workers i = w → ServerStepped db s a s' →
      a.actor = some i → Q s') :
    LeadsTo E (fun s => P s ∧ s.workers i = w) Q := by
  have hboth : ∀ n, (E.state n).Lively ∧ I (E.state n) := fun n => ⟨lively_always hE n, hI n⟩
  apply hE.leadsTo (I := fun s => s.Lively ∧ I s) (hfair.workers i) hboth
  · rintro s ⟨hlive, hi⟩ ⟨-, rfl⟩
    exact canMove_of hlive hw (hfail s hi rfl)
  · rintro s a s' ⟨hlive, -⟩ ⟨hp, rfl⟩ hstep ha
    have hs := serverStepped_of_step hstep
    rw [worker_of_ne_actor hs ha hw]
    exact (hothers s a s' hlive hp hs ha).imp_left fun hp' => ⟨hp', rfl⟩
  · rintro s a s' ⟨hlive, -⟩ ⟨-, hi⟩ ⟨hp, hs⟩ hstep ha
    exact hmine s a s' hlive hi hp hs (serverStepped_of_step hstep) ha

theorem leadsTo_next {w : ServerWorker} (hi : Healthy E i) (hw : w ≠ .waiting)
    (hothers : ∀ s a s', s.Lively → P s → ServerStepped db s a s' → a.actor ≠ some i →
      P s' ∨ Q s')
    (hmine : ∀ s a s', s.Lively → ¬ s'.Failed i → P s → s.workers i = w → ServerStepped db s a s' →
      a.actor = some i → Q s') :
    LeadsTo E (fun s => P s ∧ s.workers i = w) Q :=
  leadsTo_move hE hfair (I := fun s => ¬ s.Failed i) hi (fun _ h _ => h) hw hothers hmine

/-- A job that does not fail comes back to its worker: the induction is on what is left of its
program. -/
theorem leadsTo_asking (hi : Healthy E i)
    (hkeep : ∀ s a s', s.Lively → P s → ServerStepped db s a s' → P s' ∨ Q s')
    (job : Option Request) (p : ResolvProg (Option (List UInt8))) :
    LeadsTo E (fun s => P s ∧ s.workers i = .working job p) fun s =>
      Q s ∨ (P s ∧ s.workers i = .asking ∧ ∀ request ∈ job, request ∈ s.served) := by
  have hothers : ∀ (R : ServerState → Prop) s a s', s.Lively → P s → ServerStepped db s a s' →
      a.actor ≠ some i → P s' ∨ (Q s' ∨ R s') :=
    fun R s a s' hlive hp hs _ => (hkeep s a s' hlive hp hs).imp_right .inl
  have hret : LeadsTo E (fun s => P s ∧ s.workers i = .working job (.ret none)) fun s =>
      Q s ∨ (P s ∧ s.workers i = .asking ∧ ∀ request ∈ job, request ∈ s.served) := by
    apply leadsTo_next hE hfair hi (by simp) (hothers _)
    intro s a s' hlive _ hp hs hstep ha
    rcases hkeep s a s' hlive hp hstep with hp' | hq
    · exact .inr ⟨hp', countIn_of_actor hstep ha hs⟩
    · exact .inl hq
  induction p with
  | fail fault =>
    rintro n ⟨-, hs⟩
    exact absurd ⟨job, .inl ⟨fault, hs⟩⟩ (hi n)
  | ret reply =>
    cases reply with
    | none => exact hret
    | some reply =>
      refine LeadsTo.trans (Q := fun s => Q s ∨ (P s ∧ s.workers i = .working job (.ret none))) ?_
        ((LeadsTo.of_imp fun s hq => .inl hq).or hret)
      apply leadsTo_next hE hfair hi (by simp) (hothers _)
      intro s a s' hlive _ hp hs hstep ha
      rcases hkeep s a s' hlive hp hstep with hp' | hq
      · exact .inr ⟨hp', send_of_actor hstep ha hs⟩
      · exact .inl hq
  | call op k ih =>
    refine LeadsTo.trans (Q := fun s => Q s ∨ ∃ r, P s ∧ s.workers i = .working job (k r)) ?_
      ((LeadsTo.of_imp fun s hq => .inl hq).or (LeadsTo.exists ih))
    apply leadsTo_next hE hfair hi (by simp) (hothers _)
    intro s a s' hlive hfail hp hs hstep ha
    rcases hkeep s a s' hlive hp hstep with hp' | hq
    · obtain ⟨r, hr⟩ := perform_of_actor hstep ha hs hfail
      exact .inr ⟨r, hp', hr⟩
    · exact .inl hq

/-- So does one that it has only pulled. -/
theorem leadsTo_asking_of_pulled (hi : Healthy E i)
    (hkeep : ∀ s a s', s.Lively → P s → ServerStepped db s a s' → P s' ∨ Q s')
    (job : Option Request) :
    LeadsTo E (fun s => P s ∧ s.workers i = .pulled job) fun s =>
      Q s ∨ (P s ∧ s.workers i = .asking ∧ ∀ request ∈ job, request ∈ s.served) := by
  refine LeadsTo.trans
    (Q := fun s => Q s ∨ (P s ∧ s.workers i = .working job (Request.prog db job))) ?_
    ((LeadsTo.of_imp fun s hq => .inl hq).or (leadsTo_asking hE hfair hi hkeep job _))
  apply leadsTo_next hE hfair hi (by simp)
  · exact fun s a s' hlive hp hs _ => (hkeep s a s' hlive hp hs).imp_right .inl
  · intro s a s' hlive _ hp hs hstep ha
    rcases hkeep s a s' hlive hp hstep with hp' | hq
    · exact .inr ⟨hp', countOut_of_actor hstep ha hs⟩
    · exact .inl hq

end Worker

/-! The way to the front of the queue. -/

/-- The request is in the queue, behind `k` others. -/
def AtPosition (request : Request) (k : ℕ) (s : ServerState) : Prop :=
  ∃ ahead behind, s.queue.Contents (ahead ++ request :: behind) ∧ ahead.length = k

/-- A worker has the request, or it is nearer to the front. -/
def Nearer (request : Request) (k : ℕ) (s : ServerState) : Prop :=
  (∃ i, s.workers i = .pulled (some request)) ∨ ∃ j, j < k ∧ AtPosition request j s

theorem nearer_of_pull {k : ℕ} (hp : AtPosition request k s) (hs : ServerStepped db s (.pull i) s') :
    Nearer request k s' := by
  obtain ⟨ahead, behind, hjobs, rfl⟩ := hp
  cases hs with
  | waits _ hi queue hpull =>
    rcases pullJob_cases hjobs hpull with ⟨hnil, -, -⟩ | ⟨job, rest, -, hne, -⟩
    · simp at hnil
    · cases hne
  | pulls _ hi job queue hpull =>
    rcases pullJob_cases hjobs hpull with ⟨hnil, -, -⟩ | ⟨job', rest, hrest, hjob, hc⟩
    · simp at hnil
    · cases hjob
      cases ahead with
      | nil =>
        obtain ⟨rfl, -⟩ := List.cons_eq_cons.1 hrest
        exact .inl ⟨i, setWorker_self _ _ _⟩
      | cons first ahead =>
        obtain ⟨rfl, rfl⟩ := List.cons_eq_cons.1 hrest
        exact .inr ⟨ahead.length, Nat.lt_succ_self _, ahead, behind, hc, rfl⟩

/-- Nothing but a pull moves a request in the queue. -/
theorem atPosition_step {k : ℕ} (hp : AtPosition request k s) (hs : ServerStepped db s a s') :
    AtPosition request k s' ∨ Nearer request k s' := by
  have hpulls := fun i (h : ServerStepped db s (.pull i) s') => nearer_of_pull hp h
  obtain ⟨ahead, behind, hjobs, hk⟩ := hp
  cases hs with
  | add r wakes other ret queue hr hadd hwakes =>
    rcases threadpoolAddJob_cases hjobs hadd with ⟨-, hc⟩ | ⟨-, -, rfl⟩
    · rw [List.append_assoc, List.cons_append] at hc
      exact .inl ⟨ahead, behind ++ [other], hc, hk⟩
    · exact .inl ⟨ahead, behind, hjobs, hk⟩
  | waits i hi queue hpull => exact .inr (hpulls i (.waits i hi queue hpull))
  | pulls i hi job queue hpull => exact .inr (hpulls i (.pulls i hi job queue hpull))
  | _ => exact .inl ⟨ahead, behind, hjobs, hk⟩

section Queue

variable (hE : Valid IsStart (serverRel db) E) (hfair : Fair db E)

include hE hfair

/-- A worker on its way to the queue takes the first job. -/
theorem leadsTo_nearer_of_asks {k : ℕ} {w : ServerWorker} (hw : w = .asking ∨ w = .signalled) :
    LeadsTo E (fun s => AtPosition request k s ∧ s.workers i = w) (Nearer request k) := by
  have hne : w ≠ .waiting := by
    rintro rfl
    simp at hw
  apply leadsTo_move hE hfair (I := fun _ => True) (fun _ => trivial) ?_ hne
  · exact fun s a s' _ hp hs _ => atPosition_step hp hs
  · rintro s a s' - - hp rfl hs ha
    obtain rfl := pull_of_actor hs ha hw
    exact nearer_of_pull hp hs
  · rintro s - rfl ⟨job, ⟨fault, hs⟩ | hs⟩
    · simp [hs] at hw
    · simp [hs] at hw

/-- One worker that does not fail is enough to bring a request nearer to the front. If it waits, a
worker that has been signalled does it. -/
theorem leadsTo_nearer {k : ℕ} (hi : Healthy E i) :
    LeadsTo E (AtPosition request k) (Nearer request k) := by
  have hasks : ∀ {j : Fin defaultNThreads} {w : ServerWorker}, w = .asking ∨ w = .signalled →
      LeadsTo E (fun s => AtPosition request k s ∧ s.workers j = w) (Nearer request k) :=
    fun hw => leadsTo_nearer_of_asks hE hfair hw
  have hasked : ∀ job : Option Request, LeadsTo E (fun s => Nearer request k s ∨
      (AtPosition request k s ∧ s.workers i = .asking ∧ ∀ other ∈ job, other ∈ s.served))
      (Nearer request k) :=
    fun job => (LeadsTo.of_imp fun _ h => h).or
      ((LeadsTo.of_imp fun _ h => ⟨h.1, h.2.1⟩).trans (hasks (.inl rfl)))
  have hkeep : ∀ s a s', s.Lively → AtPosition request k s → ServerStepped db s a s' →
      AtPosition request k s' ∨ Nearer request k s' := fun s a s' _ hp hs => atPosition_step hp hs
  intro n hp
  cases hw : (E.state n).workers i with
  | asking => exact hasks (.inl rfl) n ⟨hp, hw⟩
  | signalled => exact hasks (.inr rfl) n ⟨hp, hw⟩
  | exited job => exact absurd ⟨job, .inr hw⟩ (hi n)
  | pulled job =>
    exact (leadsTo_asking_of_pulled hE hfair hi hkeep job).trans (hasked job) n ⟨hp, hw⟩
  | working job p =>
    exact (leadsTo_asking hE hfair hi hkeep job p).trans (hasked job) n ⟨hp, hw⟩
  | waiting =>
    have hawake := (lively_always hE n).awake.signalled ⟨i, mem_waiting.2 hw⟩
    have ⟨ahead, behind, hjobs, _⟩ := hp
    have hpos : 0 < (E.state n).signalled.card := by
      rw [hjobs.len_eq, List.length_append, List.length_cons] at hawake
      omega
    obtain ⟨j, hj⟩ := Finset.card_pos.1 hpos
    exact hasks (.inr rfl) n ⟨hp, mem_signalled.1 hj⟩

end Queue

/-- The request is in the job queue. -/
def Queued (request : Request) (s : ServerState) : Prop :=
  ∃ jobs, s.queue.Contents jobs ∧ request ∈ jobs

theorem leadsTo_pulled (hE : Valid IsStart (serverRel db) E) (hfair : Fair db E)
    (hi : Healthy E i) (request : Request) :
    LeadsTo E (Queued request) fun s => ∃ i, s.workers i = .pulled (some request) := by
  have hposition : LeadsTo E (fun s => ∃ k, AtPosition request k s) fun s =>
      ∃ i, s.workers i = .pulled (some request) :=
    LeadsTo.exists (LeadsTo.of_descent fun k => leadsTo_nearer hE hfair hi)
  refine LeadsTo.trans (LeadsTo.of_imp ?_) hposition
  rintro s ⟨jobs, hjobs, hmem⟩
  obtain ⟨ahead, behind, rfl⟩ := List.append_of_mem hmem
  exact ⟨ahead.length, ahead, behind, hjobs, rfl⟩

/-- As long as the process lives and one worker is never lost, every job in the queue is taken by a
worker, whichever of the others are lost. -/
theorem queued_eventually_pulled (hE : Valid IsStart (serverRel db) E) (hfair : Fair db E)
    (hlives : ∀ n, ¬(E.state n).ProcessLost) (hstays : ∃ i, ∀ n, ¬(E.state n).ThreadLost i) {n : ℕ}
    (hqueued : Queued request (E.state n)) :
    ∃ m, n ≤ m ∧ ∃ i, (E.state m).workers i = .pulled (some request) := by
  obtain ⟨i, hi⟩ := hstays
  have hhealthy : Healthy E i := fun n hfailed => hfailed.lost.elim (hlives n) (hi n)
  exact leadsTo_pulled hE hfair hhealthy request n hqueued

/-! From the socket to the end. -/

/-- A responder keeps what it has taken from its socket until it adds the job. -/
theorem responder_step (hr : s.responders r = some request) (hs : ServerStepped db s a s') :
    s'.responders r = some request ∨ IsAdd r a := by
  cases hs with
  | receive args hfree =>
    have hne : r ≠ args.job.responder := by
      rintro rfl
      rw [hfree] at hr
      cases hr
    exact .inl ((Function.update_of_ne hne _ _).trans hr)
  | add r' wakes other ret queue hr' hadd hwakes =>
    by_cases hne : r = r'
    · exact .inr ⟨wakes, by rw [hne]⟩
    · exact .inl ((Function.update_of_ne hne _ _).trans hr)
  | _ => exact .inl hr

theorem queued_or_refused_of_add {wakes : Finset (Fin defaultNThreads)} (hlive : s.Lively)
    (hr : s.responders r = some request) (hs : ServerStepped db s (.add r wakes) s') :
    Queued request s' ∨ request ∈ s'.refused := by
  obtain ⟨jobs, hjobs⟩ := hlive.awake.contents
  cases hs with
  | add _ _ other ret queue hr' hadd hwakes =>
    rw [hr] at hr'
    cases hr'
    rcases threadpoolAddJob_cases hjobs hadd with ⟨-, hc⟩ | ⟨rfl, -, -⟩
    · exact .inl ⟨_, hc, by simp⟩
    · exact .inr (List.mem_append_right s.refused (List.mem_singleton_self request))

theorem canAdd_of (hlive : s.Lively) (hr : s.responders r = some request) : CanAdd db r s := by
  obtain ⟨jobs, hjobs⟩ := hlive.awake.contents
  obtain ⟨ret, queue, hadd, -⟩ := threadpoolAddJob_spec hjobs request
  refine ⟨s.waiting, ?_⟩
  simp only [serverStep, hr, hadd, Option.bind_some]
  exact Option.isSome_of_eq_some (signal_waiting _)

theorem taken_leadsTo_added (hE : Valid IsStart (serverRel db) E) (hfair : Fair db E) :
    LeadsTo E (fun s => s.responders r = some request) fun s =>
      Queued request s ∨ request ∈ s.refused := by
  apply hE.leadsTo (hfair.responders r) (lively_always hE)
  · exact fun s hlive hr => canAdd_of hlive hr
  · intro s a s' _ hr hs ha
    exact .inl ((responder_step hr (serverStepped_of_step hs)).resolve_right ha)
  · rintro s a s' hlive - hr hs ⟨wakes, rfl⟩
    exact queued_or_refused_of_add hlive hr (serverStepped_of_step hs)

/-- A worker that does not fail serves the job it has pulled. -/
theorem pulled_leadsTo_served (hE : Valid IsStart (serverRel db) E) (hfair : Fair db E)
    (hi : Healthy E i) :
    LeadsTo E (fun s => s.workers i = .pulled (some request)) fun s => request ∈ s.served := by
  have hkeep : ∀ s a s', s.Lively → True → ServerStepped db s a s' → True ∨ False :=
    fun _ _ _ _ _ _ => .inl trivial
  refine ((LeadsTo.of_imp fun _ h => ⟨trivial, h⟩).trans
    (leadsTo_asking_of_pulled hE hfair hi hkeep (some request))).trans (LeadsTo.of_imp ?_)
  rintro s (hfalse | ⟨-, -, hserved⟩)
  · exact hfalse.elim
  · exact hserved request rfl

theorem received_step (hs : ServerStepped db s a s') :
    s'.received = s.received ∨ ∃ args, s'.received = s.received ++ [args] ∧
      s'.responders args.job.responder = some ⟨s.received.length, args⟩ := by
  cases hs with
  | receive args hfree => exact .inr ⟨args, rfl, Function.update_self _ _ _⟩
  | _ => exact .inl rfl

/-- What a socket brought was once in the hands of its responder. -/
theorem exists_taken (hE : Valid IsStart (serverRel db) E) {n k : ℕ} {args : ResolvArgs}
    (hargs : (E.state n).received[k]? = some args) :
    ∃ m, (E.state m).responders args.job.responder = some ⟨k, args⟩ := by
  induction n with
  | zero =>
    obtain ⟨now, hstart⟩ := hE.start
    rw [hstart] at hargs
    cases hargs
  | succ n ih =>
    have hmoment := hE.moment n
    cases hevent : E.event n with
    | none =>
      rw [hevent] at hmoment
      generalize hnext : E.state (n + 1) = s' at hmoment
      cases hmoment with
      | idle => exact ih (hnext ▸ hargs)
    | some a =>
      rw [hevent] at hmoment
      rcases received_step (serverStepped_of_step hmoment.step) with hsame | ⟨args', hnew, hr⟩
      · exact ih (hsame ▸ hargs)
      · rw [hnew, List.getElem?_append] at hargs
        split at hargs
        · exact ih hargs
        · next hk =>
          obtain ⟨hzero, rfl⟩ := List.getElem?_eq_some_iff.1 hargs
          simp only [List.length_singleton] at hzero
          obtain rfl : k = (E.state n).received.length := by omega
          exact ⟨n + 1, by simpa using hr⟩

/-- If no job fails, everything that the sockets ever bring is served, unless its responder found
the queue full. -/
theorem received_eventually_served (hE : Valid IsStart (serverRel db) E) (hfair : Fair db E)
    (hhealthy : ∀ i, Healthy E i) {n k : ℕ} {args : ResolvArgs}
    (hargs : (E.state n).received[k]? = some args) :
    ∃ m, ⟨k, args⟩ ∈ (E.state m).served ∨ ⟨k, args⟩ ∈ (E.state m).refused := by
  obtain ⟨m, hm⟩ := exists_taken hE hargs
  obtain ⟨m₁, -, hqueued | hrefused⟩ := taken_leadsTo_added hE hfair m hm
  · obtain ⟨m₂, -, i, hi⟩ := leadsTo_pulled hE hfair (hhealthy firstWorker) _ m₁ hqueued
    obtain ⟨m₃, -, hserved⟩ := pulled_leadsTo_served hE hfair (hhealthy i) m₂ hi
    exact ⟨m₃, .inl hserved⟩
  · exact ⟨m₁, .inr hrefused⟩

/-! The sample run, which stays at its end for ever. -/

def statusExecution : ServerExecution :=
  Execution.play (serverStep (treeInit rrHash)) (ServerState.initial 0) statusPlan

def ServerWorker.hasFailed : ServerWorker → Bool
  | .working _ (.fail _) => true
  | .exited _ => true
  | _ => false

theorem statusExecution_valid : Valid IsStart (serverRel (treeInit rrHash)) statusExecution := by
  obtain ⟨t, ht, -⟩ := statusPlan_ends
  have hvalid := play_valid (Option.isSome_of_eq_some ht)
  exact ⟨⟨0, hvalid.start⟩, hvalid.moment⟩

theorem statusExecution_fair : Fair (treeInit rrHash) statusExecution := by
  obtain ⟨t, ht, hwaits, hresponders⟩ := statusPlan_ends
  refine ⟨fun i => play_fair ht ?_, fun r => play_fair ht ?_⟩
  · rintro ⟨a, ha, hmoves⟩
    cases a <;> simp_all [ServerAction.actor, serverStep]
  · rintro ⟨wakes, hadds⟩
    simp [serverStep, hresponders r] at hadds

theorem statusExecution_healthy (i : Fin defaultNThreads) : Healthy statusExecution i := by
  have hprefix : ∀ n < statusPlan.length, ∀ i,
      ((statusExecution.state n).workers i).hasFailed = false := by
    decide +kernel
  intro n hfailed
  have hall : ((statusExecution.state n).workers i).hasFailed = false := by
    rcases lt_or_ge n statusPlan.length with hn | hn
    · exact hprefix n hn i
    · obtain ⟨t, ht, hwaits, -⟩ := statusPlan_ends
      rw [statusExecution, play_state_of_le ht hn, hwaits i]
      rfl
  rcases hfailed with ⟨job, ⟨fault, hw⟩ | hw⟩
  · rw [hw] at hall
    cases hall
  · rw [hw] at hall
    cases hall

theorem received_eventually_served_status :
    (statusExecution.state 1).received[0]? = some statusArgs ∧
      ∃ m, ⟨0, statusArgs⟩ ∈ (statusExecution.state m).served ∨
        ⟨0, statusArgs⟩ ∈ (statusExecution.state m).refused :=
  ⟨rfl, received_eventually_served statusExecution_valid statusExecution_fair
    statusExecution_healthy (n := 1) rfl⟩

/-! A run that loses a worker: no socket can be had for its job, which ends the thread. -/

def secondWorker : Fin defaultNThreads := ⟨1, by decide⟩

def exitArgs : ResolvArgs := ⟨⟨0x7F000001, 5353⟩, 0, .udp 1 ⟨7, .socketFail⟩ statusRequest 12⟩

def exitPlan : List ServerAction :=
  [.receive exitArgs, .add .udp ∅, .pull firstWorker, .countOut firstWorker, .exit firstWorker,
    .receive statusArgs, .add .udp ∅, .pull secondWorker, .countOut secondWorker,
    .perform secondWorker, .send secondWorker, .countIn secondWorker ∅] ++
    (List.finRange defaultNThreads).tail.map .pull

def ServerWorker.hasExited : ServerWorker → Bool
  | .exited _ => true
  | _ => false

theorem exitPlan_ends : ∃ t, exitPlan.foldlM (serverStep (treeInit rrHash))
    (ServerState.initial 0) = some t ∧
      (∀ i, t.workers i = .waiting ∨ ∃ job, t.workers i = .exited job) ∧
      t.workers secondWorker = .waiting ∧ ∀ r, t.responders r = none := by
  have hplays : (exitPlan.foldlM (serverStep (treeInit rrHash)) (ServerState.initial 0)).map
      (fun t => (decide (∀ i, ((t.workers i).isWaiting || (t.workers i).hasExited) = true),
        (t.workers secondWorker).isWaiting, (t.responders .udp).isNone,
        (t.responders .tls).isNone)) = some (true, true, true, true) := by
    decide +kernel
  obtain ⟨t, ht, hfacts⟩ := Option.map_eq_some_iff.1 hplays
  obtain ⟨hends, hfacts⟩ := Prod.mk.inj hfacts
  obtain ⟨hsecond, hresponders⟩ := Prod.mk.inj hfacts
  obtain ⟨hudp, htls⟩ := Prod.mk.inj hresponders
  refine ⟨t, ht, fun i => ?_, ?_, fun r => ?_⟩
  · have hi := of_decide_eq_true hends i
    cases hw : t.workers i with
    | waiting => exact .inl rfl
    | exited job => exact .inr ⟨job, rfl⟩
    | _ =>
      rw [hw] at hi
      cases hi
  · exact mem_waiting.1 (Finset.mem_filter.2 ⟨Finset.mem_univ _, hsecond⟩)
  · cases r with
    | udp => exact Option.isNone_iff_eq_none.1 hudp
    | tls => exact Option.isNone_iff_eq_none.1 htls

def exitExecution : ServerExecution :=
  Execution.play (serverStep (treeInit rrHash)) (ServerState.initial 0) exitPlan

theorem exitExecution_valid : Valid IsStart (serverRel (treeInit rrHash)) exitExecution := by
  obtain ⟨t, ht, -⟩ := exitPlan_ends
  have hvalid := play_valid (Option.isSome_of_eq_some ht)
  exact ⟨⟨0, hvalid.start⟩, hvalid.moment⟩

theorem exitExecution_fair : Fair (treeInit rrHash) exitExecution := by
  obtain ⟨t, ht, hends, -, hresponders⟩ := exitPlan_ends
  refine ⟨fun i => play_fair ht ?_, fun r => play_fair ht ?_⟩
  · rintro ⟨a, ha, hmoves⟩
    rcases hends i with hw | ⟨job, hw⟩ <;>
      cases a <;> simp_all [ServerAction.actor, serverStep]
  · rintro ⟨wakes, hadds⟩
    simp [serverStep, hresponders r] at hadds

/-- A crash or an endless loop. -/
def ServerWorker.isStuck : ServerWorker → Bool
  | .working _ (.fail .exit) => false
  | .working _ (.fail _) => true
  | _ => false

theorem exitExecution_lives (n : ℕ) : ¬(exitExecution.state n).ProcessLost := by
  have hprefix : ∀ n < exitPlan.length, ∀ i, ((exitExecution.state n).workers i).isStuck = false := by
    decide +kernel
  have hall : ∀ i, ((exitExecution.state n).workers i).isStuck = false := by
    intro i
    rcases lt_or_ge n exitPlan.length with hn | hn
    · exact hprefix n hn i
    · obtain ⟨t, ht, hends, -⟩ := exitPlan_ends
      rw [exitExecution, play_state_of_le ht hn]
      rcases hends i with hw | ⟨job, hw⟩ <;> rw [hw] <;> rfl
  rintro ⟨i, job, hw | ⟨hw, -⟩⟩
  · have hi := hall i
    rw [hw] at hi
    cases hi
  · have hi := hall i
    rw [hw] at hi
    cases hi

theorem exitExecution_stays (n : ℕ) : ¬(exitExecution.state n).ThreadLost secondWorker := by
  have hprefix : ∀ n < exitPlan.length,
      ((exitExecution.state n).workers secondWorker).hasFailed = false := by decide +kernel
  have hall : ((exitExecution.state n).workers secondWorker).hasFailed = false := by
    rcases lt_or_ge n exitPlan.length with hn | hn
    · exact hprefix n hn
    · obtain ⟨t, ht, -, hwaits, -⟩ := exitPlan_ends
      rw [exitExecution, play_state_of_le ht hn, hwaits]
      rfl
  rintro ⟨job, hw | hw | ⟨hw, -⟩⟩ <;> rw [hw] at hall <;> cases hall

theorem exitExecution_queued : Queued ⟨1, statusArgs⟩ (exitExecution.state 7) := by
  have hlive := lively_always exitExecution_valid 6
  have hadd := (exitExecution_valid.moment 6).step
  have hr : (exitExecution.state 6).responders .udp = some ⟨1, statusArgs⟩ := rfl
  rcases queued_or_refused_of_add hlive hr (serverStepped_of_step hadd) with hqueued | hrefused
  · exact hqueued
  · have hnone : (exitExecution.state 7).refused = [] := rfl
    rw [hnone] at hrefused
    cases hrefused

/-- The first worker is gone; the second request still gets its worker. -/
theorem queued_eventually_pulled_status :
    (exitExecution.state 5).ThreadLost firstWorker ∧
      ∃ m, 7 ≤ m ∧ ∃ i, (exitExecution.state m).workers i = .pulled (some ⟨1, statusArgs⟩) := by
  refine ⟨⟨some ⟨0, exitArgs⟩, .inl rfl⟩, ?_⟩
  exact queued_eventually_pulled exitExecution_valid exitExecution_fair exitExecution_lives
    ⟨secondWorker, exitExecution_stays⟩ exitExecution_queued

end BakaDns
