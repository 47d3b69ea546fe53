import BakaDns.Lib.Ring

/-!
# The job queue of the thread pool

`struct jobqueue` and the sections of `threadpool_add_job` and `pull_job` that run under its
mutex. The queue is a ring of 128 pointers with three counters of one byte; over every
interleaving of the sections it is a bounded first-in first-out queue.
-/

namespace BakaDns
open Ring

def nThreadsMax : ℕ := 128

/-- `struct jobqueue` for jobs `J` behind non-null pointers; `none` is a null pointer. -/
structure JobQueue (J : Type) where
  queue : Vector (Option J) nThreadsMax
  len : UInt8
  front : UInt8
  back : UInt8

/-- `QINDEX_INC`. -/
def qindexInc (x : UInt8) : UInt8 := UInt8.ofNat ((x.toNat + 1) % nThreadsMax)

variable {J : Type}

def queueInit : JobQueue J where
  queue := Vector.replicate nThreadsMax none
  len := 0
  front := 0
  back := UInt8.ofNat (nThreadsMax - 1)

/-- `queue_push`. No result stands for a write outside the array. -/
def queuePush (q : JobQueue J) (job : J) : Option (ℤ × JobQueue J) :=
  if q.len.toNat ≥ nThreadsMax then some (-1, q)
  else
    let back := qindexInc q.back
    if h : back.toNat < nThreadsMax then
      some (1, { q with queue := q.queue.set back.toNat (some job), back, len := q.len + 1 })
    else none

/-- `queue_front`. No result stands for a read outside the array, `some none` for `NULL`. -/
def queueFront (q : JobQueue J) : Option (Option J) :=
  if q.len = 0 then some none else q.queue[q.front.toNat]?

def queuePop (q : JobQueue J) : JobQueue J :=
  if q.len = 0 then q else { q with front := qindexInc q.front, len := q.len - 1 }

/-- How a worker leaves the mutex: it waits on the condition variable, or returns a pointer. -/
inductive PullResult (J : Type)
  | waits
  | returns (job : Option J)
deriving DecidableEq

/-- `pull_job` from a moment at which the worker holds the mutex and tests the length. -/
def pullJob (q : JobQueue J) : Option (PullResult J × JobQueue J) :=
  if q.len = 0 then some (.waits, q)
  else if q.len ≠ 0 then (queueFront q).map fun job => (.returns job, queuePop q)
  else some (.returns none, q)

def threadpoolAddJob (q : JobQueue J) (job : J) : Option (ℤ × JobQueue J) := queuePush q job

/-- One section under the mutex, with the thread that runs it and what it returns. -/
inductive QueueEvent (J : Type)
  | add (producer : ℕ) (job : J) (ret : ℤ)
  | pull (worker : ℕ) (result : PullResult J)

/-- The jobs for which `threadpool_add_job` has returned 1. -/
def accepted : List (QueueEvent J) → List J
  | [] => []
  | .add _ job ret :: events => if ret = 1 then job :: accepted events else accepted events
  | .pull _ _ :: events => accepted events

/-- The pointers that `pull_job` has handed out. -/
def handedOut : List (QueueEvent J) → List (Option J)
  | [] => []
  | .pull _ (.returns job) :: events => job :: handedOut events
  | _ :: events => handedOut events

/-- The queue after `init_threadpool` and any interleaving of sections, in order. -/
inductive QueueRun : List (QueueEvent J) → JobQueue J → Prop
  | init : QueueRun [] queueInit
  | add {events : List (QueueEvent J)} {q q' : JobQueue J} {ret : ℤ} (producer : ℕ) (job : J)
      (h : QueueRun events q) (hq : threadpoolAddJob q job = some (ret, q')) :
      QueueRun (events ++ [.add producer job ret]) q'
  | pull {events : List (QueueEvent J)} {q q' : JobQueue J} {result : PullResult J} (worker : ℕ)
      (h : QueueRun events q) (hq : pullJob q = some (result, q')) :
      QueueRun (events ++ [.pull worker result]) q'

/-! The ring as a list of jobs. -/

section Contents

variable {q q' : JobQueue J} {jobs : List J} {job : J}

/-- The jobs in the queue, oldest first, with the counters where they belong. -/
structure JobQueue.Contents (q : JobQueue J) (jobs : List J) : Prop where
  len_eq : q.len.toNat = jobs.length
  len_le : jobs.length ≤ nThreadsMax
  front_lt : q.front.toNat < nThreadsMax
  back_eq : q.back.toNat = (q.front.toNat + jobs.length + (nThreadsMax - 1)) % nThreadsMax
  slots : window (fun i => q.queue[i]?) nThreadsMax q.front.toNat jobs.length =
    jobs.map fun job => some (some job)

theorem toNat_qindexInc (x : UInt8) : (qindexInc x).toNat = (x.toNat + 1) % nThreadsMax := by
  have h : (x.toNat + 1) % nThreadsMax < 2 ^ 8 :=
    lt_of_lt_of_le (Nat.mod_lt _ (by decide)) (by decide)
  exact UInt8.toNat_ofNat_of_lt h

theorem contents_queueInit : (queueInit : JobQueue J).Contents [] where
  len_eq := rfl
  len_le := Nat.zero_le _
  front_lt := Nat.zero_lt_succ _
  back_eq := rfl
  slots := rfl

theorem len_eq_zero_iff (h : q.Contents jobs) : q.len = 0 ↔ jobs = [] := by
  rw [← UInt8.toNat_inj, h.len_eq]
  exact List.length_eq_zero_iff

/-- A queue holds one list of jobs. -/
theorem JobQueue.Contents.unique {jobs' : List J} (h : q.Contents jobs) (h' : q.Contents jobs') :
    jobs = jobs' := by
  have hlength : jobs.length = jobs'.length := h.len_eq.symm.trans h'.len_eq
  have hslots := h.slots.symm.trans (hlength ▸ h'.slots)
  have hinjective : Function.Injective fun job : J => some (some job) :=
    fun _ _ hjob => Option.some.inj (Option.some.inj hjob)
  exact (List.map_injective_iff.2 hinjective) hslots

theorem set_slots (v : Vector (Option J) nThreadsMax) {i : ℕ} (hi : i < nThreadsMax)
    (x : Option J) :
    (fun j => (v.set i x)[j]?) = Function.update (fun j => v[j]?) i (some x) := by
  funext j
  by_cases hj : j = i
  · subst j
    simp [hi]
  · rw [Function.update_of_ne hj, Vector.getElem?_set_ne hi (Ne.symm hj)]

/-- A full queue refuses the job. -/
theorem queuePush_full (h : q.Contents jobs) (hfull : jobs.length = nThreadsMax) :
    queuePush q job = some (-1, q) := by
  unfold queuePush
  rw [if_pos]
  rw [h.len_eq, hfull]

/-- Any other queue takes it at the end. -/
theorem queuePush_accepts (h : q.Contents jobs) (hlt : jobs.length < nThreadsMax) (job : J) :
    ∃ q', queuePush q job = some (1, q') ∧ q'.Contents (jobs ++ [job]) := by
  have hback : (qindexInc q.back).toNat = (q.front.toNat + jobs.length) % nThreadsMax := by
    rw [toNat_qindexInc, h.back_eq, Nat.mod_add_mod]
    simp only [nThreadsMax]
    omega
  have hin : (qindexInc q.back).toNat < nThreadsMax := by
    rw [hback]
    exact Nat.mod_lt _ (by decide)
  have hlen : (q.len + 1).toNat = jobs.length + 1 := by
    have hn : jobs.length < 128 := hlt
    rw [UInt8.toNat_add, h.len_eq]
    exact Nat.mod_eq_of_lt (show jobs.length + 1 < 256 by omega)
  refine ⟨⟨q.queue.set _ (some job) hin, q.len + 1, q.front, qindexInc q.back⟩, ?_, ?_⟩
  · unfold queuePush
    rw [if_neg (by rw [h.len_eq]; omega)]
    exact dif_pos hin
  · constructor
    · simpa using hlen
    · simpa using hlt
    · exact h.front_lt
    · simp only [hback, List.length_append, List.length_singleton, nThreadsMax]
      omega
    · change window (fun i => (q.queue.set _ (some job) hin)[i]?) _ q.front.toNat _ = _
      rw [set_slots, hback, List.length_append, List.length_singleton, window_push _ hlt,
        h.slots, List.map_append, List.map_singleton]

/-- A worker that finds a job takes the oldest one. -/
theorem pullJob_cons (h : q.Contents (job :: jobs)) :
    ∃ q', pullJob q = some (.returns (some job), q') ∧ q'.Contents jobs := by
  have hne : q.len ≠ 0 := fun h0 => List.cons_ne_nil _ _ ((len_eq_zero_iff h).1 h0)
  have hslots := h.slots
  rw [List.length_cons, window_pop, List.map_cons] at hslots
  obtain ⟨hfirst, hrest⟩ := List.cons_eq_cons.1 hslots
  rw [Nat.mod_eq_of_lt h.front_lt] at hfirst
  have hlen : (q.len - 1).toNat = jobs.length := by
    have hl := h.len_eq
    rw [List.length_cons] at hl
    rw [UInt8.toNat_sub_of_le _ _ (UInt8.le_iff_toNat_le.2 (by rw [hl]; simp)), hl]
    simp
  refine ⟨queuePop q, ?_, ?_⟩
  · unfold pullJob queueFront
    rw [if_neg hne, if_pos hne, if_neg hne, hfirst]
    rfl
  · unfold queuePop
    rw [if_neg hne]
    constructor
    · exact hlen
    · exact (Nat.le_succ _).trans h.len_le
    · simp only [toNat_qindexInc]
      exact Nat.mod_lt _ (by decide)
    · have hb := h.back_eq
      simp only [toNat_qindexInc, List.length_cons, nThreadsMax] at hb ⊢
      omega
    · simpa only [toNat_qindexInc] using hrest

theorem pullJob_nil (h : q.Contents []) : pullJob q = some (.waits, q) := by
  unfold pullJob
  rw [if_pos ((len_eq_zero_iff h).2 rfl)]

/-- `threadpool_add_job` takes the job or leaves a full queue alone. -/
theorem threadpoolAddJob_cases (h : q.Contents jobs) {ret : ℤ}
    (hadd : threadpoolAddJob q job = some (ret, q')) :
    (ret = 1 ∧ q'.Contents (jobs ++ [job])) ∨
      (ret = -1 ∧ jobs.length = nThreadsMax ∧ q' = q) := by
  unfold threadpoolAddJob at hadd
  rcases h.len_le.eq_or_lt with hfull | hlt
  · rw [queuePush_full h hfull] at hadd
    cases hadd
    exact .inr ⟨rfl, hfull, rfl⟩
  · obtain ⟨q₁, hpush, hc⟩ := queuePush_accepts h hlt job
    rw [hpush] at hadd
    cases hadd
    exact .inl ⟨rfl, hc⟩

/-- `pull_job` waits for an empty queue and takes the oldest job of any other. -/
theorem pullJob_cases (h : q.Contents jobs) {result : PullResult J}
    (hpull : pullJob q = some (result, q')) :
    (jobs = [] ∧ result = .waits ∧ q' = q) ∨
      ∃ job rest, jobs = job :: rest ∧ result = .returns (some job) ∧ q'.Contents rest := by
  cases jobs with
  | nil =>
    rw [pullJob_nil h] at hpull
    cases hpull
    exact .inl ⟨rfl, rfl, rfl⟩
  | cons job rest =>
    obtain ⟨q₁, hpull', hc⟩ := pullJob_cons h
    rw [hpull'] at hpull
    cases hpull
    exact .inr ⟨job, rest, rfl, rfl, hc⟩

end Contents

/-! Whole runs. -/

section Runs

variable {q : JobQueue J} {events : List (QueueEvent J)}

theorem accepted_append (xs ys : List (QueueEvent J)) :
    accepted (xs ++ ys) = accepted xs ++ accepted ys := by
  induction xs with
  | nil => rfl
  | cons x xs ih =>
    cases x with
    | add producer job ret =>
      simp only [List.cons_append, accepted, ih]
      split <;> rfl
    | pull worker result => exact ih

theorem handedOut_append (xs ys : List (QueueEvent J)) :
    handedOut (xs ++ ys) = handedOut xs ++ handedOut ys := by
  induction xs with
  | nil => rfl
  | cons x xs ih =>
    cases x with
    | add producer job ret => exact ih
    | pull worker result =>
      cases result with
      | waits => exact ih
      | returns job => simp only [List.cons_append, handedOut, ih]

/-- The jobs accepted so far are those handed out followed by those in the queue. -/
theorem QueueRun.contents (h : QueueRun events q) :
    ∃ jobs, q.Contents jobs ∧ (accepted events).map some = handedOut events ++ jobs.map some := by
  induction h with
  | init => exact ⟨[], contents_queueInit, rfl⟩
  | @add events q q' ret producer job h hq ih =>
    obtain ⟨jobs, hc, hjobs⟩ := ih
    rw [accepted_append, handedOut_append, List.map_append, hjobs]
    rcases hc.len_le.eq_or_lt with hfull | hlt
    · obtain ⟨rfl, rfl⟩ : -1 = ret ∧ q = q' := by
        simpa [threadpoolAddJob, queuePush_full hc hfull] using hq
      exact ⟨jobs, hc, by simp [accepted, handedOut]⟩
    · obtain ⟨q₁, hpush, hc₁⟩ := queuePush_accepts hc hlt job
      obtain ⟨rfl, rfl⟩ : 1 = ret ∧ q₁ = q' := by
        simpa [threadpoolAddJob, hpush] using hq
      exact ⟨jobs ++ [job], hc₁, by simp [accepted, handedOut]⟩
  | @pull events q q' result worker h hq ih =>
    obtain ⟨jobs, hc, hjobs⟩ := ih
    rw [accepted_append, handedOut_append, List.map_append, hjobs]
    cases jobs with
    | nil =>
      obtain ⟨rfl, rfl⟩ : .waits = result ∧ q = q' := by simpa [pullJob_nil hc] using hq
      exact ⟨[], hc, by simp [accepted, handedOut]⟩
    | cons job jobs =>
      obtain ⟨q₁, hpull, hc₁⟩ := pullJob_cons hc
      obtain ⟨rfl, rfl⟩ : .returns (some job) = result ∧ q₁ = q' := by simpa [hpull] using hq
      exact ⟨jobs, hc₁, by simp [accepted, handedOut]⟩

/-- What a producer gets: -1 from a full queue, which stays as it is, and 1 from any other. -/
theorem threadpoolAddJob_spec {jobs : List J} (h : q.Contents jobs) (job : J) :
    ∃ ret q', threadpoolAddJob q job = some (ret, q') ∧ (ret = 1 ∨ ret = -1) ∧
      (ret = -1 ↔ jobs.length = nThreadsMax) ∧ (ret = -1 → q' = q) := by
  unfold threadpoolAddJob
  rcases h.len_le.eq_or_lt with hfull | hlt
  · exact ⟨-1, q, queuePush_full h hfull, .inr rfl, by simp [hfull], fun _ => rfl⟩
  · obtain ⟨q', hpush, -⟩ := queuePush_accepts h hlt job
    exact ⟨1, q', hpush, .inl rfl, by simp [hlt.ne], by simp⟩

/-- A worker waits or gets a job, never a null pointer. -/
theorem pullJob_spec {jobs : List J} (h : q.Contents jobs) :
    ∃ result q', pullJob q = some (result, q') ∧ result ≠ .returns none := by
  cases jobs with
  | nil => exact ⟨.waits, q, pullJob_nil h, by simp⟩
  | cons job jobs =>
    obtain ⟨q', hpull, -⟩ := pullJob_cons h
    exact ⟨_, q', hpull, by simp⟩

/-- Jobs leave the queue exactly once and in the order in which they were accepted, whichever
threads run the sections and in whichever order. -/
theorem jobQueue_fifo (events : List (QueueEvent J)) (q : JobQueue J) (h : QueueRun events q) :
    handedOut events <+: (accepted events).map some ∧
      (∀ worker, QueueEvent.pull worker (.returns none) ∉ events) ∧
      (q.len.toNat : ℤ) = (accepted events).length - (handedOut events).length ∧
      (q.back.toNat : ℤ) = ((q.front.toNat : ℤ) + q.len.toNat - 1) % 128 ∧
      (q.len.toNat ≤ 128 ∧ q.front.toNat < 128 ∧ q.back.toNat < 128) ∧
      (∀ job, ∃ ret q', threadpoolAddJob q job = some (ret, q') ∧ (ret = 1 ∨ ret = -1) ∧
        (ret = -1 ↔ ((accepted events).length : ℤ) - (handedOut events).length = 128) ∧
        (ret = -1 → q' = q)) ∧
      ∃ result q', pullJob q = some (result, q') ∧ result ≠ .returns none := by
  obtain ⟨jobs, hc, hjobs⟩ := h.contents
  have hcount := congrArg List.length hjobs
  simp only [List.length_map, List.length_append] at hcount
  have hlen := hc.len_eq
  have hback := hc.back_eq
  have hle := hc.len_le
  have hfront := hc.front_lt
  simp only [nThreadsMax] at hback hle hfront
  refine ⟨⟨_, hjobs.symm⟩, ?_, by omega, by omega, ⟨by omega, hfront, by omega⟩, ?_, ?_⟩
  · intro worker hmem
    have hnull : none ∈ handedOut events := by
      obtain ⟨pre, post, rfl⟩ := List.append_of_mem hmem
      simp [handedOut_append, handedOut]
    have hin : none ∈ (accepted events).map some := by
      rw [hjobs]
      exact List.mem_append_left _ hnull
    simp at hin
  · intro job
    obtain ⟨ret, q', hadd, hret, hiff, hsame⟩ := threadpoolAddJob_spec hc job
    refine ⟨ret, q', hadd, hret, ?_, hsame⟩
    rw [hiff]
    simp only [nThreadsMax]
    omega
  · exact pullJob_spec hc

/-- Two producers and a worker: the first job accepted is the first one handed out. -/
theorem jobQueue_fifo_sample :
    ∃ q : JobQueue ℕ, QueueRun [.add 0 7 1, .add 1 8 1, .pull 2 (.returns (some 7))] q ∧
      [some 7] <+: [7, 8].map some ∧ (q.len.toNat : ℤ) = 1 := by
  obtain ⟨q, h⟩ :
      ∃ q : JobQueue ℕ, QueueRun [.add 0 7 1, .add 1 8 1, .pull 2 (.returns (some 7))] q :=
    ⟨_, .pull 2 (.add 1 8 (.add 0 7 .init rfl) rfl) rfl⟩
  obtain ⟨hfifo, -, hlen, -⟩ := jobQueue_fifo _ q h
  exact ⟨q, h, hfifo, hlen⟩

end Runs

end BakaDns
