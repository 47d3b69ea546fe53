import BakaDns.ResolvThreads

/-!
# How the resolver ends its thread

`send_question` calls `pthread_exit` when it gets no socket. Nothing else in a call of
`resolv_handle` does, so a call ends its thread exactly when it asks upstream without a socket.
-/

namespace BakaDns
open CBytes Threads

/-- A query for which `resolv_handle` calls `send_question`. -/
def AsksUpstream (now : ℕ) (db : BucketTree) (cache : RrCache) (query : Message) : Prop :=
  qrOf query.header.misc1 = qrReq ∧ ∃ st, lookupQuery now db cache query = .ok (st, .external)

section Parts

variable {db : BucketTree}

theorem crash_avoids_exit {α : Type} : Avoids Fault.exit (.error .crash : Except Fault α) :=
  avoids_error nofun

theorem orCrash_avoids {α : Type} (a : Option α) : Avoids .exit (orCrash a) := by
  cases a with
  | none => exact crash_avoids_exit
  | some a => exact avoids_ok a

theorem storeRecords_avoids (ansBuffer rrs : List ResourceRecord) :
    Avoids .exit (storeRecords ansBuffer rrs) := by
  unfold storeRecords
  split
  · exact crash_avoids_exit
  · exact avoids_ok _

theorem findBlocked_avoids (rrs : List ResourceRecord) : Avoids .exit (findBlocked rrs) := by
  induction rrs with
  | nil => exact avoids_ok _
  | cons rr rrs ih =>
    unfold findBlocked
    split
    · exact crash_avoids_exit
    · split
      · exact avoids_ok _
      · exact ih.bind fun i => avoids_ok _

theorem searchDatabase_avoids (question : MessageQuestion) (vars : AnswerVars) :
    Avoids .exit (searchDatabase db question vars) := by
  unfold searchDatabase
  refine (storeRecords_avoids _ _).bind fun ansBuffer => ?_
  split
  · refine (findBlocked_avoids _).bind fun blocked => ?_
    cases blocked with
    | none => exact avoids_ok _
    | some i => exact avoids_ok _
  · exact avoids_ok _

theorem findOpt_avoids (n : ℕ) (rrs : List (Option ResourceRecord)) :
    Avoids .exit (findOpt n rrs) := by
  induction n generalizing rrs with
  | zero => exact avoids_ok _
  | succ n ih =>
    match rrs with
    | [] => exact crash_avoids_exit
    | none :: rrs => exact crash_avoids_exit
    | some rr :: rrs =>
      unfold findOpt
      split
      · exact avoids_ok _
      · exact (ih rrs).bind fun i => avoids_ok _

theorem addOpt_avoids (req : Message) : Avoids .exit (addOpt req) := by
  unfold addOpt
  refine (findOpt_avoids _ _).bind fun i => ?_
  cases i with
  | some i => exact avoids_ok _
  | none =>
    dsimp only
    split
    · exact crash_avoids_exit
    · exact avoids_ok _

theorem sectionToU8_avoids {α : Type} {toU8 : α → Mem → ℤ → Except Fault (ℤ × Mem)}
    (h : ∀ x mem dest, Avoids .exit (toU8 x mem dest)) (n : ℕ) (xs : List (Option α)) (mem : Mem)
    (dest : ℤ) : Avoids .exit (sectionToU8 toU8 n xs mem dest) := by
  induction n generalizing xs mem dest with
  | zero => exact avoids_ok _
  | succ n ih =>
    match xs with
    | [] => exact avoids_ok _
    | none :: xs => exact avoids_ok _
    | some x :: xs => exact (h x mem dest).bind fun r => (ih _ _ _).bind fun _ => avoids_ok _

theorem msgQuestionToU8_avoids (q : MessageQuestion) (mem : Mem) (dest : ℤ) :
    Avoids .exit (msgQuestionToU8 q mem dest) := by
  unfold msgQuestionToU8
  split
  · exact crash_avoids_exit
  · split
    · exact avoids_ok _
    · exact avoids_ok _

theorem msgRrToU8_avoids (rr : ResourceRecord) (mem : Mem) (dest : ℤ) :
    Avoids .exit (msgRrToU8 rr mem dest) := by
  unfold msgRrToU8
  split
  · exact crash_avoids_exit
  · split
    · exact avoids_ok _
    · dsimp only
      split
      · exact avoids_ok _
      · split
        · exact crash_avoids_exit
        · exact avoids_ok _

theorem messageToU8_avoids (msg : Message) (mem : Mem) (dest : ℤ) :
    Avoids .exit (messageToU8 msg mem dest) := by
  have hq := fun n xs mem dest => sectionToU8_avoids msgQuestionToU8_avoids n xs mem dest
  have hrr := fun n xs mem dest => sectionToU8_avoids msgRrToU8_avoids n xs mem dest
  unfold messageToU8
  refine (hq _ _ _ _).bind ?_
  rintro ⟨valid, mem, qsize⟩
  dsimp only
  split
  · exact avoids_ok _
  refine (hrr _ _ _ _).bind ?_
  rintro ⟨valid, mem, ansize⟩
  dsimp only
  split
  · exact avoids_ok _
  refine (hrr _ _ _ _).bind ?_
  rintro ⟨valid, mem, nssize⟩
  dsimp only
  split
  · exact avoids_ok _
  refine (hrr _ _ _ _).bind ?_
  rintro ⟨valid, mem, arsize⟩
  dsimp only
  split
  · exact avoids_ok _
  · exact avoids_ok _

theorem receiveReply_avoids (fuel : ℕ) (x : Exchange) (oldId : UInt16) (resp : Message) :
    Avoids .exit (receiveReply fuel x oldId resp) := by
  unfold receiveReply
  split
  · split
    · exact avoids_error nofun
    · split
      · exact avoids_ok _
      · split
        · exact avoids_ok _
        · exact avoids_ok _
  · exact avoids_ok _

/-- `send_question` comes back whenever it gets a socket. -/
theorem sendQuestion_avoids {x : Exchange} (hx : x.outcome ≠ .socketFail) (fuel : ℕ)
    (req resp : Message) : Avoids .exit (sendQuestion fuel x req resp) := by
  unfold sendQuestion
  rw [if_neg hx]
  split
  · exact avoids_ok _
  · have hencode : Avoids .exit (encodeRequest x.newId req) :=
      (addOpt_avoids _).bind fun r => (messageToU8_avoids _ _ _).bind fun _ => avoids_ok _
    refine hencode.bind ?_
    rintro ⟨sentReq, n, buffer⟩
    dsimp only
    split
    · exact avoids_ok _
    · exact (receiveReply_avoids _ _ _ _).bind fun _ => avoids_ok _

theorem pasteQuestions_avoids (n : ℕ) (qs : List (Option MessageQuestion)) :
    Avoids .exit (pasteQuestions n qs) := by
  induction n generalizing qs with
  | zero => exact avoids_ok _
  | succ n ih =>
    match qs with
    | [] => exact crash_avoids_exit
    | none :: qs => exact crash_avoids_exit
    | some q :: qs =>
      unfold pasteQuestions
      split
      · exact crash_avoids_exit
      · exact (ih qs).bind fun _ => avoids_ok _

theorem completeAnswer_avoids (b : Built) : Avoids .exit (completeAnswer b) := by
  unfold completeAnswer
  split
  · unfold completeFound
    dsimp only
    split
    · exact crash_avoids_exit
    · exact (pasteQuestions_avoids _ _).bind fun _ => avoids_ok _
  · exact avoids_ok _
  · exact (pasteQuestions_avoids _ _).bind fun _ => avoids_ok _

/-- The steps that other threads see do not end the thread. -/
theorem exec_avoids (i : ℕ) (op : CacheOp) (s : Shared) : Avoids .exit (exec i op s) := by
  cases op with
  | find domain type rrclass => exact (orCrash_avoids _).bind fun _ => avoids_ok _
  | putBack rr => exact (orCrash_avoids _).bind fun _ => avoids_ok _
  | receive x => exact avoids_ok _
  | store rr => exact (orCrash_avoids _).bind fun _ => avoids_ok _
  | finish sendbuf p =>
    exact (completeAnswer_avoids _).bind fun _ => (messageToU8_avoids _ _ _).bind fun _ =>
      avoids_ok _

end Parts

/-! The program of a call. -/

section Program

variable {db : BucketTree}

theorem eachRecord_avoids {put : ResourceRecord → ResolvProg Unit}
    (hput : ∀ rr, (put rr).Avoids .exit) (rrs : List ResourceRecord) :
    (eachRecord put rrs).Avoids .exit := by
  induction rrs with
  | nil => trivial
  | cons rr rrs ih => exact (hput rr).bind fun _ => ih

theorem questionProg_avoids (question : MessageQuestion) (vars : AnswerVars) :
    (questionProg db question vars).Avoids .exit := by
  unfold questionProg
  refine (Prog.avoids_perform _).bind fun found => ?_
  refine (Prog.avoids_lift (storeRecords_avoids _ _)).bind fun ansBuffer => ?_
  split
  · exact (eachRecord_avoids (fun rr => Prog.avoids_perform _) _).bind fun _ => trivial
  · exact Prog.avoids_lift (searchDatabase_avoids _ _)

theorem questionsProg_avoids (n : ℕ) (qs : List (Option MessageQuestion)) (vars : AnswerVars) :
    (questionsProg db n qs vars).Avoids .exit := by
  induction n generalizing qs vars with
  | zero => trivial
  | succ n ih =>
    match qs with
    | [] => exact nofun
    | none :: qs => trivial
    | some q :: qs =>
      unfold questionsProg
      split
      · exact nofun
      · split
        · trivial
        · refine (questionProg_avoids q vars).bind fun r => ?_
          obtain ⟨vars', answered⟩ := r
          cases answered with
          | true => exact ih qs vars'
          | false => trivial

theorem queryProg_avoids (query : Message) : (queryProg db query).Avoids .exit := by
  unfold queryProg
  dsimp only
  split
  · trivial
  · exact questionsProg_avoids _ _ _

theorem replyProg_avoids (x : Exchange) (vars : AnswerVars) (r : SendResult) :
    (replyProg x vars r).Avoids .exit := by
  unfold replyProg
  split
  · trivial
  · refine (Prog.avoids_perform _).bind fun _ => ?_
    refine (Prog.avoids_lift (orCrash_avoids _)).bind fun answers => ?_
    exact (eachRecord_avoids (fun rr => Prog.avoids_perform _) _).bind fun _ => trivial

/-- With a socket for the exchange, no interleaving makes a call end its thread. -/
theorem resolvProg_avoids {x : Exchange} (hx : x.outcome ≠ .socketFail) (fuel : ℕ) (sendbuf : Mem)
    (query : Message) : (resolvProg fuel db x sendbuf query).Avoids .exit := by
  unfold resolvProg
  split
  · trivial
  · have hpending : (pendingProg fuel db x query).Avoids .exit := by
      refine (queryProg_avoids query).bind fun r => ?_
      obtain ⟨vars, fin⟩ := r
      cases fin with
      | external =>
        exact (Prog.avoids_lift (sendQuestion_avoids hx _ _ _)).bind fun _ => replyProg_avoids _ _ _
      | found => trivial
      | failure rcode => trivial
    exact hpending.bind fun p => Prog.avoids_perform _

end Program

/-! A call that runs alone. -/

section Alone

variable {now : ℕ} {db : BucketTree} {cache : RrCache} {query : Message}

theorem lookupQuery_avoids : Avoids .exit (lookupQuery now db cache query) := by
  have h := (@queryProg_implements 0 db query).avoids (queryProg_avoids query)
    (exec_avoids 0) ⟨now, cache, [], [], []⟩
  intro he
  apply h
  change (lookupQuery now db cache query).map _ = _
  rw [he]
  rfl

theorem resolvHandle_avoids {x : Exchange} (hx : x.outcome ≠ .socketFail) (fuel : ℕ)
    (sendbuf : Mem) : Avoids .exit (resolvHandle fuel now db x sendbuf cache query) := by
  have h := (@resolvProg_implements 0 db fuel x sendbuf query).avoids
    (resolvProg_avoids hx fuel sendbuf query) (exec_avoids 0) ⟨now, cache, [], [], []⟩
  intro he
  apply h
  change (resolvHandle fuel now db x sendbuf cache query).map _ = _
  rw [he]
  rfl

/-- With its answer built, a call only has to encode it. -/
theorem encodeAnswer_avoids {α : Type} (b : Built) (sendbuf : Mem) (f : Message → ℤ × Mem → α) :
    Avoids .exit (completeAnswer b >>= fun ans =>
      messageToU8 ans sendbuf 0 >>= fun r => (.ok (f ans r) : Except Fault α)) := by
  refine (completeAnswer_avoids b).bind fun ans => ?_
  refine (messageToU8_avoids ans sendbuf 0).bind fun r => ?_
  exact avoids_ok _

/-- A call ends its thread exactly when it asks upstream without getting a socket. -/
theorem resolvHandle_exit_iff (fuel : ℕ) (x : Exchange) (sendbuf : Mem) :
    resolvHandle fuel now db x sendbuf cache query = .error .exit ↔
      AsksUpstream now db cache query ∧ x.outcome = .socketFail := by
  constructor
  · intro h
    have hx : x.outcome = .socketFail := by
      by_contra hx
      exact resolvHandle_avoids hx fuel sendbuf h
    refine ⟨?_, hx⟩
    unfold resolvHandle at h
    split at h
    · cases h
    · next hqr =>
      rw [ne_eq, not_not] at hqr
      refine ⟨hqr, ?_⟩
      cases hl : lookupQuery now db cache query with
      | error e =>
        simp only [buildAnswer, hl, bind, Except.bind, Except.error.injEq] at h
        exact absurd (h ▸ hl) lookupQuery_avoids
      | ok r =>
        obtain ⟨st, fin⟩ := r
        cases fin with
        | external => exact ⟨st, rfl⟩
        | found =>
          simp only [buildAnswer, hl] at h
          exact absurd h (encodeAnswer_avoids _ _ _)
        | failure rcode =>
          simp only [buildAnswer, hl] at h
          exact absurd h (encodeAnswer_avoids _ _ _)
  · rintro ⟨⟨hqr, st, hl⟩, hx⟩
    unfold resolvHandle
    rw [if_neg (not_not.2 hqr)]
    simp only [buildAnswer, hl, bind, Except.bind, askExternal, sendQuestion, hx, if_true]

end Alone

end BakaDns
