import BakaDns.CacheIntegrity
import BakaDns.Provenance
import BakaDns.ReplyIdentity

/-!
# Local names under interleaving

The database answers before the external server is asked, but the cache answers before the database.
As long as no accepted reply brings records for a question of the database, a query for such
questions gets the reply that a server with an empty cache would send, whatever other threads do.
-/

namespace BakaDns
open CBytes ReadTrace LinkedHeap Threads

/-- The database has records for every question of the query. -/
def AsksDatabase (db : BucketTree) (query : Message) : Prop :=
  opcodeOf query.header.misc1 = opcodeQuery ∧
    ∀ question, some question ∈ query.question → selectDatabase db question ≠ []

/-- The answers of the exchange are for nothing that the database has records for. -/
def KeepsOut (db : BucketTree) (x : Exchange) : Prop :=
  ∀ rr, IsAnswerOf x rr → ∀ question, selectDatabase db question ≠ [] →
    cacheFinds question.qname question.qtype question.qclass rr = false

/-- What is accepted keeps out of the database's names, and what is stored has a good name. -/
def CacheOp.IsOutside (db : BucketTree) : CacheOp → Prop
  | .store rr => domainLen rr.name ≠ none
  | .receive x => KeepsOut db x
  | _ => True

/-- The condition on a run: no worker takes in what is not outside. -/
def TakesOutside (db : BucketTree) (s : ServerState) (a : ServerAction) : Prop :=
  ∀ op ∈ s.opOf a, op.IsOutside db

variable {db : BucketTree} {x : Exchange} {query : Message} {job : Job}

/-! A query that the database answers. -/

section Query

variable {fuel : ℕ} {sendbuf : Mem} {p : Pending}

/-- The operation looks for a question of the database. -/
def CacheOp.FindsLocal (db : BucketTree) (op : CacheOp) : Prop :=
  ∃ question : MessageQuestion, selectDatabase db question ≠ [] ∧
    op = .find question.qname question.qtype question.qclass

theorem questionProg_eval (question : MessageQuestion) (vars : AnswerVars) :
    (questionProg db question vars).eval emptyResult =
      (storeRecords vars.ansBuffer []) >>= fun ansBuffer =>
        searchDatabase db question { vars with ansBuffer := ansBuffer } := by
  unfold questionProg
  rw [Prog.eval_bind]
  change (Prog.lift _ >>= _ : ResolvProg _).eval emptyResult = _
  rw [Prog.eval_bind, Prog.eval_lift]
  congr 1
  funext ansBuffer
  exact Prog.eval_lift _

theorem searchDatabase_answers {question : MessageQuestion} {vars : AnswerVars}
    (h : selectDatabase db question ≠ []) {r : AnswerVars × Bool}
    (hr : searchDatabase db question vars = .ok r) : r.2 = true := by
  unfold searchDatabase at hr
  obtain ⟨ansBuffer, -, hr⟩ := bind_eq_ok.1 hr
  rw [if_pos h] at hr
  obtain ⟨blocked, -, hr⟩ := bind_eq_ok.1 hr
  cases blocked <;> (cases hr; rfl)

theorem questionProg_within {question : MessageQuestion} (h : selectDatabase db question ≠ [])
    (vars : AnswerVars) :
    (questionProg db question vars).Within emptyResult (CacheOp.FindsLocal db) := by
  have hfind : (findRr question).Within emptyResult (CacheOp.FindsLocal db) :=
    ⟨⟨question, h, rfl⟩, trivial⟩
  refine hfind.bind fun found hfound => ?_
  cases hfound
  refine (Prog.within_lift _).bind fun ansBuffer _ => ?_
  exact Prog.within_lift _

/-- The question loop stays with the database to its end. -/
theorem questionsProg_local {n : ℕ} {questions : List (Option MessageQuestion)} {vars : AnswerVars}
    (h : ∀ question, some question ∈ questions → selectDatabase db question ≠ []) :
    (questionsProg db n questions vars).Within emptyResult (CacheOp.FindsLocal db) ∧
      ∀ r, (questionsProg db n questions vars).eval emptyResult = .ok r → r.2 ≠ .external := by
  induction n generalizing questions vars with
  | zero =>
    refine ⟨trivial, ?_⟩
    rintro r ⟨⟩
    simp
  | succ n ih =>
    match questions with
    | [] =>
      refine ⟨trivial, ?_⟩
      rintro r ⟨⟩
    | none :: questions =>
      refine ⟨trivial, ?_⟩
      rintro r ⟨⟩
      simp
    | some question :: questions =>
      have hlocal : selectDatabase db question ≠ [] := h question List.mem_cons_self
      have hrest : ∀ vars, _ := fun vars => @ih questions vars
        fun q hq => h q (List.mem_cons_of_mem _ hq)
      rw [questionsProg]
      by_cases hnull : question.qname = []
      · rw [if_pos hnull]
        refine ⟨trivial, ?_⟩
        rintro r ⟨⟩
      · rw [if_neg hnull]
        by_cases hlong : domainLen question.qname = none
        · rw [if_pos hlong]
          refine ⟨trivial, ?_⟩
          rintro r ⟨⟩
          simp
        · rw [if_neg hlong]
          have hanswered : ∀ r, (questionProg db question vars).eval emptyResult = .ok r →
              r.2 = true := by
            intro r hr
            rw [questionProg_eval] at hr
            obtain ⟨ansBuffer, -, hr⟩ := bind_eq_ok.1 hr
            exact searchDatabase_answers hlocal hr
          constructor
          · refine (questionProg_within hlocal vars).bind fun r hr => ?_
            obtain ⟨vars', answered⟩ := r
            obtain rfl : answered = true := hanswered _ hr
            exact (hrest vars').1
          · intro r hr
            rw [Prog.eval_bind] at hr
            obtain ⟨⟨vars', answered⟩, hquestion, hr⟩ := bind_eq_ok.1 hr
            obtain rfl : answered = true := hanswered _ hquestion
            exact (hrest vars').2 r hr

/-- The whole query. -/
theorem pendingProg_within (h : AsksDatabase db query) :
    (pendingProg fuel db x query).Within emptyResult (CacheOp.FindsLocal db) := by
  have hquery : queryProg db query =
      questionsProg db query.header.qdcount.toNat query.question
        ⟨List.replicate ancountMax ResourceRecord.zero, 0⟩ := by
    unfold queryProg
    rw [if_neg (not_not.2 h.1)]
  unfold pendingProg
  rw [hquery]
  obtain ⟨hwithin, hends⟩ := questionsProg_local h.2
  refine hwithin.bind fun r hr => ?_
  obtain ⟨vars, fin⟩ := r
  cases fin with
  | external => exact absurd rfl (hends _ hr)
  | found => trivial
  | failure rcode => trivial

end Query

/-! The contract of such runs. -/

section Contract

variable {accepted : Set Exchange}

/-- The program of any job, as far as provenance goes. -/
theorem resolvAnswerProg_sound (fuel : ℕ) (sendbuf : Mem) (query : Message) :
    Sound (resolvAnswerProg fuel db x sendbuf query) (fun _ _ => True) accepted := by
  unfold resolvAnswerProg
  split
  · exact sound_ret none
  · refine Prog.Safe.bind (pendingProg_sound fuel query) fun p w _ _ => ?_
    exact Prog.Safe.bind (finish_sound sendbuf p) fun _ _ _ _ => sound_ret _

theorem errorReply_sound (f : ℤ × Mem → Option (List UInt8)) :
    Sound (Prog.lift (messageToU8 (constructErrorResponse rcodeFormatError) (fun _ => 0) 0) >>=
      fun r => .ret (f r)) (fun _ _ => True) accepted :=
  Prog.Safe.bind (sound_lift _) fun _ _ _ _ => sound_ret _

theorem udpReplyProg_sound (fuel : ℕ) (rcvbuffer : List UInt8) (nrecv : ℤ) :
    Sound (udpReplyProg fuel db x rcvbuffer nrecv) (fun _ _ => True) accepted := by
  unfold udpReplyProg
  split
  · trivial
  · split
    · exact errorReply_sound _
    · exact Prog.Safe.bind (resolvAnswerProg_sound _ _ _) fun _ _ _ _ => sound_ret _

theorem sslBodyReplyProg_sound (fuel : ℕ) (recvbuf : List UInt8) :
    Sound (sslBodyReplyProg fuel db x recvbuf) (fun _ _ => True) accepted := by
  unfold sslBodyReplyProg
  split
  · trivial
  · split
    · exact errorReply_sound _
    · exact Prog.Safe.bind (resolvAnswerProg_sound _ _ _) fun _ _ _ _ => sound_ret _

theorem sslReplyProg_sound (fuel : ℕ) (session : TlsSession) :
    Sound (sslReplyProg fuel db x session) (fun _ _ => True) accepted := by
  unfold sslReplyProg
  split
  · exact sound_ret none
  · split
    · dsimp only
      split
      · trivial
      · split
        · exact sound_ret none
        · exact sslBodyReplyProg_sound fuel _
    · exact sound_ret none

theorem replyProg_sound (job : Job) :
    Sound (job.replyProg db) (fun _ _ => True) accepted := by
  cases job with
  | udp fuel x rcvbuffer nrecv => exact udpReplyProg_sound fuel rcvbuffer nrecv
  | tls fuel x session => exact sslReplyProg_sound fuel session

/-- An encoded answer can be encoded next to any cache. -/
theorem exec_finish {i : ℕ} {s : Shared} {sendbuf : Mem} {p : Pending} {r : Answered}
    (h : p.answered sendbuf (initCache 0) = some r) :
    ∃ s', exec i (.finish sendbuf p) s = .ok ((), s') := by
  unfold Pending.answered at h
  split at h
  · next msgsize mem hencoded =>
    obtain ⟨ans, hans, hencoded⟩ := bind_eq_ok.1 hencoded
    rw [completeAnswer_built p (initCache 0) s.cache] at hans
    simp only [exec, hans, hencoded, bind, Except.bind]
    exact ⟨_, rfl⟩
  · cases h

/-- The reply to a query for the database is the one of a server with an empty cache. -/
theorem handled_reply {reply : List UInt8} {p : Pending} {r : Answered}
    (hquery : job.query = some query) (hqr : qrOf query.header.misc1 = qrReq)
    (hlocal : AsksDatabase db query)
    (hp : (pendingProg job.fuel db job.exchange query).eval emptyResult = .ok p)
    (hr : p.answered (fun _ => 0) (initCache 0) = some r) (hreply : reply = job.written r)
    (now : ℕ) : (job.handled now db (initCache now)).reply = some reply := by
  set s₀ : Shared := ⟨now, initCache now, [], [], []⟩ with hs₀
  have hquiet : ∀ op, CacheOp.FindsLocal db op → exec 0 op s₀ = .ok (emptyResult op, s₀) := by
    rintro op ⟨question, -, rfl⟩
    have hfind := (initCache_rep now).find question.qname question.qtype question.qclass
    simp only [exec, hs₀, hfind, orCrash, bind, Except.bind]
    rfl
  have hpending : (pendingProg job.fuel db job.exchange query).run (exec 0) s₀ = .ok (p, s₀) := by
    rw [(pendingProg_within hlocal).run hquiet, hp]
    rfl
  obtain ⟨s', hfinish⟩ := exec_finish (i := 0) (s := s₀) hr
  have hanswer : (resolvAnswerProg job.fuel db job.exchange (fun _ => 0) query).run (exec 0) s₀ =
      .ok (some r, s') := by
    unfold resolvAnswerProg
    rw [if_neg (not_not.2 hqr), Prog.run_bind, hpending]
    change (finish (fun _ => 0) p >>= _ : ResolvProg _).run (exec 0) s₀ = _
    have hfinished : (finish (fun _ => 0) p).run (exec 0) s₀ = .ok ((), s') := by
      simp only [finish, Prog.perform, Prog.run, hfinish, bind, Except.bind]
    rw [Prog.run_bind, hfinished]
    change Except.ok (p.answered (fun _ => 0) (initCache 0), s') = _
    rw [hr]
  have hrun : (job.replyProg db).run (exec 0) s₀ = .ok (some reply, s') := by
    rw [replyProg_eq hquery, Prog.run_bind, hanswer, hreply]
    rfl
  exact reply_of_run hrun

/-- A local query gets the reply of a server with an empty cache. -/
def RepliesLocally (db : BucketTree) (request : Request) (reply : Option (List UInt8)) : Prop :=
  ∀ bytes query, reply = some bytes → request.args.job.query = some query →
    AsksDatabase db query → ∀ now,
      (request.args.job.handled now db (initCache now)).reply = some bytes

def localContract (db : BucketTree) : Contract (Set Exchange) where
  pre := CacheOp.pre
  post accepted op r := op.post accepted r ∧ (op.FindsLocal db → r = emptyResult op)
  Reply _ := RepliesLocally db
  mono _ h := h

theorem findsLocal_pre {op : CacheOp} (h : op.FindsLocal db) : op.pre accepted := by
  obtain ⟨question, -, rfl⟩ := h
  trivial

/-- What a call answers to a query for the database, if it answers. -/
theorem resolvAnswerProg_local (hlocal : AsksDatabase db query) (fuel : ℕ) (sendbuf : Mem) :
    (resolvAnswerProg fuel db x sendbuf query).Safe (localContract db).pre (localContract db).post
      (fun _ answer => ∀ r, answer = some r → qrOf query.header.misc1 = qrReq ∧
        ∃ p, (pendingProg fuel db x query).eval emptyResult = .ok p ∧
          p.answered sendbuf (initCache 0) = some r) accepted := by
  unfold resolvAnswerProg
  split
  · rintro _ - r ⟨⟩
  · next hqr =>
    have hpre : ∀ accepted (op : CacheOp), op.FindsLocal db → (localContract db).pre accepted op :=
      fun _ _ => findsLocal_pre
    have hpost : ∀ accepted (op : CacheOp) (r : op.Res), op.FindsLocal db →
        (localContract db).post accepted op r → r = emptyResult op :=
      fun _ _ _ hfinds h => h.2 hfinds
    refine ((pendingProg_within hlocal).safe hpre hpost accepted).bind fun p _ _ hp => ?_
    refine Prog.Safe.bind (Q := fun _ _ => True) ?_ fun _ _ _ _ => ?_
    · exact Prog.safe_perform (fun _ _ => trivial) fun _ _ _ _ _ _ => trivial
    · exact fun _ _ r hr => ⟨not_not.1 hqr, p, hp, hr⟩

/-- The program of any job, under the contract. -/
theorem localContract_job (request : Request) (accepted : Set Exchange) :
    (localContract db).Allows (some request) (request.args.job.replyProg db) accepted := by
  by_cases hlocal : ∃ query, request.args.job.query = some query ∧ AsksDatabase db query
  · obtain ⟨query, hquery, hlocal⟩ := hlocal
    unfold Contract.Allows
    rw [replyProg_eq hquery]
    refine (resolvAnswerProg_local hlocal _ _).bind fun answer _ _ hanswer => ?_
    rintro _ - other ⟨⟩ bytes query' hbytes hquery' - now
    obtain ⟨r, rfl, hwritten⟩ := Option.map_eq_some_iff.1 hbytes
    obtain ⟨hqr, p, hp, hr⟩ := hanswer r rfl
    exact handled_reply hquery hqr hlocal hp hr hwritten.symm now
  · refine ((replyProg_sound request.args.job).learn fun _ _ _ h => h.1).weaken ?_
    rintro _ reply - other ⟨⟩ bytes query - hquery hasks
    exact absurd ⟨query, hquery, hasks⟩ hlocal

/-- The cache has nothing for a question of the database. -/
theorem findRr_local {i : ℕ} {s s' : Shared} {op : CacheOp} {r : op.Res} (h : s.Sourced)
    (hout : ∀ x ∈ s.accepted, KeepsOut db x) (hlocal : op.FindsLocal db)
    (hexec : exec i op s = .ok (r, s')) : r = emptyResult op := by
  obtain ⟨question, hdb, rfl⟩ := hlocal
  obtain ⟨found, hfind, heq⟩ := bind_eq_ok.1 hexec
  cases heq
  obtain ⟨xs, hrep, hxs⟩ := h.entries
  have hfound := orCrash_eq_ok.1 hfind
  rw [hrep.find] at hfound
  have hfound := Option.some.inj hfound
  have hnone : (xs.map fun x => x.2.rr).filter
      (cacheFinds question.qname question.qtype question.qclass) = [] := by
    rw [List.filter_eq_nil_iff]
    intro e he
    obtain ⟨y, hy, rfl⟩ := List.mem_map.1 he
    obtain ⟨x, hx, rr, hrr, heq⟩ := hxs y hy
    rw [heq]
    exact Bool.eq_false_iff.1 (hout x hx rr hrr question hdb)
  rw [hnone] at hfound
  exact hfound.symm

/-- Only the return of `send_question` adds to what has been accepted. -/
theorem accepted_exec {i : ℕ} {s s' : Shared} {op : CacheOp} {r : op.Res}
    (hexec : exec i op s = .ok (r, s')) {x : Exchange} (hx : x ∈ s'.accepted) :
    x ∈ s.accepted ∨ op = .receive x := by
  cases executed_of_exec hexec with
  | found hfind => exact .inl hx
  | put hput => exact .inl hx
  | received y =>
    rcases List.mem_cons.1 hx with heq | hx
    · cases heq
      exact .inr rfl
    · exact .inl hx
  | stored hput =>
    rcases List.mem_cons.1 hx with heq | hx
    · cases heq
    · exact .inl hx
  | kept sendbuf p => exact .inl hx
  | released sendbuf p => exact .inl hx

/-- The clock and the refresh thread add nothing to what has been accepted. -/
theorem accepted_environment {s : Shared} {a : Action} {w : World} (h : s.Sourced)
    (ha : step db ⟨s, fun _ => .ret ()⟩ a = some w) :
    w.shared.Sourced ∧ w.shared.accepted = s.accepted := by
  have hstep := stepped_of_step ha
  have hgood : StoresGoodNames ⟨s, fun _ => .ret ()⟩ a := by
    intro op hop
    cases a <;> cases hop
  have hsourced := sourced_step ⟨h, fun _ => sound_ret ()⟩ hgood hstep
  refine ⟨hsourced.shared, ?_⟩
  cases hstep with
  | spawn i fuel x sendbuf query hi => rfl
  | perform i op k r shared hi hexec => cases hi
  | tick now hle => rfl
  | refresh cache hcache =>
    ext x
    exact List.mem_cons.trans (or_iff_right (fun heq => by cases heq))
  | reuse a name rdata heap ha hheap => rfl

theorem localContract_kept : (localContract db).Kept Shared.accepted
    (fun s => s.Sourced ∧ ∀ x ∈ s.accepted, KeepsOut db x) db (TakesOutside db) where
  initial now := ⟨(sourced_initial now).shared, fun x hx => by cases hx⟩
  job := localContract_job
  perform := by
    intro s i op r shared hok hop ⟨hsourced, hout⟩ hpre hexec
    have houtside := hok op hop
    have hname : op.NameIsGood := by
      cases op <;> first | exact houtside | trivial
    obtain ⟨hsourced', hle, hpost⟩ := hsourced.exec hpre hname hexec
    refine ⟨⟨hsourced', fun x hx => ?_⟩, hle, hpost, fun hlocal => ?_⟩
    · rcases accepted_exec hexec hx with hx | rfl
      · exact hout x hx
      · exact houtside
    · exact findRr_local hsourced hout hlocal hexec
  environment := by
    intro s a w hok ⟨hsourced, hout⟩ ha
    obtain ⟨hsourced', haccepted⟩ := accepted_environment hsourced ha
    exact ⟨⟨hsourced', haccepted ▸ hout⟩, haccepted.ge⟩

end Contract

/-- However the threads take turns, a query for local names gets the reply that it would get from a
server that has cached nothing. -/
theorem serverRun_repliesLocally {s : ServerState} {request : Request} {reply : List UInt8}
    (hrun : ServerRun db (TakesOutside db) s) (hsent : (request, reply) ∈ s.sent)
    (hquery : request.args.job.query = some query) (hlocal : AsksDatabase db query) (now : ℕ) :
    (request.args.job.handled now db (initCache now)).reply = some reply :=
  ((hrun.genuine localContract_kept).1.sent _ hsent).2 reply query rfl hquery hlocal now

/-- A request for a name of the sample relay file. -/
def relayRequest : List UInt8 :=
  [0, 9, 1, 0, 0, 1, 0, 0, 0, 0, 0, 0, 1, 97, 1, 98, 0, 0, 1, 0, 1]

def relayArgs : ResolvArgs := ⟨⟨0x7F000001, 5353⟩, 0, .udp 16 ⟨7, .recvFail⟩ relayRequest 21⟩

def relayPlan : List ServerAction :=
  [.receive relayArgs, .add .udp ∅, .pull firstWorker, .countOut firstWorker, .perform firstWorker,
    .perform firstWorker, .send firstWorker]

def CacheOp.takesNothing : CacheOp → Bool
  | .store _ | .receive _ => false
  | _ => true

def ServerState.takesNothing (s : ServerState) (a : ServerAction) : Bool :=
  (s.opOf a).all CacheOp.takesNothing

theorem takesOutside_of_nothing {s : ServerState} {a : ServerAction}
    (h : s.takesNothing a = true) : TakesOutside db s a := by
  intro op hop
  have hnothing : op.takesNothing = true := by
    have hall := h
    rw [ServerState.takesNothing, hop] at hall
    exact hall
  cases op with
  | store rr => cases hnothing
  | receive x => cases hnothing
  | find | putBack | finish => trivial

/-- The run of the plan, as far as it is asked about. -/
theorem relayPlan_sends : ∃ db s request reply query,
    insertAll domainLenMax (treeInit rrHash) sampleRelay = some db ∧
      ServerRun db (TakesOutside db) s ∧ (request, reply) ∈ s.sent ∧ reply.length = 59 ∧
        request.args.job.query = some query ∧ AsksDatabase db query := by
  have hrun : ((insertAll domainLenMax (treeInit rrHash) sampleRelay).bind fun db =>
      (relayPlan.foldlM (fun (s : ServerState) a => if s.takesNothing a then serverStep db s a
        else none) (ServerState.initial 0)).map fun (s : ServerState) => s.sent.map fun p =>
          (p.2.length, p.1.args.job.query.map fun query => (opcodeOf query.header.misc1,
            query.question.map fun q => q.map fun q => (selectDatabase db q).length))) =
      some [(59, some (opcodeQuery, [some 2]))] := by decide +kernel
  obtain ⟨db, hdb, hrun⟩ := Option.bind_eq_some_iff.1 hrun
  obtain ⟨s, hplay, hsent⟩ := Option.map_eq_some_iff.1 hrun
  obtain ⟨⟨request, reply⟩, hlist, hfacts⟩ := List.map_eq_singleton_iff.1 hsent
  obtain ⟨hlength, hquery⟩ := Prod.mk.inj hfacts
  obtain ⟨query, hquery, hasks⟩ := Option.map_eq_some_iff.1 hquery
  obtain ⟨hopcode, hquestions⟩ := Prod.mk.inj hasks
  refine ⟨db, s, request, reply, query, hdb, ?_, hlist ▸ List.mem_singleton_self _, hlength, hquery,
    hopcode, fun question hq => ?_⟩
  · exact (ServerRun.start 0).playChecked _ (fun _ _ h => takesOutside_of_nothing h) hplay
  · have hmem := List.mem_map_of_mem hq
      (f := fun q => Option.map (fun q => (selectDatabase db q).length) q)
    rw [hquestions, List.mem_singleton, Option.map_some, Option.some.injEq] at hmem
    rintro hnil
    rw [hnil] at hmem
    cases hmem

theorem serverRun_repliesLocally_sample : ∃ db s request reply,
    insertAll domainLenMax (treeInit rrHash) sampleRelay = some db ∧
      ServerRun db (TakesOutside db) s ∧ (request, reply) ∈ s.sent ∧ reply.length = 59 ∧
        (request.args.job.handled 5 db (initCache 5)).reply = some reply := by
  obtain ⟨db, s, request, reply, query, hdb, hrun, hsent, hlength, hquery, hasks⟩ := relayPlan_sends
  exact ⟨db, s, request, reply, hdb, hrun, hsent, hlength,
    serverRun_repliesLocally hrun hsent hquery hasks 5⟩

end BakaDns
