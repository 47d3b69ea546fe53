import BakaDns.CacheIntegrity
import BakaDns.CacheRefinement
import BakaDns.JobQueries
import BakaDns.ServerProgress
import BakaDns.ServerReplies

/-!
# The moment of a reply

A call of `resolv_handle` goes to the cache several times, and other threads go there in between.
For a client that asks one question it makes no difference: the reply is the one that the handler
would have sent without interruption at some moment after the request came in and before the reply
went out.
-/

namespace BakaDns
open CBytes ReadTrace Threads Progress

/-! A job with one question looks into the cache once. -/

section Looks

variable {db : BucketTree} {fuel : ℕ} {x : Exchange} {query : Message} {vars : AnswerVars}

theorem eachRecord_blind {put : ResourceRecord → ResolvProg Unit}
    (hput : ∀ rr, (put rr).Within emptyResult CacheOp.IsBlind) (rrs : List ResourceRecord) :
    (eachRecord put rrs).Within emptyResult CacheOp.IsBlind := by
  induction rrs with
  | nil => trivial
  | cons rr rrs ih => exact (hput rr).bind fun _ _ => ih

theorem putBackAll_blind (rrs : List ResourceRecord) :
    (putBackAll rrs).Within emptyResult CacheOp.IsBlind := by
  refine eachRecord_blind (fun rr => ?_) rrs
  exact ⟨trivial, trivial⟩

theorem storeAll_blind (rrs : List ResourceRecord) :
    (storeAll rrs).Within emptyResult CacheOp.IsBlind := by
  refine eachRecord_blind (fun rr => ?_) rrs
  exact ⟨trivial, trivial⟩

theorem questionProg_looks (question : MessageQuestion) :
    (questionProg db question vars).LooksOnce emptyResult CacheOp.IsBlind := by
  refine .look fun found => ?_
  refine (Prog.within_lift (storeRecords vars.ansBuffer found)).bind fun ansBuffer _ => ?_
  split
  · exact (putBackAll_blind found).bind fun _ _ => trivial
  · exact Prog.within_lift _

theorem questionsProg_looks {n : ℕ} {questions : List (Option MessageQuestion)} (hn : n ≤ 1) :
    (questionsProg db n questions vars).LooksOnce emptyResult CacheOp.IsBlind := by
  match n, questions with
  | 0, questions => exact .blind trivial
  | 1, [] => exact .blind trivial
  | 1, none :: questions => exact .blind trivial
  | 1, some question :: questions =>
    rw [questionsProg]
    split
    · exact .blind trivial
    · split
      · exact .blind trivial
      · refine (questionProg_looks question).bind fun r => ?_
        obtain ⟨vars', answered⟩ := r
        cases answered with
        | true => trivial
        | false => trivial

theorem externalProg_blind (vars : AnswerVars) :
    (externalProg fuel x query vars).Within emptyResult CacheOp.IsBlind := by
  refine (Prog.within_lift _).bind fun r _ => ?_
  unfold replyProg
  split
  · trivial
  · refine Prog.Within.bind ⟨trivial, trivial⟩ fun _ _ => ?_
    refine (Prog.within_lift _).bind fun answers _ => ?_
    exact (storeAll_blind answers).bind fun _ _ => trivial

/-- At most one question for the cache and the database. -/
def AsksOnce (query : Message) : Prop :=
  opcodeOf query.header.misc1 = opcodeQuery → query.header.qdcount.toNat ≤ 1

theorem queryProg_looks (h : AsksOnce query) :
    (queryProg db query).LooksOnce emptyResult CacheOp.IsBlind := by
  unfold queryProg
  dsimp only
  split
  · exact .blind trivial
  · next hopcode => exact questionsProg_looks (h (not_not.1 hopcode))

theorem resolvAnswerProg_looks (h : AsksOnce query) (sendbuf : Mem) :
    (resolvAnswerProg fuel db x sendbuf query).LooksOnce emptyResult CacheOp.IsBlind := by
  unfold resolvAnswerProg
  split
  · exact .blind trivial
  · have hpending : (pendingProg fuel db x query).LooksOnce emptyResult CacheOp.IsBlind := by
      refine (queryProg_looks h).bind fun r => ?_
      obtain ⟨vars, fin⟩ := r
      cases fin with
      | external => exact externalProg_blind vars
      | found => trivial
      | failure rcode => trivial
    exact hpending.bind fun p => ⟨trivial, trivial⟩

/-- A packet that could not be decoded is answered without the cache. -/
theorem errorReply_blind (f : ℤ × Mem → Option (List UInt8)) :
    (Prog.lift (messageToU8 (constructErrorResponse rcodeFormatError) (fun _ => 0) 0) >>=
      fun r => .ret (f r) : ResolvProg _).Within emptyResult CacheOp.IsBlind :=
  (Prog.within_lift _).bind fun _ _ => trivial

theorem udpReplyProg_blind {rcvbuffer : List UInt8} {nrecv : ℤ}
    (h : decodedQuery (fun ret => ret < -1) fuel rcvbuffer (asUint32 nrecv) = none) :
    (udpReplyProg fuel db x rcvbuffer nrecv).Within emptyResult CacheOp.IsBlind := by
  unfold udpReplyProg
  rcases decodedQuery_eq_none h with hres | ⟨ret, msgrcv, hres, hret⟩
  · rw [hres]
    trivial
  · rw [hres]
    dsimp only
    rw [if_pos (of_decide_eq_true hret)]
    exact errorReply_blind _

theorem sslReplyProg_blind {session : TlsSession}
    (h : (session.body fuel).bind (fun recvbuf =>
      decodedQuery (fun ret => ret < 0) fuel recvbuf recvbuf.length) = none) :
    (sslReplyProg fuel db x session).Within emptyResult CacheOp.IsBlind := by
  cases hbody : session.body fuel with
  | none =>
    rcases body_eq_none hbody x with hret | ⟨fault, hfail⟩
    · rw [hret]
      trivial
    · rw [hfail]
      trivial
  | some recvbuf =>
    rw [hbody] at h
    rw [body_eq_some hbody]
    unfold sslBodyReplyProg
    rcases decodedQuery_eq_none h with hres | ⟨ret, msgrcv, hres, hret⟩
    · rw [hres]
      trivial
    · rw [hres]
      dsimp only
      rw [if_pos (of_decide_eq_true hret)]
      exact errorReply_blind _

/-- A job without a query does not look at all. -/
theorem replyProg_blind {job : Job} (h : job.query = none) :
    (job.replyProg db).Within emptyResult CacheOp.IsBlind := by
  cases job with
  | udp fuel x rcvbuffer nrecv => exact udpReplyProg_blind h
  | tls fuel x session => exact sslReplyProg_blind h

theorem replyProg_looks {job : Job} (h : ∀ query, job.query = some query → AsksOnce query) :
    (job.replyProg db).LooksOnce emptyResult CacheOp.IsBlind := by
  cases hquery : job.query with
  | none => exact .blind (replyProg_blind hquery)
  | some query =>
    rw [replyProg_eq hquery]
    exact (resolvAnswerProg_looks (h query hquery) _).bind fun _ => trivial

end Looks

/-! The states of an execution. -/

section Moments

variable {db : BucketTree} {E : ServerExecution} {m n : ℕ} {request : Request}

theorem chained_always (hE : Valid IsStart (serverRel db) E) (n : ℕ) :
    (E.state n).shared.Chained := by
  refine hE.invariant (I := fun s => s.shared.Chained) ?_ (fun s a s' h hs => ?_) n
  · rintro _ ⟨now, rfl⟩
    exact chained_initial now
  · rcases (serverStepped_of_step hs).shared_cases with
      hsame | ⟨i, op, r, -, -, hexec⟩ | ⟨a, w, -, ha, hw⟩
    · rwa [hsame]
    · exact h.exec hexec
    · rw [hw]
      exact h.environment ha

theorem serverRun_always (hE : Valid IsStart (serverRel db) E) (n : ℕ) :
    ServerRun db (fun _ _ => True) (E.state n) := by
  refine hE.invariant ?_ (fun s a s' h hs => h.step trivial hs) n
  rintro _ ⟨now, rfl⟩
  exact .start now

theorem received_later (hE : Valid IsStart (serverRel db) E) (h : (E.state m).IsReceived request)
    (hle : m ≤ n) : (E.state n).IsReceived request := by
  induction n, hle using Nat.le_induction with
  | base => exact h
  | succ n hle ih =>
    rcases (hE.moment n).idle_or_act with hsame | ⟨a, hs⟩
    · rwa [hsame]
    · exact isReceived_mono ih (serverStepped_of_step hs).before

/-- The handler, if it ran alone at moment `m`. -/
def ServerState.handles (s : ServerState) (db : BucketTree) (request : Request) :
    Option (List UInt8) :=
  (request.args.job.handled s.shared.now db s.shared.cache).reply

def Request.AsksOnce (request : Request) : Prop :=
  ∀ query, request.args.job.query = some query → BakaDns.AsksOnce query

/-- The contract of an execution: what an operation returned is what it returns at that moment. -/
def momentContract (db : BucketTree) (E : ServerExecution) : Contract ℕ where
  pre _ _ := True
  post n op r := ∃ m i, m + 1 = n ∧ exec i op (E.state m).shared = .ok (r, (E.state n).shared)
  Reply n request reply := request.AsksOnce → ∃ m < n, (E.state m).IsReceived request ∧
    ∃ s, (request.args.job.replyProg db).run (exec 0) (E.state m).shared = .ok (reply, s)
  mono hle h hone := by
    obtain ⟨m, hm, hreply⟩ := h hone
    exact ⟨m, hm.trans_le hle, hreply⟩

theorem momentContract_job (hE : Valid IsStart (serverRel db) E)
    (hreceived : (E.state n).IsReceived request) :
    (momentContract db E).Allows (some request) (request.args.job.replyProg db) (n + 1) := by
  by_cases hone : request.AsksOnce
  · have hreplay : (request.args.job.replyProg db).Safe (momentContract db E).pre
        (momentContract db E).post (fun k reply => ∃ s s', (∃ m, n ≤ m ∧ m < k ∧
          s = (E.state m).shared) ∧ (request.args.job.replyProg db).run (exec 0) s =
            .ok (reply, s')) (n + 1) := by
      apply (replyProg_looks hone).replay fun _ _ => trivial
      · rintro k op r hblind ⟨m, i, -, hexec⟩
        refine ⟨hblind.eq_empty r, fun s hs => ?_⟩
        exact exec_blind hblind hexec hs
      · rintro k op r hle ⟨m, i, rfl, hexec⟩
        obtain ⟨s', hexec', hs'⟩ := exec_other (j := 0) hexec (chained_always hE m)
        exact ⟨(E.state m).shared, s', ⟨m, by omega, m.lt_succ_self, rfl⟩, hexec', hs'⟩
      · exact ⟨(E.state n).shared, ⟨n, le_rfl, n.lt_succ_self, rfl⟩, chained_always hE n⟩
      · rintro k k' s hle ⟨m, hnm, hmk, rfl⟩
        exact ⟨m, hnm, hmk.trans_le hle, rfl⟩
    refine hreplay.weaken fun k reply hreply other hother _ => ?_
    cases hother
    obtain ⟨s, s', ⟨m, hnm, hmk, rfl⟩, hrun⟩ := hreply
    exact ⟨m, hmk, received_later hE hreceived hnm, s', hrun⟩
  · have hfree := Prog.safe_canReturn (request.args.job.replyProg db) (n + 1)
    refine (hfree.learn fun _ _ _ _ => trivial).weaken fun k reply _ other hother hone' => ?_
    cases hother
    exact absurd hone' hone

theorem genuine_always (hE : Valid IsStart (serverRel db) E) (n : ℕ) :
    (E.state n).Genuine (momentContract db E) n := by
  induction n with
  | zero =>
    obtain ⟨now, hstart⟩ := hE.start
    rw [hstart]
    exact genuine_initial 0 now
  | succ n ih =>
    rcases (hE.moment n).idle_or_act with hsame | ⟨a, hs⟩
    · rw [hsame]
      exact ih.mono n.le_succ
    · refine ih.step n.le_succ (fun request h => momentContract_job hE h) ?_
        (serverStepped_of_step hs)
      intro i op r _ _ hexec
      exact ⟨n, i, rfl, hexec⟩

/-- What has been sent stays. -/
theorem sent_later (hE : Valid IsStart (serverRel db) E) {p : Request × List UInt8}
    (h : p ∈ (E.state m).sent) (hle : m ≤ n) : p ∈ (E.state n).sent := by
  induction n, hle using Nat.le_induction with
  | base => exact h
  | succ n hle ih =>
    rcases (hE.moment n).idle_or_act with hsame | ⟨a, hs⟩
    · rwa [hsame]
    · exact (serverStepped_of_step hs).before.sent.subset ih

/-- The first moment at which a request has its reply. -/
theorem exists_replied {reply : List UInt8} (hE : Valid IsStart (serverRel db) E)
    (hsent : (request, reply) ∈ (E.state n).sent) :
    ∃ k ≤ n, (request, reply) ∈ (E.state k).sent ∧ ∀ m < k, ¬ (E.state m).HasReply request := by
  classical
  have hreplied : ∃ k, (E.state k).HasReply request := ⟨n, reply, hsent⟩
  obtain ⟨reply', hreply'⟩ := Nat.find_spec hreplied
  have hle : Nat.find hreplied ≤ n := Nat.find_min' hreplied ⟨reply, hsent⟩
  have hnodup := nodup_sent (serverRun_always hE n)
  have hsame : (request, reply') = (request, reply) :=
    List.inj_on_of_nodup_map hnodup (sent_later hE hreply' hle) hsent rfl
  cases hsame
  exact ⟨_, hle, hreply', fun m hm => Nat.find_min hreplied hm⟩

/-- The reply to one question is what the job returns alone, in a state between the request and the
reply. -/
theorem exists_run {reply : List UInt8} (hE : Valid IsStart (serverRel db) E)
    (hsent : (request, reply) ∈ (E.state n).sent) (hone : request.AsksOnce) :
    ∃ m < n, (E.state m).IsReceived request ∧ ¬ (E.state m).HasReply request ∧
      ∃ s, (request.args.job.replyProg db).run (exec 0) (E.state m).shared =
        .ok (some reply, s) := by
  obtain ⟨k, hk, hreplied, hfirst⟩ := exists_replied hE hsent
  obtain ⟨m, hm, hreceived, hrun⟩ := ((genuine_always hE k).sent _ hreplied).2 hone
  exact ⟨m, hm.trans_le hk, hreceived, hfirst m hm, hrun⟩

/-- However the threads take turns, the reply to a client that asks one question is the one that the
handler would have sent, had it run alone at some moment after the request came in and before it was
answered. -/
theorem serverReply_moment {reply : List UInt8} (hE : Valid IsStart (serverRel db) E)
    (hsent : (request, reply) ∈ (E.state n).sent) (hone : request.AsksOnce) :
    ∃ m < n, (E.state m).IsReceived request ∧ ¬ (E.state m).HasReply request ∧
      (E.state m).handles db request = some reply := by
  obtain ⟨m, hm, hreceived, hfirst, s, hrun⟩ := exists_run hE hsent hone
  exact ⟨m, hm, hreceived, hfirst, reply_of_run hrun⟩

/-- A request for `a`, which is sent on; the clock moves on while the reply is awaited. -/
def momentPlan : List ServerAction :=
  [.receive shortArgs, .add .udp ∅, .pull firstWorker, .countOut firstWorker, .perform firstWorker,
    .environment (.tick 5), .perform firstWorker, .perform firstWorker, .perform firstWorker,
    .send firstWorker]

/-- What that request decodes to. -/
def shortQuery : Message :=
  ⟨⟨9, 1, 0, 1, 0, 0, 0⟩, [some ⟨[1, 97, 0], rrtypeA, rrclassIn⟩], [], [], []⟩

theorem shortQuery_isQuery : IsQuery shortQuery [⟨[1, 97, 0], rrtypeA, rrclassIn⟩] :=
  ⟨by decide, by decide, rfl, rfl⟩

theorem momentPlan_sends : ∃ E n request reply,
    Valid IsStart (serverRel (treeInit rrHash)) E ∧ (request, reply) ∈ (E.state n).sent ∧
      reply.length = 29 ∧ request.args.job.query = some shortQuery := by
  have hplay : (momentPlan.foldlM (serverStep (treeInit rrHash)) (ServerState.initial 0)).map
      (fun (s : ServerState) => s.sent.map fun p => (p.2.length, p.1.args.job.query)) =
      some [(29, some shortQuery)] := by decide +kernel
  obtain ⟨s, hs, hsent⟩ := Option.map_eq_some_iff.1 hplay
  obtain ⟨⟨request, reply⟩, hlist, hfacts⟩ := List.map_eq_singleton_iff.1 hsent
  obtain ⟨hlength, hquery⟩ := Prod.mk.inj hfacts
  have hvalid := play_valid (Option.isSome_of_eq_some hs)
  refine ⟨Execution.play (serverStep (treeInit rrHash)) (ServerState.initial 0) momentPlan,
    momentPlan.length, request, reply, ⟨⟨0, hvalid.start⟩, hvalid.moment⟩, ?_, hlength, hquery⟩
  rw [play_state_of_le hs le_rfl, hlist]
  exact List.mem_singleton_self _

theorem serverReply_moment_short : ∃ E n request reply,
    Valid IsStart (serverRel (treeInit rrHash)) E ∧ (request, reply) ∈ (E.state n).sent ∧
      reply.length = 29 ∧ ∃ m < n, (E.state m).IsReceived request ∧
        ¬ (E.state m).HasReply request ∧
          (E.state m).handles (treeInit rrHash) request = some reply := by
  obtain ⟨E, n, request, reply, hE, hsent, hlength, hquery⟩ := momentPlan_sends
  refine ⟨E, n, request, reply, hE, hsent, hlength, serverReply_moment hE hsent ?_⟩
  intro query' hquery' _
  cases hquery.symm.trans hquery'
  exact shortQuery_isQuery.qdcount.le

end Moments

end BakaDns
