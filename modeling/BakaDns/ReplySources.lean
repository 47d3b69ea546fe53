import BakaDns.LocalMatches
import BakaDns.ReplyMoments

/-!
# Where a reply comes from

The reply to a query with one question, in any execution of the server: the records that the cache
or the database had at one moment or, when neither had any, the message that the external server
sent, under the id of the query.
-/

namespace BakaDns
open CBytes ReadTrace LinkedHeap Threads Progress

/-- The answer to a query with the question `q`, next to what is cached. -/
inductive AnswerSource (cached : List ResourceRecord) (db : BucketTree) (fuel : ℕ) (x : Exchange)
    (query : Message) (q : MessageQuestion) (ans : Message) : Prop
  | served (hlocal : ¬ Forwards cached db query)
      (hanswer : ans.answer = (servedRecords cached db q).map some)
      (hcount : ans.header.ancount.toNat = (servedRecords cached db q).length)
      (hothers : ans.header.nscount = 0 ∧ ans.header.arcount = 0)
  | relayed (hforwards : Forwards cached db query) (b : List UInt8) (m : Message)
      (hx : x.outcome = .datagram b)
      (hdecodes : (messageFromBuf fuel (b.take clientBufferSize) (b.take clientBufferSize).length
        Message.zero).result = some (1, m))
      (hid : m.header.id = x.newId) (hans : ans = m.setId query.header.id)
  | empty (hforwards : Forwards cached db query)
      (hcounts : ans.header.ancount = 0 ∧ ans.header.nscount = 0 ∧ ans.header.arcount = 0)

section Sources

variable {cache : RrCache} {xs : List (Addr × CacheEntry)} {db : BucketTree} {fuel now : ℕ}
  {x : Exchange} {query ans : Message} {q : MessageQuestion} {sendbuf : Mem} {r : ResolvResult}
  {st : LookupState}

/-- A question that is left open counts no records. -/
theorem ansCnt_of_open {st' : LookupState} (h : lookupQuestion now db q st = .ok (st', false)) :
    st'.ansCnt = st.ansCnt := by
  obtain ⟨found, -, h⟩ := bind_eq_ok.1 h
  obtain ⟨ansBuffer, -, h⟩ := bind_eq_ok.1 h
  split at h
  · obtain ⟨cache', -, h⟩ := bind_eq_ok.1 h
    cases h
  · obtain ⟨ansBuffer', -, h⟩ := bind_eq_ok.1 h
    split at h
    · obtain ⟨blocked, -, h⟩ := bind_eq_ok.1 h
      cases blocked <;> cases h
    · cases h
      rfl

theorem ansCnt_of_external (hquery : IsQuery query [q])
    (h : lookupQuery now db cache query = .ok (st, .external)) : st.ansCnt = 0 := by
  rw [lookupQuery, if_neg (not_not.2 hquery.opcode), hquery.question, hquery.qdcount,
    List.length_singleton, List.map_singleton, lookupLoop] at h
  split at h
  · cases h
  · split at h
    · cases h
    · obtain ⟨⟨st', answered⟩, hquestion, h⟩ := bind_eq_ok.1 h
      cases answered with
      | true => cases h
      | false =>
        cases h
        exact ansCnt_of_open hquestion

theorem askExternal_source {b : Built} (hcnt : st.ansCnt = 0)
    (h : askExternal fuel now x query st = .ok b) (hans : completeAnswer b = .ok ans) :
    (ans.header.ancount = 0 ∧ ans.header.nscount = 0 ∧ ans.header.arcount = 0) ∨
      ∃ bytes m, x.outcome = .datagram bytes ∧
        (messageFromBuf fuel (bytes.take clientBufferSize) (bytes.take clientBufferSize).length
          Message.zero).result = some (1, m) ∧ m.header.id = x.newId ∧
            ans = m.setId query.header.id := by
  obtain ⟨sent, hsend, h⟩ := bind_eq_ok.1 h
  split at h
  · cases h
    rw [completeAnswer, completeFound, hcnt] at hans
    obtain ⟨question, -, hans⟩ := bind_eq_ok.1 hans
    cases hans
    exact .inl ⟨rfl, rfl, rfl⟩
  · next hret =>
    obtain ⟨bytes, m, hx, hdecodes, hid, hresp⟩ := sendQuestion_accepted rfl hsend hret
    obtain ⟨answers, -, h⟩ := bind_eq_ok.1 h
    obtain ⟨cache', -, h⟩ := bind_eq_ok.1 h
    cases h
    cases hans
    exact .inr ⟨bytes, m, hx, hdecodes, hid, hresp⟩

theorem completeAnswer_others {b : Built} (h : completeAnswer b = .ok ans)
    (hb : b.ans.header.nscount = 0 ∧ b.ans.header.arcount = 0) :
    ans.header.nscount = 0 ∧ ans.header.arcount = 0 := by
  unfold completeAnswer at h
  split at h
  · rw [completeFound] at h
    split at h
    · cases h
    · obtain ⟨question, -, h⟩ := bind_eq_ok.1 h
      cases h
      exact hb
  · cases h
    exact hb
  · rw [completeFailure] at h
    obtain ⟨question, -, h⟩ := bind_eq_ok.1 h
    cases h
    exact ⟨rfl, rfl⟩

/-- An answer that is put together here has nothing behind its answer section. -/
theorem resolvHandle_others (hrep : CacheRep cache xs) (hqr : qrOf query.header.misc1 = qrReq)
    (hlocal : ¬ Forwards (recordsOf xs) db query)
    (h : resolvHandle fuel now db x sendbuf cache query = .ok r) (hans : r.answer = some ans) :
    ans.header.nscount = 0 ∧ ans.header.arcount = 0 := by
  rw [resolvHandle, if_neg (not_not.2 hqr)] at h
  obtain ⟨b, hbuild, h⟩ := bind_eq_ok.1 h
  obtain ⟨ans', hcomplete, h⟩ := bind_eq_ok.1 h
  obtain ⟨w, -, h⟩ := bind_eq_ok.1 h
  cases h
  cases hans
  refine completeAnswer_others hcomplete ?_
  obtain ⟨⟨st, fin⟩, hlookup, hbuild⟩ := bind_eq_ok.1 hbuild
  cases fin with
  | external => exact absurd ((lookupQuery_ok hrep hlookup).2.1 rfl) hlocal
  | found =>
    cases hbuild
    exact ⟨rfl, rfl⟩
  | failure rcode =>
    cases hbuild
    exact ⟨rfl, rfl⟩

theorem resolvHandle_source (hrep : CacheRep cache xs) (hquery : IsQuery query [q])
    (h : resolvHandle fuel now db x sendbuf cache query = .ok r) (hans : r.answer = some ans) :
    AnswerSource (recordsOf xs) db fuel x query q ans := by
  by_cases hforwards : Forwards (recordsOf xs) db query
  · rw [resolvHandle, if_neg (not_not.2 hquery.qr)] at h
    obtain ⟨b, hbuild, h⟩ := bind_eq_ok.1 h
    obtain ⟨ans', hcomplete, h⟩ := bind_eq_ok.1 h
    obtain ⟨w, -, h⟩ := bind_eq_ok.1 h
    cases h
    cases hans
    obtain ⟨⟨st, fin⟩, hlookup, hbuild⟩ := bind_eq_ok.1 hbuild
    obtain rfl := (lookupQuery_ok hrep hlookup).2.2 hforwards
    have hcnt := ansCnt_of_external hquery hlookup
    rcases askExternal_source hcnt hbuild hcomplete with hcounts | ⟨b, m, hx, hdecodes, hid, heq⟩
    · exact .empty hforwards hcounts
    · exact .relayed hforwards b m hx hdecodes hid heq
  · obtain ⟨hanswer, hcount⟩ := resolvHandle_served hrep hquery hforwards h hans
    have hothers := resolvHandle_others hrep hquery.qr hforwards h hans
    exact .served hforwards hanswer hcount hothers

end Sources

/-- The bytes are what the job makes of the encoded answer. -/
def Job.Wraps (job : Job) (ans : Message) (reply : List UInt8) : Prop :=
  ∃ n sendbuf, messageToU8 ans (fun _ => 0) 0 = .ok (n, sendbuf) ∧ 0 ≤ n ∧
    reply = job.written ⟨sendbuf, n⟩

/-- A job that runs alone and returns a reply has called `resolv_handle`. -/
theorem resolvHandle_of_run {db : BucketTree} {job : Job} {query : Message} {s s' : Shared}
    {reply : List UInt8} (hquery : job.query = some query)
    (hrun : (job.replyProg db).run (exec 0) s = .ok (some reply, s')) :
    ∃ r ans, resolvHandle job.fuel s.now db job.exchange (fun _ => 0) s.cache query = .ok r ∧
      r.answer = some ans ∧ job.Wraps ans reply := by
  rw [replyProg_eq hquery, Prog.run_bind] at hrun
  obtain ⟨⟨answer, s₁⟩, hanswer, hrun⟩ := bind_eq_ok.1 hrun
  have hreply : answer.map job.written = some reply := (Prod.mk.inj (Except.ok.inj hrun)).1
  obtain ⟨answered, rfl, hwritten⟩ := Option.map_eq_some_iff.1 hreply
  have himplements : ((resolvAnswerProg job.fuel db job.exchange (fun _ => 0) query).run (exec 0)
      s).map (fun out => (out.1, out.2.view)) =
        (resolvHandle job.fuel s.now db job.exchange (fun _ => 0) s.cache query).map fun r =>
          (r.answered, (s.now, r.cache)) := resolvAnswerProg_implements _ _ _ _ s
  rw [hanswer] at himplements
  cases hr : resolvHandle job.fuel s.now db job.exchange (fun _ => 0) s.cache query with
  | error fault =>
    rw [hr] at himplements
    cases himplements
  | ok r =>
    rw [hr] at himplements
    obtain ⟨hanswered, -⟩ := Prod.mk.inj (Except.ok.inj himplements)
    have hret : 0 ≤ r.ret := by
      by_contra hneg
      rw [ResolvResult.answered, if_pos (Int.not_le.1 hneg)] at hanswered
      cases hanswered
    obtain ⟨ans, n, hans, hn, hencode⟩ := resolvHandle_encoded hr hret
    rw [ResolvResult.answered, if_neg (Int.not_lt.2 hret), Option.some.injEq] at hanswered
    subst hanswered
    exact ⟨r, ans, rfl, hans, n, r.sendbuf, hencode, Int.natCast_nonneg n, hn ▸ hwritten.symm⟩

/-- However the threads take turns, the reply to a client that asks one question has its records
from the cache or the database as they were at one moment or, when they had none at that moment, is
what the external server sent. -/
theorem serverReply_source {db : BucketTree} {E : ServerExecution} {n : ℕ} {request : Request}
    {reply : List UInt8} {query : Message} {q : MessageQuestion}
    (hE : Valid IsStart (serverRel db) E) (hsent : (request, reply) ∈ (E.state n).sent)
    (hjob : request.args.job.query = some query) (hquery : IsQuery query [q]) :
    ∃ m < n, ∃ xs ans, (E.state m).IsReceived request ∧ ¬ (E.state m).HasReply request ∧
      CacheRep (E.state m).shared.cache xs ∧
        AnswerSource (recordsOf xs) db request.args.job.fuel request.args.job.exchange query q ans ∧
          request.args.job.Wraps ans reply := by
  have hone : request.AsksOnce := by
    intro query' hjob' _
    cases hjob.symm.trans hjob'
    exact hquery.qdcount.le
  obtain ⟨m, hm, hreceived, hfirst, s, hrun⟩ := exists_run hE hsent hone
  obtain ⟨r, ans, hr, hans, hwraps⟩ := resolvHandle_of_run hjob hrun
  obtain ⟨xs, hrep⟩ := chained_always hE m
  exact ⟨m, hm, xs, ans, hreceived, hfirst, hrep, resolvHandle_source hrep hquery hr hans, hwraps⟩

theorem serverReply_source_short : ∃ E n request reply,
    Valid IsStart (serverRel (treeInit rrHash)) E ∧ (request, reply) ∈ (E.state n).sent ∧
      reply.length = 29 ∧ ∃ m < n, ∃ xs ans, (E.state m).IsReceived request ∧
        ¬ (E.state m).HasReply request ∧ CacheRep (E.state m).shared.cache xs ∧
          AnswerSource (recordsOf xs) (treeInit rrHash) request.args.job.fuel
            request.args.job.exchange shortQuery ⟨[1, 97, 0], rrtypeA, rrclassIn⟩ ans ∧
              request.args.job.Wraps ans reply := by
  obtain ⟨E, n, request, reply, hE, hsent, hlength, hjob⟩ := momentPlan_sends
  exact ⟨E, n, request, reply, hE, hsent, hlength,
    serverReply_source hE hsent hjob shortQuery_isQuery⟩

end BakaDns
