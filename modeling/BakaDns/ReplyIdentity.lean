import BakaDns.ResolvIdentity
import BakaDns.JobQueries
import BakaDns.ServerReplies

/-!
# Whose reply it is

A reply of the running server next to the request it answers. Whatever other threads do to the cache
in the meantime, a call of `resolv_handle` ends with an answer that has the id of its own query, so
long as the external server keeps to it.
-/

namespace BakaDns
open CBytes ReadTrace Threads

variable {db : BucketTree} {job : Job} {query : Message}

/-! Whatever the cache does. -/

section AnyInterleaving

variable {fuel : ℕ} {x : Exchange} {p : Pending}

/-- What is left of a call has the id of its query, unless the query was sent and the reply was for
another one. -/
theorem pending_identifies (h : (pendingProg fuel db x query).CanReturn p)
    (hkeeps : Sendable x.newId query → KeepsIdentity x query.header.id) :
    p.ans.Identifies query.header.id := by
  unfold pendingProg at h
  obtain ⟨⟨vars, fin⟩, -, h⟩ := Prog.canReturn_bind_iff.1 h
  have hexternal : (externalProg fuel x query vars).CanReturn p →
      p.ans.Identifies query.header.id := by
    intro h
    obtain ⟨r, hsend, h⟩ := Prog.canReturn_bind_iff.1 h
    have hid := (sendQuestion_identifies (initialAnswer_identifies query)
      (Prog.canReturn_lift_iff.1 hsend)).2 hkeeps
    unfold replyProg at h
    split at h
    · cases Prog.canReturn_ret_iff.1 h
      exact hid
    · obtain ⟨-, -, h⟩ := Prog.canReturn_bind_iff.1 h
      obtain ⟨answers, -, h⟩ := Prog.canReturn_bind_iff.1 h
      obtain ⟨-, -, h⟩ := Prog.canReturn_bind_iff.1 h
      cases Prog.canReturn_ret_iff.1 h
      exact hid
  cases fin with
  | external => exact hexternal h
  | found =>
    cases Prog.canReturn_ret_iff.1 h
    exact initialAnswer_identifies query
  | failure rcode =>
    cases Prog.canReturn_ret_iff.1 h
    exact initialAnswer_identifies query

end AnyInterleaving

/-- The bytes are what the job makes of an encoded answer with the id of the query. -/
def Job.AnswersWith (job : Job) (query : Message) (reply : List UInt8) : Prop :=
  ∃ ans msgsize sendbuf, messageToU8 ans (fun _ => 0) 0 = .ok (msgsize, sendbuf) ∧ 0 ≤ msgsize ∧
    ans.Identifies query.header.id ∧ reply = job.written ⟨sendbuf, msgsize⟩

theorem answersWith_of_canReturn {reply : List UInt8} (hquery : job.query = some query)
    (hkeeps : Sendable job.exchange.newId query → KeepsIdentity job.exchange query.header.id)
    (h : (job.replyProg db).CanReturn (some reply)) : job.AnswersWith query reply := by
  rw [replyProg_eq hquery] at h
  obtain ⟨answer, hanswer, h⟩ := Prog.canReturn_bind_iff.1 h
  obtain ⟨r, rfl, hreply⟩ := Option.map_eq_some_iff.1 (Prog.canReturn_ret_iff.1 h).symm
  unfold resolvAnswerProg at hanswer
  split at hanswer
  · cases Prog.canReturn_ret_iff.1 hanswer
  · obtain ⟨p, hp, hanswer⟩ := Prog.canReturn_bind_iff.1 hanswer
    obtain ⟨-, -, hanswer⟩ := Prog.canReturn_bind_iff.1 hanswer
    have hanswered := (Prog.canReturn_ret_iff.1 hanswer).symm
    unfold Pending.answered at hanswered
    split at hanswered
    · next msgsize sendbuf hencoded =>
      obtain ⟨ans, hans, hencoded⟩ := bind_eq_ok.1 hencoded
      split at hanswered
      · cases hanswered
      · next hpos =>
        cases hanswered
        have hid := (completeAnswer_identifies hans _).2 (pending_identifies hp hkeeps)
        exact ⟨ans, msgsize, sendbuf, hencoded, Int.not_lt.1 hpos, hid, hreply.symm⟩
    · cases hanswered

/-- However the threads take turns, a client gets an answer with the id of its own query, if the
external server, where it is asked, answers with the id that it was sent. -/
theorem serverRun_identifies {ok : ServerState → ServerAction → Prop} {s : ServerState}
    {request : Request} {reply : List UInt8} (hrun : ServerRun db ok s)
    (hsent : (request, reply) ∈ s.sent) (hquery : request.args.job.query = some query)
    (hkeeps : Sendable request.args.job.exchange.newId query →
      KeepsIdentity request.args.job.exchange query.header.id) :
    request.args.job.AnswersWith query reply :=
  answersWith_of_canReturn hquery hkeeps ((hrun.genuine freeContract_kept).1.sent _ hsent).2

theorem serverRun_identifies_status : ∃ s request reply query,
    ServerRun (treeInit rrHash) (fun _ _ => True) s ∧ (request, reply) ∈ s.sent ∧
      query.header.id = 7 ∧ request.args.job.AnswersWith query reply := by
  obtain ⟨s, hplays, -⟩ := statusPlan_ends
  have hsent : (statusPlan.foldlM (serverStep (treeInit rrHash)) (ServerState.initial 0)).map
      (fun s => s.sent.map fun p =>
        (p.1.args.job.query.map fun query => query.header.id, p.1.args.job.exchange)) =
      some [(some 7, ⟨7, .recvFail⟩)] := by decide +kernel
  rw [hplays] at hsent
  obtain ⟨⟨request, reply⟩, hlist, hfacts⟩ := List.map_eq_singleton_iff.1 (Option.some.inj hsent)
  obtain ⟨hquery, hexchange⟩ := Prod.mk.inj hfacts
  obtain ⟨query, hquery, hid⟩ := Option.map_eq_some_iff.1 hquery
  have hkeeps : KeepsIdentity request.args.job.exchange query.header.id := by
    change request.args.job.exchange = _ at hexchange
    rw [hexchange]
    trivial
  have hmem : (request, reply) ∈ s.sent := hlist ▸ List.mem_singleton_self _
  have hrun : ServerRun (treeInit rrHash) (fun _ _ => True) s :=
    ServerRun.play (fun _ _ => trivial) (.start 0) hplays
  exact ⟨s, request, reply, query, hrun, hmem, hid,
    serverRun_identifies hrun hmem hquery fun _ => hkeeps⟩

end BakaDns
