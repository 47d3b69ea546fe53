import BakaDns.ServerContracts

/-!
# Every request once

No request is lost or doubled on its way through the server, and at most one reply is sent for it,
which is one that its own job can have.
-/

namespace BakaDns
open Threads

variable {db : BucketTree} {ok : ServerState → ServerAction → Prop} {s : ServerState}
  {request : Request}

/-- The job of a request can end with this reply, or with none. -/
def Request.CanReply (db : BucketTree) (request : Request) (reply : Option (List UInt8)) : Prop :=
  (request.args.job.replyProg db).CanReturn reply

/-- The contract that every job keeps. -/
def freeContract (db : BucketTree) : Contract Unit where
  pre _ _ := True
  post _ _ _ := True
  Reply _ := Request.CanReply db
  mono _ h := h

theorem freeContract_kept : (freeContract db).Kept (fun _ => ()) (fun _ => True) db ok where
  initial _ := trivial
  job request _ :=
    (Prog.safe_canReturn (request.args.job.replyProg db) ()).weaken fun _ reply h other hother => by
      cases hother
      exact h
  perform _ _ _ _ _ := ⟨trivial, le_rfl, trivial⟩
  environment _ _ _ := ⟨trivial, le_rfl⟩

theorem mem_mapIdx_received :
    request ∈ s.received.mapIdx Request.mk ↔ s.IsReceived request := by
  rw [List.mem_mapIdx]
  constructor
  · rintro ⟨i, hi, rfl⟩
    exact List.getElem?_eq_getElem hi
  · intro h
    obtain ⟨hi, hargs⟩ := List.getElem?_eq_some_iff.1 h
    exact ⟨request.number, hi, by rw [hargs]⟩

theorem nodup_mapIdx_received (received : List ResolvArgs) :
    (received.mapIdx Request.mk).Nodup := by
  have hnumbers : (received.mapIdx Request.mk).map Request.number = List.range received.length := by
    apply List.ext_getElem
    · simp
    · simp
  apply List.Nodup.of_map Request.number
  rw [hnumbers]
  exact List.nodup_range

/-- No request is lost, doubled or mixed up with another one: at any time the requests in the server
are the ones that its sockets brought. -/
theorem serverRun_conserves (hrun : ServerRun db ok s) :
    ∃ jobs, s.queue.Contents jobs ∧ (s.requests jobs).Perm (s.received.mapIdx Request.mk) := by
  obtain ⟨jobs, hjobs, hplaces⟩ := (serverRun_accounted hrun).once
  have hgenuine := (hrun.genuine freeContract_kept).1
  refine ⟨jobs, hjobs, ?_⟩
  have hcount : ∀ n, countNumber n (s.requests jobs) = if n < s.received.length then 1 else 0 :=
    fun n => (countNumber_requests s jobs n).trans (hplaces n)
  have hreceived : ∀ request ∈ s.requests jobs, s.IsReceived request := by
    intro request hr
    obtain ⟨jobs', hjobs', hqueue⟩ := hgenuine.queue
    obtain rfl := hjobs.unique hjobs'
    simp only [ServerState.requests, List.mem_append, List.mem_flatMap, Option.mem_toList] at hr
    rcases hr with ((((hr | hr) | hr) | ⟨i, -, hr⟩) | hr) | hr
    · exact hgenuine.responders _ request hr
    · exact hgenuine.responders _ request hr
    · exact hqueue request hr
    · exact holds_isReceived (hgenuine.workers i) hr
    · exact (hgenuine.served request hr).1
    · exact hgenuine.refused request hr
  have hnodup : (s.requests jobs).Nodup := by
    apply List.Nodup.of_map Request.number
    rw [List.nodup_iff_count_le_one]
    intro n
    have hn := hcount n
    unfold countNumber at hn
    rw [hn]
    split <;> simp
  rw [List.perm_ext_iff_of_nodup hnodup]
  · intro request
    rw [mem_mapIdx_received]
    refine ⟨hreceived request, fun h => ?_⟩
    have hlt : request.number < s.received.length := (List.getElem?_eq_some_iff.1 h).1
    have hpos : 0 < countNumber request.number (s.requests jobs) := by
      rw [hcount, if_pos hlt]
      exact Nat.zero_lt_one
    obtain ⟨other, hother, hnumber⟩ := countNumber_pos.1 hpos
    have hargs := hreceived other hother
    unfold ServerState.IsReceived at h hargs
    rw [hnumber, h] at hargs
    cases request
    cases other
    cases hnumber
    cases hargs
    exact hother
  · exact nodup_mapIdx_received s.received

theorem serverRun_conserves_status : ∃ s, ServerRun (treeInit rrHash) (fun _ _ => True) s ∧
    s.received.length = 1 ∧
      ∃ jobs, s.queue.Contents jobs ∧ (s.requests jobs).Perm (s.received.mapIdx Request.mk) := by
  obtain ⟨s, hrun, -, hreceived, -⟩ := statusRun fun _ _ => trivial
  exact ⟨s, hrun, hreceived, serverRun_conserves hrun⟩

theorem nodup_sent (hrun : ServerRun db ok s) : (s.sent.map fun p => p.1.number).Nodup := by
  obtain ⟨⟨jobs, -, hplaces⟩, hreplies⟩ := serverRun_accounted hrun
  rw [List.nodup_iff_count_le_one]
  intro n
  have hsettled : s.settled n ≤ s.places jobs n := by
    have hworkers : workerSum (fun w => countNumber n w.done) s.workers ≤
        workerSum (fun w => countNumber n w.holds) s.workers :=
      Finset.sum_le_sum fun i _ => countNumber_done_le (s.workers i)
    unfold ServerState.settled ServerState.places
    omega
  have hsent := hreplies n
  have honce := hplaces n
  unfold countNumber at hsent
  rw [List.map_map] at hsent
  change (s.sent.map (Request.number ∘ Prod.fst)).count n ≤ 1
  split at honce <;> omega

/-- However the threads take turns, no request is answered twice, a reply is one that the job of its
own request can have, and a job only comes back without a reply when it has none to send. -/
theorem serverRun_replies (hrun : ServerRun db ok s) :
    (s.sent.map fun p => p.1.number).Nodup ∧
      (∀ p ∈ s.sent, s.IsReceived p.1 ∧ p.1.CanReply db (some p.2)) ∧
        ∀ request ∈ s.served, s.HasReply request ∨ request.CanReply db none := by
  have hgenuine := (hrun.genuine freeContract_kept).1
  exact ⟨nodup_sent hrun, hgenuine.sent, fun request hr => (hgenuine.served request hr).2⟩

theorem serverRun_replies_status : ∃ s, ServerRun (treeInit rrHash) (fun _ _ => True) s ∧
    s.sent.map (fun p => p.1.number) = [0] ∧ (s.sent.map fun p => p.1.number).Nodup ∧
      (∀ p ∈ s.sent, s.IsReceived p.1 ∧ p.1.CanReply (treeInit rrHash) (some p.2)) ∧
        ∀ request ∈ s.served, s.HasReply request ∨ request.CanReply (treeInit rrHash) none := by
  obtain ⟨s, hrun, -, -, hsent⟩ := statusRun fun _ _ => trivial
  exact ⟨s, hrun, hsent, serverRun_replies hrun⟩

end BakaDns
