import BakaDns.ThreadPool

/-!
# What a job answers

The jobs once more, with the bytes that they hand to `sendto` or `SSL_write` as their results.
Without its result the program of a job is the one of `ThreadPool`, and a job that runs alone
answers what the handlers in `server.c` send.
-/

namespace BakaDns
open CBytes ReadTrace Threads

/-- What `resolv_handle` leaves in its two output parameters when it returns 1. -/
structure Answered where
  sendbuf : Mem
  ansSize : ℤ

/-- The end of `resolv_handle` for a call that has put its answer together. -/
def Pending.answered (sendbuf : Mem) (p : Pending) (cache : RrCache) : Option Answered :=
  match completeAnswer (p.built cache) >>= fun ans => messageToU8 ans sendbuf 0 with
  | .ok (msgsize, sendbuf) => if msgsize < 0 then none else some ⟨sendbuf, msgsize⟩
  | .error _ => none

/-- `resolv_handle`; no answer stands for -1. -/
def resolvAnswerProg (fuel : ℕ) (db : BucketTree) (x : Exchange) (sendbuf : Mem)
    (query : Message) : ResolvProg (Option Answered) :=
  if qrOf query.header.misc1 ≠ qrReq then .ret none
  else do
    let p ← pendingProg fuel db x query
    finish sendbuf p
    .ret (p.answered sendbuf (initCache 0))

/-- `udp_resolv_and_respond`. -/
def udpReplyProg (fuel : ℕ) (db : BucketTree) (x : Exchange) (rcvbuffer : List UInt8)
    (nrecv : ℤ) : ResolvProg (Option (List UInt8)) :=
  match (messageFromBuf fuel rcvbuffer (asUint32 nrecv) Message.zero).result with
  | none => .fail .hang
  | some (ret, msgrcv) =>
    if ret < -1 then do
      let (nsend, sendbuf) ←
        Prog.lift (messageToU8 (constructErrorResponse rcodeFormatError) (fun _ => 0) 0)
      .ret (some (sendbuf.slice 0 (asUint32 nsend)))
    else do
      let answer ← resolvAnswerProg fuel db x (fun _ => 0) msgrcv
      .ret (answer.map fun r => r.sendbuf.slice 0 (asUint32 r.ansSize))

/-- `ssl_resolv_and_respond` for a body that came in completely. -/
def sslBodyReplyProg (fuel : ℕ) (db : BucketTree) (x : Exchange) (recvbuf : List UInt8) :
    ResolvProg (Option (List UInt8)) :=
  match (messageFromBuf fuel recvbuf recvbuf.length Message.zero).result with
  | none => .fail .hang
  | some (ret, msgrcv) =>
    if ret < 0 then do
      let (nsend, sendbuf) ←
        Prog.lift (messageToU8 (constructErrorResponse rcodeFormatError) (fun _ => 0) 0)
      .ret (some (sslWritten sendbuf nsend))
    else do
      let answer ← resolvAnswerProg fuel db x (fun _ => 0) msgrcv
      .ret (answer.map fun r => sslWritten (fun i => r.sendbuf (i - 2)) r.ansSize)

/-- `ssl_resolv_and_respond`. -/
def sslReplyProg (fuel : ℕ) (db : BucketTree) (x : Exchange) (session : TlsSession) :
    ResolvProg (Option (List UInt8)) :=
  if ¬ session.accepted then .ret none
  else
    match session.size with
    | .data [b₀, b₁] =>
      let expected := (beU16 b₀ b₁).toNat
      match (receiveLoop expected session.reads fuel 0 []).2 with
      | .error fault => .fail fault
      | .ok (failed, recvbuf) =>
        if failed ∨ recvbuf.length ≠ expected then .ret none
        else sslBodyReplyProg fuel db x recvbuf
    | _ => .ret none

/-- `job->fun(job->arg)`, with the reply it sends. -/
def Job.replyProg (db : BucketTree) : Job → ResolvProg (Option (List UInt8))
  | .udp fuel x rcvbuffer nrecv => udpReplyProg fuel db x rcvbuffer nrecv
  | .tls fuel x session => sslReplyProg fuel db x session

/-- The bytes that a handler sends. -/
def Handled.reply (h : Handled) : Option (List UInt8) :=
  h.calls.findSome? fun call =>
    match call with
    | .send b => some b
    | _ => none

/-! Without the reply. -/

section Forget

variable {fuel : ℕ} {db : BucketTree} {x : Exchange}

theorem resolvAnswerProg_forget (sendbuf : Mem) (query : Message) :
    (resolvAnswerProg fuel db x sendbuf query).forget = resolvProg fuel db x sendbuf query := by
  unfold resolvAnswerProg resolvProg
  split
  · rfl
  · rw [Prog.forget_bind]
    rfl

theorem udpReplyProg_forget (rcvbuffer : List UInt8) (nrecv : ℤ) :
    (udpReplyProg fuel db x rcvbuffer nrecv).forget = udpProg fuel db x rcvbuffer nrecv := by
  unfold udpReplyProg udpProg
  cases (messageFromBuf fuel rcvbuffer (asUint32 nrecv) Message.zero).result with
  | none => rfl
  | some r =>
    obtain ⟨ret, msgrcv⟩ := r
    dsimp only
    split
    · exact Prog.forget_bind _ _
    · rw [Prog.forget_bind]
      exact resolvAnswerProg_forget _ _

theorem sslBodyReplyProg_forget (recvbuf : List UInt8) :
    (sslBodyReplyProg fuel db x recvbuf).forget = sslBodyProg fuel db x recvbuf := by
  unfold sslBodyReplyProg sslBodyProg
  cases (messageFromBuf fuel recvbuf recvbuf.length Message.zero).result with
  | none => rfl
  | some r =>
    obtain ⟨ret, msgrcv⟩ := r
    dsimp only
    split
    · exact Prog.forget_bind _ _
    · rw [Prog.forget_bind]
      exact resolvAnswerProg_forget _ _

theorem sslReplyProg_forget (session : TlsSession) :
    (sslReplyProg fuel db x session).forget = sslProg fuel db x session := by
  unfold sslReplyProg sslProg
  by_cases haccepted : ¬ session.accepted
  · simp only [if_pos haccepted]
    rfl
  · simp only [if_neg haccepted]
    generalize session.size = size
    rcases size with _ | (_ | ⟨b₀, _ | ⟨b₁, _ | ⟨b₂, bytes⟩⟩⟩)
    · rfl
    · rfl
    · rfl
    · dsimp only
      cases (receiveLoop (beU16 b₀ b₁).toNat session.reads fuel 0 []).2 with
      | error fault => rfl
      | ok received =>
        obtain ⟨failed, recvbuf⟩ := received
        dsimp only
        split
        · rfl
        · exact sslBodyReplyProg_forget recvbuf
    · rfl

/-- The reply is all that the program of a job has in addition. -/
theorem replyProg_forget (job : Job) : (job.replyProg db).forget = job.prog db := by
  cases job with
  | udp fuel x rcvbuffer nrecv => exact udpReplyProg_forget rcvbuffer nrecv
  | tls fuel x session => exact sslReplyProg_forget session

end Forget

/-! With nobody in between. -/

section Alone

variable {i : ℕ} {db : BucketTree}

/-- The answer does not depend on the cache that it is put together next to. -/
theorem completeAnswer_built (p : Pending) (cache cache' : RrCache) :
    completeAnswer (p.built cache) = completeAnswer (p.built cache') := by
  obtain ⟨query, ans, vars, fin⟩ := p
  cases fin <;> rfl

/-- What the caller of `resolv_handle` has to send. -/
def ResolvResult.answered (r : ResolvResult) : Option Answered :=
  if r.ret < 0 then none else some ⟨r.sendbuf, r.ansSize⟩

theorem resolvAnswerProg_implements (fuel : ℕ) (x : Exchange) (sendbuf : Mem) (query : Message) :
    Prog.Implements (exec i) Shared.view (resolvAnswerProg fuel db x sendbuf query) fun t =>
      (resolvHandle fuel t.1 db x sendbuf t.2 query).map fun r =>
        (r.answered, (t.1, r.cache)) := by
  unfold resolvAnswerProg resolvHandle
  by_cases hqr : qrOf query.header.misc1 ≠ qrReq
  · simp only [if_pos hqr]
    exact Prog.implements_ret none
  · simp only [if_neg hqr]
    refine ((pendingProg_implements fuel x query).bind fun p =>
      (finish_implements sendbuf p).bind fun _ => Prog.implements_ret _).congr fun t => ?_
    cases buildAnswer fuel t.1 db x t.2 query with
    | error e => rfl
    | ok b =>
      have hbuilt : b.pending.built b.cache = b := rfl
      have hans := completeAnswer_built b.pending (initCache 0) b.cache
      rw [hbuilt] at hans
      simp only [bind, Except.bind, Except.map, hbuilt, Pending.answered, hans]
      cases completeAnswer b with
      | error e => rfl
      | ok ans =>
        dsimp only
        cases messageToU8 ans sendbuf 0 with
        | error e => rfl
        | ok r =>
          obtain ⟨msgsize, mem⟩ := r
          by_cases hneg : msgsize < 0
          · simp [ResolvResult.answered, hneg]
          · simp [ResolvResult.answered, hneg]

theorem udpReplyProg_implements (fuel : ℕ) (x : Exchange) (rcvbuffer : List UInt8) (nrecv : ℤ) :
    Prog.Implements (exec i) Shared.view (udpReplyProg fuel db x rcvbuffer nrecv) fun t =>
      (udpResolvAndRespond fuel t.1 db x t.2 rcvbuffer nrecv).outcome.map fun r =>
        ((udpResolvAndRespond fuel t.1 db x t.2 rcvbuffer nrecv).reply, (t.1, r.2)) := by
  unfold udpReplyProg udpResolvAndRespond
  cases (messageFromBuf fuel rcvbuffer (asUint32 nrecv) Message.zero).result with
  | none => exact Prog.implements_lift (.error Fault.hang)
  | some r =>
    obtain ⟨ret, msgrcv⟩ := r
    dsimp only
    split
    · refine ((Prog.implements_lift _).bind fun r => Prog.implements_ret _).congr fun t => ?_
      cases messageToU8 (constructErrorResponse rcodeFormatError) (fun _ => 0) 0 with
      | error e => rfl
      | ok r => rfl
    · refine ((resolvAnswerProg_implements fuel x (fun _ => 0) msgrcv).bind fun r =>
        Prog.implements_ret _).congr fun t => ?_
      unfold udpRespond
      cases resolvHandle fuel t.1 db x (fun _ => 0) t.2 msgrcv with
      | error e => rfl
      | ok r =>
        by_cases hret : r.ret < 0
        · simp [ResolvResult.answered, hret, Handled.reply, bind, Except.bind, Except.map]
        · simp [ResolvResult.answered, hret, Handled.reply, bind, Except.bind, Except.map]

theorem sslBodyReplyProg_implements (fuel : ℕ) (x : Exchange) (session : TlsSession)
    (recvbuf : List UInt8) :
    Prog.Implements (exec i) Shared.view (sslBodyReplyProg fuel db x recvbuf) fun t =>
      (sslHandleBody fuel t.1 db x t.2 session recvbuf).outcome.map fun r =>
        ((sslHandleBody fuel t.1 db x t.2 session recvbuf).reply, (t.1, r.2)) := by
  unfold sslBodyReplyProg sslHandleBody
  cases (messageFromBuf fuel recvbuf recvbuf.length Message.zero).result with
  | none => exact Prog.implements_lift (.error Fault.hang)
  | some r =>
    obtain ⟨ret, msgrcv⟩ := r
    dsimp only
    split
    · refine ((Prog.implements_lift _).bind fun r => Prog.implements_ret _).congr fun t => ?_
      cases messageToU8 (constructErrorResponse rcodeFormatError) (fun _ => 0) 0 with
      | error e => rfl
      | ok r => rfl
    · refine ((resolvAnswerProg_implements fuel x (fun _ => 0) msgrcv).bind fun r =>
        Prog.implements_ret _).congr fun t => ?_
      unfold sslRespond
      cases resolvHandle fuel t.1 db x (fun _ => 0) t.2 msgrcv with
      | error e => rfl
      | ok r =>
        by_cases hret : r.ret < 0
        · simp [ResolvResult.answered, hret, Handled.reply, bind, Except.bind, Except.map]
        · simp [ResolvResult.answered, hret, Handled.reply, bind, Except.bind, Except.map]

/-- Reads of the body are no replies. -/
theorem reply_append {calls : List ServerCall} (h : Handled)
    (hcalls : ∀ call ∈ calls, ∃ offset len, call = .sslRead offset len) :
    Handled.reply ⟨calls ++ h.calls, h.outcome⟩ = h.reply := by
  induction calls with
  | nil => rfl
  | cons call calls ih =>
    obtain ⟨offset, len, rfl⟩ := hcalls call List.mem_cons_self
    exact ih fun c hc => hcalls c (List.mem_cons_of_mem _ hc)

theorem sslReplyProg_implements (fuel : ℕ) (x : Exchange) (session : TlsSession) :
    Prog.Implements (exec i) Shared.view (sslReplyProg fuel db x session) fun t =>
      (sslResolvAndRespond fuel t.1 db x t.2 session).outcome.map fun r =>
        ((sslResolvAndRespond fuel t.1 db x t.2 session).reply, (t.1, r.2)) := by
  unfold sslReplyProg sslResolvAndRespond
  by_cases haccepted : ¬ session.accepted
  · simp only [if_pos haccepted]
    exact Prog.implements_ret none
  · simp only [if_neg haccepted]
    generalize session.size = size
    rcases size with _ | (_ | ⟨b₀, _ | ⟨b₁, _ | ⟨b₂, bytes⟩⟩⟩)
    · exact Prog.implements_ret none
    · exact Prog.implements_ret none
    · exact Prog.implements_ret none
    · have hreads : ∀ call ∈ (receiveLoop (beU16 b₀ b₁).toNat session.reads fuel 0 []).1,
          ∃ offset len, call = .sslRead offset len := fun call => receiveLoop_calls
      generalize hloop : receiveLoop (beU16 b₀ b₁).toNat session.reads fuel 0 [] = received
      obtain ⟨calls, result⟩ := received
      simp only [hloop]
      rw [hloop] at hreads
      rcases result with fault | ⟨failed, recvbuf⟩
      · exact Prog.implements_lift (.error fault)
      · dsimp only
        by_cases hbroken : failed = true ∨ recvbuf.length ≠ (beU16 b₀ b₁).toNat
        · simp only [if_pos hbroken]
          refine (Prog.implements_ret none).congr fun t => ?_
          have hnone : Handled.reply ⟨calls ++ [.close], .ok (-1, t.2)⟩ = none :=
            reply_append ⟨[.close], .ok (-1, t.2)⟩ hreads
          simp only [Except.map, hnone]
        · simp only [if_neg hbroken]
          refine (sslBodyReplyProg_implements fuel x session recvbuf).congr fun t => ?_
          rw [reply_append _ hreads]
    · exact Prog.implements_ret none

/-- A job that nobody interrupts sends what the handler in `server.c` sends, and leaves the cache as
it does. -/
theorem jobReply_implements (job : Job) :
    Prog.Implements (exec i) Shared.view (job.replyProg db) fun t =>
      (job.handled t.1 db t.2).outcome.map fun r =>
        ((job.handled t.1 db t.2).reply, (t.1, r.2)) := by
  cases job with
  | udp fuel x rcvbuffer nrecv => exact udpReplyProg_implements fuel x rcvbuffer nrecv
  | tls fuel x session => exact sslReplyProg_implements fuel x session

end Alone

end BakaDns
