import BakaDns.JobReplies
import BakaDns.RequestFrame
import BakaDns.TlsConnections
import BakaDns.UpstreamRequests

/-!
# The query of a job

Both transports decode what they received, pass it to `resolv_handle` and wrap the answer. A job
that gets as far as `resolv_handle` is that call and the wrapping, so the two transports agree.
-/

namespace BakaDns
open CBytes ReadTrace Threads

/-- The message that a handler passes to `resolv_handle`; `refused` is what its transport takes for
a packet that could not be decoded. -/
def decodedQuery (refused : ℤ → Bool) (fuel : ℕ) (buf : List UInt8) (size : ℕ) : Option Message :=
  match (messageFromBuf fuel buf size Message.zero).result with
  | none => none
  | some (ret, msgrcv) => if refused ret then none else some msgrcv

/-- The body of the connection, if all of it comes in. -/
def TlsSession.body (session : TlsSession) (fuel : ℕ) : Option (List UInt8) :=
  if ¬ session.accepted then none
  else
    match session.size with
    | .data [b₀, b₁] =>
      let expected := (beU16 b₀ b₁).toNat
      match (receiveLoop expected session.reads fuel 0 []).2 with
      | .error _ => none
      | .ok (failed, recvbuf) => if failed ∨ recvbuf.length ≠ expected then none else some recvbuf
    | _ => none

def Job.query : Job → Option Message
  | .udp fuel _ rcvbuffer nrecv =>
    decodedQuery (fun ret => ret < -1) fuel rcvbuffer (asUint32 nrecv)
  | .tls fuel _ session =>
    (session.body fuel).bind fun recvbuf =>
      decodedQuery (fun ret => ret < 0) fuel recvbuf recvbuf.length

def Job.fuel : Job → ℕ
  | .udp fuel _ _ _ => fuel
  | .tls fuel _ _ => fuel

/-- The bytes that the handler makes of an answer. -/
def Job.written : Job → Answered → List UInt8
  | .udp _ _ _ _, r => r.sendbuf.slice 0 (asUint32 r.ansSize)
  | .tls _ _ _, r => sslWritten (fun i => r.sendbuf (i - 2)) r.ansSize

variable {db : BucketTree} {job : Job} {query : Message}

theorem decodedQuery_eq_some {refused : ℤ → Bool} {fuel size : ℕ} {buf : List UInt8}
    (h : decodedQuery refused fuel buf size = some query) :
    ∃ ret, (messageFromBuf fuel buf size Message.zero).result = some (ret, query) ∧
      refused ret = false := by
  unfold decodedQuery at h
  split at h
  · cases h
  · next ret msgrcv hres =>
    split at h
    · cases h
    · next hret =>
      cases h
      exact ⟨ret, hres, Bool.eq_false_iff.2 hret⟩

theorem decodedQuery_eq_none {refused : ℤ → Bool} {fuel size : ℕ} {buf : List UInt8}
    (h : decodedQuery refused fuel buf size = none) :
    (messageFromBuf fuel buf size Message.zero).result = none ∨
      ∃ ret msgrcv, (messageFromBuf fuel buf size Message.zero).result = some (ret, msgrcv) ∧
        refused ret = true := by
  unfold decodedQuery at h
  split at h
  · next hres => exact .inl hres
  · next ret msgrcv hres =>
    split at h
    · next hret => exact .inr ⟨ret, msgrcv, hres, hret⟩
    · cases h

theorem body_eq_some {session : TlsSession} {fuel : ℕ} {recvbuf : List UInt8}
    (h : session.body fuel = some recvbuf) (x : Exchange) :
    sslReplyProg fuel db x session = sslBodyReplyProg fuel db x recvbuf := by
  unfold TlsSession.body at h
  unfold sslReplyProg
  by_cases haccepted : ¬ session.accepted
  · rw [if_pos haccepted] at h
    cases h
  · rw [if_neg haccepted] at h ⊢
    generalize session.size = size at h ⊢
    rcases size with _ | (_ | ⟨b₀, _ | ⟨b₁, _ | ⟨b₂, bytes⟩⟩⟩)
    · cases h
    · cases h
    · cases h
    · dsimp only at h ⊢
      cases hloop : (receiveLoop (beU16 b₀ b₁).toNat session.reads fuel 0 []).2 with
      | error fault =>
        rw [hloop] at h
        cases h
      | ok received =>
        obtain ⟨failed, bytes⟩ := received
        rw [hloop] at h
        dsimp only at h ⊢
        split at h
        · cases h
        · next hcomplete =>
          cases h
          rw [if_neg hcomplete]
    · cases h

/-- A connection without a body ends without a reply. -/
theorem body_eq_none {session : TlsSession} {fuel : ℕ} (h : session.body fuel = none)
    (x : Exchange) : sslReplyProg fuel db x session = .ret none ∨
      ∃ fault, sslReplyProg fuel db x session = .fail fault := by
  unfold TlsSession.body at h
  unfold sslReplyProg
  by_cases haccepted : ¬ session.accepted
  · rw [if_pos haccepted]
    exact .inl rfl
  · rw [if_neg haccepted] at h ⊢
    generalize session.size = size at h ⊢
    rcases size with _ | (_ | ⟨b₀, _ | ⟨b₁, _ | ⟨b₂, bytes⟩⟩⟩)
    · exact .inl rfl
    · exact .inl rfl
    · exact .inl rfl
    · dsimp only at h ⊢
      cases hloop : (receiveLoop (beU16 b₀ b₁).toNat session.reads fuel 0 []).2 with
      | error fault => exact .inr ⟨fault, rfl⟩
      | ok received =>
        obtain ⟨failed, bytes⟩ := received
        rw [hloop] at h
        dsimp only at h ⊢
        split at h
        · next hbroken =>
          rw [if_pos hbroken]
          exact .inl rfl
        · cases h
    · exact .inl rfl

/-- A job that passes a query on sends what it makes of the answer, and nothing else. -/
theorem replyProg_eq (h : job.query = some query) :
    job.replyProg db = resolvAnswerProg job.fuel db job.exchange (fun _ => 0) query >>= fun answer =>
      .ret (answer.map job.written) := by
  cases job with
  | udp fuel x rcvbuffer nrecv =>
    obtain ⟨ret, hres, hret⟩ := decodedQuery_eq_some h
    change udpReplyProg fuel db x rcvbuffer nrecv = _
    unfold udpReplyProg
    rw [hres]
    dsimp only
    rw [if_neg (of_decide_eq_false hret)]
    rfl
  | tls fuel x session =>
    obtain ⟨recvbuf, hbody, hquery⟩ := Option.bind_eq_some_iff.1 h
    obtain ⟨ret, hres, hret⟩ := decodedQuery_eq_some hquery
    change sslReplyProg fuel db x session = _
    rw [body_eq_some hbody]
    unfold sslBodyReplyProg
    rw [hres]
    dsimp only
    rw [if_neg (of_decide_eq_false hret)]
    rfl

/-! The handlers. -/

section Handlers

variable {fuel now : ℕ} {x : Exchange} {cache : RrCache} {r : ResolvResult} {b : List UInt8}
  {session : TlsSession}

/-- The handler sends what the job returns when it runs alone. -/
theorem reply_of_run {i : ℕ} {s s' : Shared} {reply : Option (List UInt8)}
    (h : (job.replyProg db).run (exec i) s = .ok (reply, s')) :
    (job.handled s.now db s.cache).reply = reply := by
  have himplements : ((job.replyProg db).run (exec i) s).map (fun out => (out.1, out.2.view)) =
      (job.handled s.now db s.cache).outcome.map fun out =>
        ((job.handled s.now db s.cache).reply, (s.now, out.2)) := jobReply_implements job s
  rw [h] at himplements
  cases hout : (job.handled s.now db s.cache).outcome with
  | error fault =>
    rw [hout] at himplements
    cases himplements
  | ok handled =>
    rw [hout] at himplements
    exact (Prod.mk.inj (Except.ok.inj himplements)).1.symm

/-- The size of an encoded answer, as an unsigned number. -/
theorem asUint32_of_encoded {m : Message} {sendbuf sendbuf' : Mem} {n : ℕ}
    (h : messageToU8 m sendbuf 0 = .ok ((n : ℤ), sendbuf')) : asUint32 n = n := by
  have hret := messageToU8_ret h
  have hlt : (n : ℤ) < 2 ^ 31 := by
    dsimp only at hret
    rw [hret]
    split
    · decide
    · exact Int.bmod_lt (by decide)
  unfold asUint32
  omega

/-- Nothing that a call encodes leaves its buffer: neither the request that it may send upstream nor
the answer in the smaller one of the two send buffers, `sendbuf[UDP_BUFFER_SIZE]`. -/
structure FitsBuffers (fuel now : ℕ) (db : BucketTree) (x : Exchange) (cache : RrCache)
    (query : Message) : Prop where
  request : RequestStaysInside x.newId query
  answer : ∀ r ans, resolvHandle fuel now db x (fun _ => 0) cache query = .ok r →
    r.answer = some ans → StaysInside udpBufferSize ans
  size : ∀ r, resolvHandle fuel now db x (fun _ => 0) cache query = .ok r →
    r.ansSize ≤ udpBufferSize

/-- The two handlers for the same body: they leave the same cache, and over TLS the reply comes
behind its length. -/
theorem transports_agree (hs : session.Delivers fuel b)
    (hquery : (messageFromBuf fuel b b.length Message.zero).result = some (1, query))
    (hfits : FitsBuffers fuel now db x cache query) :
    (sslResolvAndRespond fuel now db x cache session).reply =
        (udpResolvAndRespond fuel now db x cache b b.length).reply.map tlsFrame ∧
      (sslResolvAndRespond fuel now db x cache session).outcome.map Prod.snd =
        (udpResolvAndRespond fuel now db x cache b b.length).outcome.map Prod.snd := by
  have hreads : ∀ call ∈ (receiveLoop b.length session.reads fuel 0 []).1,
      ∃ offset len, call = .sslRead offset len := fun call => receiveLoop_calls
  have hudp : udpResolvAndRespond fuel now db x cache b b.length =
      udpRespond fuel now db x cache query := by
    have hlen : asUint32 b.length = b.length := by
      have hlt := hs.length_lt
      unfold asUint32
      omega
    unfold udpResolvAndRespond
    rw [hlen, hquery]
    rfl
  rw [hudp, ssl_delivers hs, sslHandleBody_decoded hquery, reply_append _ hreads]
  unfold udpRespond sslRespond
  cases hr : resolvHandle fuel now db x (fun _ => 0) cache query with
  | error fault => exact ⟨rfl, rfl⟩
  | ok r =>
    dsimp only
    by_cases hret : r.ret < 0
    · simp only [if_pos hret]
      exact ⟨rfl, trivial⟩
    · simp only [if_neg hret]
      obtain ⟨ans, n, -, hn, hencode⟩ := resolvHandle_encoded hr (Int.not_lt.1 hret)
      have hlt : n < 2 ^ 16 := by
        have hsize := hfits.size r hr
        rw [hn, udpBufferSize] at hsize
        omega
      rw [hn, asUint32_of_encoded hencode, sslWritten_behind]
      refine ⟨?_, rfl⟩
      change some _ = some (tlsFrame _)
      rw [tlsFrame, Mem.length_slice, Nat.mod_eq_of_lt hlt]

/-- What `addressQuery` decodes to. -/
def relaySections : Sections := ⟨[⟨[1, 97, 1, 98, 0], rrtypeA, rrclassIn⟩], [], [], []⟩

def relayMessage : Message := relaySections.toMessage ⟨7, 1, 0, 1, 0, 0, 0⟩

theorem relayMessage_fits : RequestStaysInside 7 relayMessage := by
  have hm : relayMessage.Holds relaySections := ⟨rfl, rfl, rfl, rfl, rfl, rfl, rfl, rfl⟩
  have hs : relaySections.Encodes :=
    ⟨List.forall_mem_singleton.2 ⟨by decide, by decide⟩, List.forall_mem_nil _,
      List.forall_mem_nil _, List.forall_mem_nil _⟩
  exact (requestStaysInside_iff hm hs (by decide) 7).2 (by decide)

theorem transports_agree_address :
    ∃ db, insertAll domainLenMax (treeInit rrHash) sampleRelay = some db ∧
      (udpResolvAndRespond 64 0 db ⟨7, .recvFail⟩ (initCache 0) addressQuery
        addressQuery.length).reply = some addressReply ∧
      (sslResolvAndRespond 64 0 db ⟨7, .recvFail⟩ (initCache 0) addressSession).reply =
        (udpResolvAndRespond 64 0 db ⟨7, .recvFail⟩ (initCache 0) addressQuery
          addressQuery.length).reply.map tlsFrame := by
  have hquery : (messageFromBuf 64 addressQuery addressQuery.length Message.zero).result =
      some (1, relayMessage) := by decide +kernel
  have hrun : (insertAll domainLenMax (treeInit rrHash) sampleRelay).map (fun db =>
      ((udpResolvAndRespond 64 0 db ⟨7, .recvFail⟩ (initCache 0) addressQuery
          addressQuery.length).reply,
        (resolvHandle 64 0 db ⟨7, .recvFail⟩ (fun _ => 0) (initCache 0)
          relayMessage).toOption.map fun r => (r.answer.bind Message.sections, r.ansSize))) =
      some (some addressReply, some (some ⟨[⟨[1, 97, 1, 98, 0], rrtypeA, rrclassIn⟩],
        [⟨[1, 97, 1, 98, 0], rrtypeA, rrclassIn, 0, 4, [10, 0, 0, 1]⟩,
          ⟨[1, 97, 1, 98, 0], rrtypeA, rrclassIn, 0, 4, [10, 0, 0, 2]⟩], [], []⟩, 59)) := by
    decide +kernel
  obtain ⟨db, hdb, hres⟩ := Option.map_eq_some_iff.1 hrun
  obtain ⟨hudp, hres⟩ := Prod.mk.inj hres
  obtain ⟨r, hr, hres⟩ := ok_of_toOption_map hres
  obtain ⟨hsections, hsize⟩ := Prod.mk.inj hres
  have hfits : FitsBuffers 64 0 db ⟨7, .recvFail⟩ (initCache 0) relayMessage := by
    refine ⟨relayMessage_fits, ?_, ?_⟩
    · intro r' ans hr' hans
      cases hr.symm.trans hr'
      rw [hans, Option.bind_some] at hsections
      rw [staysInside_iff_sections (by decide) hsections]
      · decide
      · refine ⟨by decide, ?_, List.forall_mem_nil _, List.forall_mem_nil _⟩
        simp [ResourceRecord.Present]
    · intro r' hr'
      cases hr.symm.trans hr'
      rw [hsize]
      decide
  exact ⟨db, hdb, hudp, (transports_agree addressSession_delivers hquery hfits).1⟩

end Handlers

end BakaDns
