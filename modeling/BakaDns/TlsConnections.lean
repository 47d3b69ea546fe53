import BakaDns.JobQueue
import BakaDns.ResolvExit
import BakaDns.Server

/-!
# TLS connections

What a client sees of its connection: the frame that carries a reply, and the end of the
connection. A descriptor goes from `tls_responder` through the job queue to
`ssl_resolv_and_respond`, and every exit on this way has its own cleanup, or none.
-/

namespace BakaDns
open CBytes Threads

/-- The message that is encoded for the request `b`: a format error, or the resolver's answer. -/
inductive IsTlsReply (fuel now : ℕ) (db : BucketTree) (x : Exchange) (cache : RrCache)
    (b : List UInt8) : Message → Prop
  | formatError (h : Malformed b) :
      IsTlsReply fuel now db x cache b (constructErrorResponse rcodeFormatError)
  | resolved {query reply : Message} {r : ResolvResult}
      (hquery : (messageFromBuf fuel b b.length Message.zero).result = some (1, query))
      (hr : resolvHandle fuel now db x (fun _ => 0) cache query = .ok r) (hret : 0 ≤ r.ret)
      (hreply : r.answer = some reply) : IsTlsReply fuel now db x cache b reply

/-- Whatever is written is a frame inside `sendbuf`: the number of bytes that `message_to_u8` made
of the reply, and these bytes. -/
def TlsFramed (fuel now : ℕ) (db : BucketTree) (x : Exchange) (cache : RrCache)
    (session : TlsSession) (b : List UInt8) : Prop :=
  ∀ written, .send written ∈ (sslResolvAndRespond fuel now db x cache session).calls →
    ∃ reply, ∃ n : ℕ, ∃ sendbuf, IsTlsReply fuel now db x cache b reply ∧
      messageToU8 reply (fun _ => 0) 0 = .ok ((n : ℤ), sendbuf) ∧ n + 2 ≤ tlsBufferSize ∧
      written = u16Be (UInt16.ofNat n) ++ sendbuf.slice 0 n

section Frame

variable {fuel now : ℕ} {db : BucketTree} {x : Exchange} {cache : RrCache} {session : TlsSession}
  {b : List UInt8} {query : Message} {r : ResolvResult}

/-- An answer at `sendbuf + 2` leaves room for its length. -/
theorem sslWritten_behind (sendbuf : Mem) (n : ℕ) :
    sslWritten (fun i => sendbuf (i - 2)) n = u16Be (UInt16.ofNat (n % 2 ^ 16)) ++
      sendbuf.slice 0 n := by
  have hlen : ((n : ℤ) + 2).toNat = (u16Be (UInt16.ofNat (n % 2 ^ 16))).length + n := by
    rw [length_u16Be]
    omega
  have hmod : ((n : ℤ) % 2 ^ 16).toNat = n % 2 ^ 16 := by omega
  have hrest : Mem.slice (fun i => sendbuf (i - 2)) (0 + 2) n = sendbuf.slice 0 n := by
    apply List.map_congr_left
    intro i _
    exact congrArg sendbuf (by omega)
  rw [sslWritten, hmod, hlen, Mem.slice_write_add, length_u16Be]
  exact congrArg (u16Be (UInt16.ofNat (n % 2 ^ 16)) ++ ·) hrest

/-- A call that does not return -1 has encoded its answer. -/
theorem resolvHandle_encoded {sendbuf : Mem}
    (h : resolvHandle fuel now db x sendbuf cache query = .ok r) (hret : 0 ≤ r.ret) :
    ∃ reply, ∃ n : ℕ, r.answer = some reply ∧ r.ansSize = n ∧
      messageToU8 reply sendbuf 0 = .ok ((n : ℤ), r.sendbuf) := by
  unfold resolvHandle at h
  split at h
  · cases h
    exact absurd hret (show ¬ (0 : ℤ) ≤ -1 by decide)
  · obtain ⟨built, -, h⟩ := bind_eq_ok.1 h
    obtain ⟨reply, -, h⟩ := bind_eq_ok.1 h
    obtain ⟨⟨msgsize, mem⟩, hencode, h⟩ := bind_eq_ok.1 h
    cases h
    dsimp only at hret
    split at hret
    · exact absurd hret (by decide)
    · next hsize =>
      obtain ⟨n, rfl⟩ := Int.eq_ofNat_of_zero_le (Int.not_lt.1 hsize)
      exact ⟨reply, n, rfl, rfl, hencode⟩

/-- The only calls that write are those of the body. -/
theorem send_mem_iff (hs : session.Delivers fuel b) {written : List UInt8} :
    .send written ∈ (sslResolvAndRespond fuel now db x cache session).calls ↔
      .send written ∈ (sslHandleBody fuel now db x cache session b).calls := by
  rw [ssl_delivers hs]
  constructor
  · intro h
    rcases List.mem_append.1 h with h | h
    · obtain ⟨offset, len, hcall⟩ := receiveLoop_calls h
      cases hcall
    · exact h
  · exact List.mem_append_right _

/-- The frame of a malformed request lacks the first two bytes of its message. -/
theorem tlsErrorBytes_not_frame {n : ℕ} {sendbuf : Mem}
    (h : messageToU8 (constructErrorResponse rcodeFormatError) (fun _ => 0) 0 =
      .ok ((n : ℤ), sendbuf)) :
    tlsErrorBytes ≠ u16Be (UInt16.ofNat n) ++ sendbuf.slice 0 n := by
  have hbytes : (messageToU8 (constructErrorResponse rcodeFormatError) (fun _ => 0) 0).map
      (fun r => (r.1, r.2 2)) = .ok ((12 : ℤ), (0x84 : UInt8)) := by decide +kernel
  rw [h] at hbytes
  obtain ⟨hn, hbyte⟩ : (n : ℤ) = 12 ∧ sendbuf 2 = 0x84 := by
    simpa [Except.map] using hbytes
  obtain rfl : n = 12 := by omega
  intro he
  have hfifth : byteAt tlsErrorBytes 4 =
      byteAt (u16Be (UInt16.ofNat 12) ++ sendbuf.slice 0 12) 4 := congrArg (byteAt · 4) he
  have hslice : byteAt (u16Be (UInt16.ofNat 12) ++ sendbuf.slice 0 12) 4 = sendbuf 2 := rfl
  rw [hslice, hbyte] at hfifth
  exact absurd hfifth (by decide)

/-- A request that the decoder takes is answered by the resolver. -/
theorem sslHandleBody_decoded
    (hquery : (messageFromBuf fuel b b.length Message.zero).result = some (1, query)) :
    sslHandleBody fuel now db x cache session b = sslRespond fuel now db x cache session query := by
  simp [sslHandleBody, hquery]

/-- What a body leads to: a loop without end, a format error, or a call of the resolver. -/
theorem body_cases (fuel : ℕ) (b : List UInt8) :
    (messageFromBuf fuel b b.length Message.zero).result = none ∨ Malformed b ∨
      ∃ query, (messageFromBuf fuel b b.length Message.zero).result = some (1, query) := by
  by_cases hb : Malformed b
  · exact Or.inr (Or.inl hb)
  · cases hdecode : (messageFromBuf fuel b b.length Message.zero).result with
    | none => exact Or.inl rfl
    | some r =>
      obtain ⟨ret, query⟩ := r
      rw [malformed_iff, not_or, not_not] at hb
      obtain rfl : ret = 1 := messageFromBuf_ret hb.1 hb.2 hdecode
      exact Or.inr (Or.inr ⟨query, rfl⟩)

theorem not_malformed_of_decoded
    (hquery : (messageFromBuf fuel b b.length Message.zero).result = some (1, query)) :
    ¬ Malformed b := by
  intro hb
  obtain ⟨msg, hmsg⟩ := hb.ret_eq fuel (.inl rfl)
  rw [hquery] at hmsg
  cases hmsg

theorem not_malformed_of_hang
    (hhang : (messageFromBuf fuel b b.length Message.zero).result = none) : ¬ Malformed b := by
  intro hb
  obtain ⟨msg, hmsg⟩ := hb.ret_eq fuel (.inl rfl)
  rw [hhang] at hmsg
  cases hmsg

/-- What is written for a decoded request. -/
theorem sslRespond_send_iff {written : List UInt8} :
    .send written ∈ (sslRespond fuel now db x cache session query).calls ↔
      ∃ r, resolvHandle fuel now db x (fun _ => 0) cache query = .ok r ∧ 0 ≤ r.ret ∧
        written = sslWritten (fun i => r.sendbuf (i - 2)) r.ansSize := by
  cases hr : resolvHandle fuel now db x (fun _ => 0) cache query with
  | error fault => simp [sslRespond, hr]
  | ok r =>
    by_cases hret : r.ret < 0
    · simp [sslRespond, hr, hret]
    · simp [sslRespond, hr, hret, Int.not_lt.1 hret]

/-- The resolver's answer is the only reply to a decoded request. -/
theorem IsTlsReply.eq_answer {reply : Message} (h : IsTlsReply fuel now db x cache b reply)
    (hquery : (messageFromBuf fuel b b.length Message.zero).result = some (1, query))
    (hr : resolvHandle fuel now db x (fun _ => 0) cache query = .ok r) :
    r.answer = some reply := by
  cases h with
  | formatError hb => exact absurd hb (not_malformed_of_decoded hquery)
  | resolved hquery' hr' _ hreply =>
    cases hquery.symm.trans hquery'
    cases hr.symm.trans hr'
    exact hreply

/-- Every reply is framed exactly when the request is not malformed and the resolver's answer
leaves room for the length in front of it. -/
theorem tlsFramed_iff (hs : session.Delivers fuel b) :
    TlsFramed fuel now db x cache session b ↔ ¬ Malformed b ∧
      ∀ query r, (messageFromBuf fuel b b.length Message.zero).result = some (1, query) →
        resolvHandle fuel now db x (fun _ => 0) cache query = .ok r → 0 ≤ r.ret →
        r.ansSize + 2 ≤ tlsBufferSize := by
  simp only [TlsFramed, send_mem_iff hs]
  rcases body_cases fuel b with hhang | hb | ⟨query, hquery⟩
  · have hcalls : (sslHandleBody fuel now db x cache session b).calls = [] := by
      simp [sslHandleBody, hhang]
    simp [hcalls, not_malformed_of_hang hhang, hhang]
  · refine iff_of_false ?_ fun h => h.1 hb
    intro h
    rw [sslHandleBody_malformed hb] at h
    obtain ⟨reply, n, sendbuf, hreply, hencode, -, hwritten⟩ := h tlsErrorBytes (by simp)
    cases hreply with
    | formatError _ => exact tlsErrorBytes_not_frame hencode hwritten
    | resolved hquery => exact not_malformed_of_decoded hquery hb
  · rw [sslHandleBody_decoded hquery]
    simp only [sslRespond_send_iff]
    constructor
    · intro h
      refine ⟨not_malformed_of_decoded hquery, ?_⟩
      intro query' r hquery' hr hret
      cases hquery.symm.trans hquery'
      obtain ⟨reply, n, hreply, hn, hencode⟩ := resolvHandle_encoded hr hret
      obtain ⟨reply', n', sendbuf, hreply', hencode', hle, -⟩ := h _ ⟨r, hr, hret, rfl⟩
      cases hreply.symm.trans (hreply'.eq_answer hquery hr)
      cases hencode.symm.trans hencode'
      rw [hn]
      exact_mod_cast hle
    · rintro ⟨-, hfits⟩ written ⟨r, hr, hret, rfl⟩
      obtain ⟨reply, n, hreply, hn, hencode⟩ := resolvHandle_encoded hr hret
      have hle := hfits query r hquery hr hret
      rw [hn] at hle ⊢
      have hlt : n + 2 ≤ tlsBufferSize := by exact_mod_cast hle
      have hmod : n % 2 ^ 16 = n := by
        apply Nat.mod_eq_of_lt
        rw [tlsBufferSize] at hlt
        omega
      refine ⟨reply, n, r.sendbuf, .resolved hquery hr hret hreply, hencode, hlt, ?_⟩
      rw [sslWritten_behind, hmod]

/-- A query for the addresses of `a.b`. -/
def addressQuery : List UInt8 := [0, 7, 1, 0, 0, 1, 0, 0, 0, 0, 0, 0, 1, 97, 1, 98, 0, 0, 1, 0, 1]

/-- The response with the two addresses that the sample relay file has for it. -/
def addressReply : List UInt8 :=
  [0, 7, 132, 0, 0, 1, 0, 2, 0, 0, 0, 0, 1, 97, 1, 98, 0, 0, 1, 0, 1,
    1, 97, 1, 98, 0, 0, 1, 0, 1, 0, 0, 0, 0, 0, 4, 10, 0, 0, 1,
    1, 97, 1, 98, 0, 0, 1, 0, 1, 0, 0, 0, 0, 0, 4, 10, 0, 0, 2]

def addressSession : TlsSession := ⟨true, .data [0, 21], fun _ => .data addressQuery, true⟩

theorem addressSession_delivers : addressSession.Delivers 64 addressQuery where
  accepted := rfl
  length_lt := by decide
  size := rfl
  reads := rfl

theorem tlsFramed_iff_address :
    ∃ db, insertAll domainLenMax (treeInit rrHash) sampleRelay = some db ∧
      .send (u16Be 59 ++ addressReply) ∈ (sslResolvAndRespond 64 0 db ⟨7, .recvFail⟩ (initCache 0)
        addressSession).calls ∧
      TlsFramed 64 0 db ⟨7, .recvFail⟩ (initCache 0) addressSession addressQuery := by
  have hrun : (insertAll domainLenMax (treeInit rrHash) sampleRelay).map (fun db =>
      (decide (.send (u16Be 59 ++ addressReply) ∈ (sslResolvAndRespond 64 0 db ⟨7, .recvFail⟩
          (initCache 0) addressSession).calls),
        (messageFromBuf 64 addressQuery addressQuery.length Message.zero).result.bind fun m =>
          (resolvHandle 64 0 db ⟨7, .recvFail⟩ (fun _ => 0) (initCache 0) m.2).toOption.map
            fun r => r.ansSize)) = some (true, some 59) := by
    decide +kernel
  obtain ⟨db, hdb, hres⟩ := Option.map_eq_some_iff.1 hrun
  obtain ⟨hsend, hsize⟩ := Prod.mk.inj hres
  refine ⟨db, hdb, of_decide_eq_true hsend, (tlsFramed_iff addressSession_delivers).2 ⟨?_, ?_⟩⟩
  · rw [malformed_iff]
    decide
  · intro query r hquery hr _
    rw [hquery, Option.bind_some, hr] at hsize
    obtain hsize : r.ansSize = 59 := Option.some.inj hsize
    rw [hsize]
    decide

/-- The error report for a truncated request starts with its length instead of its id. -/
theorem truncatedSession_not_tlsFramed :
    truncatedSession.Delivers 1 truncatedRequest ∧
      ¬ TlsFramed 1 0 (treeInit rrHash) ⟨7, .recvFail⟩ (initCache 0) truncatedSession
        truncatedRequest := by
  refine ⟨truncatedSession_delivers, ?_⟩
  intro h
  have hsend : .send tlsErrorBytes ∈ (sslResolvAndRespond 1 0 (treeInit rrHash) ⟨7, .recvFail⟩
      (initCache 0) truncatedSession).calls := by
    rw [send_mem_iff truncatedSession_delivers, sslHandleBody_malformed truncatedRequest_malformed]
    simp
  obtain ⟨reply, n, sendbuf, hreply, hencode, -, hwritten⟩ := h _ hsend
  cases hreply with
  | formatError _ => exact tlsErrorBytes_not_frame hencode hwritten
  | resolved hquery => exact not_malformed_of_decoded hquery truncatedRequest_malformed

end Frame

/-! The end of a connection. -/

/-- One connection after `accept`: `tls_responder` queues a job for it without looking at what
`threadpool_add_job` returns, so that nobody handles the connection of a refused job. -/
def tlsConnection {J : Type} (q : JobQueue J) (job : J) (fuel now : ℕ) (db : BucketTree)
    (x : Exchange) (cache : RrCache) (session : TlsSession) : Handled :=
  match threadpoolAddJob q job with
  | none => ⟨[], .error .crash⟩
  | some (ret, _) =>
    if ret < 0 then ⟨[], .ok (-1, cache)⟩
    else sslResolvAndRespond fuel now db x cache session

/-- The handling of a connection is over: its job has returned, or its thread has ended. A crash
takes the whole process and its descriptors with it. -/
def Handled.Ends (h : Handled) : Prop := (∃ r, h.outcome = .ok r) ∨ h.outcome = .error .exit

/-- The descriptor is closed exactly once by the end of the handling. -/
def Handled.ReleasesOnce (h : Handled) : Prop := h.Ends → h.calls.count .close = 1

section Release

variable {fuel now : ℕ} {db : BucketTree} {x : Exchange} {cache : RrCache} {session : TlsSession}
  {b : List UInt8} {calls : List ServerCall}

theorem count_close_receiveLoop (expected : ℕ) (reads : ℕ → SslRead) (fuel k : ℕ)
    (recvbuf : List UInt8) : (receiveLoop expected reads fuel k recvbuf).1.count .close = 0 := by
  apply List.count_eq_zero.2
  intro h
  obtain ⟨offset, len, hcall⟩ := receiveLoop_calls h
  cases hcall

theorem receiveLoop_avoids (expected : ℕ) (reads : ℕ → SslRead) (fuel k : ℕ)
    (recvbuf : List UInt8) : Avoids .exit (receiveLoop expected reads fuel k recvbuf).2 := by
  induction fuel generalizing k recvbuf with
  | zero =>
    unfold receiveLoop
    dsimp only
    split
    · exact avoids_ok _
    · exact avoids_error Fault.noConfusion
  | succ fuel ih =>
    unfold receiveLoop
    split
    · exact avoids_ok _
    · dsimp only
      split
      · exact avoids_ok _
      · split
        · exact avoids_error Fault.noConfusion
        · exact ih _ _

theorem releasesOnce_ok {r : ℤ × RrCache} :
    (Handled.mk calls (.ok r)).ReleasesOnce ↔ calls.count .close = 1 :=
  ⟨fun h => h (Or.inl ⟨r, rfl⟩), fun h _ => h⟩

theorem releasesOnce_error {fault : Fault} :
    (Handled.mk calls (.error fault)).ReleasesOnce ↔ fault = .exit → calls.count .close = 1 := by
  constructor
  · rintro h rfl
    exact h (Or.inr rfl)
  · rintro h (⟨r, hr⟩ | hexit)
    · cases hr
    · exact h (Except.error.inj hexit)

/-- Calls that do not close anything do not matter. -/
theorem releasesOnce_append {handled : Handled} (hcalls : calls.count .close = 0) :
    (Handled.mk (calls ++ handled.calls) handled.outcome).ReleasesOnce ↔ handled.ReleasesOnce := by
  simp only [Handled.ReleasesOnce, Handled.Ends, List.count_append, hcalls, Nat.zero_add]

/-- From a complete body on, the descriptor stays open only when the thread ends. -/
theorem sslHandleBody_releasesOnce_iff :
    (sslHandleBody fuel now db x cache session b).ReleasesOnce ↔
      ¬ ∃ query, (messageFromBuf fuel b b.length Message.zero).result = some (1, query) ∧
        AsksUpstream now db cache query ∧ x.outcome = .socketFail := by
  rcases body_cases fuel b with hhang | hb | ⟨query, hquery⟩
  · have hbody : sslHandleBody fuel now db x cache session b = ⟨[], .error .hang⟩ := by
      simp [sslHandleBody, hhang]
    rw [hbody, releasesOnce_error, hhang]
    simp
  · rw [sslHandleBody_malformed hb, releasesOnce_ok]
    refine iff_of_true rfl ?_
    rintro ⟨query, hquery, -⟩
    exact not_malformed_of_decoded hquery hb
  · have hexit := @resolvHandle_exit_iff now db cache query fuel x fun _ => 0
    rw [sslHandleBody_decoded hquery, hquery]
    simp only [Option.some.injEq, Prod.mk.injEq, true_and, exists_eq_left', ← hexit]
    cases hr : resolvHandle fuel now db x (fun _ => 0) cache query with
    | error fault =>
      simp only [sslRespond, hr, releasesOnce_error, Except.error.injEq]
      simp
    | ok r =>
      simp only [sslRespond, hr]
      split <;> simp [releasesOnce_ok]

theorem u16Be_beU16 (b₀ b₁ : UInt8) : u16Be (beU16 b₀ b₁) = [b₀, b₁] := by
  have h₀ := b₀.toNat_lt
  have h₁ := b₁.toNat_lt
  have hnat : (beU16 b₀ b₁).toNat = b₀.toNat * 256 + b₁.toNat := by
    rw [beU16, UInt16.toNat_ofNat']
    omega
  have hhigh : UInt8.ofNat ((beU16 b₀ b₁).toNat / 256) = b₀ := by
    apply UInt8.toNat_inj.1
    rw [UInt8.toNat_ofNat', hnat]
    omega
  have hlow : UInt8.ofNat (beU16 b₀ b₁).toNat = b₁ := by
    apply UInt8.toNat_inj.1
    rw [UInt8.toNat_ofNat', hnat]
    omega
  rw [u16Be, hhigh, hlow]

theorem delivers_iff {b₀ b₁ : UInt8} (haccepted : session.accepted = true)
    (hsize : session.size = .data [b₀, b₁]) :
    session.Delivers fuel b ↔ b.length = (beU16 b₀ b₁).toNat ∧
      (receiveLoop (beU16 b₀ b₁).toNat session.reads fuel 0 []).2 = .ok (false, b) := by
  constructor
  · intro h
    have hbytes : u16Be (UInt16.ofNat b.length) = [b₀, b₁] := by
      simpa [hsize] using h.size.symm
    have hlen := toNat_beU16_length h.length_lt hbytes
    refine ⟨hlen.symm, ?_⟩
    rw [hlen]
    exact h.reads
  · rintro ⟨hlen, hreads⟩
    refine ⟨haccepted, ?_, ?_, ?_⟩
    · rw [hlen]
      exact UInt16.toNat_lt _
    · rw [hlen, UInt16.ofNat_toNat, u16Be_beU16]
      exact hsize
    · rw [hlen]
      exact hreads

/-- The request is delivered, decoded and to be forwarded, and there is no socket for that. -/
def EndsThread (fuel now : ℕ) (db : BucketTree) (x : Exchange) (cache : RrCache)
    (session : TlsSession) : Prop :=
  ∃ b query, session.Delivers fuel b ∧
    (messageFromBuf fuel b b.length Message.zero).result = some (1, query) ∧
    AsksUpstream now db cache query ∧ x.outcome = .socketFail

/-- A handshake and a length of two bytes lead to the close at the end, unless the thread ends. -/
theorem ssl_releasesOnce_iff_of_size {b₀ b₁ : UInt8} (haccepted : session.accepted = true)
    (hsize : session.size = .data [b₀, b₁]) :
    (sslResolvAndRespond fuel now db x cache session).ReleasesOnce ↔
      ¬ EndsThread fuel now db x cache session := by
  have hcount := count_close_receiveLoop (beU16 b₀ b₁).toNat session.reads fuel 0 []
  have havoids := receiveLoop_avoids (beU16 b₀ b₁).toNat session.reads fuel 0 []
  simp only [EndsThread, delivers_iff haccepted hsize]
  unfold sslResolvAndRespond
  rw [if_neg (by simp [haccepted]), hsize]
  dsimp only
  cases hloop : receiveLoop (beU16 b₀ b₁).toNat session.reads fuel 0 [] with
  | mk calls result =>
    rw [hloop] at hcount havoids
    dsimp only at hcount havoids ⊢
    cases result with
    | error fault =>
      simp only [releasesOnce_error]
      refine iff_of_true ?_ ?_
      · rintro rfl
        exact absurd rfl havoids
      · rintro ⟨b, query, ⟨-, hreads⟩, -⟩
        cases hreads
    | ok r =>
      obtain ⟨failed, recvbuf⟩ := r
      dsimp only
      split
      · next hbroken =>
        rw [releasesOnce_ok]
        refine iff_of_true ?_ ?_
        · rw [List.count_append, hcount]
          rfl
        · rintro ⟨b, query, ⟨hlen, hreads⟩, -⟩
          cases hreads
          simp [hlen] at hbroken
      · next hcomplete =>
        obtain ⟨hfailed, hlen⟩ := not_or.1 hcomplete
        rw [Bool.not_eq_true] at hfailed
        rw [ne_eq, not_not] at hlen
        subst hfailed
        rw [releasesOnce_append hcount, sslHandleBody_releasesOnce_iff]
        apply not_congr
        constructor
        · rintro ⟨query, hquery⟩
          exact ⟨recvbuf, query, ⟨hlen, rfl⟩, hquery⟩
        · rintro ⟨b, query, ⟨-, hreads⟩, hquery⟩
          cases hreads
          exact ⟨query, hquery⟩

/-- The handler closes the descriptor once exactly when the handshake succeeds, the length comes
with both of its bytes and the thread does not end for want of a socket. -/
theorem ssl_releasesOnce_iff :
    (sslResolvAndRespond fuel now db x cache session).ReleasesOnce ↔
      session.accepted = true ∧ (∃ b₀ b₁, session.size = .data [b₀, b₁]) ∧
        ¬ EndsThread fuel now db x cache session := by
  by_cases haccepted : session.accepted = true
  · by_cases hsize : ∃ b₀ b₁, session.size = .data [b₀, b₁]
    · obtain ⟨b₀, b₁, hsize'⟩ := hsize
      rw [ssl_releasesOnce_iff_of_size haccepted hsize']
      simp [haccepted, hsize']
    · refine iff_of_false ?_ fun h => hsize h.2.1
      have hshort : sslResolvAndRespond fuel now db x cache session = ⟨[], .ok (-1, cache)⟩ := by
        unfold sslResolvAndRespond
        rw [if_neg (by simp [haccepted])]
        split
        · next b₀ b₁ h => exact absurd ⟨b₀, b₁, h⟩ hsize
        · rfl
      rw [hshort, releasesOnce_ok]
      decide
  · refine iff_of_false ?_ fun h => haccepted h.1
    have hrefused : sslResolvAndRespond fuel now db x cache session = ⟨[], .ok (-1, cache)⟩ := by
      unfold sslResolvAndRespond
      rw [if_pos haccepted]
    rw [hrefused, releasesOnce_ok]
    decide

/-- At any moment of any run of the queue, an accepted connection is released exactly once if and
only if the queue has room for its job, the handshake succeeds, the length comes with both of its
bytes and the thread does not end for want of a socket. -/
theorem tlsConnection_releasesOnce_iff {J : Type} {events : List (QueueEvent J)} {q : JobQueue J}
    (hq : QueueRun events q) (job : J) (fuel now : ℕ) (db : BucketTree) (x : Exchange)
    (cache : RrCache) (session : TlsSession) :
    (tlsConnection q job fuel now db x cache session).ReleasesOnce ↔
      q.len.toNat < nThreadsMax ∧ session.accepted = true ∧
        (∃ b₀ b₁, session.size = .data [b₀, b₁]) ∧
        ¬ EndsThread fuel now db x cache session := by
  obtain ⟨jobs, hjobs, -⟩ := hq.contents
  rw [hjobs.len_eq]
  unfold tlsConnection threadpoolAddJob
  rcases hjobs.len_le.eq_or_lt with hfull | hroom
  · rw [queuePush_full hjobs hfull]
    refine iff_of_false ?_ fun h => by omega
    dsimp only
    rw [if_pos (by decide), releasesOnce_ok]
    decide
  · obtain ⟨q', hpush, -⟩ := queuePush_accepts hjobs hroom job
    rw [hpush]
    simp only [hroom, true_and]
    rw [if_neg (by decide), ssl_releasesOnce_iff]

/-- A header with id 7 and nothing behind it. -/
def emptyRequest : List UInt8 := [0, 7, 0, 0, 0, 0, 0, 0, 0, 0, 0, 0]

def emptySession : TlsSession := ⟨true, .data [0, 12], fun _ => .data emptyRequest, true⟩

theorem tlsConnection_releasesOnce_iff_empty :
    (tlsConnection (queueInit : JobQueue ℕ) 0 1 0 (treeInit rrHash) ⟨7, .recvFail⟩ (initCache 0)
      emptySession).ReleasesOnce := by
  apply (tlsConnection_releasesOnce_iff .init 0 1 0 (treeInit rrHash) ⟨7, .recvFail⟩ (initCache 0)
    emptySession).2
  refine ⟨by decide, rfl, ⟨0, 12, rfl⟩, ?_⟩
  rintro ⟨b, query, -, -, -, hsocket⟩
  cases hsocket

/-- A connection whose handshake fails. -/
def refusedSession : TlsSession := ⟨false, .failed, fun _ => .failed, true⟩

/-- Its descriptor stays open. -/
theorem refusedSession_not_releasesOnce :
    ¬ (tlsConnection (queueInit : JobQueue ℕ) 0 1 0 (treeInit rrHash) ⟨7, .recvFail⟩ (initCache 0)
      refusedSession).ReleasesOnce := by
  intro h
  have hcount := h (Or.inl ⟨_, rfl⟩)
  exact absurd hcount (by decide)

end Release

end BakaDns
