import BakaDns.DecodeSafety
import BakaDns.Resolv

/-!
# The two transports

`udp_resolv_and_respond` and `ssl_resolv_and_respond` of `server.c`. What the sockets deliver is
an input. Each handler leaves the list of its calls, since a call of `resolv_handle` that does not
come back is still a call.
-/

namespace BakaDns
open CBytes ReadTrace

def tlsBufferSize : ℕ := 5120

/-- `construct_error_response`. -/
def constructErrorResponse (rcode : UInt8) : Message :=
  { Message.zero with
    header := { Message.zero.header with
      misc1 := createMisc1 qrResp opcodeQuery aaTrue tcFalse rdFalse
      misc2 := createMisc2 raTrue zFlag rcode } }

/-- Calls that leave the handler. `send` is `sendto` or `SSL_write`. -/
inductive ServerCall
  | sslRead (offset len : ℕ)
  | resolvHandle (query : Message)
  | send (b : List UInt8)
  | close
deriving DecidableEq, Repr

/-- The calls a handler made, and its return value with the cache it leaves. -/
structure Handled where
  calls : List ServerCall
  outcome : Except Fault (ℤ × RrCache)

/-- An `int` passed as a `uint32_t`. -/
def asUint32 (n : ℤ) : ℕ := (n % 2 ^ 32).toNat

/-- A fault of `message_to_u8` ends the handler. -/
def Handled.ofEncoder (e : Except Fault (ℤ × Mem)) (k : ℤ → Mem → Handled) : Handled :=
  match e with
  | .error fault => ⟨[], .error fault⟩
  | .ok (nsend, sendbuf) => k nsend sendbuf

/-- `udp_resolv_and_respond` from the decoded request on. `sendbuf` is memory without an end here;
on the stack it has `UDP_BUFFER_SIZE` bytes. -/
def udpRespond (fuel now : ℕ) (db : BucketTree) (x : Exchange) (cache : RrCache)
    (msgrcv : Message) : Handled :=
  match resolvHandle fuel now db x (fun _ => 0) cache msgrcv with
  | .error fault => ⟨[.resolvHandle msgrcv], .error fault⟩
  | .ok r =>
    if r.ret < 0 then ⟨[.resolvHandle msgrcv], .ok (-1, r.cache)⟩
    else ⟨[.resolvHandle msgrcv, .send (r.sendbuf.slice 0 (asUint32 r.ansSize))], .ok (1, r.cache)⟩

/-- `udp_resolv_and_respond` for the `nrecv` bytes that `recvfrom` put in the zeroed buffer. -/
def udpResolvAndRespond (fuel now : ℕ) (db : BucketTree) (x : Exchange) (cache : RrCache)
    (rcvbuffer : List UInt8) (nrecv : ℤ) : Handled :=
  match (messageFromBuf fuel rcvbuffer (asUint32 nrecv) Message.zero).result with
  | none => ⟨[], .error .hang⟩
  | some (ret, msgrcv) =>
    -- `message_from_buf` returns -1 for a packet it refuses
    if ret < -1 then
      .ofEncoder (messageToU8 (constructErrorResponse rcodeFormatError) (fun _ => 0) 0)
        fun nsend sendbuf => ⟨[.send (sendbuf.slice 0 (asUint32 nsend))], .ok (-1, cache)⟩
    else udpRespond fuel now db x cache msgrcv

/-- What one `SSL_read` does: it returns -1, or the number of bytes it delivers. -/
inductive SslRead
  | failed
  | data (b : List UInt8)
deriving DecidableEq, Repr

/-- One TLS connection: the handshake, the two bytes of the size, the reads of the body and
whether the reply can be written. -/
structure TlsSession where
  accepted : Bool
  size : SslRead
  reads : ℕ → SslRead
  writes : Bool

/-- The loop that reads the body: the flag says that the last `SSL_read` returned -1. A read that
delivers more than the buffer has room for overwrites the stack. -/
def receiveLoop (expected : ℕ) (reads : ℕ → SslRead) :
    ℕ → ℕ → List UInt8 → List ServerCall × Except Fault (Bool × List UInt8)
  | 0, _, recvbuf => ([], if recvbuf.length = expected then .ok (false, recvbuf) else .error .hang)
  | fuel + 1, k, recvbuf =>
    if recvbuf.length = expected then ([], .ok (false, recvbuf))
    else
      let call := ServerCall.sslRead recvbuf.length tlsBufferSize
      match reads k with
      | .failed => ([call], .ok (true, recvbuf))
      | .data b =>
        if recvbuf.length + b.length > tlsBufferSize then ([call], .error .crash)
        else
          let (calls, result) := receiveLoop expected reads fuel (k + 1) (recvbuf ++ b)
          (call :: calls, result)

/-- `*(uint16_t *)sendbuf = htons(nsend)`, and the bytes handed to `SSL_write`. -/
def sslWritten (sendbuf : Mem) (nsend : ℤ) : List UInt8 :=
  (sendbuf.write 0 (u16Be (UInt16.ofNat (nsend % 2 ^ 16).toNat))).slice 0 (nsend + 2).toNat

/-- `ssl_resolv_and_respond` from the decoded request on; the answer goes to `sendbuf + 2`. On the
stack `sendbuf` has `TLS_BUFFER_SIZE` bytes. -/
def sslRespond (fuel now : ℕ) (db : BucketTree) (x : Exchange) (cache : RrCache)
    (session : TlsSession) (msgrcv : Message) : Handled :=
  match resolvHandle fuel now db x (fun _ => 0) cache msgrcv with
  | .error fault => ⟨[.resolvHandle msgrcv], .error fault⟩
  | .ok r =>
    if r.ret < 0 then ⟨[.resolvHandle msgrcv, .close], .ok (-1, r.cache)⟩
    else
      let written := sslWritten (fun i => r.sendbuf (i - 2)) r.ansSize
      ⟨[.resolvHandle msgrcv, .send written, .close],
        .ok (if session.writes then 1 else -1, r.cache)⟩

/-- `ssl_resolv_and_respond` for a body that came in completely. -/
def sslHandleBody (fuel now : ℕ) (db : BucketTree) (x : Exchange) (cache : RrCache)
    (session : TlsSession) (recvbuf : List UInt8) : Handled :=
  match (messageFromBuf fuel recvbuf recvbuf.length Message.zero).result with
  | none => ⟨[], .error .hang⟩
  | some (ret, msgrcv) =>
    if ret < 0 then
      .ofEncoder (messageToU8 (constructErrorResponse rcodeFormatError) (fun _ => 0) 0)
        fun nsend sendbuf => ⟨[.send (sslWritten sendbuf nsend), .close], .ok (-1, cache)⟩
    else sslRespond fuel now db x cache session msgrcv

/-- `ssl_resolv_and_respond`. Its first two exits leave the descriptor open. -/
def sslResolvAndRespond (fuel now : ℕ) (db : BucketTree) (x : Exchange) (cache : RrCache)
    (session : TlsSession) : Handled :=
  if ¬ session.accepted then ⟨[], .ok (-1, cache)⟩
  else
    match session.size with
    | .data [b₀, b₁] =>
      let expected := (beU16 b₀ b₁).toNat
      match receiveLoop expected session.reads fuel 0 [] with
      | (calls, .error fault) => ⟨calls, .error fault⟩
      | (calls, .ok (failed, recvbuf)) =>
        if failed ∨ recvbuf.length ≠ expected then ⟨calls ++ [.close], .ok (-1, cache)⟩
        else
          let handled := sslHandleBody fuel now db x cache session recvbuf
          ⟨calls ++ handled.calls, handled.outcome⟩
    | _ => ⟨[], .ok (-1, cache)⟩

/-! Malformed requests. -/

section Malformed

variable {b : List UInt8} {fuel now : ℕ} {db : BucketTree} {x : Exchange} {cache : RrCache}
  {session : TlsSession}

/-- The decoder refuses the packet. -/
def Malformed (b : List UInt8) : Prop :=
  ∃ fuel ret msg, (messageFromBuf fuel b b.length Message.zero).result = some (ret, msg) ∧ ret < 0

/-- A response that reports a format error for the request `b`, under the request's id when the
request has one. -/
structure IsFormatError (b reply : List UInt8) : Prop where
  header : sizeofMessageHeader ≤ reply.length
  qr : qrOf (byteAt reply 2) = qrResp
  rcode : rcodeOf (byteAt reply 3) = rcodeFormatError
  id : 2 ≤ b.length → u16At reply 0 = u16At b 0

/-- A handler that answers the request `b` with a format error and does nothing else with it.
`frame` is how its transport wraps a message. The handlers never write to the database. -/
structure Handled.FailsClosed (h : Handled) (frame : List UInt8 → List UInt8) (b : List UInt8)
    (cache : RrCache) : Prop where
  sends : ∃ reply, IsFormatError b reply ∧ .send (frame reply) ∈ h.calls
  not_resolved : ∀ query, .resolvHandle query ∉ h.calls
  cache_eq : ∃ ret, h.outcome = .ok (ret, cache)

/-- A message over TLS comes after its length. -/
def tlsFrame (reply : List UInt8) : List UInt8 := u16Be (UInt16.ofNat reply.length) ++ reply

/-- The client sends `b` with its length, and the reads deliver all of it. -/
structure TlsSession.Delivers (session : TlsSession) (fuel : ℕ) (b : List UInt8) : Prop where
  accepted : session.accepted = true
  length_lt : b.length < 2 ^ 16
  size : session.size = .data (u16Be (UInt16.ofNat b.length))
  reads : (receiveLoop b.length session.reads fuel 0 []).2 = .ok (false, b)

/-- Both transports fail closed on `b`, whatever the state of the resolver is. -/
def FailClosed (b : List UInt8) : Prop :=
  ∀ fuel now db x cache,
    (udpResolvAndRespond fuel now db x cache b b.length).FailsClosed id b cache ∧
      ∀ session : TlsSession, session.Delivers fuel b →
        (sslResolvAndRespond fuel now db x cache session).FailsClosed tlsFrame b cache

/-- A packet is refused for its length or its TC bit, always with -1. -/
theorem malformed_iff (b : List UInt8) :
    Malformed b ↔ b.length < sizeofMessageHeader ∨ tcOf (headerAt b).misc1 ≠ 0 := by
  constructor
  · rintro ⟨fuel, ret, msg, h, hret⟩
    by_contra! hgood
    have h1 := messageFromBuf_ret (Nat.not_lt.2 hgood.1) hgood.2 h
    change ret = 1 at h1
    omega
  · intro h
    by_cases hsize : b.length < sizeofMessageHeader
    · exact ⟨0, -1, Message.zero, by simp [messageFromBuf_short hsize], by decide⟩
    · exact ⟨0, -1, _, messageFromBuf_truncated hsize (h.resolve_left hsize) 0, by decide⟩

theorem Malformed.ret_eq (h : Malformed b) (fuel : ℕ) {size : ℕ}
    (hsize : size = b.length ∨ sizeofMessageHeader ≤ b.length) :
    ∃ msg, (messageFromBuf fuel b size Message.zero).result = some (-1, msg) := by
  by_cases hshort : size < sizeofMessageHeader
  · exact ⟨Message.zero, by simp [messageFromBuf_short hshort]⟩
  · have htc : tcOf (headerAt b).misc1 ≠ 0 := by
      rcases (malformed_iff b).1 h with hb | htc
      · rcases hsize with rfl | hsize
        · exact absurd hb hshort
        · omega
      · exact htc
    exact ⟨_, messageFromBuf_truncated hshort htc fuel⟩

/-- The UDP path runs the resolver on what the decoder left. -/
theorem udp_resolves_malformed (hb : Malformed b) (fuel now : ℕ) (db : BucketTree) (x : Exchange)
    (cache : RrCache) :
    ∃ query, .resolvHandle query ∈
      (udpResolvAndRespond fuel now db x cache b b.length).calls := by
  have hsize : asUint32 b.length = b.length ∨ sizeofMessageHeader ≤ b.length := by
    simp only [asUint32, sizeofMessageHeader]
    omega
  obtain ⟨msg, hmsg⟩ := hb.ret_eq fuel hsize
  refine ⟨msg, ?_⟩
  unfold udpResolvAndRespond
  rw [hmsg]
  simp only [Int.lt_irrefl, if_false, udpRespond]
  split
  · simp
  · split <;> simp

/-- What the TLS path writes for a malformed request: the length in the place of the id. -/
def tlsErrorBytes : List UInt8 := [0, 12, 0x84, 0x81, 0, 0, 0, 0, 0, 0, 0, 0, 0, 0]

theorem sslHandleBody_malformed (hb : Malformed b) :
    sslHandleBody fuel now db x cache session b =
      ⟨[.send tlsErrorBytes, .close], .ok (-1, cache)⟩ := by
  obtain ⟨msg, hmsg⟩ := hb.ret_eq fuel (.inl rfl)
  unfold sslHandleBody
  rw [hmsg]
  rfl

theorem receiveLoop_calls {expected k : ℕ} {reads : ℕ → SslRead} {recvbuf : List UInt8}
    {call : ServerCall} (h : call ∈ (receiveLoop expected reads fuel k recvbuf).1) :
    ∃ offset len, call = .sslRead offset len := by
  induction fuel generalizing k recvbuf with
  | zero => cases h
  | succ fuel ih =>
    unfold receiveLoop at h
    split at h
    · cases h
    · dsimp only at h
      split at h
      · exact ⟨_, _, List.mem_singleton.1 h⟩
      · split at h
        · exact ⟨_, _, List.mem_singleton.1 h⟩
        · rcases List.mem_cons.1 h with rfl | h
          · exact ⟨_, _, rfl⟩
          · exact ih h

theorem toNat_beU16_length (h : b.length < 2 ^ 16) {b₀ b₁ : UInt8}
    (hsize : u16Be (UInt16.ofNat b.length) = [b₀, b₁]) : (beU16 b₀ b₁).toNat = b.length := by
  have hb := beU16_u16Be (UInt16.ofNat b.length)
  rw [hsize] at hb
  change beU16 b₀ b₁ = _ at hb
  rw [hb]
  exact UInt16.toNat_ofNat_of_lt h

/-- A session that delivers a request reads its body and then handles it. -/
theorem ssl_delivers (hs : session.Delivers fuel b) :
    sslResolvAndRespond fuel now db x cache session =
      ⟨(receiveLoop b.length session.reads fuel 0 []).1 ++
        (sslHandleBody fuel now db x cache session b).calls,
        (sslHandleBody fuel now db x cache session b).outcome⟩ := by
  unfold sslResolvAndRespond
  rw [if_neg (by simp [hs.accepted]), hs.size]
  have hexp := toNat_beU16_length hs.length_lt rfl
  simp only [u16Be] at hexp ⊢
  rw [hexp]
  have hloop : receiveLoop b.length session.reads fuel 0 [] =
      ((receiveLoop b.length session.reads fuel 0 []).1, .ok (false, b)) :=
    Prod.ext rfl hs.reads
  rw [hloop]
  simp

/-- A session that delivers a malformed request is answered with the same bytes always. -/
theorem ssl_malformed (hb : Malformed b) (hs : session.Delivers fuel b) (now : ℕ)
    (db : BucketTree) (x : Exchange) (cache : RrCache) :
    ∃ calls, (∀ call ∈ calls, ∃ offset len, call = .sslRead offset len) ∧
      sslResolvAndRespond fuel now db x cache session =
        ⟨calls ++ [.send tlsErrorBytes, .close], .ok (-1, cache)⟩ := by
  refine ⟨(receiveLoop b.length session.reads fuel 0 []).1, fun call => receiveLoop_calls, ?_⟩
  rw [ssl_delivers hs, sslHandleBody_malformed hb]

theorem tlsErrorBytes_not_formatError {reply : List UInt8} (h : tlsErrorBytes = tlsFrame reply) :
    ¬ IsFormatError b reply := by
  have hreply : reply = tlsErrorBytes.drop 2 := by
    rw [h]
    rfl
  intro hf
  have hr := hf.rcode
  rw [hreply] at hr
  exact absurd hr (by decide)

/-- Neither transport fails closed on any malformed request: the UDP path does not recognise the
decoder's error, and the TLS path sends a reply without an error code. -/
theorem malformed_not_failsClosed (b : List UInt8) (hb : Malformed b)
    (fuel now : ℕ) (db : BucketTree) (x : Exchange) (cache : RrCache) :
    ¬ (udpResolvAndRespond fuel now db x cache b b.length).FailsClosed id b cache ∧
      ∀ session : TlsSession, session.Delivers fuel b →
        ¬ (sslResolvAndRespond fuel now db x cache session).FailsClosed tlsFrame b cache := by
  constructor
  · intro h
    obtain ⟨query, hquery⟩ := udp_resolves_malformed hb fuel now db x cache
    exact h.not_resolved query hquery
  · intro session hs h
    obtain ⟨calls, hcalls, heq⟩ := ssl_malformed hb hs now db x cache
    obtain ⟨reply, hreply, hsend⟩ := h.sends
    rw [heq] at hsend
    rcases List.mem_append.1 hsend with hsend | hsend
    · obtain ⟨offset, len, hcall⟩ := hcalls _ hsend
      cases hcall
    · have hbytes : tlsFrame reply = tlsErrorBytes := by simpa using hsend
      exact tlsErrorBytes_not_formatError hbytes.symm hreply

/-- A header with id 0x1234, TC set and nothing behind it. -/
def truncatedRequest : List UInt8 := [0x12, 0x34, 0x02, 0, 0, 0, 0, 0, 0, 0, 0, 0]

/-- A connection that brings `truncatedRequest` in one read. -/
def truncatedSession : TlsSession := ⟨true, .data [0, 12], fun _ => .data truncatedRequest, true⟩

theorem truncatedRequest_malformed : Malformed truncatedRequest :=
  (malformed_iff _).2 (.inr (by decide))

theorem truncatedSession_delivers : truncatedSession.Delivers 1 truncatedRequest where
  accepted := rfl
  length_lt := by decide
  size := rfl
  reads := rfl

theorem malformed_not_failsClosed_truncated :
    ¬ (udpResolvAndRespond 1 0 (treeInit rrHash) ⟨7, .recvFail⟩ (initCache 0) truncatedRequest
        12).FailsClosed id truncatedRequest (initCache 0) ∧
      ¬ (sslResolvAndRespond 1 0 (treeInit rrHash) ⟨7, .recvFail⟩ (initCache 0)
        truncatedSession).FailsClosed tlsFrame truncatedRequest (initCache 0) := by
  obtain ⟨hudp, htls⟩ := malformed_not_failsClosed truncatedRequest truncatedRequest_malformed 1 0
    (treeInit rrHash) ⟨7, .recvFail⟩ (initCache 0)
  exact ⟨hudp, htls truncatedSession truncatedSession_delivers⟩

/-- The truncated request reaches the resolver over UDP. -/
theorem truncatedRequest_not_failClosed :
    Malformed truncatedRequest ∧ ¬ FailClosed truncatedRequest := by
  refine ⟨truncatedRequest_malformed, fun h => ?_⟩
  have hudp := (h 1 0 (treeInit rrHash) ⟨7, .recvFail⟩ (initCache 0)).1
  obtain ⟨query, hquery⟩ :=
    udp_resolves_malformed truncatedRequest_malformed 1 0 (treeInit rrHash) ⟨7, .recvFail⟩
      (initCache 0)
  exact hudp.not_resolved query hquery

end Malformed

end BakaDns
