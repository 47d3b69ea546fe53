import BakaDns.JobBlocks
import BakaDns.TlsConnections

/-!
# The blocks of a TLS job

`ssl_resolv_and_respond` from its argument to its last `free`. It cleans up less than the UDP job
does: the argument stays behind when the size of the request does not come, and the request when
the answer cannot be made or written.
-/

namespace BakaDns
open Blocks ReadTrace
open CBytes (beU16)

/-- The end of `ssl_resolv_and_respond`: `cleanup_session` on every path, but `free_heap_message`
only on the last. -/
def sslFinish (args : Addr) (session : TlsSession) (r : ResolvBlocks) : Mem Fault (List NodePtrs) :=
  if r.result.ret < 0 ∨ ¬ session.writes then do
    free args
    pure r.nodes
  else do
    let _ ← r.query.free r.result.query.header
    free args
    pure r.nodes

/-- `ssl_resolv_and_respond` for a body that came in completely. -/
def sslBodyBlocks (fuel now : ℕ) (db : BucketTree) (x : Exchange)
    (stored : ResourceRecord → RecordPtrs) (cache : RrCache) (session : TlsSession)
    (recvbuf : List UInt8) (args : Addr) : Mem Fault (List NodePtrs) :=
  match (messageFromBuf fuel recvbuf recvbuf.length Message.zero).result with
  | none => lift (.error .hang)
  | some (ret, msgrcv) =>
    if ret < 0 then do
      let m ← mallocMessage ret msgrcv MessagePtrs.null
      let _ ← lift (messageToU8 (constructErrorResponse rcodeFormatError) (fun _ => 0) 0)
      let _ ← m.free msgrcv.header
      free args
      pure []
    else do
      let m ← mallocMessage ret msgrcv MessagePtrs.null
      let r ← resolvHandleBlocks fuel now db x (fun _ => 0) stored cache msgrcv m
      sslFinish args session r

/-- `ssl_resolv_and_respond`: the nodes that it leaves in the cache. -/
def sslBlocks (fuel now : ℕ) (db : BucketTree) (x : Exchange)
    (stored : ResourceRecord → RecordPtrs) (cache : RrCache) (session : TlsSession)
    (args : Addr) : Mem Fault (List NodePtrs) :=
  if ¬ session.accepted then do
    free args
    pure []
  else
    match session.size with
    | .data [b₀, b₁] => do
      let (failed, recvbuf) ← lift (receiveLoop (beU16 b₀ b₁).toNat session.reads fuel 0 []).2
      if failed ∨ recvbuf.length ≠ (beU16 b₀ b₁).toNat then do
        free args
        pure []
      else sslBodyBlocks fuel now db x stored cache session recvbuf args
    -- "read size timeout": the argument is not freed
    | _ => pure []

section Session

variable {fuel now insertFuel : ℕ} {db : BucketTree} {x : Exchange} {cache cache' : RrCache}
  {hashFun : List UInt8 → UInt32} {relay : List ResourceRecord} {session : TlsSession}
  {stored : ResourceRecord → RecordPtrs} {xs : List (LinkedHeap.Addr × CacheEntry)}
  {args : Addr} {b : List UInt8} {s t : Multiset Addr}

/-- The handshake succeeds, but two bytes of size do not come. -/
structure TlsSession.LosesSize (session : TlsSession) : Prop where
  accepted : session.accepted = true
  size : ∀ b₀ b₁, session.size ≠ .data [b₀, b₁]

/-- The body is a query whose answer is written and frees names that the query still points to. -/
def BodyFreesNames (fuel now : ℕ) (db : BucketTree) (x : Exchange) (cache : RrCache)
    (session : TlsSession) (b : List UInt8) : Prop :=
  session.writes = true ∧ ∃ query,
    (messageFromBuf fuel b b.length Message.zero).result = some (1, query) ∧
      FreesNames fuel now db x cache query

/-- The end of the job fails exactly when it frees a query some of whose blocks are gone. -/
theorem sslFinish_frees {o : ResolvBlocks} (ho : o.query.Of o.result.query)
    {shared rest : Multiset Addr} (hblocks : o.query.blocks = shared + rest)
    (hs : s = {args} + (rest + t)) (hgone : ∀ a ∈ shared, a ∉ s) :
    ((shared = 0 ∨ o.result.ret < 0 ∨ ¬ session.writes) →
      Turns (sslFinish args session o) s fun nodes s' => nodes = o.nodes ∧
        (∃ lost, s' = lost + t) ∧ args ∉ s') ∧
      (shared ≠ 0 → 0 ≤ o.result.ret → session.writes = true →
        Fails (sslFinish args session o) s) := by
  unfold sslFinish
  constructor
  · intro hcases
    by_cases hearly : o.result.ret < 0 ∨ ¬ session.writes
    · rw [if_pos hearly]
      refine (turns_freeArgs o.nodes hs).mono ?_
      rintro _ _ ⟨hnodes, rfl, hargs⟩
      exact ⟨hnodes, ⟨rest, rfl⟩, hargs⟩
    · rw [if_neg hearly]
      obtain rfl := hcases.resolve_right hearly
      rw [zero_add] at hblocks
      rw [← hblocks] at hs
      refine (turns_freeBoth ho hs).mono ?_
      rintro _ _ ⟨hnodes, rfl, hargs⟩
      exact ⟨hnodes, ⟨0, (zero_add _).symm⟩, hargs⟩
  · intro hshared hret hwrites
    have hlate : ¬ (o.result.ret < 0 ∨ ¬ session.writes) := by
      rintro (hneg | hfails)
      · exact absurd hret (not_le.2 hneg)
      · exact hfails hwrites
    rw [if_neg hlate]
    exact (ho.fails_free hblocks hgone hshared).bind _

/-- A body that the decoder refuses leaves nothing behind. -/
theorem turns_sslBody_refused {ret₀ : ℤ} {msg : Message} (hret₀ : ret₀ < 0)
    (hdecodes : (messageFromBuf fuel b b.length Message.zero).result = some (ret₀, msg))
    {r : ℤ × CBytes.Mem}
    (hencode : messageToU8 (constructErrorResponse rcodeFormatError) (fun _ => 0) 0 = .ok r)
    (stored : ResourceRecord → RecordPtrs) (args : Addr) (s : Multiset Addr) :
    Turns (sslBodyBlocks fuel now db x stored cache session b args) ({args} + s)
      fun nodes s' => nodes = [] ∧ s' = s ∧ args ∉ s' := by
  have hnull : mallocMessage ret₀ msg MessagePtrs.null = pure MessagePtrs.null := if_pos hret₀
  have hcounted : MessagePtrs.null.Counted msg.header :=
    (MessagePtrs.null_of msg.header).counted
  unfold sslBodyBlocks
  rw [hdecodes]
  dsimp only
  rw [if_pos hret₀, hnull, pure_bind]
  refine turns_lift hencode ((hcounted.frees.turns (zero_add _).symm).bind ?_)
  rintro _ _ ⟨-, rfl⟩
  exact turns_freeArgs [] rfl

/-- From a complete body on. -/
theorem sslBody_frees (hdb : insertAll insertFuel (treeInit hashFun) relay = some db)
    (hrep : CacheRep cache xs) {ret : ℤ}
    (h : (sslHandleBody fuel now db x cache session b).outcome = .ok (ret, cache'))
    (stored : ResourceRecord → RecordPtrs) (args : Addr) (s : Multiset Addr) :
    (¬ BodyFreesNames fuel now db x cache session b →
      Turns (sslBodyBlocks fuel now db x stored cache session b args) ({args} + s)
        fun nodes s' => (∃ lost, s' = nodeBlocks nodes + (lost + s)) ∧ args ∉ s') ∧
    (BodyFreesNames fuel now db x cache session b →
      Fails (sslBodyBlocks fuel now db x stored cache session b args) ({args} + s)) := by
  unfold sslHandleBody at h
  cases hdecodes : (messageFromBuf fuel b b.length Message.zero).result with
  | none =>
    rw [hdecodes] at h
    cases h
  | some p =>
    obtain ⟨ret₀, query⟩ := p
    rw [hdecodes] at h
    dsimp only at h
    by_cases hret₀ : ret₀ < 0
    · rw [if_pos hret₀] at h
      constructor
      · intro _
        obtain ⟨r, hencode⟩ : ∃ r, messageToU8 (constructErrorResponse rcodeFormatError)
            (fun _ => 0) 0 = .ok r := by
          cases hencode : messageToU8 (constructErrorResponse rcodeFormatError) (fun _ => 0) 0 with
          | error fault =>
            rw [hencode] at h
            cases h
          | ok r => exact ⟨r, rfl⟩
        refine (turns_sslBody_refused hret₀ hdecodes hencode stored args s).mono ?_
        rintro _ _ ⟨rfl, rfl, hargs⟩
        exact ⟨⟨0, by simp [nodeBlocks]⟩, hargs⟩
      · rintro ⟨-, query', hquery, -⟩
        cases hdecodes.symm.trans hquery
        exact absurd hret₀ (by decide)
    · rw [if_neg hret₀, sslRespond] at h
      obtain ⟨r, hr⟩ : ∃ r, resolvHandle fuel now db x (fun _ => 0) cache query = .ok r := by
        cases hr : resolvHandle fuel now db x (fun _ => 0) cache query with
        | error fault =>
          rw [hr] at h
          cases h
        | ok r => exact ⟨r, rfl⟩
      obtain rfl : ret₀ = 1 := messageFromBuf_ret_of_nonneg hdecodes hret₀
      have hturns := turns_decodeAndHandle hdb hrep hdecodes hr stored args s
      unfold sslBodyBlocks
      rw [hdecodes]
      dsimp only
      rw [if_neg hret₀, ← bind_assoc]
      constructor
      · intro hfree
        refine hturns.bind ?_
        rintro o s₂ ⟨rfl, ho, shared, rest, lost, hblocks, hheld, hgone, hshared⟩
        have hcases : shared = 0 ∨ o.result.ret < 0 ∨ ¬ session.writes := by
          by_cases hwrites : session.writes = true
          · exact .inl (hshared.2 fun hnames => hfree ⟨hwrites, query, hdecodes, hnames⟩)
          · exact .inr (.inr hwrites)
        refine ((sslFinish_frees ho hblocks hheld hgone).1 hcases).mono ?_
        rintro nodes s' ⟨rfl, ⟨lost', hs'⟩, hargs⟩
        refine ⟨⟨lost' + lost, ?_⟩, hargs⟩
        rw [hs']
        abel
      · rintro ⟨hwrites, query', hquery, hnames⟩
        cases hdecodes.symm.trans hquery
        refine hturns.fails ?_
        rintro o s₂ ⟨rfl, ho, shared, rest, lost, hblocks, hheld, hgone, hshared⟩
        have hret : 0 ≤ o.result.ret := by
          obtain ⟨built, r, -, -, hr', hret⟩ := hnames
          cases hr.symm.trans hr'
          exact hret
        exact (sslFinish_frees ho hblocks hheld hgone).2 (fun hz => hshared.1 hz hnames) hret
          hwrites

/-- The session brings such a body. -/
def SslFreesNames (fuel now : ℕ) (db : BucketTree) (x : Exchange) (cache : RrCache)
    (session : TlsSession) : Prop :=
  ∃ b, session.Delivers fuel b ∧ BodyFreesNames fuel now db x cache session b

theorem sslBlocks_losesSize (hs : session.LosesSize) :
    sslBlocks fuel now db x stored cache session args = pure [] := by
  unfold sslBlocks
  rw [if_neg (not_not.2 hs.accepted)]
  split
  · next b₀ b₁ hsize => exact absurd hsize (hs.size b₀ b₁)
  · rfl

theorem TlsSession.Delivers.not_losesSize (hs : session.Delivers fuel b) :
    ¬ session.LosesSize := fun h => h.size _ _ hs.size

/-- When the handler comes back, a TLS job gives back what it has not lost or put into the cache,
and touches no block of anybody else; its argument stays behind exactly when the size of the
request did not come. It frees a name a second time exactly when the UDP job would, provided that
the answer is written: otherwise the request is lost instead. -/
theorem sslJob_frees_iff (hdb : insertAll insertFuel (treeInit hashFun) relay = some db)
    (hrep : CacheRep cache xs) {ret : ℤ}
    (h : (sslResolvAndRespond fuel now db x cache session).outcome = .ok (ret, cache'))
    (stored : ResourceRecord → RecordPtrs) (args : Addr) (s : Multiset Addr) :
    (¬ SslFreesNames fuel now db x cache session →
      Turns (sslBlocks fuel now db x stored cache session args) ({args} + s)
        fun nodes s' => (∃ lost, s' = nodeBlocks nodes + (lost + s)) ∧
          (args ∈ s' ↔ session.LosesSize)) ∧
    (SslFreesNames fuel now db x cache session →
      Fails (sslBlocks fuel now db x stored cache session args) ({args} + s)) := by
  -- the exits before the body is complete
  have hearly : ¬ session.LosesSize → Turns (do
      free args
      pure [] : Mem Fault (List NodePtrs)) ({args} + s) fun nodes s' =>
        (∃ lost, s' = nodeBlocks nodes + (lost + s)) ∧ (args ∈ s' ↔ session.LosesSize) := by
    intro hsize
    refine (turns_freeArgs [] rfl).mono ?_
    rintro _ _ ⟨rfl, rfl, hargs⟩
    exact ⟨⟨0, by simp [nodeBlocks]⟩, iff_of_false hargs hsize⟩
  by_cases hacc : session.accepted = true
  swap
  · have hsize : ¬ session.LosesSize := fun hl => hacc hl.accepted
    unfold sslBlocks
    rw [if_pos hacc]
    refine ⟨fun _ => hearly hsize, ?_⟩
    rintro ⟨b, hs, -⟩
    exact absurd hs.accepted hacc
  by_cases hlost : session.LosesSize
  · rw [sslBlocks_losesSize hlost]
    refine ⟨fun _ => turns_pure ⟨⟨{args}, ?_⟩, iff_of_true ?_ hlost⟩, ?_⟩
    · simp [nodeBlocks]
    · exact Multiset.mem_add.2 (.inl (Multiset.mem_singleton_self args))
    · rintro ⟨b, hs, -⟩
      exact absurd hlost hs.not_losesSize
  obtain ⟨b₀, b₁, hsize⟩ : ∃ b₀ b₁, session.size = .data [b₀, b₁] := by
    by_contra! hnone
    exact hlost ⟨hacc, hnone⟩
  unfold sslResolvAndRespond at h
  unfold sslBlocks
  rw [if_neg (not_not.2 hacc), hsize] at h ⊢
  dsimp only at h ⊢
  cases hloop : receiveLoop (beU16 b₀ b₁).toNat session.reads fuel 0 [] with
  | mk calls result =>
    have hdelivers : ∀ b, session.Delivers fuel b ↔
        b.length = (beU16 b₀ b₁).toNat ∧ result = .ok (false, b) := by
      intro b
      rw [delivers_iff hacc hsize, hloop]
    rw [hloop] at h
    cases result with
    | error fault => cases h
    | ok p =>
      obtain ⟨failed, recvbuf⟩ := p
      dsimp only at h ⊢
      rw [lift_ok_bind]
      dsimp only
      by_cases hbad : failed = true ∨ recvbuf.length ≠ (beU16 b₀ b₁).toNat
      · rw [if_pos hbad]
        refine ⟨fun _ => hearly hlost, ?_⟩
        rintro ⟨b, hs, -⟩
        obtain ⟨hlen, heq⟩ := (hdelivers b).1 hs
        cases heq
        exact absurd hlen (hbad.resolve_left Bool.false_ne_true)
      · rw [if_neg hbad] at h ⊢
        obtain ⟨hfailed, hlen⟩ := not_or.1 hbad
        obtain rfl := Bool.eq_false_of_not_eq_true hfailed
        have hs : session.Delivers fuel recvbuf := (hdelivers recvbuf).2 ⟨not_not.1 hlen, rfl⟩
        obtain ⟨hfrees, hfails⟩ := sslBody_frees hdb hrep h stored args s
        constructor
        · intro hfree
          refine (hfrees fun hbody => hfree ⟨recvbuf, hs, hbody⟩).mono ?_
          rintro nodes s' ⟨hheld, hargs⟩
          exact ⟨hheld, iff_of_false hargs hlost⟩
        · rintro ⟨b, hs', hbody⟩
          obtain ⟨-, heq⟩ := (hdelivers b).1 hs'
          cases heq
          exact hfails hbody

/-- A connection that brings `overlongRequest`. -/
def overlongSession : TlsSession :=
  ⟨true, .data (CBytes.u16Be (UInt16.ofNat overlongRequest.length)), fun _ => .data overlongRequest,
    true⟩

theorem overlongSession_delivers : overlongSession.Delivers 512 overlongRequest where
  accepted := rfl
  length_lt := by decide +kernel
  size := rfl
  reads := by decide +kernel

theorem TlsSession.Delivers.unique {b' : List UInt8} (h : session.Delivers fuel b)
    (h' : session.Delivers fuel b') : b = b' := by
  obtain ⟨b₀, b₁, hsize⟩ : ∃ b₀ b₁, session.size = .data [b₀, b₁] := ⟨_, _, h.size⟩
  obtain ⟨-, heq⟩ := (delivers_iff h.accepted hsize).1 h
  obtain ⟨-, heq'⟩ := (delivers_iff h.accepted hsize).1 h'
  rw [heq'] at heq
  cases heq
  rfl

/-- A connection that brings `shortRequest`. -/
def shortSession : TlsSession :=
  ⟨true, .data (CBytes.u16Be (UInt16.ofNat shortRequest.length)), fun _ => .data shortRequest, true⟩

theorem shortSession_delivers : shortSession.Delivers 64 shortRequest where
  accepted := rfl
  length_lt := by decide
  size := rfl
  reads := rfl

/-- A connection that ends after one of the two size bytes. -/
def lostSession : TlsSession := ⟨true, .data [0], fun _ => .failed, true⟩

/-- A query that is forwarded and whose reply is cached frees everything once, and its argument too;
a session without its size bytes does not free it, and an overlong name is freed twice. -/
theorem sslJob_frees_iff_overlong :
    Turns (sslBlocks 64 0 (treeInit rrHash) shortReply (fun _ => RecordPtrs.null) (initCache 0)
        shortSession 1) ({1} + {2})
      (fun nodes s' => (∃ lost, s' = nodeBlocks nodes + (lost + {2})) ∧ 1 ∉ s') ∧
    Turns (sslBlocks 64 0 (treeInit rrHash) shortReply (fun _ => RecordPtrs.null) (initCache 0)
        lostSession 1) ({1} + {2})
      (fun nodes s' => (∃ lost, s' = nodeBlocks nodes + (lost + {2})) ∧ 1 ∈ s') ∧
    Fails (sslBlocks 512 0 (treeInit rrHash) ⟨7, .recvFail⟩ (fun _ => RecordPtrs.null)
      (initCache 0) overlongSession 1) ({1} + {2}) := by
  have hdb : insertAll 0 (treeInit rrHash) [] = some (treeInit rrHash) := rfl
  refine ⟨?_, ?_, ?_⟩
  · have hdecodes : (messageFromBuf 64 shortRequest shortRequest.length
        Message.zero).result = some (1, shortMessage) := by decide +kernel
    have hreturns : (sslResolvAndRespond 64 0 (treeInit rrHash) shortReply (initCache 0)
        shortSession).outcome.toOption.map Prod.fst = some 1 := by decide +kernel
    obtain ⟨⟨ret, cache'⟩, hout, -⟩ := ok_of_toOption_map hreturns
    have hnames : ¬ SslFreesNames 64 0 (treeInit rrHash) shortReply (initCache 0) shortSession := by
      rintro ⟨b, hs, -, query, hquery, hfrees⟩
      obtain rfl := shortSession_delivers.unique hs
      cases hdecodes.symm.trans hquery
      exact shortMessage_not_freesNames hfrees
    refine ((sslJob_frees_iff hdb (initCache_rep 0) hout (fun _ => RecordPtrs.null) 1 {2}).1
      hnames).mono ?_
    rintro nodes s' ⟨hheld, hargs⟩
    exact ⟨hheld, fun hmem => shortSession_delivers.not_losesSize (hargs.1 hmem)⟩
  · have hreturns : (sslResolvAndRespond 64 0 (treeInit rrHash) shortReply (initCache 0)
        lostSession).outcome.toOption.map Prod.fst = some (-1) := by decide +kernel
    obtain ⟨⟨ret, cache'⟩, hout, -⟩ := ok_of_toOption_map hreturns
    have hloses : lostSession.LosesSize := ⟨rfl, fun b₀ b₁ => by simp [lostSession]⟩
    refine ((sslJob_frees_iff hdb (initCache_rep 0) hout (fun _ => RecordPtrs.null) 1 {2}).1
      ?_).mono ?_
    · rintro ⟨b, hs, -⟩
      exact hs.not_losesSize hloses
    · rintro nodes s' ⟨hheld, hargs⟩
      exact ⟨hheld, hargs.2 hloses⟩
  · have hdecodes : (messageFromBuf 512 overlongRequest overlongRequest.length
        Message.zero).result = some (1, overlongMessage) := by decide +kernel
    have hreturns : (sslResolvAndRespond 512 0 (treeInit rrHash) ⟨7, .recvFail⟩ (initCache 0)
        overlongSession).outcome.toOption.map Prod.fst = some 1 := by decide +kernel
    obtain ⟨⟨ret, cache'⟩, hout, -⟩ := ok_of_toOption_map hreturns
    exact (sslJob_frees_iff hdb (initCache_rep 0) hout (fun _ => RecordPtrs.null) 1 {2}).2
      ⟨overlongRequest, overlongSession_delivers, rfl, overlongMessage, hdecodes,
        overlongMessage_freesNames⟩

end Session

end BakaDns
