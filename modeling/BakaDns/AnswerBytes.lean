import BakaDns.Forwarding
import BakaDns.ResolvRuns

/-!
# The bytes of a local answer

From the query to what the client decodes, for a question that the cache or the database answers.
-/

namespace BakaDns
open CBytes ReadTrace LinkedHeap

/-- A cached copy of a record that `message_from_buf` produced from some datagram. -/
def Decoded (e : ResourceRecord) : Prop :=
  ∃ (fuel : ℕ) (buf : List UInt8) (size : ℕ) (m : Message) (rr : ResourceRecord),
    buf.length + 3 < 2 ^ 16 ∧
      (messageFromBuf fuel buf size Message.zero).result = some (1, m) ∧
      some rr ∈ m.answer ++ m.authority ++ m.addition ∧ e = { rrCopy rr with ttl := e.ttl }

/-- The records for a question. -/
def matching (cached : List ResourceRecord) (q : MessageQuestion) : List ResourceRecord :=
  cached.filter fun e => e.name == q.qname && e.type == q.qtype && e.rrclass == q.qclass

/-- The call answers with these records, whatever the external server would have said: it writes
`ansSize` bytes, and they decode to the response. -/
structure AnswersClient (now : ℕ) (db : BucketTree) (sendbuf : Mem) (cache : RrCache)
    (query : Message) (q : MessageQuestion) (rrs : List ResourceRecord) (r : ResolvResult)
    (m : Message) : Prop where
  found : ∃ st, lookupQuery now db cache query = .ok (st, .found)
  result : ∀ fuel x, resolvHandle fuel now db x sendbuf cache query = .ok r
  ret : r.ret = 1
  size : 0 ≤ r.ansSize
  outside : ∀ i, i < 0 ∨ r.ansSize ≤ i → r.sendbuf i = sendbuf i
  decodes : ∀ extra (size fuel : ℕ), r.ansSize ≤ size → 2 ^ 16 ≤ fuel →
    (messageFromBuf fuel (r.sendbuf.slice 0 r.ansSize.toNat ++ extra) size Message.zero).result =
      some (1, m)
  id : m.header.id = query.header.id
  qr : qrOf m.header.misc1 = qrResp
  rcode : rcodeOf m.header.misc2 = rcodeNoError
  holds : m.Holds ⟨[q], rrs, [], []⟩

/-! Records of the cache. -/

section Cached

variable {e : ResourceRecord} {q : MessageQuestion} {cached : List ResourceRecord} {fuel : ℕ}

/-- What is known of a cached record: it was read from a datagram, and then copied. -/
theorem Decoded.read (h : Decoded e) : ∃ (fuel : ℕ) (buf : List UInt8) (p end' : ℕ)
    (rr : ResourceRecord), buf.length + 3 < 2 ^ 16 ∧
      (msgRrFromBuf fuel buf p).result = some (rr, end') ∧ e = { rrCopy rr with ttl := e.ttl } := by
  obtain ⟨fuel, buf, size, m, rr, hbuf, hdecodes, hmem, he⟩ := h
  obtain ⟨s, hm, hs, -⟩ := messageFromBuf_sections hdecodes
  have hread : ∃ p e, (msgRrFromBuf fuel buf p).result = some (rr, e) := by
    rw [hm.answer, hm.authority, hm.addition] at hmem
    rcases List.mem_append.1 hmem with hmem | hmem
    · rcases List.mem_append.1 hmem with hmem | hmem
      · exact hs.answer rr (by simpa using hmem)
      · exact hs.authority rr (by simpa using hmem)
    · exact hs.addition rr (by simpa using hmem)
  obtain ⟨p, end', hread⟩ := hread
  exact ⟨fuel, buf, p, end', rr, hbuf, hread, he⟩

theorem ResourceRecord.ReadsBack.rrCopy_eq {rr : ResourceRecord} (h : rr.ReadsBack fuel) :
    rrCopy rr = rr := rrCopy_eq_self h.name.cstr_append h.rdlength

theorem ResourceRecord.ReadsBack.setTtl {rr : ResourceRecord} (h : rr.ReadsBack fuel)
    (ttl : UInt32) : ResourceRecord.ReadsBack fuel { rr with ttl := ttl } :=
  ⟨h.name, h.rdlength, h.rdata⟩

/-- A cached record with a good name is read back as it is. -/
theorem Decoded.readsBack (h : Decoded e) (hname : domainLen e.name ≠ none)
    (htype : e.type ≠ rrtypeSoa) (hfuel : 2 ^ 16 ≤ fuel) : e.ReadsBack fuel := by
  obtain ⟨fuel', buf, p, end', rr, hbuf, hread, he⟩ := h.read
  have hname' : domainLen rr.name ≠ none := by
    rw [he] at hname
    change domainLen (rrCopy rr).name ≠ none at hname
    rwa [domainLen_congr (cstr_rrCopy rr)] at hname
  have htype' : rr.type ≠ rrtypeSoa := by
    rw [he] at htype
    change (rrCopy rr).type ≠ rrtypeSoa at htype
    rwa [rrCopy_type] at htype
  have hback := msgRrFromBuf_readsBack hbuf hread hname' htype' hfuel
  rw [hback.rrCopy_eq] at he
  rw [he]
  exact hback.setTtl e.ttl

/-- The cache compares names as strings; for decoded records that is equality. -/
theorem Decoded.cacheFinds_iff (h : Decoded e) (hq : IsName q.qname) (hsoa : q.qtype ≠ rrtypeSoa) :
    cacheFinds q.qname q.qtype q.qclass e = true ↔
      (e.name == q.qname && e.type == q.qtype && e.rrclass == q.qclass) = true := by
  constructor
  · intro hfinds
    have hlen := domainLen_of_cacheFinds hq.domainLen_ne_none hfinds
    simp only [cacheFinds, Bool.and_eq_true, beq_iff_eq] at hfinds
    obtain ⟨⟨htype, hclass⟩, hname⟩ := hfinds
    have hsoa' : e.type ≠ rrtypeSoa := by
      rw [← htype]
      exact hsoa
    have hback := h.readsBack hlen hsoa' (Nat.le_refl _)
    have heq : e.name = q.qname := by
      rw [← hback.name.cstr_append, ← hq.cstr_append, (strncmpEq_domainLen hlen).1 hname]
    simp [heq, htype, hclass]
  · intro hsame
    simp only [Bool.and_eq_true, beq_iff_eq] at hsame
    obtain ⟨⟨hname, htype⟩, hclass⟩ := hsame
    have hstr : strncmpEq q.qname e.name (asSize (domainLen e.name)) = true := by
      rw [strncmpEq_iff, hname]
    simp [cacheFinds, htype, hclass, hstr]

/-- What the cache finds for a question are the records for it, unchanged and in order. -/
theorem cachedFor_eq_matching (hcached : ∀ e ∈ cached, Decoded e) (hq : IsName q.qname)
    (hsoa : q.qtype ≠ rrtypeSoa) : cachedFor cached q = matching cached q := by
  have hfilter : cached.filter (cacheFinds q.qname q.qtype q.qclass) = matching cached q := by
    apply List.filter_congr
    intro e he
    exact Bool.eq_iff_iff.2 ((hcached e he).cacheFinds_iff hq hsoa)
  rw [cachedFor, hfilter]
  refine (List.map_congr_left ?_).trans (List.map_id _)
  intro e he
  obtain ⟨hmem, hsame⟩ := List.mem_filter.1 he
  simp only [Bool.and_eq_true, beq_iff_eq] at hsame
  obtain ⟨⟨hname, htype⟩, -⟩ := hsame
  have hlen : domainLen e.name ≠ none := by
    rw [hname]
    exact hq.domainLen_ne_none
  exact ((hcached e hmem).readsBack hlen (htype ▸ hsoa) (Nat.le_refl _)).rrCopy_eq

theorem matching_readsBack (hcached : ∀ e ∈ cached, Decoded e) (hq : IsName q.qname)
    (hsoa : q.qtype ≠ rrtypeSoa) (hfuel : 2 ^ 16 ≤ fuel) :
    ∀ e ∈ matching cached q, e.ReadsBack fuel := by
  intro e he
  obtain ⟨hmem, hsame⟩ := List.mem_filter.1 he
  simp only [Bool.and_eq_true, beq_iff_eq] at hsame
  obtain ⟨⟨hname, htype⟩, -⟩ := hsame
  refine (hcached e hmem).readsBack ?_ (htype ▸ hsoa) hfuel
  rw [hname]
  exact hq.domainLen_ne_none

end Cached

/-! From the question loop to the bytes. -/

section Bytes

variable {cache : RrCache} {xs : List (Addr × CacheEntry)} {db : BucketTree} {query : Message}
  {q : MessageQuestion} {rrs rest : List ResourceRecord} {now : ℕ} {sendbuf : Mem}

theorem mqCopy_eq (hq : IsName q.qname) : mqCopy q = q := by
  obtain ⟨n, hn⟩ := Option.ne_none_iff_exists'.1 hq.domainLen_ne_none
  rw [mqCopy, hn]
  dsimp only
  rw [copyOut_domainLen hn, hq.cstr_append]

/-- The response to a question whose records are at the start of the answer buffer. -/
theorem answersClient_of_found {st : LookupState} (hquery : IsQuery query [q])
    (hq : IsName q.qname) (hrrs : ∀ fuel, 2 ^ 16 ≤ fuel → ∀ rr ∈ rrs, rr.ReadsBack fuel)
    (hlen : rrs.length ≤ ancountMax)
    (hlookup : lookupQuestion now db q
      ⟨cache, List.replicate ancountMax ResourceRecord.zero, 0⟩ = .ok (st, true))
    (hbuf : st.ansBuffer = rrs ++ rest) (hcnt : st.ansCnt = rrs.length) :
    ∃ r m, AnswersClient now db sendbuf cache query q rrs r m := by
  have hencodes : q.Encodes := ⟨hq.ne_nil, hq.domainLen_ne_none⟩
  have hqs : ∀ q' ∈ [q], q'.Encodes := List.forall_mem_singleton.2 hencodes
  have hloop := lookupLoop_single hencodes hlookup
  have hle : st.ansCnt ≤ ancountMax := by omega
  have hholds := localAnswer_holds hquery.qdcount hlen rest
  have hwrite := messageToU8_localAnswer hqs hquery.qdcount
    (fun rr hrr => (hrrs _ (Nat.le_refl _) rr hrr).encodes) hlen rest sendbuf
  rw [List.map_singleton, mqCopy_eq hq] at hholds hwrite
  have hsize := length_messageWire (localAnswer query [q] (rrs ++ rest) rrs.length).header
    ⟨[q], rrs, [], []⟩
  have hresult : ∀ fuel x, resolvHandle fuel now db x sendbuf cache query =
      .ok ⟨1, st.cache, query, some (localAnswer query [q] (rrs ++ rest) rrs.length), false,
        sendbuf.write 0 (headerWire (localAnswer query [q] (rrs ++ rest) rrs.length).header ++
          Sections.wire ⟨[q], rrs, [], []⟩),
        ((12 + (Sections.wire ⟨[q], rrs, [], []⟩).length : ℕ) : ℤ)⟩ := by
    intro fuel x
    rw [resolvHandle_found hquery hqs hloop hle, hbuf, hcnt, hwrite]
    simp only [bind, Except.bind, returnValue_natCast]
  have hfound : lookupQuery now db cache query = .ok (st, .found) := by
    rw [lookupQuery, if_neg (not_not.2 hquery.opcode), hquery.question, hquery.qdcount]
    exact hloop
  refine ⟨_, localAnswer query [q] (rrs ++ rest) rrs.length, ⟨st, hfound⟩, hresult, rfl,
    Int.natCast_nonneg _, ?_, ?_, rfl, ?_, ?_, hholds⟩
  · intro i hi
    dsimp only at hi
    apply sendbuf.write_outside
    rw [hsize]
    omega
  · intro extra size fuel hle hfuel
    have hback : Sections.ReadsBack fuel ⟨[q], rrs, [], []⟩ := by
      refine ⟨List.forall_mem_singleton.2 hq, hrrs fuel hfuel, ?_, ?_⟩
      · exact List.forall_mem_nil _
      · exact List.forall_mem_nil _
    have hnat : 12 + (Sections.wire ⟨[q], rrs, [], []⟩).length ≤ size := Int.ofNat_le.1 hle
    dsimp only
    rw [Int.toNat_natCast, ← hsize, Mem.slice_write]
    refine HasAt.message_eq hholds hback ?_ (List.prefix_append _ _) ?_ (by omega)
    · exact (by decide : tcOf (createMisc1 qrResp opcodeQuery aaTrue tcFalse rdFalse) = 0)
    · rw [sizeofMessageHeader]
      omega
  · exact (by decide : qrOf (createMisc1 qrResp opcodeQuery aaTrue tcFalse rdFalse) = qrResp)
  · exact (by decide : rcodeOf (createMisc2 raFalse zFlag rcodeNoError) = rcodeNoError)

/-- A record of the relay database that a question finds is read back as it is. -/
theorem IsRelayRecord.readsBack {rr : ResourceRecord} (h : IsRelayRecord rr)
    (hname : IsName rr.name) (fuel : ℕ) : rr.ReadsBack fuel := by
  refine ⟨hname, h.rdlength.symm, ?_⟩
  have haddress := h.address
  unfold addressSize at haddress
  split_ifs at haddress with ha haaaa
  · rw [ha]
    trivial
  · rw [haaaa]
    trivial

/-- The records that the database holds for a name and a type are what a question finds. -/
theorem selectDatabase_relayAnswer {insertFuel : ℕ} (hrrs : ∀ r ∈ rrs, IsRelayRecord r)
    (hfuel : domainLenMax ≤ insertFuel)
    (hdb : insertAll insertFuel (treeInit rrHash) rrs = some db)
    (hrelay : relayAnswer rrs q.qname q.qtype ≠ []) :
    selectDatabase db q = relayAnswer rrs q.qname q.qtype := by
  obtain ⟨tree, htree, hrepr⟩ := represents_treeInit.insertAll hrrs hfuel
  rw [List.nil_append] at hrepr
  cases hdb.symm.trans htree
  obtain ⟨r, hr⟩ := List.exists_mem_of_ne_nil _ hrelay
  obtain ⟨hmem, hname, htype⟩ := mem_relayAnswer hr
  obtain ⟨index, hindex⟩ := (hrrs r hmem).elementIndex_ne_none
  rw [htype] at hindex
  refine hrepr.selectDatabase ?_ hindex
  rw [← hname]
  exact (hrrs r hmem).name.isQueryName

theorem checkBlocked_relayAnswer (hrrs : ∀ r ∈ rrs, IsRelayRecord r) (htype : q.qtype = rrtypeA)
    {rr : ResourceRecord} (hrr : rr ∈ relayAnswer rrs q.qname q.qtype) :
    rr.rdata ≠ [] ∧ (checkBlocked rr = true ↔ rr.rdata = [0, 0, 0, 0]) := by
  obtain ⟨hmem, -, hrrtype⟩ := mem_relayAnswer hrr
  have hsize := (hrrs rr hmem).address
  rw [hrrtype, htype] at hsize
  exact checkBlocked_address (Option.some.inj hsize).symm

theorem length_relayAnswer_le (rrs : List ResourceRecord) (q : MessageQuestion) :
    (relayAnswer rrs q.qname q.qtype).length ≤ ancountMax :=
  Nat.le_trans (List.length_take_le _ _) (by decide)

/-- The answer from the database, when none of its records blocks the name. -/
theorem answersClient_relay (hquery : IsQuery query [q]) (hq : IsName q.qname)
    (hrep : CacheRep cache xs) (hnil : cachedFor (recordsOf xs) q = [])
    (hrrs : ∀ r ∈ rrs, IsRelayRecord r) (htype : q.qtype = rrtypeA)
    (hselect : selectDatabase db q = relayAnswer rrs q.qname q.qtype)
    (hrelay : relayAnswer rrs q.qname q.qtype ≠ [])
    (hopen : ∀ rr ∈ relayAnswer rrs q.qname q.qtype, rr.rdata ≠ [0, 0, 0, 0]) :
    ∃ r m, AnswersClient now db sendbuf cache query q (relayAnswer rrs q.qname q.qtype) r m := by
  have hlocal : localRecords (recordsOf xs) db q = relayAnswer rrs q.qname q.qtype :=
    (if_pos hnil).trans hselect
  have hanswered : AnsweredLocally (recordsOf xs) db q := by
    refine ⟨⟨hq.ne_nil, hq.domainLen_ne_none⟩, ?_, ?_⟩
    · rw [hlocal]
      exact hrelay
    · intro _ rr hrr
      rw [hselect] at hrr
      obtain ⟨-, hzero⟩ := checkBlocked_relayAnswer hrrs htype hrr
      exact Bool.eq_false_iff.2 (mt hzero.1 (hopen rr hrr))
  have hlen : (localRecords (recordsOf xs) db q).length ≤ ancountMax := by
    rw [hlocal]
    exact length_relayAnswer_le rrs q
  obtain ⟨st, ys, hlookup, -, -, hbuf, hcnt⟩ :=
    hanswered.lookupQuestion hlen now hrep.start (List.Perm.refl xs)
  rw [hlocal] at hbuf hcnt
  have hback : ∀ fuel, 2 ^ 16 ≤ fuel →
      ∀ rr ∈ relayAnswer rrs q.qname q.qtype, rr.ReadsBack fuel := by
    intro fuel _ rr hrr
    obtain ⟨hmem, hname, -⟩ := mem_relayAnswer hrr
    exact (hrrs rr hmem).readsBack (by rw [hname]; exact hq) fuel
  refine answersClient_of_found hquery hq hback (length_relayAnswer_le rrs q) hlookup hbuf ?_
  rcases hcnt with hcnt | hcnt
  · rw [hcnt, Nat.zero_add]
  · exact hcnt

/-- The answer from the database, when one of its records blocks the name. -/
theorem answersClient_blocked (hquery : IsQuery query [q]) (hq : IsName q.qname)
    (hrep : CacheRep cache xs) (hnil : cachedFor (recordsOf xs) q = [])
    (hrrs : ∀ r ∈ rrs, IsRelayRecord r) (htype : q.qtype = rrtypeA)
    (hselect : selectDatabase db q = relayAnswer rrs q.qname q.qtype)
    (hblocked : ∃ rr ∈ relayAnswer rrs q.qname q.qtype, rr.rdata = [0, 0, 0, 0]) :
    ∃ r m, AnswersClient now db sendbuf cache query q [] r m := by
  have hfits := length_relayAnswer_le rrs q
  have hzero := fun rr => @checkBlocked_relayAnswer q rrs hrrs htype rr
  rw [← hselect] at hfits hzero hblocked
  obtain ⟨rr, hrr, hrdata⟩ := hblocked
  obtain ⟨st, hlookup, hcnt⟩ := lookupQuestion_blocked hrep hnil (fun r hr => (hzero r hr).1) hfits
    ⟨rr, hrr, (hzero rr hrr).2.2 hrdata⟩ now
  exact answersClient_of_found hquery hq (fun _ _ => List.forall_mem_nil _) (Nat.zero_le _)
    hlookup (List.nil_append _).symm hcnt

/-- A query with one question that the cache or the database can answer: no external server is
asked, and the client decodes its question and the records. -/
theorem resolvHandle_answersClient {insertFuel : ℕ} (hquery : IsQuery query [q])
    (hq : IsName q.qname) (hsoa : q.qtype ≠ rrtypeSoa) (hrep : CacheRep cache xs)
    (hcached : ∀ e ∈ recordsOf xs, Decoded e) (hrrs : ∀ r ∈ rrs, IsRelayRecord r)
    (hfuel : domainLenMax ≤ insertFuel)
    (hdb : insertAll insertFuel (treeInit rrHash) rrs = some db) (now : ℕ) (sendbuf : Mem) :
    (matching (recordsOf xs) q ≠ [] → (matching (recordsOf xs) q).length ≤ ancountMax →
      ∃ r m, AnswersClient now db sendbuf cache query q (matching (recordsOf xs) q) r m) ∧
    (matching (recordsOf xs) q = [] → q.qtype = rrtypeA →
      relayAnswer rrs q.qname q.qtype ≠ [] →
      ((∀ rr ∈ relayAnswer rrs q.qname q.qtype, rr.rdata ≠ [0, 0, 0, 0]) →
        ∃ r m, AnswersClient now db sendbuf cache query q (relayAnswer rrs q.qname q.qtype) r m) ∧
      ((∃ rr ∈ relayAnswer rrs q.qname q.qtype, rr.rdata = [0, 0, 0, 0]) →
        ∃ r m, AnswersClient now db sendbuf cache query q [] r m)) := by
  have hcachedFor := cachedFor_eq_matching hcached hq hsoa
  constructor
  · intro hne hlen
    have hback : ∀ fuel, 2 ^ 16 ≤ fuel → ∀ e ∈ matching (recordsOf xs) q, e.ReadsBack fuel :=
      fun _ h => matching_readsBack hcached hq hsoa h
    rw [← hcachedFor] at hne hlen hback ⊢
    obtain ⟨cache', ys, hlookup, -, -⟩ := lookupQuestion_hit hrep.start hne hlen
    exact answersClient_of_found hquery hq hback hlen hlookup rfl (Nat.zero_add _)
  · intro hnil htype hrelay
    rw [← hcachedFor] at hnil
    have hselect := selectDatabase_relayAnswer hrrs hfuel hdb hrelay
    exact ⟨answersClient_relay hquery hq hrep hnil hrrs htype hselect hrelay,
      answersClient_blocked hquery hq hrep hnil hrrs htype hselect⟩

/-- The record that the reply to another question brought in. -/
def aliasRecord : ResourceRecord :=
  ⟨[1, 97, 1, 98, 0], rrtypeA, rrclassIn, 60, 4, [10, 9, 9, 9]⟩

theorem aliasRecord_decoded : Decoded aliasRecord := by
  have hdecode : (messageFromBuf 64 aliasReply aliasReply.length Message.zero).result.map
      (fun r => (r.1, decide (some aliasRecord ∈ r.2.answer))) = some (1, true) := by
    decide +kernel
  obtain ⟨⟨ret, m⟩, hresult, hm⟩ := Option.map_eq_some_iff.1 hdecode
  obtain ⟨rfl, hanswer⟩ := Prod.mk.inj hm
  refine ⟨64, aliasReply, aliasReply.length, m, aliasRecord, by decide, hresult, ?_, by decide⟩
  exact List.mem_append_left _ (List.mem_append_left _ (of_decide_eq_true hanswer))

/-- The same question with a cached record, and with an empty cache and the relay file. -/
theorem resolvHandle_answersClient_sample :
    ∃ db cache, insertAll domainLenMax (treeInit rrHash) sampleRelay = some db ∧
      cachePutRr 0 (initCache 0) aliasRecord = some cache ∧
      (∃ r m, AnswersClient 5 db (fun _ => 0) cache (queryOf [relayQuestion]) relayQuestion
        [aliasRecord] r m) ∧
      ∃ r m, AnswersClient 5 db (fun _ => 0) (initCache 0) (queryOf [relayQuestion]) relayQuestion
        [⟨[1, 97, 1, 98, 0], rrtypeA, rrclassIn, 0, 4, [10, 0, 0, 1]⟩,
          ⟨[1, 97, 1, 98, 0], rrtypeA, rrclassIn, 0, 4, [10, 0, 0, 2]⟩] r m := by
  have hname : IsName relayQuestion.qname :=
    ⟨[1, 97, 1, 98], rfl, by simp [IsLabelByte], by decide⟩
  have hsome : (insertAll domainLenMax (treeInit rrHash) sampleRelay).isSome = true := by
    decide +kernel
  obtain ⟨db, hdb⟩ := Option.isSome_iff_exists.1 hsome
  obtain ⟨cache, hput, hrep⟩ := (initCache_rep 0).put 0 aliasRecord
  have hrecords : recordsOf (putEntry 0 aliasRecord (initCache 0).brk []) = [aliasRecord] := by
    decide
  have hcached : ∀ e ∈ recordsOf (putEntry 0 aliasRecord (initCache 0).brk []), Decoded e := by
    rw [hrecords]
    exact List.forall_mem_singleton.2 aliasRecord_decoded
  have hfromCache := (resolvHandle_answersClient relayQuestion_isQuery hname (by decide) hrep
    hcached sampleRelay_isRelayRecord (Nat.le_refl _) hdb 5 fun _ => 0).1
  have hfromFile := (resolvHandle_answersClient relayQuestion_isQuery hname (by decide)
    (initCache_rep 0) (List.forall_mem_nil _) sampleRelay_isRelayRecord (Nat.le_refl _) hdb 5
    fun _ => 0).2 rfl rfl (by decide)
  rw [hrecords] at hfromCache
  exact ⟨db, cache, hdb, hput, hfromCache (by decide) (by decide), hfromFile.1 (by decide)⟩

end Bytes

end BakaDns
