import BakaDns.ResolvIdentity
import BakaDns.RoundTrip

/-!
# Forwarding

A reply that is passed on is decoded and encoded again. The new datagram has another layout, for
names come out uncompressed, and yet it decodes to the same message.
-/

namespace BakaDns
open CBytes ReadTrace LinkedHeap

/-! How long a decoded name can get. -/

section Length

variable {buf dest : List UInt8} {fuel p offset : ℕ}

/-- The positions from which `read_domain` comes back within the fuel. -/
def haltingPositions (buf : List UInt8) (fuel : ℕ) : Finset ℕ :=
  (Finset.range buf.length).filter fun p => (readDomain buf fuel p).result.isSome

theorem readDomain_result_succ {r : List UInt8 × ℕ} (h : (readDomain buf fuel p).result = some r) :
    (readDomain buf (fuel + 1) p).result = some r := by
  have heq : readDomain buf fuel p = readDomain buf (fuel + 1) p :=
    (readDomain_mono buf p fuel (fuel + 1) (Nat.le_succ fuel)).eq_of_result h
  rw [← heq]
  exact h

theorem haltingPositions_subset (buf : List UInt8) (fuel : ℕ) :
    haltingPositions buf fuel ⊆ haltingPositions buf (fuel + 1) := by
  intro p hp
  obtain ⟨hlt, hsome⟩ := Finset.mem_filter.1 hp
  obtain ⟨r, hr⟩ := Option.isSome_iff_exists.1 hsome
  apply Finset.mem_filter.2
  refine ⟨hlt, ?_⟩
  rw [readDomain_result_succ hr]
  rfl

/-- A label byte adds its own position to those of the rest, unless the walk ended earlier. -/
theorem readDomain_length_le_card (h : (readDomain buf fuel p).result = some (dest, offset)) :
    dest.length ≤ (haltingPositions buf fuel).card := by
  induction fuel generalizing p dest offset with
  | zero => cases h
  | succ fuel ih =>
    have hmono := Finset.card_le_card (haltingPositions_subset buf fuel)
    rcases byte_cases (byteAt buf p) with hc | hc | hc
    · rw [readDomain_terminator hc] at h
      cases h
      exact Nat.zero_le _
    · rw [readDomain_pointer hc] at h
      simp only [result_bind, result_load, Option.bind_some, Option.bind_eq_some_iff,
        result_pure, Option.some.injEq, Prod.mk.injEq, Prod.exists] at h
      obtain ⟨d, o, hr, rfl, -⟩ := h
      exact Nat.le_trans (ih hr) hmono
    · cases hearly : (readDomain buf fuel p).result with
      | some r =>
        obtain ⟨d, o⟩ := r
        cases (readDomain_result_succ hearly).symm.trans h
        exact Nat.le_trans (ih hearly) hmono
      | none =>
        have hhalts : (readDomain buf (fuel + 1) p).result.isSome = true := by
          rw [h]
          rfl
        rw [readDomain_label hc] at h
        simp only [result_bind, result_load, Option.bind_some, Option.bind_eq_some_iff,
          result_pure, Option.some.injEq, Prod.mk.injEq, Prod.exists] at h
        obtain ⟨d, o, hr, rfl, -⟩ := h
        have hnew : p ∈ haltingPositions buf (fuel + 1) := by
          apply Finset.mem_filter.2
          refine ⟨Finset.mem_range.2 ?_, hhalts⟩
          by_contra hout
          have hzero : byteAt buf p = 0 := by
            rw [byteAt, List.getD_eq_default _ _ (Nat.not_lt.1 hout)]
          rw [hzero] at hc
          exact absurd hc.1 (by decide)
        have hold : p ∉ haltingPositions buf fuel := by
          intro hp
          have hsome := (Finset.mem_filter.1 hp).2
          rw [hearly] at hsome
          cases hsome
        have hlt : (haltingPositions buf fuel).card < (haltingPositions buf (fuel + 1)).card := by
          apply Finset.card_lt_card
          exact ⟨haltingPositions_subset buf fuel, fun hsub => hold (hsub hnew)⟩
        have hrest := ih hr
        rw [List.length_cons]
        omega

/-- A name that is read is no longer than the datagram. -/
theorem readDomain_length_le (h : (readDomain buf fuel p).result = some (dest, offset)) :
    dest.length ≤ buf.length := by
  have hcard := Finset.card_filter_le (Finset.range buf.length)
    fun p => (readDomain buf fuel p).result.isSome = true
  rw [Finset.card_range] at hcard
  exact Nat.le_trans (readDomain_length_le_card h) hcard

end Length

/-! What decoding yields. -/

section Decoded

variable {buf : List UInt8} {fuel p size : ℕ} {m : Message} {rr : ResourceRecord}

/-- The names in a decoded record are not too long, and its data is neither that of an SOA record
nor too long for the decoder's buffer. -/
def ResourceRecord.Transparent (rr : ResourceRecord) : Prop :=
  domainLen rr.name ≠ none ∧
    match rdataKind rr.type with
    | .soa => False
    | .mx => domainLen (rr.rdata.drop 2) ≠ none
    | .name => domainLen rr.rdata ≠ none
    | .opaq => rr.rdata.length ≤ rrBufSize

structure Message.Transparent (m : Message) : Prop where
  question : ∀ q, some q ∈ m.question → domainLen q.qname ≠ none
  answer : ∀ rr, some rr ∈ m.answer → rr.Transparent
  authority : ∀ rr, some rr ∈ m.authority → rr.Transparent
  addition : ∀ rr, some rr ∈ m.addition → rr.Transparent

theorem isReadName_of_readDomain {dest : List UInt8} {offset : ℕ}
    (h : (readDomain buf fuel p).result = some (dest, offset)) : IsReadName (dest ++ [0]) :=
  ⟨dest, rfl, readDomain_isLabelByte h⟩

theorem IsReadName.isName {n : List UInt8} (h : IsReadName n) (hlen : domainLen n ≠ none) :
    IsName n := by
  obtain ⟨s, rfl, hs⟩ := h
  refine ⟨s, rfl, hs, ?_⟩
  obtain ⟨k, hk⟩ := Option.ne_none_iff_exists'.1 hlen
  have hshort := (domainLen_eq_some.1 hk).1
  rw [cstr_append_zero fun c hc => ((isLabelByte_iff c).1 (hs c hc)).1] at hshort
  exact hshort

/-- Data that is read as names ends with a terminator, and all data fits into 16 bits of length. -/
theorem rdataFromBuf_spec {kind : RdataKind} {rdlength : UInt16} {rrbuf : List UInt8}
    (hbuf : buf.length + 3 < 2 ^ 16) (hkind : kind ≠ .soa)
    (h : (rdataFromBuf fuel buf p kind rdlength).result = some rrbuf) :
    rrbuf.length < 2 ^ 16 ∧
      (kind = .mx → ∃ a b n, rrbuf = [a, b] ++ n ∧ IsReadName n) ∧
      (kind = .name → IsReadName rrbuf) := by
  cases kind with
  | soa => exact absurd rfl hkind
  | mx =>
    simp only [rdataFromBuf, result_bind, result_loadBytes, Option.bind_some, result_pure,
      Option.bind_eq_some_iff, Option.some.injEq, Prod.exists] at h
    obtain ⟨exchange, offset, hread, rfl⟩ := h
    have hlen := readDomain_length_le hread
    refine ⟨?_, ?_, ?_⟩
    · simp only [List.length_append, length_copyOut, List.length_singleton]
      omega
    · intro _
      obtain ⟨a, b, hab⟩ := List.length_eq_two.1 (length_copyOut (buf.drop p) 2)
      refine ⟨a, b, exchange ++ [0], ?_, isReadName_of_readDomain hread⟩
      rw [hab, List.append_assoc]
    · intro h
      cases h
  | name =>
    simp only [rdataFromBuf, result_bind, result_pure, Option.bind_eq_some_iff, Option.some.injEq,
      Prod.exists] at h
    obtain ⟨dest, offset, hread, rfl⟩ := h
    have hlen := readDomain_length_le hread
    refine ⟨?_, ?_, ?_⟩
    · rw [List.length_append, List.length_singleton]
      omega
    · intro h
      cases h
    · intro _
      exact isReadName_of_readDomain hread
  | opaq =>
    simp only [rdataFromBuf, result_loadBytes, Option.some.injEq] at h
    refine ⟨?_, ?_, ?_⟩
    · rw [← h, length_copyOut]
      exact rdlength.toNat_lt
    · intro h
      cases h
    · intro h
      cases h

theorem rdataKind_soa_iff (type : UInt16) : rdataKind type = .soa ↔ type = rrtypeSoa := by
  unfold rdataKind
  split_ifs with h
  · exact iff_of_true rfl h
  all_goals exact iff_of_false (fun hk => by cases hk) h

/-- A decoded record with a good name is read back as it is, whatever its data. -/
theorem msgRrFromBuf_readsBack {e : ℕ} (hbuf : buf.length + 3 < 2 ^ 16)
    (h : (msgRrFromBuf fuel buf p).result = some (rr, e)) (hlen : domainLen rr.name ≠ none)
    (htype : rr.type ≠ rrtypeSoa) {fuel' : ℕ} (hfuel : 2 ^ 16 ≤ fuel') : rr.ReadsBack fuel' := by
  simp only [msgRrFromBuf, result_bind, Option.bind_eq_some_iff, result_pure, Option.some.injEq,
    Prod.mk.injEq, Prod.exists] at h
  obtain ⟨dest, offset, hname, type, -, rrclass, -, ttl, -, rdlength, -, rrbuf, hrdata, rfl, -⟩ := h
  dsimp only at hlen htype
  obtain ⟨hlt, hmx, hnm⟩ := rdataFromBuf_spec hbuf (mt (rdataKind_soa_iff type).1 htype) hrdata
  have hlength : (UInt16.ofNat rrbuf.length).toNat = rrbuf.length := by
    rw [UInt16.toNat_ofNat']
    exact Nat.mod_eq_of_lt hlt
  have hall : rrbuf.take (UInt16.ofNat rrbuf.length).toNat = rrbuf := by
    rw [hlength, List.take_length]
  rw [hall]
  refine ⟨(isReadName_of_readDomain hname).isName hlen, hlength.symm, ?_⟩
  dsimp only
  cases hk : rdataKind type with
  | soa => exact htype ((rdataKind_soa_iff type).1 hk)
  | mx =>
    obtain ⟨a, b, n, rfl, hn⟩ := hmx hk
    refine ⟨a, b, n, rfl, hn, ?_⟩
    rw [List.length_append] at hlt
    omega
  | name =>
    refine ⟨hnm hk, ?_⟩
    omega
  | opaq => trivial

theorem msgRrFromBuf_wire {e : ℕ} (hbuf : buf.length ≤ clientBufferSize)
    (h : (msgRrFromBuf fuel buf p).result = some (rr, e)) (ht : rr.Transparent) : rr.Wire := by
  obtain ⟨hlen, hdata⟩ := ht
  have htype : rr.type ≠ rrtypeSoa := by
    intro ht
    rw [(rdataKind_soa_iff rr.type).2 ht] at hdata
    exact hdata
  have hsmall : buf.length + 3 < 2 ^ 16 := by
    simp only [clientBufferSize] at hbuf
    omega
  have hback := msgRrFromBuf_readsBack hsmall h hlen htype (Nat.le_refl _)
  have hread := hback.rdata
  refine ⟨hback.name, hback.rdlength, ?_, ?_⟩
  · cases hk : rdataKind rr.type with
    | soa => exact absurd ((rdataKind_soa_iff _).1 hk) htype
    | mx =>
      rw [hk] at hdata hread
      obtain ⟨a, b, n, hab, hn, -⟩ := hread
      rw [hab] at hdata ⊢
      have hle := (hn.isName hdata).length_le
      rw [List.length_append, List.length_cons, List.length_singleton, rrBufSize]
      omega
    | name =>
      rw [hk] at hdata hread
      exact Nat.le_trans (hread.1.isName hdata).length_le (by decide)
    | opaq =>
      rw [hk] at hdata
      exact hdata
  · cases hk : rdataKind rr.type with
    | soa => exact absurd ((rdataKind_soa_iff _).1 hk) htype
    | mx =>
      rw [hk] at hdata hread
      obtain ⟨a, b, n, hab, hn, -⟩ := hread
      rw [hab] at hdata
      exact ⟨a, b, n, hab, hn.isName hdata⟩
    | name =>
      rw [hk] at hdata hread
      exact hread.1.isName hdata
    | opaq => trivial

theorem msgQuestionFromBuf_isName {q : MessageQuestion} {e : ℕ}
    (h : (msgQuestionFromBuf fuel buf p).result = some (q, e)) (hlen : domainLen q.qname ≠ none) :
    IsName q.qname := by
  simp only [msgQuestionFromBuf, result_bind, Option.bind_eq_some_iff, result_pure,
    Option.some.injEq, Prod.mk.injEq, Prod.exists] at h
  obtain ⟨dest, offset, hname, qtype, -, qclass, -, rfl, -⟩ := h
  exact (isReadName_of_readDomain hname).isName hlen

theorem reduceOption_map_some {α : Type} (xs : List α) : (xs.map some).reduceOption = xs := by
  rw [List.reduceOption, List.filterMap_map, Function.id_comp, List.filterMap_some]

/-- Every entry was read somewhere in the datagram. -/
structure Sections.ReadFrom (s : Sections) (fuel : ℕ) (buf : List UInt8) : Prop where
  question : ∀ q ∈ s.question, ∃ p e, (msgQuestionFromBuf fuel buf p).result = some (q, e)
  answer : ∀ rr ∈ s.answer, ∃ p e, (msgRrFromBuf fuel buf p).result = some (rr, e)
  authority : ∀ rr ∈ s.authority, ∃ p e, (msgRrFromBuf fuel buf p).result = some (rr, e)
  addition : ∀ rr ∈ s.addition, ∃ p e, (msgRrFromBuf fuel buf p).result = some (rr, e)

/-- The sections of an accepted datagram. -/
theorem messageFromBuf_sections
    (h : (messageFromBuf fuel buf size Message.zero).result = some (1, m)) :
    ∃ s, m.Holds s ∧ s.ReadFrom fuel buf ∧ tcOf m.header.misc1 = 0 := by
  rw [messageFromBuf] at h
  split at h
  · cases h
  · rw [result_bind, result_msgHeaderFromBuf, Option.bind_some] at h
    split at h
    · cases h
    · next htc =>
      simp only [result_bind, result_pure, Option.bind_eq_some_iff, Option.some.injEq,
        Prod.mk.injEq, true_and, Message.zero, setSection_nil] at h
      obtain ⟨⟨question, p₁⟩, hq, ⟨answer, p₂⟩, han, ⟨authority, p₃⟩, hns, ⟨addition, p₄⟩, har,
        rfl⟩ := h
      obtain ⟨hqlen, hqmem⟩ := mem_result_repeatRead hq
      obtain ⟨hanlen, hanmem⟩ := mem_result_repeatRead han
      obtain ⟨hnslen, hnsmem⟩ := mem_result_repeatRead hns
      obtain ⟨harlen, harmem⟩ := mem_result_repeatRead har
      refine ⟨⟨question, answer, authority, addition⟩, ?_, ?_, not_not.1 htc⟩
      · exact ⟨rfl, rfl, rfl, rfl, hqlen.symm, hanlen.symm, hnslen.symm, harlen.symm⟩
      · exact ⟨hqmem, hanmem, hnsmem, harmem⟩

/-- The sections of an accepted datagram, ready to be written again. -/
theorem messageFromBuf_wire (hbuf : buf.length ≤ clientBufferSize)
    (h : (messageFromBuf fuel buf size Message.zero).result = some (1, m)) (ht : m.Transparent) :
    ∃ s, m.Holds s ∧ s.Wire ∧ tcOf m.header.misc1 = 0 := by
  obtain ⟨s, hm, hs, htc⟩ := messageFromBuf_sections h
  refine ⟨s, hm, ⟨?_, ?_, ?_, ?_⟩, htc⟩
  · intro q hq
    obtain ⟨p, e, hread⟩ := hs.question q hq
    exact msgQuestionFromBuf_isName hread (ht.question q (hm.question ▸ List.mem_map_of_mem hq))
  · intro rr hrr
    obtain ⟨p, e, hread⟩ := hs.answer rr hrr
    exact msgRrFromBuf_wire hbuf hread (ht.answer rr (hm.answer ▸ List.mem_map_of_mem hrr))
  · intro rr hrr
    obtain ⟨p, e, hread⟩ := hs.authority rr hrr
    exact msgRrFromBuf_wire hbuf hread (ht.authority rr (hm.authority ▸ List.mem_map_of_mem hrr))
  · intro rr hrr
    obtain ⟨p, e, hread⟩ := hs.addition rr hrr
    exact msgRrFromBuf_wire hbuf hread (ht.addition rr (hm.addition ▸ List.mem_map_of_mem hrr))

/-- Decoding does not depend on the header that was there before. -/
theorem messageFromBuf_setHeader {old : MessageHeader}
    (h : (messageFromBuf fuel buf size { Message.zero with header := old }).result = some (1, m))
    (header : MessageHeader) :
    (messageFromBuf fuel buf size { Message.zero with header := header }).result = some (1, m) := by
  rw [messageFromBuf] at h ⊢
  split at h
  · cases h
  · next hsize =>
    rw [if_neg hsize]
    rw [result_bind, result_msgHeaderFromBuf, Option.bind_some] at h ⊢
    split at h
    · cases h
    · next htc =>
      rw [if_neg htc]
      exact h

end Decoded

/-! The way of a reply through the resolver. -/

section Forward

variable {fuel now : ℕ} {db : BucketTree} {x : Exchange} {cache : RrCache} {query m : Message}
  {q : MessageQuestion} {xs : List (Addr × CacheEntry)} {b : List UInt8} {sendbuf : Mem}
  {s : Sections}

/-- A request with one question, which the resolver cannot answer itself and can send. -/
structure IsForwarded (cached : List ResourceRecord) (db : BucketTree) (newId : UInt16)
    (query : Message) (q : MessageQuestion) : Prop where
  qr : qrOf query.header.misc1 = qrReq
  qdcount : query.header.qdcount.toNat = 1
  question : query.question = [some q]
  qname : q.qname ≠ []
  forwards : Forwards cached db query
  sendable : Sendable newId query

/-- A datagram that is accepted as the reply and decodes to a message the encoder can write into
`sendSize` bytes. -/
structure IsTransparentReply (fuel : ℕ) (newId : UInt16) (sendSize : ℕ) (b : List UInt8)
    (m : Message) : Prop where
  size : b.length ≤ clientBufferSize
  decodes : (messageFromBuf fuel b b.length Message.zero).result = some (1, m)
  reads : ∀ i ∈ (messageFromBuf fuel b b.length Message.zero).reads, i < b.length
  id : m.header.id = newId
  transparent : m.Transparent
  fits : ∀ n mem mem', messageToU8 m mem 0 = .ok (n, mem') → n ≤ sendSize

/-- The question loop on the only question of a forwarded query. -/
theorem IsForwarded.lookupQuery (h : IsForwarded (recordsOf xs) db x.newId query q)
    (hrep : CacheRep cache xs) (now : ℕ) :
    ∃ st, lookupQuery now db cache query = .ok (st, .external) ∧ CacheRep st.cache xs := by
  rw [BakaDns.lookupQuery]
  by_cases hop : opcodeOf query.header.misc1 = opcodeQuery
  · have hmiss : reachesMiss (recordsOf xs) db 1 [some q] := by
      have hor := h.forwards.resolve_left (not_not.2 hop)
      rw [h.qdcount, h.question] at hor
      exact hor
    obtain ⟨hlen, hnil | hrest⟩ := hmiss
    · have hcached : cachedFor (recordsOf xs) q = [] := by
        by_contra hne
        rw [localRecords, if_neg hne] at hnil
        exact hne hnil
      rw [localRecords, if_pos hcached] at hnil
      rw [if_neg (not_not.2 hop), h.qdcount, h.question, lookupLoop, if_neg h.qname, if_neg hlen,
        lookupQuestion_miss hrep.start hcached, lookupDatabase, hnil]
      exact ⟨_, rfl, hrep⟩
    · cases hrest
  · rw [if_pos hop]
    exact ⟨_, rfl, hrep⟩

/-- Every record can be put into a well-formed cache. -/
theorem cachePutAll_total (hrep : CacheRep cache xs) (now : ℕ) (rrs : List ResourceRecord) :
    ∃ cache', cachePutAll now cache rrs = .ok cache' := by
  induction rrs generalizing cache xs with
  | nil => exact ⟨cache, rfl⟩
  | cons rr rrs ih =>
    obtain ⟨cache₁, hput, hrep₁⟩ := hrep.put now rr
    obtain ⟨cache', hall⟩ := ih hrep₁
    refine ⟨cache', ?_⟩
    rw [cachePutAll, hput]
    exact hall

theorem mapM_id_map_some {α : Type} (xs : List α) : (xs.map some).mapM id = some xs := by
  induction xs with
  | nil => rfl
  | cons x xs ih =>
    rw [List.map_cons, List.mapM_cons, ih]
    rfl

/-- A datagram that is accepted: it decodes without error, under the id that was sent. -/
theorem receiveReply_accepted (hsize : b.length ≤ clientBufferSize)
    (hdecodes : (messageFromBuf fuel b b.length Message.zero).result = some (1, m))
    (hid : m.header.id = x.newId) (hx : x.outcome = .datagram b) (id : UInt16)
    (header : MessageHeader) :
    receiveReply fuel x id { Message.zero with header := header } = .ok (1, m.setId id) := by
  have htake : b.take clientBufferSize = b := List.take_of_length_le hsize
  have hdecodes := messageFromBuf_setHeader hdecodes header
  have hone : ¬(1 : ℤ) < 0 := by decide
  simp only [BakaDns.receiveReply, hx, htake, hdecodes, if_neg hone, hid, ne_eq,
    not_true_eq_false, if_false]

theorem messageFromBuf_ret_of_nonneg {size : ℕ} {msg : Message} {r : ℤ × Message}
    (h : (messageFromBuf fuel b size msg).result = some r) (hr : ¬r.1 < 0) : r.1 = 1 := by
  have hneg : (-1 : ℤ) < 0 := by decide
  by_cases hsize : size < sizeofMessageHeader
  · rw [messageFromBuf_short hsize] at h
    cases h
    exact absurd hneg hr
  · by_cases htc : tcOf (headerAt b).misc1 = 0
    · exact messageFromBuf_ret hsize htc h
    · rw [messageFromBuf_truncated hsize htc] at h
      cases h
      exact absurd hneg hr

/-- What an accepted reply must have been. -/
theorem receiveReply_eq_one {id : UInt16} {header : MessageHeader} {r : ℤ × Message}
    (h : receiveReply fuel x id { Message.zero with header := header } = .ok r) (hr : ¬r.1 < 0) :
    ∃ b m, x.outcome = .datagram b ∧
      (messageFromBuf fuel (b.take clientBufferSize) (b.take clientBufferSize).length
        Message.zero).result = some (1, m) ∧ m.header.id = x.newId ∧ r = (1, m.setId id) := by
  unfold receiveReply at h
  have hneg : (-1 : ℤ) < 0 := by decide
  split at h
  · next b hx =>
    split at h
    · cases h
    · next ret m hdec =>
      split at h
      · cases h
        exact absurd hneg hr
      · next hret =>
        split at h
        · cases h
          exact absurd hneg hr
        · next hid =>
          cases h
          obtain rfl : ret = 1 := messageFromBuf_ret_of_nonneg hdec hret
          exact ⟨b, m, hx, messageFromBuf_setHeader hdec _, not_not.1 hid, rfl⟩
  · cases h
    exact absurd hneg hr

theorem sendQuestion_accepted {req resp : Message} {r : SendResult}
    (hresp : resp = { Message.zero with header := resp.header })
    (h : sendQuestion fuel x req resp = .ok r) (hr : ¬r.ret < 0) :
    ∃ b m, x.outcome = .datagram b ∧
      (messageFromBuf fuel (b.take clientBufferSize) (b.take clientBufferSize).length
        Message.zero).result = some (1, m) ∧ m.header.id = x.newId ∧
      r.resp = m.setId req.header.id := by
  have hneg : (-1 : ℤ) < 0 := by decide
  rw [sendQuestion] at h
  split at h
  · cases h
  · split at h
    · cases h
      exact absurd hneg hr
    · obtain ⟨⟨sentReq, n, buffer⟩, -, h⟩ := bind_eq_ok.1 h
      dsimp only at h
      split at h
      · cases h
        exact absurd hneg hr
      · obtain ⟨⟨ret, resp'⟩, hreply, h⟩ := bind_eq_ok.1 h
        cases h
        rw [hresp] at hreply
        obtain ⟨b, m, hx, hdec, hid, heq⟩ := receiveReply_eq_one hreply hr
        exact ⟨b, m, hx, hdec, hid, (Prod.mk.inj heq).2⟩

/-- An accepted reply is encoded as it was decoded, under the id of the query. -/
theorem IsForwarded.resolvHandle (h : IsForwarded (recordsOf xs) db x.newId query q)
    (hrep : CacheRep cache xs) (hx : x.outcome = .datagram b) (hsize : b.length ≤ clientBufferSize)
    (hdecodes : (messageFromBuf fuel b b.length Message.zero).result = some (1, m))
    (hid : m.header.id = x.newId) (hm : m.Holds s) (now : ℕ) (sendbuf : Mem) :
    ∃ cache' req, resolvHandle fuel now db x sendbuf cache query =
      messageToU8 (m.setId query.header.id) sendbuf 0 >>= fun r =>
        .ok ⟨if r.1 < 0 then -1 else 1, cache', req, some (m.setId query.header.id), true, r.2,
          r.1⟩ := by
  obtain ⟨st, hlookup, hst⟩ := h.lookupQuery hrep now
  obtain ⟨sentReq, n, buffer, henc, hn⟩ := h.sendable
  have hsend : sendQuestion fuel x query (freeHeapMessage (initialAnswer query)) =
      .ok ⟨1, sentReq.setId query.header.id, m.setId query.header.id,
        some (buffer.slice 0 n.toNat)⟩ := by
    rw [sendQuestion, hx, if_neg (by simp), if_neg (by simp), henc]
    change (if n < 0 then _ else _) = _
    rw [if_neg (Int.not_lt.2 hn), freeHeapMessage, receiveReply_accepted hsize hdecodes hid hx]
    rfl
  have hanswers : (m.answer.take m.header.ancount.toNat).mapM id = some s.answer := by
    rw [hm.answer, List.take_of_length_le, mapM_id_map_some]
    rw [List.length_map, hm.ancount]
  obtain ⟨cache', hput⟩ := cachePutAll_total hst now s.answer
  have hask : askExternal fuel now x query st =
      .ok ⟨cache', sentReq.setId query.header.id, m.setId query.header.id, st.ansBuffer, st.ansCnt,
        .external⟩ := by
    rw [askExternal, hsend]
    change (orCrash ((m.answer.take m.header.ancount.toNat).mapM id) >>= _) = _
    rw [hanswers]
    change (cachePutAll now st.cache s.answer >>= _) = _
    rw [hput]
    rfl
  refine ⟨cache', sentReq.setId query.header.id, ?_⟩
  rw [BakaDns.resolvHandle, if_neg (not_not.2 h.qr), buildAnswer, hlookup]
  change (askExternal fuel now x query st >>= _) = _
  rw [hask]
  rfl

/-- Writing a message whose entries survive the wire, and reading it back. -/
theorem messageToU8_decodes (hm : m.Holds s) (hs : s.Wire) (htc : tcOf m.header.misc1 = 0)
    (mem : Mem) :
    ∃ mem', messageToU8 m mem 0 = .ok (((12 + s.wire.length : ℕ) : ℤ), mem') ∧
      (∀ i, i < 0 ∨ ((12 + s.wire.length : ℕ) : ℤ) ≤ i → mem' i = mem i) ∧
      ∀ fuel', 255 ≤ fuel' → (messageFromBuf fuel' (mem'.slice 0 (12 + s.wire.length))
        (12 + s.wire.length) Message.zero).result = some (1, m) := by
  have hlen := length_messageWire m.header s
  refine ⟨mem.write 0 (headerWire m.header ++ s.wire), ?_, ?_, ?_⟩
  · exact messageToU8_eq_of_lt hm hs.encodes (wire_length_lt hm hs) mem 0
  · intro i hi
    apply mem.write_outside
    rw [hlen]
    omega
  · intro fuel' hfuel
    rw [← hlen, Mem.slice_write]
    refine HasAt.message_eq hm (hs.readsBack hfuel) htc ?_ ?_ hfuel
    · exact List.prefix_refl _
    · rw [hlen]
      exact Nat.le_add_right 12 _

/-- The datagram sent to the client decodes to the message that the reply decodes to, with the id
of the query, and it stays inside the send buffer. -/
theorem resolvHandle_transparent {sendSize : ℕ} (hrep : CacheRep cache xs)
    (h : IsForwarded (recordsOf xs) db x.newId query q) (hx : x.outcome = .datagram b)
    (hreply : IsTransparentReply fuel x.newId sendSize b m) (now : ℕ) (sendbuf : Mem) :
    ∃ r, resolvHandle fuel now db x sendbuf cache query = .ok r ∧ r.ret = 1 ∧
      0 ≤ r.ansSize ∧ r.ansSize ≤ sendSize ∧
      (∀ i, i < 0 ∨ (sendSize : ℤ) ≤ i → r.sendbuf i = sendbuf i) ∧
      (∀ fuel', 255 ≤ fuel' → (messageFromBuf fuel' (r.sendbuf.slice 0 r.ansSize.toNat)
        r.ansSize.toNat Message.zero).result = some (1, m.setId query.header.id)) ∧
      ∃ n mem, messageToU8 m sendbuf 0 = .ok (n, mem) ∧
        ∀ fuel', 255 ≤ fuel' →
          (messageFromBuf fuel' (mem.slice 0 n.toNat) n.toNat Message.zero).result =
            some (1, m) := by
  obtain ⟨s, hm, hs, htc⟩ := messageFromBuf_wire hreply.size hreply.decodes hreply.transparent
  have hm' : (m.setId query.header.id).Holds s :=
    ⟨hm.question, hm.answer, hm.authority, hm.addition, hm.qdcount, hm.ancount, hm.nscount,
      hm.arcount⟩
  obtain ⟨cache', req, heq⟩ :=
    h.resolvHandle hrep hx hreply.size hreply.decodes hreply.id hm now sendbuf
  obtain ⟨mem, hwrite, -, hread⟩ := messageToU8_decodes hm hs htc sendbuf
  obtain ⟨mem', hwrite', hframe, hread'⟩ := messageToU8_decodes hm' hs htc sendbuf
  have hfits := hreply.fits _ _ _ hwrite
  rw [heq, hwrite']
  refine ⟨_, rfl, ?_, ?_, hfits, ?_, hread', _, mem, hwrite, hread⟩
  · exact returnValue_natCast (12 + s.wire.length)
  · exact Int.natCast_nonneg _
  · intro i hi
    apply hframe
    omega

/-- A reply to the sample query: `a` is an alias of `b.a`, with both names compressed. -/
def compressedReply : List UInt8 :=
  [0, 7, 0x81, 0x80, 0, 1, 0, 1, 0, 0, 0, 0, 1, 97, 0, 0, 1, 0, 1,
    0xC0, 12, 0, 5, 0, 1, 0, 0, 0, 60, 0, 4, 1, 98, 0xC0, 12]

def compressedSections : Sections where
  question := [⟨[1, 97, 0], rrtypeA, rrclassIn⟩]
  answer := [⟨[1, 97, 0], rrtypeCname, rrclassIn, 60, 5, [1, 98, 1, 97, 0]⟩]
  authority := []
  addition := []

/-- What that reply decodes to: its data has grown by one byte. -/
def compressedMessage : Message where
  header := ⟨7, 0x81, 0x80, 1, 1, 0, 0⟩
  question := compressedSections.question.map some
  answer := compressedSections.answer.map some
  authority := []
  addition := []

theorem compressedReply_transparent :
    IsTransparentReply 16 7 4096 compressedReply compressedMessage where
  size := by decide
  decodes := by decide +kernel
  reads := by decide +kernel
  id := rfl
  transparent := by
    refine ⟨?_, ?_, ?_, ?_⟩
    · intro q hq
      cases List.mem_singleton.1 hq
      decide
    · intro rr hrr
      cases List.mem_singleton.1 hrr
      refine ⟨by decide, ?_⟩
      change domainLen [1, 98, 1, 97, 0] ≠ none
      decide
    · intro rr hrr
      cases hrr
    · intro rr hrr
      cases hrr
  fits := by
    intro n mem mem' hwrite
    have hm : compressedMessage.Holds compressedSections := ⟨rfl, rfl, rfl, rfl, rfl, rfl, rfl, rfl⟩
    have hs : compressedSections.Encodes := by
      refine ⟨?_, ?_, ?_, ?_⟩
      · intro q hq
        cases List.mem_singleton.1 hq
        exact ⟨by decide, by decide⟩
      · intro rr hrr
        cases List.mem_singleton.1 hrr
        exact ⟨by decide, by decide, by decide⟩
      · intro rr hrr
        cases hrr
      · intro rr hrr
        cases hrr
    have hsize : ((12 + compressedSections.wire.length : ℕ) : ℤ).bmod (2 ^ 32) ≤ (4096 : ℕ) := by
      decide +kernel
    rw [messageToU8_eq hm hs] at hwrite
    obtain ⟨hn, -⟩ := Prod.mk.inj (Except.ok.inj hwrite)
    rw [← hn]
    exact hsize

theorem sampleQuery_isForwarded :
    IsForwarded (recordsOf []) (treeInit rrHash) 7 sampleQuery ⟨[1, 97, 0], rrtypeA, rrclassIn⟩ := by
  have hrun : (encodeRequest 7 sampleQuery).toOption.map (fun r => r.2.1) = some 30 := by
    decide +kernel
  obtain ⟨⟨req, n, buffer⟩, henc, hn⟩ := ok_of_toOption_map hrun
  have hforwards : Forwards (recordsOf []) (treeInit rrHash) sampleQuery :=
    .inr ⟨by decide, .inl (by decide)⟩
  have hsendable : Sendable 7 sampleQuery := by
    refine ⟨req, n, buffer, henc, ?_⟩
    change n = 30 at hn
    omega
  exact ⟨by decide, by decide, rfl, by decide, hforwards, hsendable⟩

end Forward

end BakaDns
