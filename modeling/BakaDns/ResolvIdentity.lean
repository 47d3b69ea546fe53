import BakaDns.DecodeSafety
import BakaDns.ResolvLookup

/-!
# Whose answer it is

The id and the QR bit of the message that `resolv_handle` encodes, whatever the external server
does. The half-built answer is the output of `send_question`, so a reply that is refused after its
header was read leaves that header behind.
-/

namespace BakaDns
open CBytes ReadTrace LinkedHeap

/-- The request can be encoded and is sent. -/
def Sendable (newId : UInt16) (query : Message) : Prop :=
  ∃ req n buffer, encodeRequest newId query = .ok (req, n, buffer) ∧ 0 ≤ n

/-- An outcome that leaves the answer with the id of the query and QR set: no reply, one too short
for a header, or one that is a response and whose id is either accepted or happens to be the one
of the query. -/
def KeepsIdentity (x : Exchange) (id : UInt16) : Prop :=
  match x.outcome with
  | .datagram b => b.length < sizeofMessageHeader ∨ (qrOf (headerAt b).misc1 = qrResp ∧
      ((headerAt b).id = id ∨ (tcOf (headerAt b).misc1 = 0 ∧ (headerAt b).id = x.newId)))
  | _ => True

/-- What identifies a response. -/
def Message.Identifies (msg : Message) (id : UInt16) : Prop :=
  msg.header.id = id ∧ qrOf msg.header.misc1 = qrResp

variable {fuel now : ℕ} {db : BucketTree} {x : Exchange} {cache : RrCache} {query : Message}
  {xs : List (Addr × CacheEntry)}

theorem byteAt_take {b : List UInt8} {n i : ℕ} (h : i < n) : byteAt (b.take n) i = byteAt b i := by
  rw [byteAt, List.getD_eq_getElem?_getD, List.getElem?_take_of_lt h, ← List.getD_eq_getElem?_getD,
    byteAt]

theorem headerAt_take (b : List UInt8) : headerAt (b.take clientBufferSize) = headerAt b := by
  have hbyte : ∀ i, i < 12 → byteAt (b.take clientBufferSize) i = byteAt b i := by
    intro i hi
    exact byteAt_take (Nat.lt_trans hi (by decide))
  simp only [headerAt, u16At, hbyte 0, hbyte 1, hbyte 2, hbyte 3, hbyte 4, hbyte 5, hbyte 6,
    hbyte 7, hbyte 8, hbyte 9, hbyte 10, hbyte 11, Nat.reduceAdd, Nat.reduceLT]

/-- A datagram that holds a header leaves it in the message, whether it is accepted or not. -/
theorem messageFromBuf_header {buf : List UInt8} {size : ℕ} {msg : Message} {r : ℤ × Message}
    (hsize : ¬size < sizeofMessageHeader)
    (h : (messageFromBuf fuel buf size msg).result = some r) :
    r.2.header = headerAt buf ∧ (r.1 < 0 ↔ tcOf (headerAt buf).misc1 ≠ 0) := by
  by_cases htc : tcOf (headerAt buf).misc1 = 0
  · have hret := messageFromBuf_ret hsize htc h
    refine ⟨?_, iff_of_false (by rw [hret]; decide) (not_not.2 htc)⟩
    simp only [messageFromBuf, if_neg hsize, result_bind, result_msgHeaderFromBuf,
      Option.bind_some, htc, ne_eq, not_true_eq_false, if_false, result_pure,
      Option.bind_eq_some_iff, Option.some.injEq] at h
    obtain ⟨_, _, _, _, _, _, _, _, rfl⟩ := h
    rfl
  · rw [messageFromBuf_truncated hsize htc] at h
    cases h
    have hneg : (-1 : ℤ) < 0 := by decide
    exact ⟨rfl, iff_of_true hneg htc⟩

/-- A datagram that holds a header, once it is decoded. -/
theorem receiveReply_datagram {b : List UInt8} {resp msg : Message} {id : UInt16} {ret : ℤ}
    {r : ℤ × Message} (hx : x.outcome = .datagram b)
    (hsize : ¬(b.take clientBufferSize).length < sizeofMessageHeader)
    (hres : (messageFromBuf fuel (b.take clientBufferSize)
      (b.take clientBufferSize).length resp).result = some (ret, msg))
    (h : receiveReply fuel x id resp = .ok r) :
    r.2.Identifies id ↔ qrOf (headerAt b).misc1 = qrResp ∧
      ((headerAt b).id = id ∨ (tcOf (headerAt b).misc1 = 0 ∧ (headerAt b).id = x.newId)) := by
  obtain ⟨hheader, hret⟩ := messageFromBuf_header hsize hres
  rw [headerAt_take] at hheader hret
  unfold receiveReply at h
  rw [hx] at h
  dsimp only at h
  rw [hres] at h
  dsimp only at h hheader hret
  split at h
  · next hneg =>
    -- the header is that of a truncated datagram
    cases h
    have htc := hret.1 hneg
    simp only [Message.Identifies, hheader, htc, false_and, or_false]
    exact and_comm
  · next hpos =>
    have htc : tcOf (headerAt b).misc1 = 0 := not_not.1 (mt hret.2 hpos)
    split at h
    · next hid =>
      cases h
      rw [hheader] at hid
      simp only [Message.Identifies, freeHeapMessage, hheader, hid, and_false, or_false]
      exact and_comm
    · next hid =>
      cases h
      rw [hheader] at hid
      simp only [Message.Identifies, Message.setId, hheader, true_and, htc, not_not.1 hid,
        or_true, and_true]

/-- The reply, from an answer that identifies itself as the response to the query. -/
theorem receiveReply_identifies {resp : Message} {id : UInt16} {r : ℤ × Message}
    (hresp : resp.Identifies id) (h : receiveReply fuel x id resp = .ok r) :
    r.2.Identifies id ↔ KeepsIdentity x id := by
  have hreceive := h
  unfold receiveReply at h
  unfold KeepsIdentity
  cases hx : x.outcome with
  | socketFail =>
    rw [hx] at h
    cases h
    exact iff_of_true hresp trivial
  | optionFail =>
    rw [hx] at h
    cases h
    exact iff_of_true hresp trivial
  | recvFail =>
    rw [hx] at h
    cases h
    exact iff_of_true hresp trivial
  | datagram b =>
    rw [hx] at h
    dsimp only at h ⊢
    have hlen : (b.take clientBufferSize).length < sizeofMessageHeader ↔
        b.length < sizeofMessageHeader := by
      rw [List.length_take, clientBufferSize, sizeofMessageHeader]
      omega
    by_cases hsize : (b.take clientBufferSize).length < sizeofMessageHeader
    · rw [messageFromBuf_short hsize] at h
      cases h
      exact iff_of_true hresp (.inl (hlen.1 hsize))
    · have hsize' : ¬b.length < sizeofMessageHeader := mt hlen.2 hsize
      cases hres : (messageFromBuf fuel (b.take clientBufferSize)
          (b.take clientBufferSize).length resp).result with
      | none =>
        rw [hres] at h
        cases h
      | some m =>
        rw [receiveReply_datagram hx hsize hres hreceive, or_iff_right hsize']

/-- The whole exchange. -/
theorem sendQuestion_identifies {req resp : Message} {r : SendResult}
    (hresp : resp.Identifies req.header.id) (h : sendQuestion fuel x req resp = .ok r) :
    r.resp.Identifies req.header.id ↔ (Sendable x.newId req → KeepsIdentity x req.header.id) := by
  rw [sendQuestion] at h
  split at h
  · cases h
  · split at h
    · next hx =>
      cases h
      refine iff_of_true hresp fun _ => ?_
      rw [KeepsIdentity, hx]
      trivial
    · obtain ⟨⟨sentReq, n, buffer⟩, henc, h⟩ := bind_eq_ok.1 h
      dsimp only at h
      split at h
      · next hneg =>
        cases h
        refine iff_of_true hresp ?_
        rintro ⟨req', n', buffer', henc', hn⟩
        cases henc.symm.trans henc'
        omega
      · next hpos =>
        obtain ⟨⟨ret, resp'⟩, hreply, h⟩ := bind_eq_ok.1 h
        cases h
        have hsendable : Sendable x.newId req := ⟨sentReq, n, buffer, henc, Int.not_lt.1 hpos⟩
        rw [forall_prop_of_true hsendable]
        exact receiveReply_identifies hresp hreply

theorem initialAnswer_identifies (query : Message) :
    (initialAnswer query).Identifies query.header.id := by
  have hqr : qrOf (createMisc1 qrResp opcodeQuery aaTrue tcFalse rdFalse) = qrResp := by decide
  exact ⟨rfl, hqr⟩

theorem completeAnswer_identifies {b : Built} {ans : Message} (h : completeAnswer b = .ok ans)
    (id : UInt16) : ans.Identifies id ↔ b.ans.Identifies id := by
  unfold completeAnswer at h
  split at h
  · rw [completeFound] at h
    split at h
    · cases h
    · obtain ⟨question, -, h⟩ := bind_eq_ok.1 h
      cases h
      exact Iff.rfl
  · cases h
    exact Iff.rfl
  · rw [completeFailure] at h
    obtain ⟨question, -, h⟩ := bind_eq_ok.1 h
    cases h
    exact Iff.rfl

theorem askExternal_identifies {st : LookupState} {b : Built}
    (h : askExternal fuel now x query st = .ok b) :
    b.ans.Identifies query.header.id ↔
      (Sendable x.newId query → KeepsIdentity x query.header.id) := by
  obtain ⟨r, hsend, h⟩ := bind_eq_ok.1 h
  rw [← sendQuestion_identifies (initialAnswer_identifies query) hsend]
  split at h
  · cases h
    exact Iff.rfl
  · obtain ⟨answers, -, h⟩ := bind_eq_ok.1 h
    obtain ⟨cache', -, h⟩ := bind_eq_ok.1 h
    cases h
    exact Iff.rfl

theorem buildAnswer_identifies {b : Built} (hrep : CacheRep cache xs)
    (h : buildAnswer fuel now db x cache query = .ok b) :
    b.ans.Identifies query.header.id ↔
      (Forwards (recordsOf xs) db query → Sendable x.newId query →
        KeepsIdentity x query.header.id) := by
  obtain ⟨⟨st, fin⟩, hlookup, h⟩ := bind_eq_ok.1 h
  have hfin := (lookupQuery_ok hrep hlookup).2
  cases fin with
  | external =>
    rw [forall_prop_of_true (hfin.1 rfl)]
    exact askExternal_identifies h
  | found =>
    cases h
    refine iff_of_true (initialAnswer_identifies query) fun hf => ?_
    cases hfin.2 hf
  | failure rcode =>
    cases h
    refine iff_of_true (initialAnswer_identifies query) fun hf => ?_
    cases hfin.2 hf

/-- The encoded message carries the id of the query and QR exactly when the query is not forwarded,
or the request cannot be sent, or the exchange keeps the answer's identity. -/
theorem resolvHandle_identifies_iff {sendbuf : Mem} {r : ResolvResult}
    (hqr : qrOf query.header.misc1 = qrReq) (hrep : CacheRep cache xs)
    (h : resolvHandle fuel now db x sendbuf cache query = .ok r) :
    (∃ ans, r.answer = some ans ∧ ans.Identifies query.header.id) ↔
      (Forwards (recordsOf xs) db query → Sendable x.newId query →
        KeepsIdentity x query.header.id) := by
  rw [resolvHandle, if_neg (not_not.2 hqr)] at h
  obtain ⟨b, hbuild, h⟩ := bind_eq_ok.1 h
  obtain ⟨ans, hans, h⟩ := bind_eq_ok.1 h
  obtain ⟨⟨msgsize, sendbuf'⟩, -, h⟩ := bind_eq_ok.1 h
  cases h
  rw [← buildAnswer_identifies hrep hbuild, ← completeAnswer_identifies hans]
  constructor
  · rintro ⟨ans', heq, hid⟩
    cases heq
    exact hid
  · intro hid
    exact ⟨ans, rfl, hid⟩

/-- A query for the address of `a`. -/
def sampleQuery : Message where
  header := ⟨0x1234, 0x01, 0, 1, 0, 0, 0⟩
  question := [some ⟨[1, 97, 0], rrtypeA, rrclassIn⟩]
  answer := []
  authority := []
  addition := []

/-- A reply that is only a header, with TC set and an id of its own. -/
def truncatedReply : List UInt8 := [0xAB, 0xCD, 0x82, 0, 0, 0, 0, 0, 0, 0, 0, 0]

/-- The answer built from a truncated reply goes out under the id of that reply. -/
theorem truncatedReply_not_identifies :
    qrOf sampleQuery.header.misc1 = qrReq ∧
      ∃ r ans, resolvHandle 16 0 (treeInit rrHash) ⟨7, .datagram truncatedReply⟩ (fun _ => 0)
          (initCache 0) sampleQuery = .ok r ∧ r.ret = 1 ∧ r.answer = some ans ∧
        ans.header.id = 0xABCD ∧ ¬ans.Identifies sampleQuery.header.id := by
  have hrun : (resolvHandle 16 0 (treeInit rrHash) ⟨7, .datagram truncatedReply⟩ (fun _ => 0)
      (initCache 0) sampleQuery).toOption.map (fun r => (r.ret, r.answer)) =
        some (1, some ⟨⟨0xABCD, 0x82, 0, 1, 0, 0, 0⟩,
          [some ⟨[1, 97, 0], rrtypeA, rrclassIn⟩], [], [], []⟩) := by decide +kernel
  obtain ⟨r, hr, hres⟩ := ok_of_toOption_map hrun
  obtain ⟨hret, hans⟩ := Prod.mk.inj hres
  refine ⟨by decide, r, _, hr, hret, hans, rfl, ?_⟩
  rintro ⟨hid, -⟩
  exact absurd hid (by decide)

/-- A response under the id that was sent, with an address of `a`. -/
def acceptedReply : List UInt8 :=
  [0, 7, 0x80, 0, 0, 1, 0, 1, 0, 0, 0, 0, 1, 97, 0, 0, 1, 0, 1,
    1, 97, 0, 0, 1, 0, 1, 0, 0, 0, 60, 0, 4, 10, 0, 0, 1]

theorem resolvHandle_identifies_iff_sample :
    ∃ r, resolvHandle 16 0 (treeInit rrHash) ⟨7, .datagram acceptedReply⟩ (fun _ => 0) (initCache 0)
        sampleQuery = .ok r ∧ r.ret = 1 ∧
      ∃ ans, r.answer = some ans ∧ ans.header.ancount = 1 ∧
        ans.Identifies sampleQuery.header.id := by
  have hrun : (resolvHandle 16 0 (treeInit rrHash) ⟨7, .datagram acceptedReply⟩ (fun _ => 0)
      (initCache 0) sampleQuery).toOption.map
        (fun r => (r.ret, r.answer.map fun ans => ans.header.ancount)) = some (1, some 1) := by
    decide +kernel
  obtain ⟨r, hr, hres⟩ := ok_of_toOption_map hrun
  obtain ⟨hret, hcount⟩ := Prod.mk.inj hres
  have hqr : qrOf sampleQuery.header.misc1 = qrReq := by decide
  have hkeeps : KeepsIdentity ⟨7, .datagram acceptedReply⟩ sampleQuery.header.id :=
    .inr ⟨by decide, .inr ⟨by decide, by decide⟩⟩
  obtain ⟨ans, hans, hid⟩ :=
    (resolvHandle_identifies_iff hqr (initCache_rep 0) hr).2 fun _ _ => hkeeps
  rw [hans] at hcount
  exact ⟨r, hr, hret, ans, hans, Option.some.inj hcount, hid⟩

end BakaDns
