import BakaDns.Client
import BakaDns.ResolvLookup

/-!
# The request that goes upstream

The datagram that `send_question` sends: the request under a new id, with an OPT record that the
EDNS part appends or finds. A record that it finds gets the payload size in its TTL instead of its
class.
-/

namespace BakaDns
open CBytes

/-- The OPT record that `send_question` appends. -/
def optRecord : ResourceRecord := ⟨[0], rrtypeOpt, UInt16.ofNat clientBufferSize, 0, 0, []⟩

/-- An additional section with its first OPT record changed by `set`, or with a new one. -/
def withOpt (set : ResourceRecord → ResourceRecord) : List ResourceRecord → List ResourceRecord
  | [] => [optRecord]
  | rr :: rrs => if rr.type = rrtypeOpt then set rr :: rrs else rr :: withOpt set rrs

/-- What an OPT record is for: its class is the payload size, its TTL holds the extended flags. -/
def setPayloadSize (rr : ResourceRecord) : ResourceRecord :=
  { rr with rrclass := UInt16.ofNat clientBufferSize }

/-- What `send_question` does to the record it finds. -/
def setOptTtl (rr : ResourceRecord) : ResourceRecord :=
  { rr with ttl := UInt32.ofNat clientBufferSize }

def firstOpt (rrs : List ResourceRecord) : Option ResourceRecord :=
  rrs.find? fun rr => rr.type = rrtypeOpt

def Sections.setAddition (s : Sections) (addition : List ResourceRecord) : Sections :=
  { s with addition := addition }

/-- The request as it should go out, encoded. -/
def ednsRequest (newId : UInt16) (header : MessageHeader) (s : Sections) : List UInt8 :=
  let addition := withOpt setPayloadSize s.addition
  headerWire { header with id := newId, arcount := UInt16.ofNat addition.length } ++
    (s.setAddition addition).wire

/-- The size of the request with its OPT record. -/
def requestSize (s : Sections) : ℕ :=
  12 + s.wire.length + if firstOpt s.addition = none then 11 else 0

/-- Encoding the request does not write past the end of the buffer of `send_question`. -/
def RequestStaysInside (newId : UInt16) (req : Message) : Prop :=
  ∀ sent, addOpt (req.setId newId) = .ok sent → StaysInside clientBufferSize sent

/-- The exchange gets as far as sending. -/
def Exchange.Sends (x : Exchange) : Prop := x.outcome ≠ .socketFail ∧ x.outcome ≠ .optionFail

section Additional

variable {rrs : List ResourceRecord} {set : ResourceRecord → ResourceRecord}

theorem withOpt_of_none (h : firstOpt rrs = none) : withOpt set rrs = rrs ++ [optRecord] := by
  induction rrs with
  | nil => rfl
  | cons rr rrs ih =>
    simp only [firstOpt, List.find?_cons] at h
    split at h
    · cases h
    · next hrr =>
      simp only [decide_eq_false_iff_not] at hrr
      rw [withOpt, if_neg hrr, ih h]
      rfl

/-- The first OPT record splits the section. -/
theorem withOpt_of_some {opt : ResourceRecord} (h : firstOpt rrs = some opt) :
    ∃ pre post, rrs = pre ++ opt :: post ∧ ∀ set, withOpt set rrs = pre ++ set opt :: post := by
  induction rrs with
  | nil => cases h
  | cons rr rrs ih =>
    simp only [firstOpt, List.find?_cons] at h
    split at h
    · next hrr =>
      obtain rfl : rr = opt := Option.some.inj h
      simp only [decide_eq_true_eq] at hrr
      exact ⟨[], rrs, rfl, fun set => by simp [withOpt, hrr]⟩
    · next hrr =>
      obtain ⟨pre, post, rfl, hset⟩ := ih h
      simp only [decide_eq_false_iff_not] at hrr
      exact ⟨rr :: pre, post, rfl, fun set => by simp [withOpt, hrr, hset]⟩

theorem findOpt_eq (rrs : List ResourceRecord) :
    findOpt rrs.length (rrs.map some) = .ok (rrs.findIdx? fun rr => rr.type = rrtypeOpt) := by
  induction rrs with
  | nil => rfl
  | cons rr rrs ih =>
    rw [List.length_cons, List.map_cons, findOpt, List.findIdx?_cons]
    by_cases h : rr.type = rrtypeOpt
    · simp [h]
    · simp [h, ih, bind, Except.bind]

theorem modify_findIdx (rrs : List ResourceRecord) {i : ℕ}
    (h : rrs.findIdx? (fun rr => rr.type = rrtypeOpt) = some i) :
    rrs.modify i set = withOpt set rrs := by
  induction rrs generalizing i with
  | nil => cases h
  | cons rr rrs ih =>
    rw [List.findIdx?_cons] at h
    by_cases hrr : rr.type = rrtypeOpt
    · obtain rfl : 0 = i := by simpa [hrr] using h
      simp [withOpt, hrr]
    · obtain ⟨j, hj, rfl⟩ : ∃ j, rrs.findIdx? (fun rr => rr.type = rrtypeOpt) = some j ∧
          j + 1 = i := by simpa [hrr] using h
      simp [withOpt, hrr, ih hj]

theorem firstOpt_eq_none (h : rrs.findIdx? (fun rr => rr.type = rrtypeOpt) = none) :
    firstOpt rrs = none := by
  simpa [firstOpt, List.find?_eq_none] using h

theorem firstOpt_ne_none {i : ℕ} (h : rrs.findIdx? (fun rr => rr.type = rrtypeOpt) = some i) :
    firstOpt rrs ≠ none := by
  intro hn
  have hnone : rrs.findIdx? (fun rr => rr.type = rrtypeOpt) = none := by
    simpa [firstOpt, List.find?_eq_none] using hn
  rw [h] at hnone
  cases hnone

theorem length_withOpt (set : ResourceRecord → ResourceRecord) (rrs : List ResourceRecord) :
    (withOpt set rrs).length = rrs.length + if firstOpt rrs = none then 1 else 0 := by
  cases h : firstOpt rrs with
  | none => simp [withOpt_of_none h]
  | some opt =>
    obtain ⟨pre, post, rfl, hset⟩ := withOpt_of_some h
    simp [hset]

theorem forall_mem_withOpt {P : ResourceRecord → Prop} (h : ∀ rr ∈ rrs, P rr)
    (hopt : P optRecord) (hset : ∀ rr, P rr → P (set rr)) : ∀ rr ∈ withOpt set rrs, P rr := by
  induction rrs with
  | nil =>
    intro rr hrr
    obtain rfl := List.mem_singleton.1 hrr
    exact hopt
  | cons rr rrs ih =>
    have hhead := h rr List.mem_cons_self
    have htail := fun x hx => h x (List.mem_cons_of_mem rr hx)
    rw [withOpt]
    split
    · exact List.forall_mem_cons.2 ⟨hset rr hhead, htail⟩
    · exact List.forall_mem_cons.2 ⟨hhead, ih htail⟩

end Additional

/-! What is sent. -/

section Sent

variable {req resp : Message} {s : Sections} {x : Exchange} {fuel : ℕ} {r : SendResult}

theorem Message.Holds.setId (hm : req.Holds s) (id : UInt16) : (req.setId id).Holds s :=
  ⟨hm.question, hm.answer, hm.authority, hm.addition, hm.qdcount, hm.ancount, hm.nscount,
    hm.arcount⟩

/-- A message with another additional section, and its count. -/
def Message.setAddition (m : Message) (addition : List ResourceRecord) : Message :=
  { m with
    header := { m.header with arcount := UInt16.ofNat addition.length }
    addition := addition.map some }

theorem Message.Holds.setAddition (hm : req.Holds s) {addition : List ResourceRecord}
    (h : addition.length < 2 ^ 16) : (req.setAddition addition).Holds (s.setAddition addition) :=
  ⟨hm.question, hm.answer, hm.authority, rfl, hm.qdcount, hm.ancount, hm.nscount,
    UInt16.toNat_ofNat_of_lt h⟩

theorem modify_map_some (rrs : List ResourceRecord) (i : ℕ)
    (set : ResourceRecord → ResourceRecord) :
    (rrs.map some).modify i (Option.map set) = (rrs.modify i set).map some := by
  induction rrs generalizing i with
  | nil => simp
  | cons rr rrs ih =>
    cases i with
    | zero => rfl
    | succ i => simpa using ih i

/-- The EDNS part, told on the records of the additional section. -/
theorem addOpt_eq (hm : req.Holds s)
    (har : firstOpt s.addition = none → s.addition.length < 65535) :
    addOpt req = .ok (req.setAddition (withOpt setOptTtl s.addition)) := by
  have harc := hm.arcount
  have hfind : findOpt req.header.arcount.toNat req.addition =
      .ok (s.addition.findIdx? fun rr => rr.type = rrtypeOpt) := by
    rw [harc, hm.addition, findOpt_eq]
  unfold addOpt
  rw [hfind]
  cases h : s.addition.findIdx? (fun rr => rr.type = rrtypeOpt) with
  | none =>
    have hnone := firstOpt_eq_none h
    have har := har hnone
    have hcount : req.header.arcount + 1 = UInt16.ofNat (s.addition.length + 1) := by
      rw [← harc, UInt16.ofNat_add, UInt16.ofNat_toNat]
      rfl
    have htake : req.addition.take req.header.arcount.toNat = s.addition.map some := by
      rw [hm.addition, harc, List.take_of_length_le (by simp)]
    refine (if_neg (by omega)).trans ?_
    rw [htake, hcount, Message.setAddition, withOpt_of_none hnone, List.map_append,
      List.length_append]
    rfl
  | some i =>
    have hlen : (withOpt setOptTtl s.addition).length = s.addition.length := by
      rw [length_withOpt, if_neg (firstOpt_ne_none h)]
      rfl
    rw [Message.setAddition, hlen, ← harc, UInt16.ofNat_toNat, ← modify_findIdx _ h,
      ← modify_map_some, ← hm.addition]
    rfl

/-- The new OPT record and the changed one are as good as those that were there. -/
theorem Sections.Encodes.withOpt (hs : s.Encodes) (set : ResourceRecord → ResourceRecord)
    (hset : ∀ rr : ResourceRecord, rr.Encodes → (set rr).Encodes) :
    (s.setAddition (withOpt set s.addition)).Encodes := by
  have hopt : optRecord.Encodes := ⟨by decide, by decide, by decide⟩
  exact ⟨hs.question, hs.answer, hs.authority, forall_mem_withOpt hs.addition hopt hset⟩

theorem length_wire_withOpt {set : ResourceRecord → ResourceRecord}
    (hset : ∀ rr, (rrWire (set rr)).length = (rrWire rr).length) :
    12 + (s.setAddition (withOpt set s.addition)).wire.length = requestSize s := by
  simp only [Sections.wire, Sections.setAddition, requestSize, List.length_append]
  cases h : firstOpt s.addition with
  | none =>
    rw [withOpt_of_none h, if_pos rfl, List.flatMap_append, List.length_append,
      List.flatMap_singleton]
    have hopt : (rrWire optRecord).length = 11 := rfl
    omega
  | some opt =>
    obtain ⟨pre, post, hsplit, hwith⟩ := withOpt_of_some h
    rw [hwith, if_neg (Option.some_ne_none opt), hsplit]
    simp only [List.flatMap_append, List.flatMap_cons, List.length_append, hset]
    omega

/-- The request as it does go out, encoded. -/
def sentRequest (newId : UInt16) (header : MessageHeader) (s : Sections) : List UInt8 :=
  let addition := withOpt setOptTtl s.addition
  headerWire { header with id := newId, arcount := UInt16.ofNat addition.length } ++
    (s.setAddition addition).wire

theorem length_sentRequest (newId : UInt16) (header : MessageHeader) (s : Sections) :
    (sentRequest newId header s).length = requestSize s := by
  rw [sentRequest, length_messageWire]
  exact length_wire_withOpt fun rr => by simp [length_rrWire, setOptTtl]

theorem length_ednsRequest (newId : UInt16) (header : MessageHeader) (s : Sections) :
    (ednsRequest newId header s).length = requestSize s := by
  rw [ednsRequest, length_messageWire]
  exact length_wire_withOpt fun rr => by simp [length_rrWire, setPayloadSize]

theorem encodeRequest_eq (hm : req.Holds s) (hs : s.Encodes) (har : s.addition.length < 65535)
    (newId : UInt16) :
    encodeRequest newId req =
      .ok ((req.setId newId).setAddition (withOpt setOptTtl s.addition),
        ((requestSize s : ℕ) : ℤ).bmod (2 ^ 32),
        Mem.write (fun _ => 0) 0 (sentRequest newId req.header s)) := by
  have hlen : (withOpt setOptTtl s.addition).length < 2 ^ 16 := by
    rw [length_withOpt]
    split <;> omega
  have hsize : 12 + (s.setAddition (withOpt setOptTtl s.addition)).wire.length = requestSize s :=
    length_wire_withOpt fun rr => by simp [length_rrWire, setOptTtl]
  have henc := messageToU8_eq ((hm.setId newId).setAddition hlen)
    (hs.withOpt setOptTtl fun rr hrr => hrr) (fun _ => 0) 0
  rw [hsize] at henc
  have hopt : addOpt { req with header := { req.header with id := newId } } =
      .ok ((req.setId newId).setAddition (withOpt setOptTtl s.addition)) :=
    addOpt_eq (hm.setId newId) fun _ => har
  have hwire : headerWire ((req.setId newId).setAddition (withOpt setOptTtl s.addition)).header ++
      (s.setAddition (withOpt setOptTtl s.addition)).wire = sentRequest newId req.header s := rfl
  rw [hwire] at henc
  simp only [encodeRequest, hopt, henc, bind, Except.bind]

/-- The bytes that are sent: none, or as many as the size says that `message_to_u8` returns. -/
theorem sendQuestion_sent {sentReq : Message} {n : ℤ} {buffer : Mem} (hx : x.Sends)
    (henc : encodeRequest x.newId req = .ok (sentReq, n, buffer))
    (hr : sendQuestion fuel x req resp = .ok r) :
    r.sent = if n < 0 then none else some (buffer.slice 0 n.toNat) := by
  rw [sendQuestion, if_neg hx.1, if_neg hx.2, henc] at hr
  change (if n < 0 then _ else _) = _ at hr
  by_cases hneg : n < 0
  · rw [if_pos hneg] at hr ⊢
    rw [← Except.ok.inj hr]
  · rw [if_neg hneg] at hr ⊢
    obtain ⟨reply, -, hr⟩ := bind_eq_ok.1 hr
    rw [← Except.ok.inj hr]

/-- A datagram of the full size is sent exactly when the size fits into an `int`. -/
theorem sendQuestion_sent_iff (hm : req.Holds s) (hs : s.Encodes)
    (har : s.addition.length < 65535) (hx : x.Sends)
    (hr : sendQuestion fuel x req resp = .ok r) {bytes : List UInt8}
    (hbytes : bytes.length = requestSize s) :
    r.sent = some bytes ↔
      requestSize s < 2 ^ 31 ∧ sentRequest x.newId req.header s = bytes := by
  rw [sendQuestion_sent hx (encodeRequest_eq hm hs har x.newId) hr]
  have hlen := length_sentRequest x.newId req.header s
  have hbm : requestSize s < 2 ^ 31 →
      ((requestSize s : ℕ) : ℤ).bmod (2 ^ 32) = (requestSize s : ℕ) := by
    intro hlt
    apply Int.bmod_eq_of_le <;> omega
  constructor
  · intro h
    split at h
    · cases h
    · next hneg =>
      have hslice := congrArg List.length (Option.some.inj h)
      rw [Mem.length_slice, hbytes] at hslice
      have hub : ((requestSize s : ℕ) : ℤ).bmod (2 ^ 32) < 2 ^ 31 :=
        lt_of_lt_of_eq (Int.bmod_lt (by decide)) rfl
      have hlt : requestSize s < 2 ^ 31 := by omega
      refine ⟨hlt, ?_⟩
      rw [hbm hlt, Int.toNat_natCast, ← hlen, Mem.slice_write] at h
      exact Option.some.inj h
  · rintro ⟨hlt, rfl⟩
    rw [hbm hlt, if_neg (by omega), Int.toNat_natCast, ← hlen, Mem.slice_write]

theorem u16Be_injective : Function.Injective u16Be := by
  intro a b h
  rw [← beU16_u16Be a, h, beU16_u16Be]

theorem u32Be_injective : Function.Injective u32Be := by
  intro a b h
  rw [← beU32_u32Be a, h, beU32_u32Be]

/-- The two changes to an OPT record agree when it has both values already. -/
theorem rrWire_setOptTtl_iff (opt : ResourceRecord) :
    rrWire (setOptTtl opt) = rrWire (setPayloadSize opt) ↔
      opt.rrclass = UInt16.ofNat clientBufferSize ∧ opt.ttl = UInt32.ofNat clientBufferSize := by
  simp only [rrWire, setOptTtl, setPayloadSize, List.append_cancel_left_eq]
  constructor
  · intro h
    obtain ⟨hclass, h⟩ := List.append_inj h rfl
    obtain ⟨httl, -⟩ := List.append_inj h rfl
    exact ⟨u16Be_injective hclass, (u32Be_injective httl).symm⟩
  · rintro ⟨hclass, httl⟩
    rw [hclass, httl]

theorem sentRequest_eq_iff (newId : UInt16) (header : MessageHeader) (s : Sections) :
    sentRequest newId header s = ednsRequest newId header s ↔
      ∀ opt, firstOpt s.addition = some opt →
        opt.rrclass = UInt16.ofNat clientBufferSize ∧
          opt.ttl = UInt32.ofNat clientBufferSize := by
  have hlen : (withOpt setOptTtl s.addition).length =
      (withOpt setPayloadSize s.addition).length := by rw [length_withOpt, length_withOpt]
  simp only [sentRequest, ednsRequest, hlen, List.append_cancel_left_eq, Sections.wire,
    Sections.setAddition]
  cases h : firstOpt s.addition with
  | none => simp [withOpt_of_none h]
  | some opt =>
    obtain ⟨pre, post, -, hwith⟩ := withOpt_of_some h
    simp only [hwith, List.flatMap_append, List.flatMap_cons, List.append_cancel_left_eq,
      List.append_cancel_right_eq, rrWire_setOptTtl_iff, Option.some.injEq, forall_eq']

theorem requestStaysInside_iff (hm : req.Holds s) (hs : s.Encodes)
    (har : s.addition.length < 65535) (newId : UInt16) :
    RequestStaysInside newId req ↔ requestSize s ≤ clientBufferSize := by
  have hlen : (withOpt setOptTtl s.addition).length < 2 ^ 16 := by
    rw [length_withOpt]
    split <;> omega
  have hsize : 12 + (s.setAddition (withOpt setOptTtl s.addition)).wire.length = requestSize s :=
    length_wire_withOpt fun rr => by simp [length_rrWire, setOptTtl]
  have hfits : StaysInside clientBufferSize _ ↔ _ := staysInside_iff_length
    ((hm.setId newId).setAddition hlen) (hs.withOpt setOptTtl fun rr hrr => hrr)
  rw [hsize] at hfits
  rw [← hfits, RequestStaysInside, addOpt_eq (hm.setId newId) fun _ => har]
  exact ⟨fun h => h _ rfl, fun h sent hsent => Except.ok.inj hsent ▸ h⟩

/-- The request is encoded inside of its buffer, and the datagram sent is the request with a proper
OPT record, exactly when it fits into the buffer and either there was no such record before or the
one found holds the payload size both in its class and in its TTL. -/
theorem sendQuestion_edns_iff (fuel : ℕ) (x : Exchange) (req resp : Message) (s : Sections)
    (r : SendResult) (hm : req.Holds s) (hs : s.Encodes) (har : s.addition.length < 65535)
    (hx : x.Sends) (hr : sendQuestion fuel x req resp = .ok r) :
    (RequestStaysInside x.newId req ∧ r.sent = some (ednsRequest x.newId req.header s)) ↔
      requestSize s ≤ clientBufferSize ∧
        ∀ opt, firstOpt s.addition = some opt →
          opt.rrclass = UInt16.ofNat clientBufferSize ∧
            opt.ttl = UInt32.ofNat clientBufferSize := by
  rw [requestStaysInside_iff hm hs har,
    sendQuestion_sent_iff hm hs har hx hr (length_ednsRequest x.newId req.header s),
    sentRequest_eq_iff]
  refine and_congr_right fun hfit => and_iff_right ?_
  exact lt_of_le_of_lt hfit (by decide)

/-- A request for the address of `a`, with the additional records given. -/
def addressRequest (addition : List ResourceRecord) : Message where
  header := ⟨0x1234, 1, 0, 1, 0, 0, UInt16.ofNat addition.length⟩
  question := [some ⟨[1, 97, 0], rrtypeA, rrclassIn⟩]
  answer := []
  authority := []
  addition := addition.map some

def addressSections (addition : List ResourceRecord) : Sections :=
  ⟨[⟨[1, 97, 0], rrtypeA, rrclassIn⟩], [], [], addition⟩

theorem addressRequest_holds : (addressRequest []).Holds (addressSections []) := by
  constructor <;> rfl

theorem addressRequest_encodes : (addressSections []).Encodes where
  question q hq := by
    obtain rfl := List.mem_singleton.1 hq
    exact ⟨by decide, by decide⟩
  answer rr hrr := by cases hrr
  authority rr hrr := by cases hrr
  addition rr hrr := by cases hrr

/-- A request without an OPT record gets one. -/
theorem sendQuestion_edns_iff_address :
    ∃ r, sendQuestion 0 ⟨7, .recvFail⟩ (addressRequest []) Message.zero = .ok r ∧
      RequestStaysInside 7 (addressRequest []) ∧
      r.sent = some (ednsRequest 7 (addressRequest []).header (addressSections [])) := by
  have hrun : (sendQuestion 0 ⟨7, .recvFail⟩ (addressRequest []) Message.zero).toOption.map
      SendResult.ret = some (-1) := by decide +kernel
  obtain ⟨r, hr, -⟩ := ok_of_toOption_map hrun
  refine ⟨r, hr, ?_⟩
  refine (sendQuestion_edns_iff 0 ⟨7, .recvFail⟩ (addressRequest []) Message.zero
    (addressSections []) r addressRequest_holds addressRequest_encodes (by decide)
    ⟨by decide, by decide⟩ hr).2 ⟨by decide, ?_⟩
  intro opt hopt
  cases hopt

/-- An OPT record of a client that asks for signatures: payload size 1232 and the DO bit. -/
def dnssecOpt : ResourceRecord := ⟨[0], rrtypeOpt, 1232, 0x8000, 0, []⟩

/-- Its payload size stays and the DO bit is lost. -/
theorem dnssecOpt_not_edns :
    ∃ r, sendQuestion 0 ⟨7, .recvFail⟩ (addressRequest [dnssecOpt]) Message.zero = .ok r ∧
      r.sent ≠ some (ednsRequest 7 (addressRequest [dnssecOpt]).header
        (addressSections [dnssecOpt])) := by
  have hrun : (sendQuestion 0 ⟨7, .recvFail⟩ (addressRequest [dnssecOpt])
      Message.zero).toOption.map (fun r => decide (r.sent = some (ednsRequest 7
        (addressRequest [dnssecOpt]).header (addressSections [dnssecOpt])))) = some false := by
    decide +kernel
  obtain ⟨r, hr, hne⟩ := ok_of_toOption_map hrun
  exact ⟨r, hr, of_decide_eq_false hne⟩

end Sent

end BakaDns
