import BakaDns.DecodeSafety
import BakaDns.Encode

/-!
# Wire round trip

Decoding what the encoder wrote. The decoder's cursor stands on the wire form of one entry after
another, so each part of it is followed from "the buffer holds these bytes here".
-/

namespace BakaDns
open CBytes ReadTrace

/-- The buffer holds these bytes from position `p` on. -/
def HasAt (buf : List UInt8) (p : ℕ) (bs : List UInt8) : Prop := bs <+: buf.drop p

/-- A zero-terminated name of label bytes that is not too long. -/
def IsName (n : List UInt8) : Prop :=
  ∃ s, n = s ++ [0] ∧ (∀ c ∈ s, IsLabelByte c) ∧ s.length ≤ 254

/-- A record that survives the wire: data that the decoder reads as a name is one. -/
structure ResourceRecord.Wire (rr : ResourceRecord) : Prop where
  name : IsName rr.name
  rdlength : rr.rdata.length = rr.rdlength.toNat
  short : rr.rdata.length ≤ rrBufSize
  rdata : match rdataKind rr.type with
    | .soa => False
    | .mx => ∃ a b n, rr.rdata = [a, b] ++ n ∧ IsName n
    | .name => IsName rr.rdata
    | .opaq => True

structure Sections.Wire (s : Sections) : Prop where
  question : ∀ q ∈ s.question, IsName q.qname
  answer : ∀ rr ∈ s.answer, rr.Wire
  authority : ∀ rr ∈ s.authority, rr.Wire
  addition : ∀ rr ∈ s.addition, rr.Wire

/-- A zero-terminated string of label bytes, as `read_domain` stores it. -/
def IsReadName (n : List UInt8) : Prop := ∃ s, n = s ++ [0] ∧ ∀ c ∈ s, IsLabelByte c

/-- A record that is read back as it was written. A name in its data may be as long as the fuel of
`read_domain` allows. -/
structure ResourceRecord.ReadsBack (fuel : ℕ) (rr : ResourceRecord) : Prop where
  name : IsName rr.name
  rdlength : rr.rdata.length = rr.rdlength.toNat
  rdata : match rdataKind rr.type with
    | .soa => False
    | .mx => ∃ a b n, rr.rdata = [a, b] ++ n ∧ IsReadName n ∧ n.length ≤ fuel
    | .name => IsReadName rr.rdata ∧ rr.rdata.length ≤ fuel
    | .opaq => True

structure Sections.ReadsBack (fuel : ℕ) (s : Sections) : Prop where
  question : ∀ q ∈ s.question, IsName q.qname
  answer : ∀ rr ∈ s.answer, rr.ReadsBack fuel
  authority : ∀ rr ∈ s.authority, rr.ReadsBack fuel
  addition : ∀ rr ∈ s.addition, rr.ReadsBack fuel

section Cursor

variable {buf bs cs : List UInt8} {p : ℕ}

theorem HasAt.left (h : HasAt buf p (bs ++ cs)) : HasAt buf p bs :=
  (List.prefix_append bs cs).trans h

theorem HasAt.right (h : HasAt buf p (bs ++ cs)) : HasAt buf (p + bs.length) cs := by
  obtain ⟨t, ht⟩ := h
  refine ⟨t, ?_⟩
  rw [← List.drop_drop, ← ht, List.append_assoc, List.drop_left]

theorem HasAt.byteAt_eq {c : UInt8} (h : HasAt buf p (c :: cs)) : byteAt buf p = c := by
  obtain ⟨t, ht⟩ := h
  have hget : buf[p]? = some c := by
    rw [← List.head?_drop, ← ht]
    rfl
  simp [byteAt, List.getD_eq_getElem?_getD, hget]

theorem HasAt.copyOut_eq (h : HasAt buf p bs) : copyOut (buf.drop p) bs.length = bs := by
  obtain ⟨t, ht⟩ := h
  rw [← ht, copyOut_of_le (by simp), List.take_left]

theorem HasAt.loadBytes_eq (h : HasAt buf p bs) {n : ℕ} (hn : bs.length = n) :
    (loadBytes buf p n).result = some bs := by
  rw [result_loadBytes, ← hn, h.copyOut_eq]

theorem HasAt.u8nToU16h_eq {x : UInt16} (h : HasAt buf p (u16Be x)) :
    (u8nToU16h buf p).result = some x := by
  simp only [u8nToU16h, result_bind, h.loadBytes_eq (length_u16Be x), Option.bind_some,
    result_pure, beU16_u16Be]

theorem HasAt.u8nToU32h_eq {x : UInt32} (h : HasAt buf p (u32Be x)) :
    (u8nToU32h buf p).result = some x := by
  simp only [u8nToU32h, result_bind, h.loadBytes_eq (length_u32Be x), Option.bind_some,
    result_pure, beU32_u32Be]

/-- A name written without pointers is read back byte by byte. -/
theorem HasAt.readDomain_eq {s : List UInt8} (h : HasAt buf p (s ++ [0]))
    (hs : ∀ c ∈ s, IsLabelByte c) {fuel : ℕ} (hfuel : s.length < fuel) :
    (readDomain buf fuel p).result = some (s, s.length + 1) := by
  induction s generalizing p fuel with
  | nil =>
    obtain ⟨fuel, rfl⟩ : ∃ n, fuel = n + 1 := ⟨fuel - 1, by simp at hfuel; omega⟩
    rw [readDomain_terminator h.byteAt_eq]
    rfl
  | cons c s ih =>
    obtain ⟨fuel, rfl⟩ : ∃ n, fuel = n + 1 := ⟨fuel - 1, by simp at hfuel; omega⟩
    have hc : byteAt buf p = c := h.byteAt_eq
    have hrest : HasAt buf (p + [c].length) (s ++ [0]) := HasAt.right h
    have hr := ih hrest (fun d hd => hs d (List.mem_cons_of_mem c hd))
      (by simpa using hfuel : s.length < fuel)
    rw [readDomain_label (by rw [hc]; exact hs c List.mem_cons_self)]
    simp only [List.length_singleton] at hr
    simp [hr, hc]

end Cursor

/-! One entry after another. -/

section Entries

variable {buf : List UInt8} {p fuel : ℕ}

theorem IsName.isReadName {n : List UInt8} (h : IsName n) : IsReadName n := by
  obtain ⟨s, hn, hs, -⟩ := h
  exact ⟨s, hn, hs⟩

theorem IsReadName.cstr_append {n : List UInt8} (h : IsReadName n) : cstr n ++ [0] = n := by
  obtain ⟨s, rfl, hs⟩ := h
  rw [cstr_append_zero fun c hc => ((isLabelByte_iff c).1 (hs c hc)).1]

theorem IsName.cstr_append {n : List UInt8} (h : IsName n) : cstr n ++ [0] = n :=
  h.isReadName.cstr_append

theorem IsName.cstr_spec {n : List UInt8} (h : IsName n) :
    (∀ c ∈ cstr n, IsLabelByte c) ∧ (cstr n).length ≤ 254 := by
  obtain ⟨s, rfl, hs, hlen⟩ := h
  rw [cstr_append_zero fun c hc => ((isLabelByte_iff c).1 (hs c hc)).1]
  exact ⟨hs, hlen⟩

theorem IsName.length_le {n : List UInt8} (h : IsName n) : n.length ≤ 255 := by
  obtain ⟨s, rfl, -, hlen⟩ := h
  rw [List.length_append, List.length_singleton]
  omega

theorem IsName.domainLen_ne_none {n : List UInt8} (h : IsName n) : domainLen n ≠ none := by
  rw [domainLen_eq, if_pos h.cstr_spec.2]
  simp

theorem IsName.ne_nil {n : List UInt8} (h : IsName n) : n ≠ [] := by
  obtain ⟨s, rfl, -⟩ := h
  simp

theorem HasAt.name_eq {n : List UInt8} (h : HasAt buf p n) (hn : IsReadName n)
    (hfuel : n.length ≤ fuel) :
    (readDomain buf fuel p).result = some (cstr n, (cstr n).length + 1) := by
  obtain ⟨s, rfl, hs⟩ := hn
  rw [cstr_append_zero fun c hc => ((isLabelByte_iff c).1 (hs c hc)).1]
  rw [List.length_append, List.length_singleton] at hfuel
  exact h.readDomain_eq hs (by omega)

theorem HasAt.question_eq {q : MessageQuestion} (h : HasAt buf p (questionWire q))
    (hq : IsName q.qname) (hfuel : 255 ≤ fuel) :
    (msgQuestionFromBuf fuel buf p).result = some (q, p + (questionWire q).length) := by
  have hlen := length_questionWire q
  rw [questionWire, ← List.append_assoc, hq.cstr_append] at h
  have hname := h.left.name_eq hq.isReadName (hq.length_le.trans hfuel)
  have hsize : q.qname.length = (cstr q.qname).length + 1 := by
    rw [← congrArg List.length hq.cstr_append]
    simp
  have htype := h.right.left.u8nToU16h_eq
  have hclass := h.right.right.u8nToU16h_eq
  rw [hsize] at htype hclass
  rw [length_u16Be] at hclass
  simp only [msgQuestionFromBuf, result_bind, hname, Option.bind_some, htype, hclass, result_pure,
    hq.cstr_append]
  exact congrArg (fun e => some (q, e)) (by omega)

theorem HasAt.rdata_eq {rr : ResourceRecord} (h : HasAt buf p rr.rdata) (hrr : rr.ReadsBack fuel) :
    (rdataFromBuf fuel buf p (rdataKind rr.type) rr.rdlength).result = some rr.rdata := by
  have hdata := hrr.rdata
  cases hk : rdataKind rr.type with
  | soa => simp [hk] at hdata
  | mx =>
    simp only [hk] at hdata
    obtain ⟨a, b, n, hab, hn, hlen⟩ := hdata
    rw [hab] at h ⊢
    have hname := h.right.name_eq hn hlen
    have hpref : (loadBytes buf p 2).result = some [a, b] := h.left.loadBytes_eq rfl
    simp only [List.length_cons, List.length_nil] at hname
    simp only [rdataFromBuf, result_bind, hpref, Option.bind_some, hname, result_pure,
      List.append_assoc, hn.cstr_append]
  | name =>
    simp only [hk] at hdata
    obtain ⟨hn, hlen⟩ := hdata
    simp only [rdataFromBuf, result_bind, h.name_eq hn hlen, Option.bind_some, result_pure,
      hn.cstr_append]
  | opaq => exact h.loadBytes_eq hrr.rdlength

theorem HasAt.rr_eq {rr : ResourceRecord} (h : HasAt buf p (rrWire rr)) (hrr : rr.ReadsBack fuel)
    (hfuel : 255 ≤ fuel) :
    (msgRrFromBuf fuel buf p).result = some (rr, p + (rrWire rr).length) := by
  have hlen := length_rrWire rr
  rw [rrWire, ← List.append_assoc, hrr.name.cstr_append] at h
  have hsize : rr.name.length = (cstr rr.name).length + 1 := by
    rw [← congrArg List.length hrr.name.cstr_append]
    simp
  have hname := h.left.name_eq hrr.name.isReadName (hrr.name.length_le.trans hfuel)
  have htype := h.right.left.u8nToU16h_eq
  have hclass := h.right.right.left.u8nToU16h_eq
  have httl := h.right.right.right.left.u8nToU32h_eq
  have hrdlen := h.right.right.right.right.left.u8nToU16h_eq
  have hcopy : copyOut rr.rdata rr.rdlength.toNat = rr.rdata := by
    rw [← hrr.rdlength, copyOut_length]
  have hdata := h.right.right.right.right.right
  rw [hcopy] at hdata
  have hrdata := hdata.rdata_eq hrr
  simp only [hsize, length_u16Be, length_u32Be, Nat.add_assoc] at htype hclass httl hrdlen hrdata
  simp only [msgRrFromBuf, result_bind, hname, Option.bind_some, Nat.add_assoc, htype, hclass, httl,
    hrdlen, hrdata, result_pure, hrr.name.cstr_append]
  have hback : UInt16.ofNat rr.rdata.length = rr.rdlength := by rw [hrr.rdlength]; simp
  rw [hback, ← hrr.rdlength, List.take_length]
  exact congrArg (fun e => some (rr, e)) (by have := hrr.rdlength; omega)

theorem HasAt.repeatRead_eq {α : Type} {f : ℕ → ReadTrace (α × ℕ)} {wire : α → List UInt8}
    {xs : List α} (h : HasAt buf p (xs.flatMap wire))
    (hf : ∀ x ∈ xs, ∀ q, HasAt buf q (wire x) → (f q).result = some (x, q + (wire x).length)) :
    (repeatRead f xs.length p).result = some (xs, p + (xs.flatMap wire).length) := by
  induction xs generalizing p with
  | nil => rfl
  | cons x xs ih =>
    rw [List.flatMap_cons] at h ⊢
    have hx := hf x List.mem_cons_self p h.left
    have hxs := ih h.right fun y hy => hf y (List.mem_cons_of_mem x hy)
    simp [repeatRead, hx, hxs, Nat.add_assoc]

end Entries

/-! The whole message. -/

theorem HasAt.header_eq {buf : List UInt8} {h : MessageHeader} (hbuf : HasAt buf 0 (headerWire h)) :
    (msgHeaderFromBuf buf).result = some h := by
  rw [headerWire] at hbuf
  have hid := hbuf.left.u8nToU16h_eq
  have hmisc1 : byteAt buf 2 = h.misc1 := hbuf.right.left.byteAt_eq
  have hmisc2 : byteAt buf 3 = h.misc2 := hbuf.right.right.left.byteAt_eq
  have hqd := hbuf.right.right.right.left.u8nToU16h_eq
  have han := hbuf.right.right.right.right.left.u8nToU16h_eq
  have hns := hbuf.right.right.right.right.right.left.u8nToU16h_eq
  have har := hbuf.right.right.right.right.right.right.u8nToU16h_eq
  simp only [length_u16Be, List.length_singleton] at hqd han hns har
  simp [msgHeaderFromBuf, hid, hmisc1, hmisc2, hqd, han, hns, har]

/-- Decoding a buffer that starts with the wire form of a message gives the message back. -/
theorem HasAt.message_eq {buf : List UInt8} {m : Message} {s : Sections} (hm : m.Holds s)
    {fuel : ℕ} (hs : s.ReadsBack fuel) (htc : tcOf m.header.misc1 = 0)
    (h : HasAt buf 0 (headerWire m.header ++ s.wire)) {size : ℕ}
    (hsize : sizeofMessageHeader ≤ size) (hfuel : 255 ≤ fuel) :
    (messageFromBuf fuel buf size Message.zero).result = some (1, m) := by
  have hsections := h.right
  rw [Sections.wire, length_headerWire, Nat.zero_add] at hsections
  have hq := hsections.left.repeatRead_eq fun q hq p hp => hp.question_eq (hs.question q hq) hfuel
  have han := hsections.right.left.repeatRead_eq fun rr hrr p hp =>
    hp.rr_eq (hs.answer rr hrr) hfuel
  have hns := hsections.right.right.left.repeatRead_eq fun rr hrr p hp =>
    hp.rr_eq (hs.authority rr hrr) hfuel
  have har := hsections.right.right.right.repeatRead_eq fun rr hrr p hp =>
    hp.rr_eq (hs.addition rr hrr) hfuel
  rw [messageFromBuf, if_neg (Nat.not_lt.2 hsize)]
  simp only [result_bind, h.left.header_eq, Option.bind_some, htc, ne_eq, not_true_eq_false,
    if_false, sizeofMessageHeader, hm.qdcount, hq, hm.ancount, han, hm.nscount, hns, hm.arcount,
    har, result_pure, Message.zero, setSection_nil, ← hm.question, ← hm.answer, ← hm.authority,
    ← hm.addition]

theorem ResourceRecord.Wire.readsBack {rr : ResourceRecord} (h : rr.Wire) {fuel : ℕ}
    (hfuel : 255 ≤ fuel) : rr.ReadsBack fuel := by
  refine ⟨h.name, h.rdlength, ?_⟩
  have hdata := h.rdata
  cases hk : rdataKind rr.type with
  | soa =>
    rw [hk] at hdata
    exact hdata
  | mx =>
    rw [hk] at hdata
    obtain ⟨a, b, n, hab, hn⟩ := hdata
    exact ⟨a, b, n, hab, hn.isReadName, hn.length_le.trans hfuel⟩
  | name =>
    rw [hk] at hdata
    exact ⟨IsName.isReadName hdata, (IsName.length_le hdata).trans hfuel⟩
  | opaq => trivial

theorem Sections.Wire.readsBack {s : Sections} (h : s.Wire) {fuel : ℕ} (hfuel : 255 ≤ fuel) :
    s.ReadsBack fuel where
  question := h.question
  answer rr hrr := (h.answer rr hrr).readsBack hfuel
  authority rr hrr := (h.authority rr hrr).readsBack hfuel
  addition rr hrr := (h.addition rr hrr).readsBack hfuel

theorem ResourceRecord.ReadsBack.encodes {fuel : ℕ} {rr : ResourceRecord} (h : rr.ReadsBack fuel) :
    rr.Encodes := by
  refine ⟨h.name.ne_nil, h.name.domainLen_ne_none, ?_⟩
  intro hlen hnil
  have := h.rdlength
  rw [hnil, List.length_nil] at this
  exact hlen (UInt16.toNat_inj.1 this.symm)

theorem Sections.Wire.encodes {s : Sections} (h : s.Wire) : s.Encodes where
  question q hq := ⟨(h.question q hq).ne_nil, (h.question q hq).domainLen_ne_none⟩
  answer rr hrr := ((h.answer rr hrr).readsBack (Nat.le_refl 255)).encodes
  authority rr hrr := ((h.authority rr hrr).readsBack (Nat.le_refl 255)).encodes
  addition rr hrr := ((h.addition rr hrr).readsBack (Nat.le_refl 255)).encodes

theorem length_flatMap_le {α : Type} {wire : α → List UInt8} {xs : List α} {b : ℕ}
    (h : ∀ x ∈ xs, (wire x).length ≤ b) : (xs.flatMap wire).length ≤ xs.length * b := by
  induction xs with
  | nil => simp
  | cons x xs ih =>
    have hx := h x List.mem_cons_self
    have hxs := ih fun y hy => h y (List.mem_cons_of_mem x hy)
    simp only [List.flatMap_cons, List.length_append, List.length_cons, Nat.succ_mul]
    omega

/-- No message that survives the wire is too long for the encoder's 32-bit sizes. -/
theorem wire_length_lt {m : Message} {s : Sections} (hm : m.Holds s) (hs : s.Wire) :
    12 + s.wire.length < 2 ^ 31 := by
  have hrr : ∀ rr : ResourceRecord, rr.Wire → (rrWire rr).length ≤ 777 := by
    intro rr h
    have h₁ := h.name.cstr_spec.2
    have h₂ := h.rdlength
    have h₃ := h.short
    rw [length_rrWire]
    simp only [rrBufSize] at h₃
    omega
  have hq : ∀ q ∈ s.question, (questionWire q).length ≤ 259 := by
    intro q hq
    have := (hs.question q hq).cstr_spec.2
    rw [length_questionWire]
    omega
  have h₁ := length_flatMap_le hq
  have h₂ := length_flatMap_le fun rr h => hrr rr (hs.answer rr h)
  have h₃ := length_flatMap_le fun rr h => hrr rr (hs.authority rr h)
  have h₄ := length_flatMap_le fun rr h => hrr rr (hs.addition rr h)
  have c₁ := m.header.qdcount.toNat_lt
  have c₂ := m.header.ancount.toNat_lt
  have c₃ := m.header.nscount.toNat_lt
  have c₄ := m.header.arcount.toNat_lt
  rw [hm.qdcount] at c₁
  rw [hm.ancount] at c₂
  rw [hm.nscount] at c₃
  rw [hm.arcount] at c₄
  simp only [Sections.wire, List.length_append]
  omega

/-- Encoding a message and decoding the bytes written, with any bytes behind them, gives the
message back; the encoder returns the number of bytes it wrote. -/
theorem messageFromBuf_messageToU8 {m : Message} {s : Sections} (hm : m.Holds s) (hs : s.Wire)
    (htc : tcOf m.header.misc1 = 0) (mem : Mem) (dest : ℤ) :
    ∃ (n : ℕ) (mem' : Mem), messageToU8 m mem dest = .ok ((n : ℤ), mem') ∧
      n = 12 + (s.question.flatMap questionWire).length + (s.answer.flatMap rrWire).length +
        (s.authority.flatMap rrWire).length + (s.addition.flatMap rrWire).length ∧
      (∀ i, i < dest ∨ dest + n ≤ i → mem' i = mem i) ∧
      ∀ extra size fuel, n ≤ size → 255 ≤ fuel →
        (messageFromBuf fuel (mem'.slice dest n ++ extra) size Message.zero).result =
          some (1, m) := by
  have hwire := length_messageWire m.header s
  refine ⟨12 + s.wire.length, mem.write dest (headerWire m.header ++ s.wire), ?_, ?_, ?_, ?_⟩
  · exact messageToU8_eq_of_lt hm hs.encodes (wire_length_lt hm hs) mem dest
  · simp only [Sections.wire, List.length_append]
    omega
  · intro i hi
    apply mem.write_outside
    rw [hwire]
    exact hi
  · intro extra size fuel hsize hfuel
    rw [← hwire, Mem.slice_write]
    refine HasAt.message_eq hm (hs.readsBack hfuel) htc (List.prefix_append _ _) ?_ hfuel
    simp only [sizeofMessageHeader]
    omega

/-- One question, and an address and a mail exchange in the answer. -/
def sampleSections : Sections where
  question := [⟨[1, 97, 0], rrtypeMx, rrclassIn⟩]
  answer := [⟨[1, 97, 0], rrtypeMx, rrclassIn, 60, 5, [0, 10, 1, 109, 0]⟩,
    ⟨[1, 109, 0], rrtypeA, rrclassIn, 60, 4, [10, 0, 0, 1]⟩]
  authority := []
  addition := []

def sampleMessage : Message :=
  ⟨⟨7, 0x80, 0, 1, 2, 0, 0⟩, sampleSections.question.map some, sampleSections.answer.map some, [], []⟩

theorem messageFromBuf_messageToU8_sample :
    ∃ (n : ℕ) (mem' : Mem), messageToU8 sampleMessage (fun _ => 0) 0 = .ok ((n : ℤ), mem') ∧
      n = 54 ∧ ∀ extra, (messageFromBuf 255 (mem'.slice 0 n ++ extra) n Message.zero).result =
        some (1, sampleMessage) := by
  have hm : sampleMessage.Holds sampleSections := ⟨rfl, rfl, rfl, rfl, rfl, rfl, rfl, rfl⟩
  have ha : IsName [1, 97, 0] := ⟨[1, 97], rfl, by simp [IsLabelByte], by decide⟩
  have hmail : IsName [1, 109, 0] := ⟨[1, 109], rfl, by simp [IsLabelByte], by decide⟩
  have hs : sampleSections.Wire := by
    refine ⟨List.forall_mem_singleton.2 ha, ?_, List.forall_mem_nil _, List.forall_mem_nil _⟩
    simp only [sampleSections, List.forall_mem_cons]
    refine ⟨⟨ha, rfl, by decide, 0, 10, [1, 109, 0], rfl, hmail⟩, ⟨hmail, rfl, by decide, ?_⟩,
      List.forall_mem_nil _⟩
    exact True.intro
  obtain ⟨n, mem', henc, hn, -, hdec⟩ := messageFromBuf_messageToU8 hm hs rfl (fun _ => 0) 0
  refine ⟨n, mem', henc, hn.trans ?_, fun extra => hdec extra n 255 (Nat.le_refl n) (Nat.le_refl _)⟩
  decide

end BakaDns
