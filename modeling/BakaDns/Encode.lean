import BakaDns.Message

/-!
# Encoding

`message_to_u8` and what it calls. The output buffer is a memory around address `dest`, since a
name that is too long moves the cursor back by one byte. The wire forms below it say what gets
written when no name is too long.
-/

namespace BakaDns
open CBytes

def msgHeaderToU8 (header : MessageHeader) (mem : Mem) (dest : ℤ) : ℤ × Mem :=
  let mem := mem.write dest (u16Be header.id)
  let mem := mem.write (dest + 2) [header.misc1]
  let mem := mem.write (dest + 3) [header.misc2]
  let mem := mem.write (dest + 4) (u16Be header.qdcount)
  let mem := mem.write (dest + 6) (u16Be header.ancount)
  let mem := mem.write (dest + 8) (u16Be header.nscount)
  let mem := mem.write (dest + 10) (u16Be header.arcount)
  (sizeofMessageHeader, mem)

def msgQuestionToU8 (q : MessageQuestion) (mem : Mem) (dest : ℤ) : Except Fault (ℤ × Mem) :=
  if q.qname = [] then .error .crash
  else
    match domainLen q.qname with
    | none => .ok (-1, mem)
    | some lenQname =>
      let mem := mem.write dest (copyOut q.qname lenQname)
      let mem := mem.write (dest + lenQname) (u16Be q.qtype)
      let mem := mem.write (dest + lenQname + 2) (u16Be q.qclass)
      .ok (lenQname + 4, mem)

def msgRrToU8 (rr : ResourceRecord) (mem : Mem) (dest : ℤ) : Except Fault (ℤ × Mem) :=
  if rr.name = [] then .error .crash
  else
    match domainLen rr.name with
    | none => .ok (-1, mem)
    | some lenName =>
      let mem := mem.write dest (copyOut rr.name lenName)
      let mem := mem.write (dest + lenName) (u16Be rr.type)
      let mem := mem.write (dest + lenName + 2) (u16Be rr.rrclass)
      let mem := mem.write (dest + lenName + 4) (u32Be rr.ttl)
      let mem := mem.write (dest + lenName + 8) (u16Be rr.rdlength)
      if rr.rdlength = 0 then .ok (lenName + 10, mem)
      else if rr.rdata = [] then .error .crash
      else
        let mem := mem.write (dest + lenName + 10) (copyOut rr.rdata rr.rdlength.toNat)
        .ok (lenName + 10 + rr.rdlength.toNat, mem)

/-- The loop over one section. The flag is false when it met a NULL array or entry, and the
integer is the section's size, to which an overlong name contributes its -1. -/
def sectionToU8 {α : Type} (toU8 : α → Mem → ℤ → Except Fault (ℤ × Mem)) :
    ℕ → List (Option α) → Mem → ℤ → Except Fault (Bool × Mem × ℤ)
  | 0, _, mem, _ => .ok (true, mem, 0)
  | n + 1, some x :: xs, mem, dest => do
    let (tmp, mem) ← toU8 x mem dest
    let (valid, mem, size) ← sectionToU8 toU8 n xs mem (dest + tmp)
    pure (valid, mem, tmp + size)
  | _ + 1, _, mem, _ => .ok (false, mem, 0)

/-- `message_to_u8`: its return value and the memory it leaves. The five sizes are `uint32_t` and
their sum is returned as an `int`. -/
def messageToU8 (msg : Message) (mem : Mem) (dest : ℤ) : Except Fault (ℤ × Mem) := do
  let (hsize, mem) := msgHeaderToU8 msg.header mem dest
  let dest := dest + hsize
  let (valid, mem, qsize) ←
    sectionToU8 msgQuestionToU8 msg.header.qdcount.toNat msg.question mem dest
  if ¬ valid then return (-1, mem)
  let dest := dest + qsize
  let (valid, mem, ansize) ←
    sectionToU8 msgRrToU8 msg.header.ancount.toNat msg.answer mem dest
  if ¬ valid then return (-1, mem)
  let dest := dest + ansize
  let (valid, mem, nssize) ←
    sectionToU8 msgRrToU8 msg.header.nscount.toNat msg.authority mem dest
  if ¬ valid then return (-1, mem)
  let dest := dest + nssize
  let (valid, mem, arsize) ←
    sectionToU8 msgRrToU8 msg.header.arcount.toNat msg.addition mem dest
  if ¬ valid then return (-1, mem)
  return ((hsize + qsize + ansize + nssize + arsize).bmod (2 ^ 32), mem)

/-! Wire forms. -/

def headerWire (h : MessageHeader) : List UInt8 :=
  u16Be h.id ++ ([h.misc1] ++ ([h.misc2] ++ (u16Be h.qdcount ++ (u16Be h.ancount ++
    (u16Be h.nscount ++ u16Be h.arcount)))))

def questionWire (q : MessageQuestion) : List UInt8 :=
  cstr q.qname ++ ([0] ++ (u16Be q.qtype ++ u16Be q.qclass))

def rrWire (rr : ResourceRecord) : List UInt8 :=
  cstr rr.name ++ ([0] ++ (u16Be rr.type ++ (u16Be rr.rrclass ++ (u32Be rr.ttl ++
    (u16Be rr.rdlength ++ copyOut rr.rdata rr.rdlength.toNat)))))

/-- The entries of a message whose section arrays hold no NULL. -/
structure Sections where
  question : List MessageQuestion
  answer : List ResourceRecord
  authority : List ResourceRecord
  addition : List ResourceRecord
deriving DecidableEq, Repr

def Sections.wire (s : Sections) : List UInt8 :=
  s.question.flatMap questionWire ++ (s.answer.flatMap rrWire ++
    (s.authority.flatMap rrWire ++ s.addition.flatMap rrWire))

/-- The arrays of `m` hold the entries of `s` and the counts of its header are their numbers. -/
structure Message.Holds (m : Message) (s : Sections) : Prop where
  question : m.question = s.question.map some
  answer : m.answer = s.answer.map some
  authority : m.authority = s.authority.map some
  addition : m.addition = s.addition.map some
  qdcount : m.header.qdcount.toNat = s.question.length
  ancount : m.header.ancount.toNat = s.answer.length
  nscount : m.header.nscount.toNat = s.authority.length
  arcount : m.header.arcount.toNat = s.addition.length

/-- A question the encoder can write. -/
def MessageQuestion.Encodes (q : MessageQuestion) : Prop := q.qname ≠ [] ∧ domainLen q.qname ≠ none

/-- A record the encoder can write. -/
def ResourceRecord.Encodes (rr : ResourceRecord) : Prop :=
  rr.name ≠ [] ∧ domainLen rr.name ≠ none ∧ (rr.rdlength ≠ 0 → rr.rdata ≠ [])

structure Sections.Encodes (s : Sections) : Prop where
  question : ∀ q ∈ s.question, q.Encodes
  answer : ∀ rr ∈ s.answer, rr.Encodes
  authority : ∀ rr ∈ s.authority, rr.Encodes
  addition : ∀ rr ∈ s.addition, rr.Encodes

@[simp] theorem length_headerWire (h : MessageHeader) : (headerWire h).length = 12 := rfl

theorem length_questionWire (q : MessageQuestion) :
    (questionWire q).length = (cstr q.qname).length + 5 := by
  simp [questionWire]

theorem length_rrWire (rr : ResourceRecord) :
    (rrWire rr).length = (cstr rr.name).length + 11 + rr.rdlength.toNat := by
  simp [rrWire]
  omega

theorem msgHeaderToU8_eq (h : MessageHeader) (mem : Mem) (dest : ℤ) :
    msgHeaderToU8 h mem dest = (12, mem.write dest (headerWire h)) := by
  simp only [msgHeaderToU8, headerWire, ← Mem.write_write, length_u16Be, List.length_singleton,
    Nat.cast_ofNat, Nat.cast_one, sizeofMessageHeader, add_assoc]
  norm_num

theorem msgQuestionToU8_eq {q : MessageQuestion} (hq : q.Encodes) (mem : Mem) (dest : ℤ) :
    msgQuestionToU8 q mem dest =
      .ok ((questionWire q).length, mem.write dest (questionWire q)) := by
  obtain ⟨hnull, hlen⟩ := hq
  obtain ⟨n, hn⟩ := Option.ne_none_iff_exists'.1 hlen
  have hn' := (domainLen_eq_some.1 hn).2
  simp only [msgQuestionToU8, hnull, if_false, hn, copyOut_domainLen hn, length_questionWire]
  simp only [questionWire, ← Mem.write_write, length_u16Be, List.length_singleton,
    Nat.cast_ofNat, Nat.cast_one, Nat.cast_add, hn', add_assoc]
  norm_num

theorem msgRrToU8_eq {rr : ResourceRecord} (hrr : rr.Encodes) (mem : Mem) (dest : ℤ) :
    msgRrToU8 rr mem dest = .ok ((rrWire rr).length, mem.write dest (rrWire rr)) := by
  obtain ⟨hnull, hlen, hdata⟩ := hrr
  obtain ⟨n, hn⟩ := Option.ne_none_iff_exists'.1 hlen
  have hn' := (domainLen_eq_some.1 hn).2
  simp only [msgRrToU8, hnull, if_false, hn, copyOut_domainLen hn, length_rrWire]
  simp only [rrWire, ← Mem.write_write, length_u16Be, length_u32Be, List.length_singleton,
    Nat.cast_ofNat, Nat.cast_one, Nat.cast_add, hn', add_assoc]
  by_cases h0 : rr.rdlength = 0
  · simp [h0, copyOut]
  · simp only [h0, if_false, hdata h0]
    norm_num
    omega

theorem sectionToU8_eq {α : Type} {toU8 : α → Mem → ℤ → Except Fault (ℤ × Mem)}
    {wire : α → List UInt8} {xs : List α}
    (h : ∀ x ∈ xs, ∀ mem dest, toU8 x mem dest = .ok ((wire x).length, mem.write dest (wire x)))
    (mem : Mem) (dest : ℤ) :
    sectionToU8 toU8 xs.length (xs.map some) mem dest =
      .ok (true, mem.write dest (xs.flatMap wire), (xs.flatMap wire).length) := by
  induction xs generalizing mem dest with
  | nil => simp [sectionToU8]
  | cons x xs ih =>
    have hx := h x List.mem_cons_self mem dest
    have hxs := ih (fun y hy => h y (List.mem_cons_of_mem x hy))
    simp only [List.length_cons, List.map_cons, sectionToU8, hx, hxs, bind, Except.bind, pure,
      Except.pure, Mem.write_write, List.flatMap_cons, List.length_append, Nat.cast_add]

/-- The encoder writes the wire form of a message that holds no NULL and no overlong name. -/
theorem messageToU8_eq {m : Message} {s : Sections} (hm : m.Holds s) (hs : s.Encodes)
    (mem : Mem) (dest : ℤ) :
    messageToU8 m mem dest =
      .ok (((12 + s.wire.length : ℕ) : ℤ).bmod (2 ^ 32),
        mem.write dest (headerWire m.header ++ s.wire)) := by
  have hq := sectionToU8_eq fun q hq => msgQuestionToU8_eq (hs.question q hq)
  have han := sectionToU8_eq fun rr hrr => msgRrToU8_eq (hs.answer rr hrr)
  have hns := sectionToU8_eq fun rr hrr => msgRrToU8_eq (hs.authority rr hrr)
  have har := sectionToU8_eq fun rr hrr => msgRrToU8_eq (hs.addition rr hrr)
  have h12 : ∀ d : ℤ, d + 12 = d + ((headerWire m.header).length : ℤ) := fun _ => rfl
  simp only [messageToU8, msgHeaderToU8_eq, hm.question, hm.answer, hm.authority, hm.addition,
    hm.qdcount, hm.ancount, hm.nscount, hm.arcount, hq, han, hns, har, bind, Except.bind, pure,
    Except.pure, not_true_eq_false, if_false, Sections.wire, ← Mem.write_write, ← h12,
    List.length_append, Nat.cast_add, Nat.cast_ofNat, add_assoc]

/-- The size that is returned is the true one as long as it fits into an `int`. -/
theorem messageToU8_eq_of_lt {m : Message} {s : Sections} (hm : m.Holds s) (hs : s.Encodes)
    (hlt : 12 + s.wire.length < 2 ^ 31) (mem : Mem) (dest : ℤ) :
    messageToU8 m mem dest =
      .ok (((12 + s.wire.length : ℕ) : ℤ), mem.write dest (headerWire m.header ++ s.wire)) := by
  have hmod : ((12 + s.wire.length : ℕ) : ℤ).bmod (2 ^ 32) = ((12 + s.wire.length : ℕ) : ℤ) := by
    apply Int.bmod_eq_of_le
    · omega
    · omega
  rw [messageToU8_eq hm hs, hmod]

theorem length_messageWire (h : MessageHeader) (s : Sections) :
    (headerWire h ++ s.wire).length = 12 + s.wire.length := by
  rw [List.length_append, length_headerWire]

/-! The buffers that callers pass have a size, which the encoder does not know. -/

/-- The encoder leaves everything outside of a buffer of the given size alone. -/
def StaysInside (limit : ℕ) (m : Message) : Prop :=
  ∀ mem n mem', messageToU8 m mem 0 = .ok (n, mem') →
    ∀ a, a < 0 ∨ (limit : ℤ) ≤ a → mem' a = mem a

/-- Without overlong names it stays inside exactly when the wire form fits. -/
theorem staysInside_iff_length {limit : ℕ} {m : Message} {s : Sections} (hm : m.Holds s)
    (hs : s.Encodes) : StaysInside limit m ↔ 12 + s.wire.length ≤ limit := by
  have hlen := length_messageWire m.header s
  constructor
  · intro hin
    by_contra hlong
    have hlt : limit < (headerWire m.header ++ s.wire).length := by omega
    -- the first byte behind the buffer, in a memory that holds another byte there
    have hsame := hin (fun _ => byteAt (headerWire m.header ++ s.wire) limit + 1) _ _
      (messageToU8_eq hm hs _ 0) limit (.inr le_rfl)
    rw [Mem.write_inside _ hlt] at hsame
    have hbyte := congrArg UInt8.toNat hsame
    rw [UInt8.toNat_add, UInt8.toNat_one] at hbyte
    omega
  · intro hfit mem n mem' hmem a ha
    rw [messageToU8_eq hm hs] at hmem
    rw [← (Prod.mk.inj (Except.ok.inj hmem)).2]
    apply mem.write_outside
    omega

end BakaDns
