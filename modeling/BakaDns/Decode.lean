import BakaDns.Lib.ReadTrace
import BakaDns.Message

/-!
# Decoding

`message_from_buf` and what it calls. Pointers into the datagram are indices from its start. The
fuel bounds the iterations of `read_domain`'s loop, its recursive calls included.
-/

namespace BakaDns
open CBytes ReadTrace

def u8nToU16h (buf : List UInt8) (p : ℕ) : ReadTrace UInt16 := do
  let bs ← loadBytes buf p 2
  pure (beU16 (byteAt bs 0) (byteAt bs 1))

def u8nToU32h (buf : List UInt8) (p : ℕ) : ReadTrace UInt32 := do
  let bs ← loadBytes buf p 4
  pure (beU32 (byteAt bs 0) (byteAt bs 1) (byteAt bs 2) (byteAt bs 3))

def msgHeaderFromBuf (buf : List UInt8) : ReadTrace MessageHeader := do
  let id ← u8nToU16h buf 0
  let misc1 ← load buf 2
  let misc2 ← load buf 3
  let qdcount ← u8nToU16h buf 4
  let ancount ← u8nToU16h buf 6
  let nscount ← u8nToU16h buf 8
  let arcount ← u8nToU16h buf 10
  pure ⟨id, misc1, misc2, qdcount, ancount, nscount, arcount⟩

/-- The test that a byte of a name starts a compression pointer. -/
def isPointer (c : UInt8) : Bool := ((c >>> 6) &&& 3) == 3

/-- The 14 bits of a compression pointer. -/
def pointerTarget (c d : UInt8) : ℕ := (c.toNat * 256 + d.toNat) % 0x4000

/-- `read_domain` from position `src`: the bytes stored at `dest` and the advance of `*_offset`.
One unfolding is one iteration of the loop, or the recursive call that ends it. The C function
returns the number of bytes stored plus one. -/
def readDomain (base : List UInt8) : ℕ → ℕ → ReadTrace (List UInt8 × ℕ)
  | 0, _ => stuck
  | fuel + 1, src => do
    let c ← load base src
    if c = 0 then
      pure ([], 1)
    else if isPointer c then do
      let d ← load base (src + 1)
      let (dest, _) ← readDomain base fuel (pointerTarget c d)
      -- the pointer itself advances `*_offset` by one, the end of the function by another
      pure (dest, 2)
    else do
      let (dest, offset) ← readDomain base fuel (src + 1)
      pure (c :: dest, offset + 1)

/-- `msg_question_from_buf`; the second component is the position after the question. The buffer
the name is read into was zeroed, which gives the copied name its terminator. -/
def msgQuestionFromBuf (fuel : ℕ) (base : List UInt8) (buf : ℕ) :
    ReadTrace (MessageQuestion × ℕ) := do
  let (domainbuf, offset) ← readDomain base fuel buf
  let qtype ← u8nToU16h base (buf + offset)
  let qclass ← u8nToU16h base (buf + offset + 2)
  pure (⟨domainbuf ++ [0], qtype, qclass⟩, buf + offset + 4)

/-- How `msg_rr_from_buf` treats the data of a record of some type. -/
inductive RdataKind
  | soa
  | mx
  | name
  | opaq
deriving DecidableEq, Repr

def rdataKind (type : UInt16) : RdataKind :=
  if type = rrtypeSoa then .soa
  else if type = rrtypeMx then .mx
  else if type = rrtypeNs ∨ type = rrtypePtr ∨ type = rrtypeTxt ∨ type = rrtypeCname then .name
  else .opaq

/-- The bytes written to the zeroed `rrbuf` up to the end of the record's data, for data that
starts at `buf`. Their number is `real_rdlength` before it is stored in 16 bits. -/
def rdataFromBuf (fuel : ℕ) (base : List UInt8) (buf : ℕ) (kind : RdataKind)
    (rdlength : UInt16) : ReadTrace (List UInt8) :=
  match kind with
  | .soa => do
    let (mname, mnameOffset) ← readDomain base fuel buf
    -- `buf += mname_offset` is done in the second call's argument and added again below
    let (rname, rnameOffset) ← readDomain base fuel (buf + mnameOffset)
    let nums ← loadBytes base (buf + mnameOffset + mnameOffset + rnameOffset) 20
    pure (mname ++ [0] ++ rname ++ [0] ++ nums)
  | .mx => do
    let preference ← loadBytes base buf 2
    let (exchange, _) ← readDomain base fuel (buf + 2)
    pure (preference ++ exchange ++ [0])
  | .name => do
    let (dest, _) ← readDomain base fuel buf
    pure (dest ++ [0])
  | .opaq => loadBytes base buf rdlength.toNat

/-- `msg_rr_from_buf`; the second component is the position after the record, which is reached
with the `rdlength` of the datagram and not with the length of the decoded data. -/
def msgRrFromBuf (fuel : ℕ) (base : List UInt8) (buf : ℕ) :
    ReadTrace (ResourceRecord × ℕ) := do
  let (domainbuf, offset) ← readDomain base fuel buf
  let type ← u8nToU16h base (buf + offset)
  let rrclass ← u8nToU16h base (buf + offset + 2)
  let ttl ← u8nToU32h base (buf + offset + 4)
  let rdlength ← u8nToU16h base (buf + offset + 8)
  let rrbuf ← rdataFromBuf fuel base (buf + offset + 10) (rdataKind type) rdlength
  let realRdlength := UInt16.ofNat rrbuf.length
  pure (⟨domainbuf ++ [0], type, rrclass, ttl, realRdlength, rrbuf.take realRdlength.toNat⟩,
    buf + offset + 10 + rdlength.toNat)

/-- A section's array after its loop: without entries the array is not allocated. -/
def setSection {α : Type} (old : List (Option α)) (entries : List α) : List (Option α) :=
  if entries = [] then old else entries.map some

/-- `message_from_buf` into `msg`: its return value and the message it leaves. -/
def messageFromBuf (fuel : ℕ) (buf : List UInt8) (size : ℕ) (msg : Message) :
    ReadTrace (ℤ × Message) :=
  if size < sizeofMessageHeader then pure (-1, msg)
  else do
    let header ← msgHeaderFromBuf buf
    if tcOf header.misc1 ≠ 0 then
      pure (-1, { msg with header := header })
    else do
      let (question, p) ← repeatRead (msgQuestionFromBuf fuel buf) header.qdcount.toNat
        sizeofMessageHeader
      let (answer, p) ← repeatRead (msgRrFromBuf fuel buf) header.ancount.toNat p
      let (authority, p) ← repeatRead (msgRrFromBuf fuel buf) header.nscount.toNat p
      let (addition, _) ← repeatRead (msgRrFromBuf fuel buf) header.arcount.toNat p
      pure (1, {
        header := header
        question := setSection msg.question question
        answer := setSection msg.answer answer
        authority := setSection msg.authority authority
        addition := setSection msg.addition addition })

theorem setSection_nil {α : Type} (xs : List α) : setSection [] xs = xs.map some := by
  cases xs with
  | nil => rfl
  | cons x xs => rfl

/-! What `read_domain` can return. -/

theorem isPointer_iff (c : UInt8) : isPointer c = true ↔ 0xC0 ≤ c.toNat := by
  have h : ∀ n : Fin 256, (isPointer (UInt8.ofNat n) = true ↔ 0xC0 ≤ n.val) := by
    decide +kernel
  simpa using h ⟨c.toNat, c.toNat_lt⟩

theorem pointerTarget_lt (c d : UInt8) : pointerTarget c d < 0x4000 :=
  Nat.mod_lt _ (by decide)

/-- A byte a name may hold: neither a terminator nor the start of a pointer. -/
def IsLabelByte (c : UInt8) : Prop := 0 < c.toNat ∧ c.toNat < 0xC0

theorem isLabelByte_iff (c : UInt8) : IsLabelByte c ↔ c ≠ 0 ∧ isPointer c = false := by
  rw [Bool.eq_false_iff, Ne, Ne, isPointer_iff, ← UInt8.toNat_inj]
  simp only [IsLabelByte, UInt8.toNat_zero]
  omega

theorem readDomain_zero (base : List UInt8) (src : ℕ) : readDomain base 0 src = stuck := rfl

theorem readDomain_terminator {base : List UInt8} {src : ℕ} (h : byteAt base src = 0)
    (fuel : ℕ) : readDomain base (fuel + 1) src = load base src >>= fun _ => pure ([], 1) := by
  change ReadTrace.mk _ _ = ReadTrace.mk _ _
  simp [h]

theorem readDomain_pointer {base : List UInt8} {src : ℕ} (h : isPointer (byteAt base src) = true)
    (fuel : ℕ) :
    readDomain base (fuel + 1) src = (load base src >>= fun _ => load base (src + 1) >>= fun _ =>
      readDomain base fuel (pointerTarget (byteAt base src) (byteAt base (src + 1))) >>=
        fun r => pure (r.1, 2)) := by
  have h0 : byteAt base src ≠ 0 := by
    intro h0
    simp [h0, isPointer] at h
  change ReadTrace.mk _ _ = ReadTrace.mk _ _
  simp [h, h0]

theorem readDomain_label {base : List UInt8} {src : ℕ} (h : IsLabelByte (byteAt base src))
    (fuel : ℕ) :
    readDomain base (fuel + 1) src = (load base src >>= fun _ =>
      readDomain base fuel (src + 1) >>= fun r => pure (byteAt base src :: r.1, r.2 + 1)) := by
  obtain ⟨h0, hp⟩ := (isLabelByte_iff _).1 h
  change ReadTrace.mk _ _ = ReadTrace.mk _ _
  simp [hp, h0]

/-- The three ways one iteration of `read_domain` goes. -/
theorem byte_cases (c : UInt8) : c = 0 ∨ isPointer c = true ∨ IsLabelByte c := by
  by_cases h0 : c = 0
  · exact Or.inl h0
  · cases hp : isPointer c with
    | true => exact Or.inr (Or.inl rfl)
    | false => exact Or.inr (Or.inr ((isLabelByte_iff c).2 ⟨h0, hp⟩))

/-- Whatever the pointers do, only label bytes are stored. -/
theorem readDomain_isLabelByte {base : List UInt8} {fuel src : ℕ} {dest : List UInt8} {offset : ℕ}
    (h : (readDomain base fuel src).result = some (dest, offset)) : ∀ c ∈ dest, IsLabelByte c := by
  induction fuel generalizing src dest offset with
  | zero => simp [readDomain_zero] at h
  | succ fuel ih =>
    rcases byte_cases (byteAt base src) with hc | hc | hc
    · rw [readDomain_terminator hc] at h
      simp_all
    · rw [readDomain_pointer hc] at h
      simp only [result_bind, result_load, Option.bind_some, Option.bind_eq_some_iff,
        result_pure, Option.some.injEq, Prod.mk.injEq, Prod.exists] at h
      obtain ⟨d, o, hr, rfl, -⟩ := h
      exact ih hr
    · rw [readDomain_label hc] at h
      simp only [result_bind, result_load, Option.bind_some, Option.bind_eq_some_iff,
        result_pure, Option.some.injEq, Prod.mk.injEq, Prod.exists] at h
      obtain ⟨d, o, hr, rfl, -⟩ := h
      simpa using ⟨hc, ih hr⟩

end BakaDns
