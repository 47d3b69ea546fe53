import BakaDns.Lib.Bytes

/-!
# Messages

The structures of `message.h`, the header flags, and the copying and comparing helpers of
`message.c`. A heap block is the list of its bytes and the NULL pointer is the empty list: no
block the program allocates for a name is empty. A shallow copy is the copied value; what becomes
of it when its blocks are freed is left to `ResolvThreads`.
-/

namespace BakaDns
open CBytes

def domainLenMax : ℕ := 255
def domainBufLen : ℕ := 512
def rrBufSize : ℕ := 512

def qrReq : UInt8 := 0
def qrResp : UInt8 := 1
def opcodeQuery : UInt8 := 0
def aaTrue : UInt8 := 1
def tcFalse : UInt8 := 0
def rdFalse : UInt8 := 0
def raTrue : UInt8 := 1
def raFalse : UInt8 := 0
def zFlag : UInt8 := 0

def rcodeNoError : UInt8 := 0
def rcodeFormatError : UInt8 := 1

def rrclassIn : UInt16 := 1

def rrtypeA : UInt16 := 1
def rrtypeNs : UInt16 := 2
def rrtypeCname : UInt16 := 5
def rrtypeSoa : UInt16 := 6
def rrtypePtr : UInt16 := 12
def rrtypeMx : UInt16 := 15
def rrtypeTxt : UInt16 := 16
def rrtypeAaaa : UInt16 := 28
def rrtypeOpt : UInt16 := 41

/-- `_QR(x)` of the header's `misc1`; the other accessors follow the same macros. -/
def qrOf (x : UInt8) : UInt8 := (x &&& 0x80) >>> 7
def opcodeOf (x : UInt8) : UInt8 := (x &&& 0x78) >>> 3
def tcOf (x : UInt8) : UInt8 := (x &&& 0x02) >>> 1
def rcodeOf (x : UInt8) : UInt8 := x &&& 0x0F

def createMisc1 (qr opcode aa tc rd : UInt8) : UInt8 :=
  ((qr <<< (7 : UInt8)) &&& 0x80) ||| ((opcode <<< (3 : UInt8)) &&& 0x78) |||
    ((aa <<< (2 : UInt8)) &&& 0x04) ||| ((tc <<< (1 : UInt8)) &&& 0x02) ||| (rd &&& 0x01)

def createMisc2 (ra z rcode : UInt8) : UInt8 :=
  ((ra <<< (7 : UInt8)) &&& 0x80) ||| ((z <<< (4 : UInt8)) &&& 0x70) ||| (rcode &&& 0x0F)

structure MessageHeader where
  id : UInt16
  misc1 : UInt8
  misc2 : UInt8
  qdcount : UInt16
  ancount : UInt16
  nscount : UInt16
  arcount : UInt16
deriving DecidableEq, Repr

structure MessageQuestion where
  qname : List UInt8
  qtype : UInt16
  qclass : UInt16
deriving DecidableEq, Repr

structure ResourceRecord where
  name : List UInt8
  type : UInt16
  rrclass : UInt16
  ttl : UInt32
  rdlength : UInt16
  rdata : List UInt8
deriving DecidableEq, Repr

/-- A section is an array of pointers to its entries: `none` is a NULL entry and the empty list
a NULL array. The header's counts are kept apart from the arrays, as in the source. -/
structure Message where
  header : MessageHeader
  question : List (Option MessageQuestion)
  answer : List (Option ResourceRecord)
  authority : List (Option ResourceRecord)
  addition : List (Option ResourceRecord)
deriving DecidableEq, Repr

/-- `memset(&msg, 0, sizeof(msg))`. -/
def Message.zero : Message := ⟨⟨0, 0, 0, 0, 0, 0, 0⟩, [], [], [], []⟩

/-- An all-zero record, as an untouched slot of a zeroed array holds it. -/
def ResourceRecord.zero : ResourceRecord := ⟨[], 0, 0, 0, 0, []⟩

def sizeofMessageHeader : ℕ := 12

/-- How a call can fail to come back: an access to NULL or outside an array, an endless loop, or
the end of the calling thread. -/
inductive Fault
  | crash
  | hang
  | exit
deriving DecidableEq, Repr

/-- `domain_len`; `none` is the -1 it returns for names that are too long. -/
def domainLen (domain : List UInt8) : Option ℕ :=
  let result := strnlen domain domainBufLen + 1
  if result > domainLenMax then none else some result

/-- An `int` length passed as `strncmp`'s `size_t`: -1 becomes the largest one. -/
def asSize (len : Option ℕ) : ℕ := len.getD (2 ^ 64 - 1)

/-- `mq_copy`. For an overlong name it stops after the shallow copy. -/
def mqCopy (src : MessageQuestion) : MessageQuestion :=
  match domainLen src.qname with
  | none => src
  | some dlen => { src with qname := copyOut src.qname dlen }

/-- `rr_copy`. For an overlong name it stops after the shallow copy. -/
def rrCopy (src : ResourceRecord) : ResourceRecord :=
  match domainLen src.name with
  | none => src
  | some dlen =>
    { src with
      name := copyOut src.name dlen
      rdata := if src.rdlength = 0 then [] else copyOut src.rdata src.rdlength.toNat }

def rrCmp (rr1 rr2 : ResourceRecord) : Bool :=
  strncmpEq rr1.name rr2.name (asSize (domainLen rr1.name)) &&
    (rr1.rdlength == rr2.rdlength) && (rr1.type == rr2.type) && (rr1.rrclass == rr2.rrclass) &&
    strncmpEq rr1.rdata rr2.rdata rr1.rdlength.toNat

/-- `check_blocked`: the first four bytes of the data, read as one integer, are zero. -/
def checkBlocked (rr : ResourceRecord) : Bool := copyOut rr.rdata 4 == [0, 0, 0, 0]

/-- `free_heap_resource_record`: both blocks are gone and their pointers NULL. -/
def freeHeapResourceRecord (rr : ResourceRecord) : ResourceRecord :=
  { rr with name := [], rdata := [] }

/-- `free_heap_message` frees every section; the header stays. -/
def freeHeapMessage (msg : Message) : Message := { Message.zero with header := msg.header }

/-- `create_resource_record` for a name whose length is good. -/
def createResourceRecord (name : List UInt8) (type rrclass : UInt16) (ttl : UInt32)
    (rdlength : UInt16) (rdata : List UInt8) : Option ResourceRecord :=
  match domainLen name with
  | none => none
  | some dlen =>
    some ⟨copyOut name dlen, type, rrclass, ttl, rdlength, copyOut rdata rdlength.toNat⟩

/-! Names. -/

theorem domainLen_eq (d : List UInt8) :
    domainLen d = if (cstr d).length ≤ 254 then some ((cstr d).length + 1) else none := by
  simp only [domainLen, strnlen_eq_min, domainLenMax, domainBufLen]
  split <;> split <;> simp only [Option.some.injEq, reduceCtorEq] <;> omega

theorem domainLen_eq_some {d : List UInt8} {n : ℕ} :
    domainLen d = some n ↔ (cstr d).length ≤ 254 ∧ n = (cstr d).length + 1 := by
  rw [domainLen_eq]
  split <;> simp_all [eq_comm]

theorem domainLen_congr {a b : List UInt8} (h : cstr a = cstr b) : domainLen a = domainLen b := by
  rw [domainLen_eq, domainLen_eq, h]

/-- Comparing with the bound taken from one of the names compares whole names. -/
theorem strncmpEq_domainLen {a b : List UInt8} (h : domainLen b ≠ none) :
    strncmpEq a b (asSize (domainLen b)) = true ↔ cstr a = cstr b := by
  obtain ⟨n, hn⟩ := Option.ne_none_iff_exists'.1 h
  rw [hn]
  exact strncmpEq_iff_cstr (by simp [asSize, (domainLen_eq_some.1 hn).2])

/-- The copy of a name is the string it holds and one terminator. -/
theorem copyOut_domainLen {d : List UInt8} {n : ℕ} (h : domainLen d = some n) :
    copyOut d n = cstr d ++ [0] := by
  obtain ⟨-, rfl⟩ := domainLen_eq_some.1 h
  clear h
  induction d with
  | nil => simp [copyOut]
  | cons c cs ih =>
    by_cases hc : c = 0
    · simp [copyOut, cstr_cons, hc]
    · simp only [copyOut] at ih
      rw [cstr_cons, if_neg hc, List.length_cons, copyOut, List.takeD_succ, List.tail_cons, ih]
      rfl

/-- A record whose blocks are exactly as long as they should be is copied as it is. -/
theorem rrCopy_eq_self {rr : ResourceRecord} (hname : cstr rr.name ++ [0] = rr.name)
    (hlen : rr.rdata.length = rr.rdlength.toNat) : rrCopy rr = rr := by
  cases hn : domainLen rr.name with
  | none => rw [rrCopy, hn]
  | some n =>
    have hcopy : copyOut rr.name n = rr.name := by rw [copyOut_domainLen hn, hname]
    have hdata : (if rr.rdlength = 0 then [] else copyOut rr.rdata rr.rdlength.toNat) =
        rr.rdata := by
      by_cases h0 : rr.rdlength = 0
      · rw [if_pos h0]
        apply Eq.symm
        apply List.length_eq_zero_iff.1
        rw [hlen, h0]
        rfl
      · rw [if_neg h0, ← hlen, copyOut_length]
    simp only [rrCopy, hn, hcopy, hdata]

theorem cstr_mqCopy (q : MessageQuestion) : cstr (mqCopy q).qname = cstr q.qname := by
  unfold mqCopy
  split
  · rfl
  · next n hn => simp [cstr_copyOut, (domainLen_eq_some.1 hn).2]

theorem cstr_rrCopy (rr : ResourceRecord) : cstr (rrCopy rr).name = cstr rr.name := by
  unfold rrCopy
  split
  · rfl
  · next n hn => simp [cstr_copyOut, (domainLen_eq_some.1 hn).2]

@[simp] theorem rrCopy_type (rr : ResourceRecord) : (rrCopy rr).type = rr.type := by
  unfold rrCopy
  split <;> rfl

@[simp] theorem rrCopy_rrclass (rr : ResourceRecord) : (rrCopy rr).rrclass = rr.rrclass := by
  unfold rrCopy
  split <;> rfl

@[simp] theorem rrCopy_ttl (rr : ResourceRecord) : (rrCopy rr).ttl = rr.ttl := by
  unfold rrCopy
  split <;> rfl

@[simp] theorem rrCopy_rdlength (rr : ResourceRecord) : (rrCopy rr).rdlength = rr.rdlength := by
  unfold rrCopy
  split <;> rfl

end BakaDns
