import BakaDns.Compression
import BakaDns.Forwarding

/-!
# Decoded record data

What `msg_rr_from_buf` makes of the data of an SOA and of a TXT record. The two names of an SOA
record are read where they stand, but the cursor is moved past the first of them twice. A TXT
record has no names at all, and is read as if it were one.
-/

namespace BakaDns
open CBytes ReadTrace

/-- Where the data of the record at `p` starts. -/
def rdataAt (buf : List UInt8) (p : ℕ) : ℕ := p + nameSize buf p + 10

/-- A record inside the buffer with `rdlength` bytes of data, under a name that can be read. -/
structure IsRecordAt (buf : List UInt8) (p : ℕ) (type : UInt16) (rdlength : ℕ) : Prop where
  owner : ∃ k, hop buf p k = none
  inside : ∀ k q, hop buf p k = some q → q + nameSize buf q ≤ buf.length
  short : ∀ n, (expandRuns buf n p).length < domainBufLen
  type_eq : u16At buf (p + nameSize buf p) = type
  rdlength_eq : (u16At buf (p + nameSize buf p + 8)).toNat = rdlength
  fits : rdataAt buf p + rdlength ≤ buf.length

/-- `msg_rr_from_buf` comes back with this data and its length. -/
def RdataIs (buf : List UInt8) (p : ℕ) (rdata : List UInt8) : Prop :=
  ∃ rr e, Returns (fun fuel => msgRrFromBuf fuel buf p) (rr, e) ∧
    rr.rdata = rdata ∧ rr.rdlength.toNat = rdata.length

section Record

variable {buf rdata rrbuf : List UInt8} {p rdlength : ℕ} {type : UInt16}

/-- The bytes written to `rrbuf` for the record at `p`. -/
def WritesRdata (buf : List UInt8) (p : ℕ) (type : UInt16) (rrbuf : List UInt8) : Prop :=
  Returns (fun fuel => rdataFromBuf fuel buf (rdataAt buf p) (rdataKind type)
    (u16At buf (p + nameSize buf p + 8))) rrbuf

theorem WritesRdata.unique {rrbuf' : List UInt8} (h : WritesRdata buf p type rrbuf)
    (h' : WritesRdata buf p type rrbuf') : rrbuf = rrbuf' :=
  (walks_rdataFromBuf _ _ _).mono.returns_unique h h'

/-- The data of a record is what was written to `rrbuf`, as far as its 16-bit length shows it. -/
theorem IsRecordAt.rdataIs_iff (h : IsRecordAt buf p type rdlength) :
    RdataIs buf p rdata ↔ ∃ rrbuf, WritesRdata buf p type rrbuf ∧
      rrbuf.take (rrbuf.length % 2 ^ 16) = rdata ∧ rrbuf.length % 2 ^ 16 = rdata.length := by
  obtain ⟨k, hk⟩ := h.owner
  obtain ⟨n, hn⟩ := returns_expandRuns hk
  constructor
  · rintro ⟨rr, e, ⟨fuel, hfuel⟩, hdata, hlen⟩
    simp only [msgRrFromBuf, result_bind, result_u8nToU16h, Option.bind_some, result_pure,
      Option.bind_eq_some_iff, Option.some.injEq, Prod.mk.injEq] at hfuel
    obtain ⟨s, hs, ttl, -, rrbuf, hrdata, rfl, -⟩ := hfuel
    rw [(readDomain_result hs).1, h.type_eq] at hrdata
    rw [UInt16.toNat_ofNat'] at hdata hlen
    exact ⟨rrbuf, ⟨fuel, hrdata⟩, hdata, hlen⟩
  · rintro ⟨rrbuf, ⟨m, hm⟩, hdata, hlen⟩
    have hname := (readDomain_mono buf p).eq_of_returns hn (Nat.le_max_left n m)
    have hrdata := (walks_rdataFromBuf _ _ _).mono.eq_of_returns hm (Nat.le_max_right n m)
    obtain ⟨ttl, httl⟩ : ∃ ttl, (u8nToU32h buf (p + nameSize buf p + 4)).result = some ttl :=
      ⟨_, rfl⟩
    simp only [rdataAt] at hrdata hm
    have hread : ∃ rr e, (msgRrFromBuf (max n m) buf p).result = some (rr, e) ∧
        rr.rdlength = UInt16.ofNat rrbuf.length ∧ rr.rdata = rrbuf.take rr.rdlength.toNat := by
      simp only [msgRrFromBuf, result_bind, hname, hn, Option.bind_some, result_u8nToU16h, httl,
        h.type_eq, hrdata, hm, result_pure]
      exact ⟨_, _, rfl, rfl, rfl⟩
    obtain ⟨rr, e, hread, hrdlength, hrdata⟩ := hread
    rw [hrdlength, UInt16.toNat_ofNat'] at hrdata
    refine ⟨rr, e, ⟨max n m, hread⟩, hrdata.trans hdata, ?_⟩
    rw [hrdlength, UInt16.toNat_ofNat']
    exact hlen

/-- The same for data whose length fits into 16 bits. -/
theorem IsRecordAt.rdataIs_iff_of_lt (h : IsRecordAt buf p type rdlength)
    (hlt : ∀ rrbuf, WritesRdata buf p type rrbuf → rrbuf.length < 2 ^ 16) :
    RdataIs buf p rdata ↔ WritesRdata buf p type rdata := by
  rw [h.rdataIs_iff]
  constructor
  · rintro ⟨rrbuf, hw, hdata, -⟩
    rw [Nat.mod_eq_of_lt (hlt rrbuf hw), List.take_length] at hdata
    exact hdata ▸ hw
  · intro hw
    refine ⟨rdata, hw, ?_, Nat.mod_eq_of_lt (hlt rdata hw)⟩
    rw [Nat.mod_eq_of_lt (hlt rdata hw), List.take_length]

end Record

/-! SOA records. -/

section Soa

variable {buf nums : List UInt8} {p : ℕ}

/-- Where the second name of the SOA record at `p` starts. -/
def rnameAt (buf : List UInt8) (p : ℕ) : ℕ := rdataAt buf p + nameSize buf (rdataAt buf p)

/-- Where the five numbers of the SOA record at `p` start. -/
def soaNumsAt (buf : List UInt8) (p : ℕ) : ℕ := rnameAt buf p + nameSize buf (rnameAt buf p)

/-- The data of the SOA record at `p` with its names expanded. -/
def soaRdata (buf : List UInt8) (p : ℕ) (nums : List UInt8) : List UInt8 :=
  expand buf (rdataAt buf p) ++ [0] ++ expand buf (rnameAt buf p) ++ [0] ++ nums

/-- An SOA record whose data is two names and the 20 bytes of its numbers. -/
structure IsSoaRecord (buf : List UInt8) (p : ℕ) (nums : List UInt8) : Prop where
  record : IsRecordAt buf p rrtypeSoa (soaNumsAt buf p + 20 - rdataAt buf p)
  mname : IsCompressedName buf (rdataAt buf p)
  rname : IsCompressedName buf (rnameAt buf p)
  numbers : HasAt buf (soaNumsAt buf p) nums
  length_numbers : nums.length = 20
  short : (soaRdata buf p nums).length ≤ rrBufSize

/-- The 20 bytes that are copied stand one first name too far behind the numbers. -/
theorem IsSoaRecord.writesRdata (h : IsSoaRecord buf p nums) :
    WritesRdata buf p rrtypeSoa (soaRdata buf p
      (copyOut (buf.drop (soaNumsAt buf p + nameSize buf (rdataAt buf p))) 20)) := by
  have hmono := readDomain_mono buf
  have hpos : rdataAt buf p + nameSize buf (rdataAt buf p) + nameSize buf (rdataAt buf p) +
      nameSize buf (rnameAt buf p) = soaNumsAt buf p + nameSize buf (rdataAt buf p) := by
    rw [soaNumsAt, rnameAt]
    omega
  obtain ⟨m, hm⟩ := h.mname.returns
  obtain ⟨n, hn⟩ := h.rname.returns
  have hm' := (hmono _).eq_of_returns hm (Nat.le_max_left m n)
  have hn' := (hmono _).eq_of_returns hn (Nat.le_max_right m n)
  refine ⟨max m n, ?_⟩
  have hkind : rdataKind rrtypeSoa = .soa := rfl
  simp only [rnameAt] at hpos hn hn'
  simp only [hkind, rdataFromBuf, result_bind, hm', hm, Option.bind_some, hn', hn, hpos,
    result_loadBytes, result_pure, soaRdata, rnameAt]

/-- The data of an SOA record is decoded with its numbers exactly when the 20 bytes that stand
behind them, as far off as the first name is long, are the same ones. -/
theorem soa_rdataIs_iff (h : IsSoaRecord buf p nums) :
    RdataIs buf p (soaRdata buf p nums) ↔
      copyOut (buf.drop (soaNumsAt buf p + nameSize buf (rdataAt buf p))) 20 = nums := by
  have hsize : ∀ bs : List UInt8, bs.length = 20 →
      (soaRdata buf p bs).length = (soaRdata buf p nums).length := by
    intro bs hbs
    simp only [soaRdata, List.length_append, hbs, h.length_numbers]
  have hshort := h.short
  rw [rrBufSize] at hshort
  rw [h.record.rdataIs_iff_of_lt]
  · constructor
    · intro hw
      exact List.append_cancel_left (h.writesRdata.unique hw)
    · intro heq
      have hw := h.writesRdata
      rw [heq] at hw
      exact hw
  · intro rrbuf hw
    rw [← h.writesRdata.unique hw, hsize _ (length_copyOut _ 20)]
    omega

end Soa

/-- An SOA record of the root whose names are the root too, and the byte that follows it. -/
def soaRecord (nums : List UInt8) (follows : UInt8) : List UInt8 :=
  [0, 0, 6, 0, 1, 0, 0, 0, 0, 0, 22, 0, 0] ++ nums ++ [follows]

theorem soaRecord_isSoaRecord {nums : List UInt8} (hnums : nums.length = 20) (follows : UInt8) :
    IsSoaRecord (soaRecord nums follows) 0 nums := by
  have hlen : (soaRecord nums follows).length = 34 := by
    simp [soaRecord, hnums]
  have hroot : ∀ q, byteAt (soaRecord nums follows) q = 0 → q < 34 →
      (IsCompressedName (soaRecord nums follows) q ∧ expand (soaRecord nums follows) q = []) ∧
        nameSize (soaRecord nums follows) q = 1 :=
    fun q hq hlt => ⟨isCompressedName_root hq (by omega), (name_terminator hq).1⟩
  obtain ⟨⟨howner, -⟩, hsize⟩ := hroot 0 rfl (by omega)
  obtain ⟨⟨hmname, hm⟩, hmsize⟩ := hroot 11 rfl (by omega)
  obtain ⟨⟨hrname, hr⟩, hrsize⟩ := hroot 12 rfl (by omega)
  have hdata : rdataAt (soaRecord nums follows) 0 = 11 := by rw [rdataAt, hsize]
  have hrname_at : rnameAt (soaRecord nums follows) 0 = 12 := by rw [rnameAt, hdata, hmsize]
  have hnums_at : soaNumsAt (soaRecord nums follows) 0 = 13 := by rw [soaNumsAt, hrname_at, hrsize]
  have htype : u16At (soaRecord nums follows) (0 + 1) = rrtypeSoa := by
    change beU16 0 6 = rrtypeSoa
    decide
  have hrdlength : u16At (soaRecord nums follows) (0 + 1 + 8) = 22 := by
    change beU16 0 22 = 22
    decide
  refine ⟨⟨⟨1, howner.hop_ends⟩, howner.inside, howner.expandRuns_short, ?_, ?_, ?_⟩, ?_, ?_, ?_,
    hnums, ?_⟩
  · rw [hsize, htype]
  · rw [hsize, hnums_at, hdata, hrdlength]
    rfl
  · rw [hnums_at, hdata, hlen]
    decide
  · rw [hdata]
    exact hmname
  · rw [hrname_at]
    exact hrname
  · rw [hnums_at]
    exact List.prefix_append nums [follows]
  · simp only [soaRdata, hdata, hrname_at, hm, hr, List.length_append, hnums]
    decide

theorem soa_rdataIs_iff_zeros : RdataIs (soaRecord (List.replicate 20 0) 0) 0
    (soaRdata (soaRecord (List.replicate 20 0) 0) 0 (List.replicate 20 0)) := by
  apply (soa_rdataIs_iff (soaRecord_isSoaRecord (List.length_replicate ..) 0)).2
  decide +kernel

/-- The numbers 1 to 5. -/
def countingNums : List UInt8 := [0, 0, 0, 1, 0, 0, 0, 2, 0, 0, 0, 3, 0, 0, 0, 4, 0, 0, 0, 5]

/-- They come out shifted by the one byte of the first name. -/
theorem countingNums_not_rdataIs :
    IsSoaRecord (soaRecord countingNums 0) 0 countingNums ∧
      ¬ RdataIs (soaRecord countingNums 0) 0 (soaRdata (soaRecord countingNums 0) 0 countingNums) := by
  have hsoa : IsSoaRecord (soaRecord countingNums 0) 0 countingNums :=
    soaRecord_isSoaRecord rfl 0
  refine ⟨hsoa, ?_⟩
  intro h
  obtain ⟨rrbuf, hw, hdata, -⟩ := hsoa.record.rdataIs_iff.1 h
  rw [← hsoa.writesRdata.unique hw] at hdata
  revert hdata
  decide +kernel

/-! TXT records. -/

/-- A TXT record whose data is a sequence of character-strings. -/
structure IsTxtRecord (buf : List UInt8) (p : ℕ) (txt : List UInt8) : Prop where
  record : IsRecordAt buf p rrtypeTxt txt.length
  strings : ∃ ss : List (List UInt8), (∀ s ∈ ss, s.length ≤ 255) ∧
    txt = ss.flatMap fun s => UInt8.ofNat s.length :: s
  text : HasAt buf (rdataAt buf p) txt
  short : txt.length ≤ rrBufSize

section Txt

variable {buf txt : List UInt8} {p : ℕ}

theorem writesRdata_txt_iff {rrbuf : List UInt8} :
    WritesRdata buf p rrtypeTxt rrbuf ↔ ∃ dest offset, rrbuf = dest ++ [0] ∧
      Returns (fun fuel => readDomain buf fuel (rdataAt buf p)) (dest, offset) := by
  have hkind : rdataKind rrtypeTxt = .name := rfl
  simp only [WritesRdata, hkind, rdataFromBuf, Returns, result_bind, result_pure,
    Option.bind_eq_some_iff, Option.some.injEq, Prod.exists]
  constructor
  · rintro ⟨fuel, dest, offset, hread, rfl⟩
    exact ⟨dest, offset, rfl, fuel, hread⟩
  · rintro ⟨dest, offset, rfl, fuel, hread⟩
    exact ⟨fuel, dest, offset, hread, rfl⟩

/-- The text of a TXT record comes out as it is exactly when it happens to be a zero-terminated
string of label bytes. What follows the record plays no part in that. -/
theorem txt_rdataIs_iff (h : IsTxtRecord buf p txt) (hbuf : buf.length + 1 < 2 ^ 16) :
    RdataIs buf p txt ↔ ∃ s, txt = s ++ [0] ∧ ∀ c ∈ s, IsLabelByte c := by
  rw [h.record.rdataIs_iff_of_lt, writesRdata_txt_iff]
  · constructor
    · rintro ⟨dest, offset, rfl, fuel, hread⟩
      exact ⟨dest, rfl, readDomain_isLabelByte hread⟩
    · rintro ⟨s, rfl, hs⟩
      exact ⟨s, _, rfl, s.length + 1, h.text.readDomain_eq hs (Nat.lt_succ_self _)⟩
  · intro rrbuf hw
    obtain ⟨dest, offset, rfl, fuel, hread⟩ := writesRdata_txt_iff.1 hw
    have hlen := readDomain_length_le hread
    rw [List.length_append, List.length_singleton]
    omega

end Txt

/-- A TXT record of the root with a text of two bytes, and the byte that follows it. -/
def txtRecord (a b follows : UInt8) : List UInt8 :=
  [0, 0, 16, 0, 1, 0, 0, 0, 0, 0, 2, a, b, follows]

theorem txtRecord_isTxtRecord {b : UInt8} (follows : UInt8) :
    IsTxtRecord (txtRecord 1 b follows) 0 [1, b] := by
  have hlen : (txtRecord 1 b follows).length = 14 := rfl
  have hroot : byteAt (txtRecord 1 b follows) 0 = 0 := rfl
  have howner := (isCompressedName_root hroot (by omega)).1
  have hsize : nameSize (txtRecord 1 b follows) 0 = 1 := (name_terminator hroot).1
  have hdata : rdataAt (txtRecord 1 b follows) 0 = 11 := by rw [rdataAt, hsize]
  have htype : u16At (txtRecord 1 b follows) (0 + 1) = rrtypeTxt := by
    change beU16 0 16 = rrtypeTxt
    decide
  have hrdlength : u16At (txtRecord 1 b follows) (0 + 1 + 8) = 2 := by
    change beU16 0 2 = 2
    decide
  refine ⟨⟨⟨1, howner.hop_ends⟩, howner.inside, howner.expandRuns_short, ?_, ?_, ?_⟩, ?_, ?_, ?_⟩
  · rw [hsize, htype]
  · rw [hsize, hrdlength]
    rfl
  · rw [hdata, hlen]
    simp
  · exact ⟨[[b]], by simp, rfl⟩
  · rw [hdata]
    exact List.prefix_append [1, b] [follows]
  · simp [rrBufSize]

theorem txt_rdataIs_iff_zero : RdataIs (txtRecord 1 0 7) 0 [1, 0] := by
  apply (txt_rdataIs_iff (txtRecord_isTxtRecord 7) (by decide)).2
  exact ⟨[1], rfl, by simp [IsLabelByte]⟩

/-- The text `a` is decoded with the zero byte that follows the record. -/
theorem txtRecord_not_rdataIs :
    IsTxtRecord (txtRecord 1 97 0) 0 [1, 97] ∧ ¬ RdataIs (txtRecord 1 97 0) 0 [1, 97] := by
  have htxt := txtRecord_isTxtRecord (b := 97) 0
  refine ⟨htxt, ?_⟩
  intro h
  obtain ⟨rrbuf, hw, hdata, -⟩ := htxt.record.rdataIs_iff.1 h
  obtain ⟨dest, offset, rfl, hread⟩ := writesRdata_txt_iff.1 hw
  have hlong : (readDomain (txtRecord 1 97 0) 3 (rdataAt (txtRecord 1 97 0) 0)).result =
      some ([1, 97], 3) := by decide +kernel
  cases (readDomain_mono _ _).returns_unique hread ⟨3, hlong⟩
  exact absurd hdata (by decide)

end BakaDns
