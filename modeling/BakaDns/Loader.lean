import BakaDns.Database
import BakaDns.Lib.Words

/-!
# The relay file

`init_database` and what it calls: one line after another goes through two buffers that live as
long as the loop. Strings are the lists of their bytes up to the terminator. `getline`, `sscanf`,
`strtok` and `inet_pton` are what the C library says they are.
-/

namespace BakaDns
open CBytes Words

/-- `isspace` and `tolower` in the C locale. -/
def isspace (c : UInt8) : Bool := c = 32 ∨ (9 ≤ c ∧ c ≤ 13)

def tolower (c : UInt8) : UInt8 := if 65 ≤ c ∧ c ≤ 90 then c + 32 else c

def isDot (c : UInt8) : Bool := c = 46

/-- `str_lower`: the string in the buffer, up to its terminator. -/
def strLower (str : List UInt8) : List UInt8 := (cstr str).map tolower

/-! `inet_pton`. -/

def digitOf (c : UInt8) : Option ℕ := if 48 ≤ c ∧ c ≤ 57 then some (c.toNat - 48) else none

def xdigitOf (c : UInt8) : Option ℕ :=
  if 48 ≤ c ∧ c ≤ 57 then some (c.toNat - 48)
  else if 97 ≤ c ∧ c ≤ 102 then some (c.toNat - 87)
  else if 65 ≤ c ∧ c ≤ 70 then some (c.toNat - 55)
  else none

/-- The numbers of a dotted address: those that are complete, the digits of the one at hand. A
number has no leading zero and is at most 255. -/
def inetPton4Loop : List UInt8 → List UInt8 → Option ℕ → Option (List UInt8)
  | [], done, cur => cur.map fun n => done ++ [UInt8.ofNat n]
  | c :: cs, done, cur =>
    match digitOf c, cur with
    | some d, none => inetPton4Loop cs done (some d)
    | some d, some n =>
      if n = 0 ∨ n * 10 + d > 255 then none else inetPton4Loop cs done (some (n * 10 + d))
    | none, some n =>
      if isDot c then inetPton4Loop cs (done ++ [UInt8.ofNat n]) none else none
    | none, none => none

/-- `inet_pton(AF_INET, …)`: four numbers with dots between them. -/
def inetPton4 (src : List UInt8) : Option (List UInt8) :=
  (inetPton4Loop src [] none).filter fun bytes => bytes.length = 4

/-- The state of the IPv6 parser: the bytes so far, how many of them stand before `::`, the value
and the number of digits of the group at hand, and the text from there on. -/
structure Pton6State where
  bytes : List UInt8
  colon : Option ℕ
  val : ℕ
  seen : ℕ
  curtok : List UInt8

/-- The group at hand, as two bytes; there is no room for more than sixteen. -/
def Pton6State.put (st : Pton6State) : Option (List UInt8) :=
  if st.bytes.length + 2 > 16 then none else some (st.bytes ++ u16Be (UInt16.ofNat st.val))

def inetPton6Loop : List UInt8 → Pton6State → Option Pton6State
  | [], st => some st
  | c :: cs, st =>
    match xdigitOf c with
    | some d =>
      if st.seen = 4 then none
      else inetPton6Loop cs { st with val := st.val * 16 + d, seen := st.seen + 1 }
    | none =>
      if c = 58 then
        if st.seen = 0 then
          if st.colon ≠ none then none
          else inetPton6Loop cs { st with colon := some st.bytes.length, curtok := cs }
        else if cs = [] then none
        else
          match st.put with
          | none => none
          | some bytes => inetPton6Loop cs ⟨bytes, st.colon, 0, 0, cs⟩
      else if isDot c ∧ st.bytes.length + 4 ≤ 16 then
        -- the last four bytes may be a dotted address
        (inetPton4 st.curtok).map fun v4 => { st with bytes := st.bytes ++ v4, seen := 0 }
      else none

/-- The zeros that `::` stands for. -/
def fillZeros (bytes : List UInt8) : Option ℕ → Option (List UInt8)
  | none => if bytes.length = 16 then some bytes else none
  | some n =>
    if bytes.length = 16 then none
    else some (bytes.take n ++ List.replicate (16 - bytes.length) 0 ++ bytes.drop n)

/-- `inet_pton(AF_INET6, …)`: groups with colons between them, `::` for a run of zeros. -/
def inetPton6 (src : List UInt8) : Option (List UInt8) :=
  -- an address that starts with a colon starts with two
  if src.head? = some 58 ∧ src.tail.head? ≠ some 58 then none
  else
    let start := if src.head? = some 58 then src.tail else src
    (inetPton6Loop start ⟨[], none, 0, 0, start⟩).bind fun st =>
      (if st.seen = 0 then some st.bytes else st.put).bind fun bytes => fillZeros bytes st.colon

/-- `ipv4_convert`, with `ipv6_convert` as its fallback: the record type and the address. -/
def convertAddress (ipbuf : List UInt8) : Option (UInt16 × List UInt8) :=
  match inetPton4 (cstr ipbuf) with
  | some bytes => some (rrtypeA, bytes)
  | none => (inetPton6 (cstr ipbuf)).map fun bytes => (rrtypeAaaa, bytes)

/-! The loop over the lines. -/

/-- `%1024s`: white space is skipped, then at most 1024 other characters are taken. -/
def scanString (s : List UInt8) : Option (List UInt8 × List UInt8) :=
  match s.dropWhile isspace with
  | [] => none
  | c :: cs =>
    let token := ((c :: cs).takeWhile (! isspace ·)).take 1024
    some (token, (c :: cs).drop token.length)

/-- `ipbuf` and `domainbuf`, which are set up once, before the first line. -/
structure LineBuffers where
  ipbuf : List UInt8
  domainbuf : List UInt8
deriving DecidableEq, Repr

/-- The `sscanf` of the loop: a buffer without a token for it keeps what it had. -/
def scanLine (bufs : LineBuffers) (linebuf : List UInt8) : LineBuffers :=
  match scanString (cstr linebuf) with
  | none => bufs
  | some (ip, rest) =>
    match scanString rest with
    | none => { bufs with ipbuf := ip }
    | some (domain, _) => ⟨ip, domain⟩

/-- `strtok` with the delimiter `.` from the saved position on: the token, the text passed over
with the delimiter behind the token overwritten, and the text from the new saved position on. -/
def strtok (rest : List UInt8) : Option (List UInt8 × List UInt8 × List UInt8) :=
  (nextWord isDot rest).map fun (token, tail) =>
    (token, rest.takeWhile isDot ++ token ++ (if tail = [] then [] else [0]), tail.drop 1)

/-- The loop of `format_domain`: `dest`, `dlen` and the source string, which `strtok` cuts. -/
def formatLoop : ℕ → List UInt8 → List UInt8 → ℕ → List UInt8 → List UInt8 × ℕ × List UInt8
  | 0, rest, dest, dlen, src => (dest, dlen, src ++ rest)
  | fuel + 1, rest, dest, dlen, src =>
    match strtok rest with
    | none => (dest, dlen, src ++ rest)
    | some (token, passed, rest) =>
      formatLoop fuel rest (dest ++ UInt8.ofNat token.length :: token) (dlen + (token.length + 1))
        (src ++ passed)

/-- `format_domain`: its return value, the bytes at `dest` and what it leaves of `src`. -/
def formatDomain (src : List UInt8) : ℤ × List UInt8 × List UInt8 :=
  let str := cstr src
  if strtok str = none then (-1, [], str)
  else
    let (dest, dlen, src) := formatLoop (str.length + 1) str [] 0 []
    (dlen + 1, dest ++ [0], src)

/-- The body of the loop after `sscanf`: the buffers, and the record for `insert_database`. -/
def loadBuffers (bufs : LineBuffers) : LineBuffers × Option ResourceRecord :=
  let bufs := { bufs with domainbuf := strLower bufs.domainbuf }
  match convertAddress bufs.ipbuf with
  | none => (bufs, none)
  | some (rrtype, formatip) =>
    let (dlen, formatd, domainbuf) := formatDomain bufs.domainbuf
    let bufs := { bufs with domainbuf := domainbuf }
    if dlen < 0 ∨ dlen ≥ domainLenMax then (bufs, none)
    else
      (bufs, createResourceRecord formatd rrtype rrclassIn 0 (if rrtype = rrtypeA then 4 else 16)
        formatip)

/-- The body of the loop. -/
def loadLine (bufs : LineBuffers) (linebuf : List UInt8) : LineBuffers × Option ResourceRecord :=
  if linebuf.length > 2048 then (bufs, none) else loadBuffers (scanLine bufs linebuf)

/-- The loop of `init_database`. -/
def loadLines (fuel : ℕ) : LineBuffers → BucketTree → List (List UInt8) → Option BucketTree
  | _, tree, [] => some tree
  | bufs, tree, linebuf :: lines =>
    match loadLine bufs linebuf with
    | (bufs, none) => loadLines fuel bufs tree lines
    | (bufs, some rr) => do
      let (tree, _) ← insertDatabase fuel tree rr
      loadLines fuel bufs tree lines

/-- `init_database` on the lines that `getline` returned; the buffers start with what the stack
held. -/
def initDatabase (fuel : ℕ) (bufs : LineBuffers) (lines : List (List UInt8)) : Option BucketTree :=
  loadLines fuel bufs (treeInit rrHash) lines

/-! What a line stands for. -/

/-- The record for an address and a name, if they are good ones. -/
def relayRecord (ip domain : List UInt8) : Option ResourceRecord := do
  let (rrtype, address) ← convertAddress ip
  let labels := words isDot (domain.map tolower)
  if labels = [] ∨ (labelsWire labels).length + 1 ≥ domainLenMax then none
  else some ⟨labelsWire labels ++ [0], rrtype, rrclassIn, 0, UInt16.ofNat address.length, address⟩

/-- The record of a line, by this line alone. -/
def lineRecord (line : List UInt8) : Option ResourceRecord :=
  match words isspace (cstr line) with
  | ip :: domain :: _ => relayRecord ip domain
  | _ => none

/-- A line of at most 2048 bytes with tokens below 512. -/
def IsFileLine (line : List UInt8) : Prop :=
  line.length ≤ 2048 ∧ ∀ token ∈ words isspace (cstr line), token.length < 512

/-- The lines of a file, each with its newline; the last one may have none. -/
def fileLines : List UInt8 → List (List UInt8)
  | [] => []
  | c :: rest =>
    if c = 10 then [c] :: fileLines rest
    else
      match fileLines rest with
      | [] => [[c]]
      | line :: lines => (c :: line) :: lines

/-- The calls of `getline` return the lines of the file. `init_database` passes the address of a
`uint32_t` for the capacity, where `getline` reads and writes a `size_t`: the upper half is whatever
lies behind `len`, and a line that does not fit into the block from an earlier call can overrun it.
-/
def GetlineReturns (file : List UInt8) (lines : List (List UInt8)) : Prop := lines = fileLines file

/-- The records that the loop hands to `insert_database`, in order. -/
def loadedRecords : LineBuffers → List (List UInt8) → List ResourceRecord
  | _, [] => []
  | bufs, linebuf :: lines =>
    (loadLine bufs linebuf).2.toList ++ loadedRecords (loadLine bufs linebuf).1 lines

theorem loadLines_eq (fuel : ℕ) (bufs : LineBuffers) (tree : BucketTree)
    (lines : List (List UInt8)) :
    loadLines fuel bufs tree lines = insertAll fuel tree (loadedRecords bufs lines) := by
  induction lines generalizing bufs tree with
  | nil => rfl
  | cons linebuf lines ih =>
    rw [loadLines, loadedRecords]
    split
    · next bufs' h =>
      rw [h, ih]
      rfl
    · next bufs' rr h =>
      rw [h]
      change _ = insertAll fuel tree (rr :: loadedRecords bufs' lines)
      rw [insertAll]
      congr 1
      funext r
      exact ih bufs' r.1

/-- A database that `init_database` fills from lines whose labels fit into the nodes. -/
structure LoadedDatabase (bufs : LineBuffers) (lines : List (List UInt8)) (db : BucketTree) :
    Prop where
  fits : ∀ rr ∈ loadedRecords bufs lines, IsRelayName rr.name
  loaded : ∃ fuel, initDatabase fuel bufs lines = some db

theorem LoadedDatabase.relay {bufs : LineBuffers} {lines : List (List UInt8)} {db : BucketTree}
    (h : LoadedDatabase bufs lines db) : RelayDatabase (loadedRecords bufs lines) db where
  fits := h.fits
  inserted := by
    obtain ⟨fuel, hdb⟩ := h.loaded
    exact ⟨fuel, rrHash, by rw [← loadLines_eq]; exact hdb⟩

/-! `format_domain` writes the labels of the name. -/

theorem strtok_eq_none_iff (s : List UInt8) : strtok s = none ↔ words isDot s = [] := by
  rw [strtok, Option.map_eq_none_iff]
  constructor
  · exact nextWord_eq_none
  · intro h
    cases hw : nextWord isDot s with
    | none => rfl
    | some r =>
      rw [words_of_nextWord hw] at h
      cases h

theorem formatLoop_eq {fuel : ℕ} {rest : List UInt8} (hfuel : rest.length < fuel)
    (dest : List UInt8) (dlen : ℕ) (src : List UInt8) :
    (formatLoop fuel rest dest dlen src).1 = dest ++ labelsWire (words isDot rest) ∧
      (formatLoop fuel rest dest dlen src).2.1 = dlen + (labelsWire (words isDot rest)).length := by
  induction fuel generalizing rest dest dlen src with
  | zero => omega
  | succ fuel ih =>
    rw [formatLoop, strtok]
    cases h : nextWord isDot rest with
    | none => simp [nextWord_eq_none h, labelsWire]
    | some r =>
      obtain ⟨token, tail⟩ := r
      have hlt := length_nextWord h
      have htail : (tail.drop 1).length < fuel := by
        rw [List.length_drop]
        omega
      obtain ⟨hdest, hdlen⟩ := ih htail (dest ++ UInt8.ofNat token.length :: token)
        (dlen + (token.length + 1))
        (src ++ (rest.takeWhile isDot ++ token ++ (if tail = [] then [] else [0])))
      simp only [Option.map_some]
      rw [hdest, hdlen, words_drop_one h, words_of_nextWord h, labelsWire_cons]
      constructor
      · simp [labelWire]
      · simp [labelWire]
        omega

theorem formatDomain_of_nil {src : List UInt8} (h : words isDot (cstr src) = []) :
    formatDomain src = (-1, [], cstr src) := by
  rw [formatDomain, if_pos ((strtok_eq_none_iff _).2 h)]

theorem formatDomain_eq (src : List UInt8) (h : words isDot (cstr src) ≠ []) :
    (formatDomain src).1 = (labelsWire (words isDot (cstr src))).length + 1 ∧
      (formatDomain src).2.1 = labelsWire (words isDot (cstr src)) ++ [0] := by
  obtain ⟨hdest, hdlen⟩ := formatLoop_eq (Nat.lt_succ_self (cstr src).length) [] 0 []
  rw [formatDomain, if_neg (mt (strtok_eq_none_iff _).1 h)]
  simp only [Nat.succ_eq_add_one] at hdest hdlen
  simp [hdest, hdlen]

/-! Addresses have the size of their type. -/

theorem length_inetPton4 {src bytes : List UInt8} (h : inetPton4 src = some bytes) :
    bytes.length = 4 := by
  rw [inetPton4, Option.filter_eq_some_iff] at h
  exact of_decide_eq_true h.2

theorem Pton6State.length_put {st : Pton6State} {bytes : List UInt8} (h : st.put = some bytes) :
    st.bytes.length ≤ bytes.length ∧ bytes.length ≤ 16 := by
  unfold Pton6State.put at h
  split at h
  · cases h
  · cases h
    simp only [List.length_append, length_u16Be]
    omega

/-- The bytes never go past sixteen, and `::` stands among them. -/
def Pton6State.Bounded (st : Pton6State) : Prop :=
  st.bytes.length ≤ 16 ∧ ∀ n ∈ st.colon, n ≤ st.bytes.length

theorem inetPton6Loop_bounded {src : List UInt8} {st st' : Pton6State} (hst : st.Bounded)
    (h : inetPton6Loop src st = some st') : st'.Bounded := by
  induction src generalizing st with
  | nil =>
    cases h
    exact hst
  | cons c cs ih =>
    obtain ⟨hlen, hcolon⟩ := hst
    rw [inetPton6Loop] at h
    split at h
    · split at h
      · cases h
      · refine ih ?_ h
        exact ⟨hlen, hcolon⟩
    · split at h
      · split at h
        · split at h
          · cases h
          · refine ih ?_ h
            exact ⟨hlen, fun n hn => (Option.some.inj hn).ge⟩
        · split at h
          · cases h
          · split at h
            · cases h
            · next bytes hput =>
              obtain ⟨hmono, hle⟩ := Pton6State.length_put hput
              refine ih ?_ h
              exact ⟨hle, fun n hn => (hcolon n hn).trans hmono⟩
      · split at h
        · next hdot =>
          obtain ⟨v4, hv4, rfl⟩ := Option.map_eq_some_iff.1 h
          have hv := length_inetPton4 hv4
          refine ⟨?_, fun n hn => ?_⟩
          · simp only [List.length_append]
            omega
          · have hle := hcolon n hn
            simp only [List.length_append]
            omega
        · cases h

theorem length_fillZeros {bytes filled : List UInt8} {colon : Option ℕ} (hlen : bytes.length ≤ 16)
    (hcolon : ∀ n ∈ colon, n ≤ bytes.length) (h : fillZeros bytes colon = some filled) :
    filled.length = 16 := by
  cases colon with
  | none =>
    rw [fillZeros] at h
    split at h
    · cases h
      assumption
    · cases h
  | some n =>
    have hn := hcolon n rfl
    rw [fillZeros] at h
    split at h
    · cases h
    · cases h
      simp only [List.length_append, List.length_take, List.length_replicate, List.length_drop]
      omega

theorem length_inetPton6 {src address : List UInt8} (h : inetPton6 src = some address) :
    address.length = 16 := by
  unfold inetPton6 at h
  split at h
  · cases h
  · obtain ⟨st, hst, h⟩ := Option.bind_eq_some_iff.1 h
    obtain ⟨bytes, hbytes, h⟩ := Option.bind_eq_some_iff.1 h
    have hstart : (Pton6State.mk [] none 0 0
        (if src.head? = some 58 then src.tail else src)).Bounded :=
      ⟨Nat.zero_le _, fun n hn => by cases hn⟩
    obtain ⟨hlen, hcolon⟩ := inetPton6Loop_bounded hstart hst
    split at hbytes
    · cases hbytes
      exact length_fillZeros hlen hcolon h
    · obtain ⟨hmono, hle⟩ := Pton6State.length_put hbytes
      exact length_fillZeros hle (fun n hn => (hcolon n hn).trans hmono) h

theorem length_convertAddress {ip address : List UInt8} {rrtype : UInt16}
    (h : convertAddress ip = some (rrtype, address)) :
    addressSize rrtype = some address.length := by
  unfold convertAddress at h
  split at h
  · next bytes h4 =>
    cases h
    rw [length_inetPton4 h4]
    rfl
  · obtain ⟨bytes, h6, h⟩ := Option.map_eq_some_iff.1 h
    cases h
    rw [length_inetPton6 h6]
    rfl

/-! What the loop hands to `insert_database`. -/

section Lines

variable {bufs : LineBuffers} {ip domain line : List UInt8} {lines : List (List UInt8)}

theorem tolower_ne_zero {c : UInt8} (h : c ≠ 0) : tolower c ≠ 0 := by
  unfold tolower
  split
  · next hup =>
    intro h0
    have h1 := congrArg UInt8.toNat h0
    have h2 : 65 ≤ c.toNat ∧ c.toNat ≤ 90 := hup
    rw [UInt8.toNat_add] at h1
    simp at h1
    omega
  · exact h

theorem cstr_ne_zero {s : List UInt8} : ∀ c ∈ cstr s, c ≠ 0 := by
  intro c hc
  simpa using List.mem_takeWhile_imp hc

theorem cstr_of_ne_zero {s : List UInt8} (h : ∀ c ∈ s, c ≠ 0) : cstr s = s := by
  rw [cstr, List.takeWhile_eq_self_iff]
  intro c hc
  simpa using h c hc

theorem map_tolower_ne_zero {s : List UInt8} (h : ∀ c ∈ s, c ≠ 0) :
    ∀ c ∈ s.map tolower, c ≠ 0 := by
  intro c hc
  obtain ⟨d, hd, rfl⟩ := List.mem_map.1 hc
  exact tolower_ne_zero (h d hd)

/-- The labels of a name that is short enough. -/
theorem words_isLabel {s : List UInt8}
    (hlen : (labelsWire (words isDot s)).length + 1 < domainLenMax) :
    ∀ l ∈ words isDot s, IsLabel l := by
  intro l hl
  have hle : (labelWire l).length ≤ (labelsWire (words isDot s)).length := by
    obtain ⟨pre, post, hsplit⟩ := List.append_of_mem hl
    rw [hsplit, labelsWire_append, labelsWire_cons]
    simp only [List.length_append]
    omega
  have hpos := List.length_pos_iff.2 (mem_words hl).1
  rw [length_labelWire] at hle
  simp only [domainLenMax] at hlen
  exact ⟨hpos, by omega⟩

theorem labelsWire_ne_zero {s : List UInt8} (hs : ∀ c ∈ s, c ≠ 0)
    (hlen : (labelsWire (words isDot s)).length + 1 < domainLenMax) :
    ∀ c ∈ labelsWire (words isDot s), c ≠ 0 := by
  intro c hc
  obtain ⟨l, hl, hc⟩ := List.mem_flatMap.1 hc
  rcases List.mem_cons.1 hc with rfl | hc
  · exact (words_isLabel hlen l hl).ofNat_ne_zero
  · exact hs c ((mem_words hl).2 c hc)

theorem createResourceRecord_labels {s : List UInt8} (hs : ∀ c ∈ s, c ≠ 0)
    (hlen : (labelsWire (words isDot s)).length + 1 < domainLenMax) {rrtype : UInt16}
    {address : List UInt8} (haddress : addressSize rrtype = some address.length) :
    createResourceRecord (labelsWire (words isDot s) ++ [0]) rrtype rrclassIn 0
        (if rrtype = rrtypeA then 4 else 16) address =
      some ⟨labelsWire (words isDot s) ++ [0], rrtype, rrclassIn, 0,
        UInt16.ofNat address.length, address⟩ := by
  have hcstr := cstr_append_zero (t := []) (labelsWire_ne_zero hs hlen)
  have hdlen : domainLen (labelsWire (words isDot s) ++ [0]) =
      some ((labelsWire (words isDot s)).length + 1) := by
    rw [domainLen_eq_some, hcstr]
    simp only [domainLenMax] at hlen
    exact ⟨by omega, rfl⟩
  have hrdlength : (if rrtype = rrtypeA then 4 else 16 : UInt16) = UInt16.ofNat address.length := by
    unfold addressSize at haddress
    split_ifs at haddress with ha haaaa
    · rw [if_pos ha, ← Option.some.inj haddress]
      rfl
    · rw [if_neg ha, ← Option.some.inj haddress]
      rfl
  have hshort : address.length = 4 ∨ address.length = 16 := by
    unfold addressSize at haddress
    split_ifs at haddress
    · exact .inl (Option.some.inj haddress).symm
    · exact .inr (Option.some.inj haddress).symm
  have htoNat : (UInt16.ofNat address.length).toNat = address.length :=
    UInt16.toNat_ofNat_of_lt (by rcases hshort with h | h <;> rw [h] <;> decide)
  unfold createResourceRecord
  rw [hdlen, hrdlength]
  simp only [copyOut_domainLen hdlen, hcstr, htoNat, copyOut_length]

/-- The body of the loop makes a record of whatever the buffers hold. -/
theorem loadBuffers_record (bufs : LineBuffers) :
    (loadBuffers bufs).2 = relayRecord bufs.ipbuf (cstr bufs.domainbuf) := by
  have hnz : ∀ c ∈ strLower bufs.domainbuf, c ≠ 0 := map_tolower_ne_zero cstr_ne_zero
  have hcstr : cstr (strLower bufs.domainbuf) = strLower bufs.domainbuf := cstr_of_ne_zero hnz
  have hlower : (cstr bufs.domainbuf).map tolower = strLower bufs.domainbuf := rfl
  unfold loadBuffers relayRecord
  rw [hlower]
  generalize strLower bufs.domainbuf = s at hnz hcstr
  dsimp only
  cases haddress : convertAddress bufs.ipbuf with
  | none => rfl
  | some r =>
    obtain ⟨rrtype, address⟩ := r
    simp only [Option.bind_eq_bind, Option.bind_some]
    by_cases hnil : words isDot s = []
    · rw [formatDomain_of_nil (by rw [hcstr, hnil])]
      simp [hnil]
    · obtain ⟨hdlen, hformatd⟩ := formatDomain_eq s (by rw [hcstr]; exact hnil)
      rw [hcstr] at hdlen hformatd
      rw [hdlen, hformatd]
      simp only [hnil, false_or]
      by_cases hlong : (labelsWire (words isDot s)).length + 1 ≥ domainLenMax
      · have hor : ((labelsWire (words isDot s)).length + 1 : ℤ) < 0 ∨
            ((labelsWire (words isDot s)).length + 1 : ℤ) ≥ domainLenMax :=
          .inr (by exact_mod_cast hlong)
        rw [if_pos hor, if_pos hlong]
      · have hor : ¬(((labelsWire (words isDot s)).length + 1 : ℤ) < 0 ∨
            ((labelsWire (words isDot s)).length + 1 : ℤ) ≥ domainLenMax) := by omega
        rw [if_neg hor, if_neg hlong]
        exact createResourceRecord_labels hnz (Nat.lt_of_not_le hlong)
          (length_convertAddress haddress)

theorem scanString_eq {s : List UInt8}
    (h : ∀ w t, nextWord isspace s = some (w, t) → w.length ≤ 1024) :
    scanString s = nextWord isspace s := by
  unfold scanString
  cases hn : nextWord isspace s with
  | none =>
    unfold nextWord at hn
    split at hn
    · next hs => rw [hs]
    · cases hn
  | some r =>
    obtain ⟨w, t⟩ := r
    have hw := h w t hn
    unfold nextWord at hn
    split at hn
    · cases hn
    · next c cs hs =>
      cases hn
      rw [hs]
      dsimp only
      rw [List.take_of_length_le hw]
      have happ := List.takeWhile_append_dropWhile (p := (! isspace ·)) (l := c :: cs)
      have hdrop := congrArg (List.drop ((c :: cs).takeWhile (! isspace ·)).length) happ
      rw [List.drop_left] at hdrop
      rw [hdrop]

/-- `sscanf` finds the first two words of a line; a buffer for which there is none stays. -/
theorem scanLine_eq (hline : ∀ token ∈ (words isspace (cstr line)).take 2, token.length ≤ 1024) :
    scanLine bufs line = match words isspace (cstr line) with
      | ip :: domain :: _ => ⟨ip, domain⟩
      | [ip] => { bufs with ipbuf := ip }
      | [] => bufs := by
  have hfirst : ∀ ip rest, nextWord isspace (cstr line) = some (ip, rest) → ip.length ≤ 1024 := by
    intro ip rest h
    rw [words_of_nextWord h] at hline
    exact hline ip List.mem_cons_self
  rw [scanLine, scanString_eq hfirst]
  cases h : nextWord isspace (cstr line) with
  | none => rw [nextWord_eq_none h]
  | some r =>
    obtain ⟨ip, rest⟩ := r
    rw [words_of_nextWord h] at hline ⊢
    have hsecond : ∀ domain rest', nextWord isspace rest = some (domain, rest') →
        domain.length ≤ 1024 := by
      intro domain rest' h'
      rw [words_of_nextWord h'] at hline
      exact hline domain (List.mem_cons_of_mem ip List.mem_cons_self)
    dsimp only
    rw [scanString_eq hsecond]
    cases h' : nextWord isspace rest with
    | none => rw [nextWord_eq_none h']
    | some r =>
      obtain ⟨domain, rest'⟩ := r
      rw [words_of_nextWord h']

theorem IsFileLine.token_le (hline : IsFileLine line) :
    ∀ token ∈ (words isspace (cstr line)).take 2, token.length ≤ 1024 := by
  intro token htoken
  have hlt := hline.2 token (List.mem_of_mem_take htoken)
  omega

/-- Buffers that give a record: a valid address, and a name with a label and of a good length. -/
def LineBuffers.Usable (bufs : LineBuffers) : Prop :=
  convertAddress bufs.ipbuf ≠ none ∧ words isDot (strLower bufs.domainbuf) ≠ [] ∧
    (labelsWire (words isDot (strLower bufs.domainbuf))).length + 1 < domainLenMax

/-- No line with fewer than two tokens comes when the buffers are usable for it. -/
def NoLeftover : LineBuffers → List (List UInt8) → Prop
  | _, [] => True
  | bufs, line :: lines =>
    ((words isspace (cstr line)).length < 2 → ¬(scanLine bufs line).Usable) ∧
      NoLeftover (loadLine bufs line).1 lines

instance (bufs : LineBuffers) : Decidable bufs.Usable :=
  inferInstanceAs (Decidable (_ ∧ _ ∧ _))

instance (line : List UInt8) : Decidable (IsFileLine line) :=
  inferInstanceAs (Decidable (_ ∧ _))

instance decidableNoLeftover :
    (bufs : LineBuffers) → (lines : List (List UInt8)) → Decidable (NoLeftover bufs lines)
  | _, [] => isTrue trivial
  | bufs, line :: lines =>
    have := decidableNoLeftover (loadLine bufs line).1 lines
    inferInstanceAs (Decidable (_ ∧ _))

theorem relayRecord_eq_none_iff (bufs : LineBuffers) :
    relayRecord bufs.ipbuf (cstr bufs.domainbuf) = none ↔ ¬bufs.Usable := by
  unfold relayRecord LineBuffers.Usable
  have hlower : (cstr bufs.domainbuf).map tolower = strLower bufs.domainbuf := rfl
  rw [hlower]
  cases convertAddress bufs.ipbuf with
  | none => simp
  | some r =>
    by_cases hnil : words isDot (strLower bufs.domainbuf) = [] <;> simp [hnil]

/-- A line with two tokens that fit into the buffers speaks for itself. -/
theorem loadLine_of_two (hlen : line.length ≤ 2048)
    (hline : ∀ token ∈ (words isspace (cstr line)).take 2, token.length ≤ 1024)
    {rest : List (List UInt8)} (hwords : words isspace (cstr line) = ip :: domain :: rest) :
    (loadLine bufs line).2 = relayRecord ip domain := by
  have hdomain : cstr domain = domain := by
    have hmem : domain ∈ words isspace (cstr line) := by
      rw [hwords]
      exact List.mem_cons_of_mem ip List.mem_cons_self
    exact cstr_of_ne_zero fun c hc => cstr_ne_zero c ((mem_words hmem).2 c hc)
  rw [loadLine, if_neg (Nat.not_lt.2 hlen), loadBuffers_record, scanLine_eq hline, hwords]
  dsimp only
  rw [hdomain]

/-- A line with fewer tokens gives what the buffers hold, and should give nothing. -/
theorem loadLine_of_lt_two (hline : IsFileLine line) (bufs : LineBuffers)
    (hwords : (words isspace (cstr line)).length < 2) :
    lineRecord line = none ∧
      ((loadLine bufs line).2 = none ↔ ¬(scanLine bufs line).Usable) := by
  constructor
  · rw [lineRecord]
    split
    · next h =>
      rw [h] at hwords
      simp at hwords
    · rfl
  · rw [loadLine, if_neg (Nat.not_lt.2 hline.1), loadBuffers_record, relayRecord_eq_none_iff]

/-- A line gives its own record, or it gives one from the buffers and has none itself. -/
theorem loadLine_cases (hline : IsFileLine line) (bufs : LineBuffers) :
    ((loadLine bufs line).2 = lineRecord line ∧
        ((words isspace (cstr line)).length < 2 → ¬(scanLine bufs line).Usable)) ∨
      ((words isspace (cstr line)).length < 2 ∧ (scanLine bufs line).Usable ∧
        lineRecord line = none ∧ ∃ rr, (loadLine bufs line).2 = some rr) := by
  match hwords : words isspace (cstr line) with
  | ip :: domain :: rest =>
    refine .inl ⟨?_, by simp⟩
    rw [loadLine_of_two hline.1 hline.token_le hwords, lineRecord, hwords]
  | [ip] | [] =>
    have hlt : (words isspace (cstr line)).length < 2 := by simp [hwords]
    obtain ⟨hnone, hiff⟩ := loadLine_of_lt_two hline bufs hlt
    by_cases husable : (scanLine bufs line).Usable
    · have hsome := mt hiff.1 (not_not.2 husable)
      exact .inr ⟨by simp, husable, hnone, Option.ne_none_iff_exists'.1 hsome⟩
    · exact .inl ⟨(hiff.2 husable).trans hnone.symm, fun _ => husable⟩

theorem filterMap_lineRecord_cons (line : List UInt8) (lines : List (List UInt8)) :
    (line :: lines).filterMap lineRecord =
      (lineRecord line).toList ++ lines.filterMap lineRecord := by
  cases h : lineRecord line <;> simp [h]

theorem length_filterMap_le (hlines : ∀ line ∈ lines, IsFileLine line) (bufs : LineBuffers) :
    (lines.filterMap lineRecord).length ≤ (loadedRecords bufs lines).length := by
  induction lines generalizing bufs with
  | nil => exact Nat.le_refl _
  | cons line lines ih =>
    obtain ⟨hline, hlines⟩ := List.forall_mem_cons.1 hlines
    have hrest := ih hlines (loadLine bufs line).1
    rw [filterMap_lineRecord_cons, loadedRecords, List.length_append, List.length_append]
    rcases loadLine_cases hline bufs with ⟨hrecord, -⟩ | ⟨-, -, hnone, -⟩
    · rw [hrecord]
      omega
    · rw [hnone, Option.toList_none, List.length_nil]
      omega

theorem loadedRecords_eq_iff (hlines : ∀ line ∈ lines, IsFileLine line) (bufs : LineBuffers) :
    loadedRecords bufs lines = lines.filterMap lineRecord ↔ NoLeftover bufs lines := by
  induction lines generalizing bufs with
  | nil => exact iff_of_true rfl trivial
  | cons line lines ih =>
    obtain ⟨hline, hlines⟩ := List.forall_mem_cons.1 hlines
    rw [filterMap_lineRecord_cons, loadedRecords, NoLeftover, ← ih hlines]
    rcases loadLine_cases hline bufs with ⟨hrecord, hnot⟩ | ⟨hlt, husable, hnone, rr, hrr⟩
    · rw [hrecord, List.append_cancel_left_eq]
      exact (and_iff_right hnot).symm
    · refine iff_of_false (fun heq => ?_) (fun h => h.1 hlt husable)
      -- one record too many: the rest of the lines cannot make up for it
      have hlen := congrArg List.length heq
      have hle := length_filterMap_le hlines (loadLine bufs line).1
      rw [hnone, hrr, List.length_append, List.length_append] at hlen
      simp only [Option.toList_some, Option.toList_none, List.length_singleton,
        List.length_nil] at hlen
      omega

/-- The loop hands over exactly the records of the lines of the file, and so builds their database,
if and only if no line with fewer than two tokens finds usable buffers. -/
theorem initDatabase_lines_iff (fuel : ℕ) (bufs : LineBuffers) {file : List UInt8}
    {lines : List (List UInt8)} (hgetline : GetlineReturns file lines)
    (hlines : ∀ line ∈ fileLines file, IsFileLine line) :
    (loadedRecords bufs lines = (fileLines file).filterMap lineRecord ∧
        initDatabase fuel bufs lines =
          insertAll fuel (treeInit rrHash) ((fileLines file).filterMap lineRecord)) ↔
      NoLeftover bufs (fileLines file) := by
  rw [GetlineReturns] at hgetline
  rw [hgetline, ← loadedRecords_eq_iff hlines]
  constructor
  · exact And.left
  · intro h
    refine ⟨h, ?_⟩
    rw [initDatabase, loadLines_eq, h]

end Lines

/-- `1.2.3.4 www.A.com`. -/
def sampleLine : List UInt8 :=
  [49, 46, 50, 46, 51, 46, 52, 32, 119, 119, 119, 46, 65, 46, 99, 111, 109, 10]

/-- A line without an address leaves nothing behind, and the blank line after it has no effect. -/
theorem initDatabase_sampleLine :
    fileLines (sampleLine ++ [120, 10, 10]) = [sampleLine, [120, 10], [10]] ∧
      NoLeftover ⟨[], []⟩ [sampleLine, [120, 10], [10]] ∧
      loadedRecords ⟨[], []⟩ [sampleLine, [120, 10], [10]] =
        [⟨[3, 119, 119, 119, 1, 97, 3, 99, 111, 109, 0], rrtypeA, rrclassIn, 0, 4, [1, 2, 3, 4]⟩] ∧
      initDatabase 255 ⟨[], []⟩ [sampleLine, [120, 10], [10]] = insertAll 255 (treeInit rrHash)
        [⟨[3, 119, 119, 119, 1, 97, 3, 99, 111, 109, 0], rrtypeA, rrclassIn, 0, 4, [1, 2, 3, 4]⟩] := by
  have hno : NoLeftover ⟨[], []⟩ [sampleLine, [120, 10], [10]] := by decide +kernel
  have hown : [sampleLine, [120, 10], [10]].filterMap lineRecord =
      [⟨[3, 119, 119, 119, 1, 97, 3, 99, 111, 109, 0], rrtypeA, rrclassIn, 0, 4, [1, 2, 3, 4]⟩] := by
    decide +kernel
  have hfile : fileLines (sampleLine ++ [120, 10, 10]) = [sampleLine, [120, 10], [10]] := by decide
  have h := (initDatabase_lines_iff 255 ⟨[], []⟩ hfile.symm (by decide +kernel)).2
    (by rw [hfile]; exact hno)
  rw [hfile, hown] at h
  exact ⟨hfile, hno, h⟩

/-- A blank line behind a good one adds the address once more, for the first label alone. -/
theorem blankLine_not_independent :
    (∀ line ∈ [sampleLine, [10]], IsFileLine line) ∧
      lineRecord [10] = none ∧
      (initDatabase 255 ⟨[], []⟩ [sampleLine, [10]]).map
          (selectDatabase · ⟨[3, 119, 119, 119, 0], rrtypeA, rrclassIn⟩) =
        some [⟨[3, 119, 119, 119, 0], rrtypeA, rrclassIn, 0, 4, [1, 2, 3, 4]⟩] ∧
      (insertAll 255 (treeInit rrHash) ([sampleLine, [10]].filterMap lineRecord)).map
          (selectDatabase · ⟨[3, 119, 119, 119, 0], rrtypeA, rrclassIn⟩) = some [] ∧
      initDatabase 255 ⟨[], []⟩ [sampleLine, [10]] ≠
        insertAll 255 (treeInit rrHash) ([sampleLine, [10]].filterMap lineRecord) := by
  have hcode : (initDatabase 255 ⟨[], []⟩ [sampleLine, [10]]).map
      (selectDatabase · ⟨[3, 119, 119, 119, 0], rrtypeA, rrclassIn⟩) =
        some [⟨[3, 119, 119, 119, 0], rrtypeA, rrclassIn, 0, 4, [1, 2, 3, 4]⟩] := by
    decide +kernel
  have hclaim : (insertAll 255 (treeInit rrHash) ([sampleLine, [10]].filterMap lineRecord)).map
      (selectDatabase · ⟨[3, 119, 119, 119, 0], rrtypeA, rrclassIn⟩) = some [] := by
    decide +kernel
  refine ⟨by decide +kernel, by decide +kernel, hcode, hclaim, fun heq => ?_⟩
  rw [heq, hclaim] at hcode
  cases hcode

end BakaDns
