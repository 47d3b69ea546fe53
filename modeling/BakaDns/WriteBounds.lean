import BakaDns.Compression

/-!
# Write bounds of the decoder

The decoder expands names into `domainbuf` and record data into `rrbuf`, two arrays of 512 bytes,
and compares no length with them. What it stores is decided by the layout of the datagram: the
label bytes along the chain of pointers of each name, and the sizes of opaque data.
-/

namespace BakaDns
open CBytes ReadTrace

/-- The bytes `read_domain` stores through `dest` in its first `fuel` iterations, those of the
recursive call included. They go to consecutive addresses. -/
def domainStores (base : List UInt8) : ℕ → ℕ → ℕ
  | 0, _ => 0
  | fuel + 1, src =>
    let c := byteAt base src
    if c = 0 then 0
    else if isPointer c then domainStores base fuel (pointerTarget c (byteAt base (src + 1)))
    else domainStores base fuel (src + 1) + 1

/-- The indices of `rrbuf` that `msg_rr_from_buf` stores to, for data that starts at `buf`. The
return values of `read_domain` place the second name and the numbers of an SOA record. -/
inductive RrbufStore (base : List UInt8) (buf : ℕ) : RdataKind → UInt16 → ℕ → Prop
  | mname {rdlength : UInt16} {fuel i : ℕ} (h : i < domainStores base fuel buf) :
      RrbufStore base buf .soa rdlength i
  | rname {rdlength : UInt16} {mname : List UInt8} {mnameOffset fuel i : ℕ}
      (hm : Returns (fun fuel => readDomain base fuel buf) (mname, mnameOffset))
      (h : i < domainStores base fuel (buf + mnameOffset)) :
      RrbufStore base buf .soa rdlength (mname.length + 1 + i)
  | nums {rdlength : UInt16} {mname rname : List UInt8} {mnameOffset rnameOffset i : ℕ}
      (hm : Returns (fun fuel => readDomain base fuel buf) (mname, mnameOffset))
      (hr : Returns (fun fuel => readDomain base fuel (buf + mnameOffset)) (rname, rnameOffset))
      (h : i < 20) : RrbufStore base buf .soa rdlength (mname.length + 1 + (rname.length + 1) + i)
  | preference {rdlength : UInt16} {i : ℕ} (h : i < 2) : RrbufStore base buf .mx rdlength i
  | exchange {rdlength : UInt16} {fuel i : ℕ} (h : i < domainStores base fuel (buf + 2)) :
      RrbufStore base buf .mx rdlength (2 + i)
  | name {rdlength : UInt16} {fuel i : ℕ} (h : i < domainStores base fuel buf) :
      RrbufStore base buf .name rdlength i
  | opaq {rdlength : UInt16} {i : ℕ} (h : i < rdlength.toNat) :
      RrbufStore base buf .opaq rdlength i

/-- The indices of `rrbuf` stored to for the record at `p`. -/
def RecordStore (buf : List UInt8) (p i : ℕ) : Prop :=
  ∃ name offset, Returns (fun fuel => readDomain buf fuel p) (name, offset) ∧
    RrbufStore buf (p + offset + 10) (rdataKind (u16At buf (p + offset)))
      (u16At buf (p + offset + 8)) i

/-- A question or a record of a datagram, by its position. -/
inductive Entry
  | question (p : ℕ)
  | record (p : ℕ)
deriving DecidableEq, Repr

def Entry.pos : Entry → ℕ
  | .question p => p
  | .record p => p

/-- The entries at which a counted loop begins a round. -/
inductive Rounds {α : Type} (f : ℕ → ℕ → ReadTrace (α × ℕ)) (entry : ℕ → Entry) :
    ℕ → ℕ → Entry → Prop
  | first {n p : ℕ} : Rounds f entry (n + 1) p (entry p)
  | later {n p q : ℕ} {a : α} {e : Entry} (h : Returns (fun fuel => f fuel p) (a, q))
      (ht : Rounds f entry n q e) : Rounds f entry (n + 1) p e

/-- The questions and records that `message_from_buf` processes. -/
inductive Processes (buf : List UInt8) (size : ℕ) : Entry → Prop
  | question {e : Entry} (hsize : ¬ size < sizeofMessageHeader)
      (htc : tcOf (headerAt buf).misc1 = 0)
      (h : Rounds (fun fuel => msgQuestionFromBuf fuel buf) .question
        (headerAt buf).qdcount.toNat sizeofMessageHeader e) : Processes buf size e
  | answer {e : Entry} {p : ℕ} {qs : List MessageQuestion}
      (hsize : ¬ size < sizeofMessageHeader) (htc : tcOf (headerAt buf).misc1 = 0)
      (hq : Returns (fun fuel => repeatRead (msgQuestionFromBuf fuel buf)
        (headerAt buf).qdcount.toNat sizeofMessageHeader) (qs, p))
      (h : Rounds (fun fuel => msgRrFromBuf fuel buf) .record (headerAt buf).ancount.toNat p e) :
      Processes buf size e
  | authority {e : Entry} {p p₁ : ℕ} {qs : List MessageQuestion} {an : List ResourceRecord}
      (hsize : ¬ size < sizeofMessageHeader) (htc : tcOf (headerAt buf).misc1 = 0)
      (hq : Returns (fun fuel => repeatRead (msgQuestionFromBuf fuel buf)
        (headerAt buf).qdcount.toNat sizeofMessageHeader) (qs, p))
      (han : Returns (fun fuel => repeatRead (msgRrFromBuf fuel buf)
        (headerAt buf).ancount.toNat p) (an, p₁))
      (h : Rounds (fun fuel => msgRrFromBuf fuel buf) .record (headerAt buf).nscount.toNat p₁ e) :
      Processes buf size e
  | addition {e : Entry} {p p₁ p₂ : ℕ} {qs : List MessageQuestion} {an ns : List ResourceRecord}
      (hsize : ¬ size < sizeofMessageHeader) (htc : tcOf (headerAt buf).misc1 = 0)
      (hq : Returns (fun fuel => repeatRead (msgQuestionFromBuf fuel buf)
        (headerAt buf).qdcount.toNat sizeofMessageHeader) (qs, p))
      (han : Returns (fun fuel => repeatRead (msgRrFromBuf fuel buf)
        (headerAt buf).ancount.toNat p) (an, p₁))
      (hns : Returns (fun fuel => repeatRead (msgRrFromBuf fuel buf)
        (headerAt buf).nscount.toNat p₁) (ns, p₂))
      (h : Rounds (fun fuel => msgRrFromBuf fuel buf) .record (headerAt buf).arcount.toNat p₂ e) :
      Processes buf size e

/-! The same from the layout. -/

/-- The label bytes of the name at `p`, as far as `n` runs go. -/
def nameLength (buf : List UInt8) (n p : ℕ) : ℕ := (expandRuns buf n p).length

/-- Data that starts at `d` and leaves room in `rrbuf`: a name counts with all the label bytes its
pointers lead to, for ever if they run in a circle, and in that case nothing comes after it. -/
def RdataFits (buf : List UInt8) (d : ℕ) : RdataKind → UInt16 → Prop
  | .soa, _ =>
    let r := d + nameSize buf d
    (∀ n, nameLength buf n d ≤ rrBufSize) ∧
      ∀ m, hop buf d m = none →
        (∀ n, 0 < nameLength buf n r → nameLength buf m d + 1 + nameLength buf n r ≤ rrBufSize) ∧
        ∀ n, hop buf r n = none → nameLength buf m d + 1 + (nameLength buf n r + 1) + 20 ≤ rrBufSize
  | .mx, _ => ∀ n, 2 + nameLength buf n (d + 2) ≤ rrBufSize
  | .name, _ => ∀ n, nameLength buf n d ≤ rrBufSize
  | .opaq, rdlength => rdlength.toNat ≤ rrBufSize

/-- An entry whose names and data fit the decoder's two arrays. -/
def Entry.Fits (buf : List UInt8) : Entry → Prop
  | .question p => ∀ n, nameLength buf n p < domainBufLen
  | .record p =>
    let t := p + nameSize buf p
    (∀ n, nameLength buf n p < domainBufLen) ∧
      (NoRevisit buf p →
        RdataFits buf (t + 10) (rdataKind (u16At buf t)) (u16At buf (t + 8)))

/-- An entry is finished unless the pointers of one of its names run in a circle. -/
def Entry.Done (buf : List UInt8) : Entry → Prop
  | .question p => ∀ it ∈ questionItems buf p, it.Done buf
  | .record p => ∀ it ∈ recordItems buf p, it.Done buf

/-- The questions and records of a datagram, by the counts of its header. -/
def entries (buf : List UInt8) : List Entry :=
  let h := headerAt buf
  let p := (questionEnd buf)^[h.qdcount.toNat] sizeofMessageHeader
  let p₁ := (recordEnd buf)^[h.ancount.toNat] p
  let p₂ := (recordEnd buf)^[h.nscount.toNat] p₁
  repeatItems (fun p => [.question p]) (questionEnd buf) h.qdcount.toNat sizeofMessageHeader ++
    (repeatItems (fun p => [.record p]) (recordEnd buf) h.ancount.toNat p ++
      (repeatItems (fun p => [.record p]) (recordEnd buf) h.nscount.toNat p₁ ++
        repeatItems (fun p => [.record p]) (recordEnd buf) h.arcount.toNat p₂))

/-- The entries of a list that are begun: an entry is, once every earlier one is finished. -/
def Begun (buf : List UInt8) : List Entry → Entry → Prop
  | [], _ => False
  | it :: items, e => e = it ∨ (it.Done buf ∧ Begun buf items e)

/-- The stores to `domainbuf` and `rrbuf` stay inside these arrays, and a datagram with an entry
that does not fit them is refused. -/
structure StoresInBounds (buf : List UInt8) (size : ℕ) (msg : Message) : Prop where
  domainbuf : ∀ e, Processes buf size e → ∀ fuel, domainStores buf fuel e.pos < domainBufLen
  rrbuf : ∀ p, Processes buf size (.record p) → ∀ i, RecordStore buf p i → i < rrBufSize
  refused : ∀ e, Processes buf size e → ¬ e.Fits buf →
    ∃ m, Returns (fun fuel => messageFromBuf fuel buf size msg) (-1, m)

section Names

variable {buf : List UInt8} {p : ℕ}

theorem domainStores_terminator (h : byteAt buf p = 0) (fuel : ℕ) :
    domainStores buf (fuel + 1) p = 0 := by
  simp [domainStores, h]

theorem domainStores_pointer (h : isPointer (byteAt buf p) = true) (fuel : ℕ) :
    domainStores buf (fuel + 1) p =
      domainStores buf fuel (pointerTarget (byteAt buf p) (byteAt buf (p + 1))) := by
  have h0 : byteAt buf p ≠ 0 := by
    intro h0
    simp [h0, isPointer] at h
  simp [domainStores, h, h0]

theorem domainStores_label (h : IsLabelByte (byteAt buf p)) (fuel : ℕ) :
    domainStores buf (fuel + 1) p = domainStores buf fuel (p + 1) + 1 := by
  obtain ⟨h0, hp⟩ := (isLabelByte_iff _).1 h
  simp [domainStores, h0, hp]

theorem domainStores_le (buf : List UInt8) (fuel p : ℕ) :
    ∃ n, domainStores buf fuel p ≤ nameLength buf n p := by
  induction fuel generalizing p with
  | zero => exact ⟨0, Nat.zero_le _⟩
  | succ fuel ih =>
    rcases byte_cases (byteAt buf p) with hc | hc | hc
    · exact ⟨0, by simp [domainStores_terminator hc]⟩
    · obtain ⟨n, hn⟩ := ih (pointerTarget (byteAt buf p) (byteAt buf (p + 1)))
      refine ⟨n + 1, ?_⟩
      rw [domainStores_pointer hc, nameLength, expandRuns_pointer hc]
      exact hn
    · obtain ⟨n, hn⟩ := ih (p + 1)
      have hmono : nameLength buf n (p + 1) ≤ nameLength buf (n + 1) (p + 1) :=
        length_expandRuns_mono (Nat.le_succ n)
      refine ⟨n + 1, ?_⟩
      rw [domainStores_label hc, nameLength, expandRuns_label hc, List.length_cons]
      exact Nat.succ_le_succ (Nat.le_trans hn hmono)

theorem nameLength_le (buf : List UInt8) (n p : ℕ) :
    ∃ fuel, nameLength buf n p ≤ domainStores buf fuel p := by
  generalize hs : nameSize buf p = s
  induction n generalizing p s with
  | zero => exact ⟨0, Nat.zero_le _⟩
  | succ n ihn =>
    induction s generalizing p with
    | zero => have := nameSize_pos buf p; omega
    | succ s ihs =>
      rcases byte_cases (byteAt buf p) with hc | hc | hc
      · exact ⟨0, by simp [nameLength, expandRuns_terminator hc]⟩
      · obtain ⟨fuel, hfuel⟩ := ihn (pointerTarget (byteAt buf p) (byteAt buf (p + 1))) _ rfl
        refine ⟨fuel + 1, ?_⟩
        rw [domainStores_pointer hc, nameLength, expandRuns_pointer hc]
        exact hfuel
      · rw [(name_label hc).1, Nat.add_right_cancel_iff] at hs
        obtain ⟨fuel, hfuel⟩ := ihs (p + 1) hs
        refine ⟨fuel + 1, ?_⟩
        rw [domainStores_label hc, nameLength, expandRuns_label hc, List.length_cons]
        exact Nat.succ_le_succ hfuel

/-- What is stored at some time is what the runs of the chain hold. -/
theorem forall_domainStores_lt {b : ℕ} :
    (∀ fuel, domainStores buf fuel p < b) ↔ ∀ n, nameLength buf n p < b := by
  constructor
  · intro h n
    obtain ⟨fuel, hfuel⟩ := nameLength_le buf n p
    exact Nat.lt_of_le_of_lt hfuel (h fuel)
  · intro h fuel
    obtain ⟨n, hn⟩ := domainStores_le buf fuel p
    exact Nat.lt_of_le_of_lt hn (h n)

/-- What `read_domain` returns, from the layout. -/
theorem returns_readDomain_iff {r : List UInt8 × ℕ} :
    Returns (fun fuel => readDomain buf fuel p) r ↔
      ∃ k, hop buf p k = none ∧ r = (expandRuns buf k p, nameSize buf p) := by
  constructor
  · intro h
    obtain ⟨fuel, hfuel⟩ := h
    obtain ⟨-, k, hk⟩ := readDomain_result hfuel
    exact ⟨k, hk, (readDomain_mono buf p).returns_unique ⟨fuel, hfuel⟩ (returns_expandRuns hk)⟩
  · rintro ⟨k, hk, rfl⟩
    exact returns_expandRuns hk

end Names

/-! The stores of one entry. -/

section Stores

variable {buf : List UInt8} {p d : ℕ}

/-- A name stored from index `b` on stays inside `rrbuf`. -/
theorem forall_domainStores_add_lt {b : ℕ} :
    (∀ fuel i, i < domainStores buf fuel p → b + i < rrBufSize) ↔
      ∀ n, 0 < nameLength buf n p → b + nameLength buf n p ≤ rrBufSize := by
  constructor
  · intro h n hpos
    obtain ⟨fuel, hfuel⟩ := nameLength_le buf n p
    have := h fuel (nameLength buf n p - 1) (by omega)
    omega
  · intro h fuel i hi
    obtain ⟨n, hn⟩ := domainStores_le buf fuel p
    have := h n (by omega)
    omega

/-- A name stored from the start of `rrbuf` on stays inside it. -/
theorem forall_domainStores_rrbuf :
    (∀ fuel i, i < domainStores buf fuel p → i < rrBufSize) ↔
      ∀ n, nameLength buf n p ≤ rrBufSize := by
  constructor
  · intro h n
    obtain ⟨fuel, hfuel⟩ := nameLength_le buf n p
    by_contra hlong
    have hlast := h fuel rrBufSize (by omega)
    exact absurd hlast (Nat.lt_irrefl _)
  · intro h fuel i hi
    obtain ⟨n, hn⟩ := domainStores_le buf fuel p
    have hname := h n
    omega

theorem rrbufStore_soa_iff {rdlength : UInt16} :
    (∀ i, RrbufStore buf d .soa rdlength i → i < rrBufSize) ↔ RdataFits buf d .soa rdlength := by
  constructor
  · intro h
    refine ⟨?_, ?_⟩
    · apply forall_domainStores_rrbuf.1
      intro fuel i hi
      exact h i (.mname hi)
    · intro m hm
      have hmname := returns_expandRuns hm
      refine ⟨?_, ?_⟩
      · apply forall_domainStores_add_lt.1
        intro fuel i hi
        exact h _ (.rname hmname hi)
      · intro n hn
        have hlast := h _ (.nums hmname (returns_expandRuns hn) (by decide : 19 < 20))
        simp only [nameLength]
        omega
  · rintro ⟨hmname, hrest⟩ i hi
    cases hi with
    | mname h => exact forall_domainStores_rrbuf.2 hmname _ _ h
    | rname hm h =>
      obtain ⟨k, hk, heq⟩ := returns_readDomain_iff.1 hm
      cases heq
      exact forall_domainStores_add_lt.2 (hrest k hk).1 _ _ h
    | nums hm hr h =>
      obtain ⟨k, hk, heq⟩ := returns_readDomain_iff.1 hm
      cases heq
      obtain ⟨l, hl, heq⟩ := returns_readDomain_iff.1 hr
      cases heq
      have := (hrest k hk).2 l hl
      simp only [nameLength] at this
      omega

theorem rrbufStore_iff {kind : RdataKind} {rdlength : UInt16} :
    (∀ i, RrbufStore buf d kind rdlength i → i < rrBufSize) ↔ RdataFits buf d kind rdlength := by
  cases kind with
  | soa => exact rrbufStore_soa_iff
  | mx =>
    constructor
    · intro h n
      by_cases hpos : 0 < nameLength buf n (d + 2)
      · apply forall_domainStores_add_lt.1 _ n hpos
        intro fuel i hi
        exact h _ (.exchange hi)
      · rw [Nat.eq_zero_of_not_pos hpos]
        decide
    · intro h i hi
      cases hi with
      | preference hi => exact Nat.lt_of_lt_of_le hi (by decide)
      | exchange hi => exact forall_domainStores_add_lt.2 (fun n _ => h n) _ _ hi
  | name =>
    constructor
    · intro h
      apply forall_domainStores_rrbuf.1
      intro fuel i hi
      exact h i (.name hi)
    · intro h i hi
      cases hi with
      | name hi => exact forall_domainStores_rrbuf.2 h _ _ hi
  | opaq =>
    constructor
    · intro h
      by_contra hlong
      exact absurd (h rrBufSize (.opaq (Nat.lt_of_not_le hlong))) (Nat.lt_irrefl _)
    · intro h i hi
      cases hi with
      | opaq hi => exact Nat.lt_of_lt_of_le hi h

theorem recordStore_iff :
    (∀ i, RecordStore buf p i → i < rrBufSize) ↔ (NoRevisit buf p →
      RdataFits buf (p + nameSize buf p + 10) (rdataKind (u16At buf (p + nameSize buf p)))
        (u16At buf (p + nameSize buf p + 8))) := by
  rw [← hop_ends_iff, ← rrbufStore_iff]
  constructor
  · rintro h ⟨k, hk⟩ i hi
    exact h i ⟨_, _, returns_expandRuns hk, hi⟩
  · rintro h i ⟨name, offset, hret, hi⟩
    obtain ⟨k, hk, heq⟩ := returns_readDomain_iff.1 hret
    cases heq
    exact h ⟨k, hk⟩ i hi

/-- The stores for an entry stay inside the arrays exactly when it fits. -/
theorem entry_fits_iff {e : Entry} :
    e.Fits buf ↔ (∀ fuel, domainStores buf fuel e.pos < domainBufLen) ∧
      ∀ p, e = .record p → ∀ i, RecordStore buf p i → i < rrBufSize := by
  cases e with
  | question p =>
    simp only [Entry.Fits, Entry.pos, forall_domainStores_lt]
    exact ⟨fun h => ⟨h, fun q hq => by cases hq⟩, fun h => h.1⟩
  | record p =>
    simp only [Entry.Fits, Entry.pos, forall_domainStores_lt, Entry.record.injEq, forall_eq',
      recordStore_iff]

end Stores

/-! The entries that are processed. -/

section Entries

variable {buf : List UInt8} {size : ℕ} {e : Entry}

theorem begun_append {is js : List Entry} :
    Begun buf (is ++ js) e ↔ Begun buf is e ∨ ((∀ it ∈ is, it.Done buf) ∧ Begun buf js e) := by
  induction is with
  | nil => simp [Begun]
  | cons it is ih =>
    simp only [List.cons_append, Begun, ih, List.forall_mem_cons]
    tauto

section Loop

variable {α : Type} {f : ℕ → ℕ → ReadTrace (α × ℕ)} {entry : ℕ → Entry} {items : ℕ → List Item}
  {next : ℕ → ℕ}

/-- A counted loop begins its rounds at one entry after another, until one is not finished. -/
theorem rounds_iff (hnext : ∀ n p r, (f n p).result = some r → r.2 = next p)
    (hhalts : ∀ p, Halts (fun fuel => f fuel p) ↔ (entry p).Done buf) {k p : ℕ} :
    Rounds f entry k p e ↔ Begun buf (repeatItems (fun q => [entry q]) next k p) e := by
  induction k generalizing p with
  | zero => exact iff_of_false nofun id
  | succ k ih =>
    simp only [repeatItems, List.singleton_append, Begun, ← ih]
    constructor
    · intro h
      cases h with
      | first => exact Or.inl rfl
      | later hret ht =>
        obtain ⟨n, hn⟩ := hret
        obtain rfl := hnext n p _ hn
        exact Or.inr ⟨(hhalts p).1 ⟨_, n, hn⟩, ht⟩
    · rintro (rfl | ⟨hdone, ht⟩)
      · exact .first
      · obtain ⟨⟨a, q⟩, n, hn⟩ := (hhalts p).2 hdone
        obtain rfl : q = next p := hnext n p _ hn
        exact .later ⟨n, hn⟩ ht

/-- The items of the rounds are done when the entries are. -/
theorem forall_repeatItems_done
    (hentry : ∀ p, (entry p).Done buf ↔ ∀ it ∈ items p, it.Done buf) {k p : ℕ} :
    (∀ it ∈ repeatItems items next k p, it.Done buf) ↔
      ∀ it ∈ repeatItems (fun q => [entry q]) next k p, it.Done buf := by
  induction k generalizing p with
  | zero => simp [repeatItems]
  | succ k ih =>
    simp only [repeatItems, List.forall_mem_append, List.forall_mem_singleton, ih, hentry]

/-- A counted loop comes back, behind its last entry, exactly when all of them are finished. -/
theorem returns_repeatRead_iff (hwalk : ∀ p, Walks buf (fun fuel => f fuel p) (items p))
    (hnext : ∀ n p r, (f n p).result = some r → r.2 = next p)
    (hentry : ∀ p, (entry p).Done buf ↔ ∀ it ∈ items p, it.Done buf) {k p q : ℕ} :
    (∃ as, Returns (fun fuel => repeatRead (f fuel) k p) (as, q)) ↔
      q = next^[k] p ∧ ∀ it ∈ repeatItems (fun q => [entry q]) next k p, it.Done buf := by
  rw [← forall_repeatItems_done hentry, ← (Follows.repeatRead hwalk hnext k p).halts]
  constructor
  · rintro ⟨as, n, hn⟩
    exact ⟨result_repeatRead hnext hn, _, n, hn⟩
  · rintro ⟨rfl, ⟨as, q⟩, n, hn⟩
    obtain rfl : q = next^[k] p := result_repeatRead hnext hn
    exact ⟨as, n, hn⟩

end Loop

section Sections

variable {k p q : ℕ}

theorem rounds_question_iff :
    Rounds (fun fuel => msgQuestionFromBuf fuel buf) .question k p e ↔
      Begun buf (repeatItems (fun q => [.question q]) (questionEnd buf) k p) e := by
  apply rounds_iff
  · exact fun n p r => result_msgQuestionFromBuf
  · exact fun p => (walks_msgQuestionFromBuf p).halts

theorem rounds_record_iff :
    Rounds (fun fuel => msgRrFromBuf fuel buf) .record k p e ↔
      Begun buf (repeatItems (fun q => [.record q]) (recordEnd buf) k p) e := by
  apply rounds_iff
  · exact fun n p r => result_msgRrFromBuf
  · exact fun p => (walks_msgRrFromBuf p).halts

theorem returns_questions_iff :
    (∃ qs, Returns (fun fuel => repeatRead (msgQuestionFromBuf fuel buf) k p) (qs, q)) ↔
      q = (questionEnd buf)^[k] p ∧
        ∀ it ∈ repeatItems (fun q => [Entry.question q]) (questionEnd buf) k p, it.Done buf := by
  apply returns_repeatRead_iff walks_msgQuestionFromBuf
  · exact fun n p r => result_msgQuestionFromBuf
  · exact fun p => Iff.rfl

theorem returns_records_iff :
    (∃ rrs, Returns (fun fuel => repeatRead (msgRrFromBuf fuel buf) k p) (rrs, q)) ↔
      q = (recordEnd buf)^[k] p ∧
        ∀ it ∈ repeatItems (fun q => [Entry.record q]) (recordEnd buf) k p, it.Done buf := by
  apply returns_repeatRead_iff walks_msgRrFromBuf
  · exact fun n p r => result_msgRrFromBuf
  · exact fun p => Iff.rfl

end Sections

/-- Past the two early returns the entries processed are those of the layout that are begun. -/
theorem processes_iff (hsize : ¬ size < sizeofMessageHeader)
    (htc : tcOf (headerAt buf).misc1 = 0) :
    Processes buf size e ↔ Begun buf (entries buf) e := by
  simp only [entries, begun_append, ← rounds_question_iff, ← rounds_record_iff]
  constructor
  · intro h
    cases h with
    | question _ _ h => exact Or.inl h
    | answer _ _ hq h =>
      obtain ⟨rfl, hqs⟩ := returns_questions_iff.1 ⟨_, hq⟩
      exact Or.inr ⟨hqs, Or.inl h⟩
    | authority _ _ hq han h =>
      obtain ⟨rfl, hqs⟩ := returns_questions_iff.1 ⟨_, hq⟩
      obtain ⟨rfl, hans⟩ := returns_records_iff.1 ⟨_, han⟩
      exact Or.inr ⟨hqs, Or.inr ⟨hans, Or.inl h⟩⟩
    | addition _ _ hq han hns h =>
      obtain ⟨rfl, hqs⟩ := returns_questions_iff.1 ⟨_, hq⟩
      obtain ⟨rfl, hans⟩ := returns_records_iff.1 ⟨_, han⟩
      obtain ⟨rfl, hnss⟩ := returns_records_iff.1 ⟨_, hns⟩
      exact Or.inr ⟨hqs, Or.inr ⟨hans, Or.inr ⟨hnss, h⟩⟩⟩
  · rintro (h | ⟨hqs, h⟩)
    · exact .question hsize htc h
    obtain ⟨_, hq⟩ := returns_questions_iff.2 ⟨rfl, hqs⟩
    rcases h with h | ⟨hans, h⟩
    · exact .answer hsize htc hq h
    obtain ⟨_, han⟩ := returns_records_iff.2 ⟨rfl, hans⟩
    rcases h with h | ⟨hnss, h⟩
    · exact .authority hsize htc hq han h
    obtain ⟨_, hns⟩ := returns_records_iff.2 ⟨rfl, hnss⟩
    exact .addition hsize htc hq han hns h

theorem not_processes_of_refused
    (h : size < sizeofMessageHeader ∨ tcOf (headerAt buf).misc1 ≠ 0) :
    ¬ Processes buf size e := by
  intro hp
  rcases h with h | h <;> cases hp <;> contradiction

end Entries

/-- The stores that are counted are those of `read_domain`: a name that was read has been stored in
full. -/
theorem domainStores_eq_length {fuel offset p : ℕ} {dest : List UInt8}
    (h : (readDomain buf fuel p).result = some (dest, offset)) :
    domainStores buf fuel p = dest.length := by
  induction fuel generalizing p dest offset with
  | zero => simp [readDomain_zero] at h
  | succ fuel ih =>
    rcases byte_cases (byteAt buf p) with hc | hc | hc
    · rw [readDomain_terminator hc] at h
      cases h
      exact domainStores_terminator hc fuel
    · rw [readDomain_pointer hc] at h
      simp only [result_bind, result_load, Option.bind_some, Option.bind_eq_some_iff,
        result_pure, Option.some.injEq, Prod.mk.injEq, Prod.exists] at h
      obtain ⟨d, o, hr, rfl, -⟩ := h
      rw [domainStores_pointer hc, ih hr]
    · rw [readDomain_label hc] at h
      simp only [result_bind, result_load, Option.bind_some, Option.bind_eq_some_iff,
        result_pure, Option.some.injEq, Prod.mk.injEq, Prod.exists] at h
      obtain ⟨d, o, hr, rfl, -⟩ := h
      rw [domainStores_label hc, ih hr, List.length_cons]

/-- The decoder keeps to its arrays exactly when the datagram is refused at once or every question
and record it lays out, up to a name whose pointers run in a circle, fits them. -/
theorem messageFromBuf_storesInBounds_iff (buf : List UInt8) (size : ℕ) (msg : Message) :
    StoresInBounds buf size msg ↔
      size < sizeofMessageHeader ∨ tcOf (headerAt buf).misc1 ≠ 0 ∨
        ∀ e, Begun buf (entries buf) e → e.Fits buf := by
  by_cases hearly : size < sizeofMessageHeader ∨ tcOf (headerAt buf).misc1 ≠ 0
  · have hnone : ∀ e, ¬ Processes buf size e := fun e => not_processes_of_refused hearly
    refine iff_of_true ⟨?_, ?_, ?_⟩ ?_
    · exact fun e he => absurd he (hnone e)
    · exact fun p hp => absurd hp (hnone _)
    · exact fun e he => absurd he (hnone e)
    · rcases hearly with h | h
      · exact Or.inl h
      · exact Or.inr (Or.inl h)
  · obtain ⟨hsize, htc⟩ := not_or.1 hearly
    rw [not_not] at htc
    simp only [hsize, htc, ne_eq, not_true_eq_false, false_or]
    constructor
    · intro h e he
      have hp := (processes_iff hsize htc).2 he
      apply entry_fits_iff.2
      refine ⟨h.domainbuf e hp, ?_⟩
      rintro p rfl
      exact h.rrbuf p hp
    · intro h
      have hfits : ∀ e, Processes buf size e → e.Fits buf :=
        fun e hp => h e ((processes_iff hsize htc).1 hp)
      refine ⟨?_, ?_, ?_⟩
      · exact fun e hp => (entry_fits_iff.1 (hfits e hp)).1
      · exact fun p hp => (entry_fits_iff.1 (hfits _ hp)).2 p rfl
      · exact fun e hp hbig => absurd (hfits e hp) hbig

/-- An answer of one record of an unknown type with 600 bytes of data. -/
def longRdata : List UInt8 :=
  [0, 1, 0, 0, 0, 0, 0, 1, 0, 0, 0, 0] ++ [0, 0, 99, 0, 1, 0, 0, 0, 0, 2, 88] ++
    List.replicate 600 7

theorem longRdata_not_storesInBounds :
    ¬ StoresInBounds longRdata longRdata.length Message.zero := by
  intro h
  have hsize : longRdata.length = 623 := by
    rw [longRdata, List.length_append, List.length_replicate]
    rfl
  have hqdcount : (headerAt longRdata).qdcount.toNat = 0 := by decide +kernel
  have hancount : (headerAt longRdata).ancount.toNat = 1 := by decide +kernel
  have hrecord : Processes longRdata longRdata.length (.record 12) := by
    refine @Processes.answer _ _ _ 12 [] ?_ ?_ ?_ ?_
    · rw [hsize]
      decide
    · decide +kernel
    · rw [hqdcount]
      exact ⟨0, rfl⟩
    · rw [hancount]
      exact .first
  have hname : Returns (fun fuel => readDomain longRdata fuel 12) ([], 1) := ⟨1, rfl⟩
  have hstore : RecordStore longRdata 12 599 := by
    refine ⟨[], 1, hname, ?_⟩
    have hkind : rdataKind (u16At longRdata 13) = .opaq := by decide
    rw [hkind]
    exact .opaq (by decide)
  exact absurd (h.rrbuf 12 hrecord 599 hstore) (by decide)

end BakaDns
