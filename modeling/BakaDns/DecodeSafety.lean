import BakaDns.Layout

/-! Termination and read bounds of `message_from_buf`, from the layout of the datagram. -/

namespace BakaDns
open CBytes ReadTrace

/-- What the decoder goes through: a name written at a position, or a run of bytes. -/
inductive Item
  | name (p : ℕ)
  | span (p n : ℕ)
deriving DecidableEq, Repr

def u16At (buf : List UInt8) (p : ℕ) : UInt16 := beU16 (byteAt buf p) (byteAt buf (p + 1))

def questionItems (buf : List UInt8) (p : ℕ) : List Item :=
  let t := p + nameSize buf p
  [.name p, .span t 2, .span (t + 2) 2]

def questionEnd (buf : List UInt8) (p : ℕ) : ℕ := p + nameSize buf p + 4

def rdataItems (buf : List UInt8) (d : ℕ) (kind : RdataKind) (rdlength : UInt16) : List Item :=
  match kind with
  | .soa =>
    let m := nameSize buf d
    [.name d, .name (d + m), .span (d + m + m + nameSize buf (d + m)) 20]
  | .mx => [.span d 2, .name (d + 2)]
  | .name => [.name d]
  | .opaq => [.span d rdlength.toNat]

def recordItems (buf : List UInt8) (p : ℕ) : List Item :=
  let t := p + nameSize buf p
  [.name p, .span t 2, .span (t + 2) 2, .span (t + 4) 4, .span (t + 8) 2] ++
    rdataItems buf (t + 10) (rdataKind (u16At buf t)) (u16At buf (t + 8))

def recordEnd (buf : List UInt8) (p : ℕ) : ℕ :=
  let t := p + nameSize buf p
  t + 10 + (u16At buf (t + 8)).toNat

/-- The header of a datagram. -/
def headerAt (buf : List UInt8) : MessageHeader :=
  ⟨u16At buf 0, byteAt buf 2, byteAt buf 3, u16At buf 4, u16At buf 6, u16At buf 8, u16At buf 10⟩

def headerItems : List Item :=
  [.span 0 2, .span 2 1, .span 3 1, .span 4 2, .span 6 2, .span 8 2, .span 10 2]

/-- The four sections, by the counts of the header. -/
def sectionItems (buf : List UInt8) : List Item :=
  let h := headerAt buf
  let p := (questionEnd buf)^[h.qdcount.toNat] sizeofMessageHeader
  let p₁ := (recordEnd buf)^[h.ancount.toNat] p
  let p₂ := (recordEnd buf)^[h.nscount.toNat] p₁
  repeatItems (questionItems buf) (questionEnd buf) h.qdcount.toNat sizeofMessageHeader ++
    (repeatItems (recordItems buf) (recordEnd buf) h.ancount.toNat p ++
      (repeatItems (recordItems buf) (recordEnd buf) h.nscount.toNat p₁ ++
        repeatItems (recordItems buf) (recordEnd buf) h.arcount.toNat p₂))

/-- An item is finished unless it is a name whose pointers run in a circle. -/
def Item.Done (buf : List UInt8) : Item → Prop
  | .name p => NoRevisit buf p
  | .span _ _ => True

/-- The bytes of an item: for a name, its written part and those its pointers lead to. -/
def Item.Uses (buf : List UInt8) : Item → ℕ → Prop
  | .name p, i => ∃ k q, hop buf p k = some q ∧ q ≤ i ∧ i < q + nameSize buf q
  | .span p n, i => p ≤ i ∧ i < p + n

/-- The items lie inside the first `size` bytes, as far as the decoder gets through them. -/
def Fits (buf : List UInt8) (size : ℕ) : List Item → Prop
  | [] => True
  | .name p :: items =>
    (∀ k q, hop buf p k = some q → q + nameSize buf q ≤ size) ∧
      (NoRevisit buf p → Fits buf size items)
  | .span p n :: items => (n = 0 ∨ p + n ≤ size) ∧ Fits buf size items

variable {buf : List UInt8}

theorem fits_iff_uses_lt {size : ℕ} {items : List Item} :
    Fits buf size items ↔ ∀ i, Uses (Item.Done buf) (Item.Uses buf) items i → i < size := by
  induction items with
  | nil => simp [Fits, Uses]
  | cons it items ih =>
    cases it with
    | span p n =>
      simp only [Fits, Uses, Item.Done, Item.Uses, ih, true_and]
      constructor
      · rintro ⟨hn, hrest⟩ i (hi | hi)
        · omega
        · exact hrest i hi
      · intro h
        refine ⟨?_, fun i hi => h i (Or.inr hi)⟩
        by_cases hn : n = 0
        · exact Or.inl hn
        · have := h (p + n - 1) (Or.inl (by omega))
          omega
    | name p =>
      simp only [Fits, Uses, Item.Done, Item.Uses, ih]
      constructor
      · rintro ⟨hname, hrest⟩ i (⟨k, q, hk, hi⟩ | ⟨hd, hi⟩)
        · have := hname k q hk
          omega
        · exact hrest hd i hi
      · intro h
        refine ⟨?_, fun hd i hi => h i (Or.inr ⟨hd, hi⟩)⟩
        intro k q hk
        have hpos := nameSize_pos buf q
        have := h (q + nameSize buf q - 1) (Or.inl ⟨k, q, hk, by omega, by omega⟩)
        omega

/-! Each part of the decoder goes through its items. -/

section Decoder

variable {α β : Type}

/-- The decoder's programs, measured against a list of items. -/
abbrev Walks (buf : List UInt8) (x : ℕ → ReadTrace α) (items : List Item) : Prop :=
  Follows (Item.Done buf) (Item.Uses buf) x items

theorem walks_readDomain (p : ℕ) : Walks buf (fun fuel => readDomain buf fuel p) [.name p] where
  mono := readDomain_mono buf p
  halts := by
    simp only [List.forall_mem_singleton, Item.Done]
    rw [← hop_ends_iff]
    constructor
    · rintro ⟨r, n, hr⟩
      exact (readDomain_result hr).2
    · rintro ⟨k, hk⟩
      exact readDomain_halts_of_hop hk
  touches i := by
    simp only [Uses, Item.Uses, and_false, or_false]
    constructor
    · rintro ⟨n, hi⟩
      exact hop_of_readDomain_reads hi
    · rintro ⟨k, q, hk, hle, hlt⟩
      exact readDomain_touches_of_hop hk hle hlt

theorem walks_span {x : ReadTrace α} {a : α} {p n : ℕ} (hr : x.result = some a)
    (hs : x.reads = List.range' p n) : Walks buf (fun _ => x) [.span p n] where
  mono := Mono.const x
  halts := by simpa [Item.Done] using ⟨a, returns_const.2 hr⟩
  touches i := by simp [touches_const, hs, Uses, Item.Uses]

theorem result_u8nToU16h (p : ℕ) : (u8nToU16h buf p).result = some (u16At buf p) := by
  simp [u8nToU16h, u16At, copyOut, byteAt, List.getD_eq_getElem?_getD]

theorem walks_u8nToU16h (p : ℕ) : Walks buf (fun _ => u8nToU16h buf p) [.span p 2] :=
  walks_span (result_u8nToU16h p) (by simp [u8nToU16h])

theorem walks_u8nToU32h (p : ℕ) : Walks buf (fun _ => u8nToU32h buf p) [.span p 4] :=
  walks_span rfl (by simp [u8nToU32h])

theorem walks_loadBytes (p n : ℕ) : Walks buf (fun _ => loadBytes buf p n) [.span p n] :=
  walks_span rfl rfl

theorem returns_readDomain {p : ℕ} {r : List UInt8 × ℕ}
    (h : Returns (fun fuel => readDomain buf fuel p) r) : r.2 = nameSize buf p := by
  obtain ⟨n, hn⟩ := h
  exact (readDomain_result hn).1

theorem walks_rdataFromBuf (d : ℕ) (kind : RdataKind) (rdlength : UInt16) :
    Walks buf (fun fuel => rdataFromBuf fuel buf d kind rdlength)
      (rdataItems buf d kind rdlength) := by
  cases kind with
  | soa =>
    simp only [rdataFromBuf, rdataItems]
    refine (walks_readDomain d).cons fun m hm => ?_
    rw [returns_readDomain hm]
    refine (walks_readDomain _).cons fun r hr => ?_
    rw [returns_readDomain hr]
    exact (walks_loadBytes _ _).map
  | mx =>
    simp only [rdataFromBuf, rdataItems]
    exact (walks_loadBytes d 2).cons fun _ _ => (walks_readDomain _).map
  | name => exact (walks_readDomain d).map
  | opaq => exact walks_loadBytes d _

theorem walks_msgQuestionFromBuf (p : ℕ) :
    Walks buf (fun fuel => msgQuestionFromBuf fuel buf p) (questionItems buf p) := by
  simp only [msgQuestionFromBuf, questionItems]
  refine (walks_readDomain p).cons fun r hr => ?_
  rw [returns_readDomain hr]
  exact (walks_u8nToU16h _).cons fun _ _ => (walks_u8nToU16h _).map

theorem walks_msgRrFromBuf (p : ℕ) :
    Walks buf (fun fuel => msgRrFromBuf fuel buf p) (recordItems buf p) := by
  simp only [msgRrFromBuf, recordItems, List.cons_append, List.nil_append]
  refine (walks_readDomain p).cons fun r hr => ?_
  rw [returns_readDomain hr]
  refine (walks_u8nToU16h _).cons fun type htype => ?_
  obtain rfl : u16At buf _ = type := by simpa [result_u8nToU16h] using returns_const.1 htype
  refine (walks_u8nToU16h _).cons fun _ _ => (walks_u8nToU32h _).cons fun _ _ => ?_
  refine (walks_u8nToU16h _).cons fun rdlength hlen => ?_
  obtain rfl : u16At buf _ = rdlength := by simpa [result_u8nToU16h] using returns_const.1 hlen
  exact (walks_rdataFromBuf _ _ _).map

theorem result_msgQuestionFromBuf {fuel p : ℕ} {r : MessageQuestion × ℕ}
    (h : (msgQuestionFromBuf fuel buf p).result = some r) : r.2 = questionEnd buf p := by
  simp only [msgQuestionFromBuf, result_bind, result_u8nToU16h, Option.bind_some, result_pure,
    Option.bind_eq_some_iff, Option.some.injEq] at h
  obtain ⟨s, hs, rfl⟩ := h
  simp only [questionEnd, (readDomain_result hs).1]

theorem result_msgRrFromBuf {fuel p : ℕ} {r : ResourceRecord × ℕ}
    (h : (msgRrFromBuf fuel buf p).result = some r) : r.2 = recordEnd buf p := by
  simp only [msgRrFromBuf, result_bind, result_u8nToU16h, Option.bind_some, result_pure,
    Option.bind_eq_some_iff, Option.some.injEq] at h
  obtain ⟨s, hs, _, _, _, _, rfl⟩ := h
  simp only [recordEnd, (readDomain_result hs).1]

theorem result_msgHeaderFromBuf : (msgHeaderFromBuf buf).result = some (headerAt buf) := by
  simp [msgHeaderFromBuf, result_u8nToU16h, headerAt]

theorem walks_msgHeaderFromBuf : Walks buf (fun _ => msgHeaderFromBuf buf) headerItems := by
  have hbyte : ∀ p, Walks buf (fun _ => load buf p) [.span p 1] := fun p => walks_span rfl rfl
  refine (walks_u8nToU16h 0).cons fun _ _ => (hbyte 2).cons fun _ _ => (hbyte 3).cons fun _ _ => ?_
  refine (walks_u8nToU16h 4).cons fun _ _ => (walks_u8nToU16h 6).cons fun _ _ => ?_
  exact (walks_u8nToU16h 8).cons fun _ _ => (walks_u8nToU16h 10).map

end Decoder

/-! The whole decoder. -/

section Message

variable {size : ℕ} {msg : Message}

/-- Past its two early returns the decoder goes through the header and the four sections. -/
theorem walks_messageFromBuf (hsize : ¬ size < sizeofMessageHeader)
    (htc : tcOf (headerAt buf).misc1 = 0) :
    Walks buf (fun fuel => messageFromBuf fuel buf size msg) (headerItems ++ sectionItems buf) := by
  have hq := fun n p r => @result_msgQuestionFromBuf buf n p r
  have hr := fun n p r => @result_msgRrFromBuf buf n p r
  simp only [messageFromBuf, if_neg hsize]
  refine walks_msgHeaderFromBuf.bind fun header hheader => ?_
  obtain rfl : headerAt buf = header := by
    simpa [result_msgHeaderFromBuf] using returns_const.1 hheader
  simp only [htc, ne_eq, not_true_eq_false, if_false, sectionItems]
  refine (Follows.repeatRead walks_msgQuestionFromBuf hq _ _).bind fun question hquestion => ?_
  obtain ⟨n, hn⟩ := hquestion
  rw [result_repeatRead hq hn]
  refine (Follows.repeatRead walks_msgRrFromBuf hr _ _).bind fun answer hanswer => ?_
  obtain ⟨n, hn⟩ := hanswer
  rw [result_repeatRead hr hn]
  refine (Follows.repeatRead walks_msgRrFromBuf hr _ _).bind fun authority hauthority => ?_
  obtain ⟨n, hn⟩ := hauthority
  rw [result_repeatRead hr hn]
  exact (Follows.repeatRead walks_msgRrFromBuf hr _ _).map

theorem messageFromBuf_short (hsize : size < sizeofMessageHeader) (fuel : ℕ) :
    messageFromBuf fuel buf size msg = pure (-1, msg) := by
  simp [messageFromBuf, hsize]

theorem messageFromBuf_truncated (hsize : ¬ size < sizeofMessageHeader)
    (htc : tcOf (headerAt buf).misc1 ≠ 0) (fuel : ℕ) :
    (messageFromBuf fuel buf size msg).result = some (-1, { msg with header := headerAt buf }) := by
  simp [messageFromBuf, hsize, result_msgHeaderFromBuf, htc]

/-- Past the two early returns every return is a 1: no later step reports an error. -/
theorem messageFromBuf_ret (hsize : ¬ size < sizeofMessageHeader)
    (htc : tcOf (headerAt buf).misc1 = 0) {fuel : ℕ} {r : ℤ × Message}
    (h : (messageFromBuf fuel buf size msg).result = some r) : r.1 = 1 := by
  simp only [messageFromBuf, if_neg hsize, result_bind, result_msgHeaderFromBuf, Option.bind_some,
    htc, ne_eq, not_true_eq_false, if_false, result_pure, Option.bind_eq_some_iff,
    Option.some.injEq] at h
  obtain ⟨_, _, _, _, _, _, _, _, rfl⟩ := h
  rfl

theorem fits_header (hsize : ¬ size < sizeofMessageHeader) (items : List Item) :
    Fits buf size (headerItems ++ items) ↔ Fits buf size items := by
  simp only [sizeofMessageHeader] at hsize
  simp only [headerItems, List.cons_append, List.nil_append, Fits]
  constructor
  · rintro ⟨-, -, -, -, -, -, -, h⟩
    exact h
  · intro h
    exact ⟨by omega, by omega, by omega, by omega, by omega, by omega, by omega, h⟩

/-- The decoder comes back exactly when the datagram is refused at once or no name it reaches
has a chain of pointers that meets a position twice. -/
theorem messageFromBuf_halts_iff (buf : List UInt8) (size : ℕ) (msg : Message) :
    Halts (fun fuel => messageFromBuf fuel buf size msg) ↔
      size < sizeofMessageHeader ∨ tcOf (headerAt buf).misc1 ≠ 0 ∨
        ∀ p, Item.name p ∈ sectionItems buf → NoRevisit buf p := by
  by_cases hsize : size < sizeofMessageHeader
  · simpa [hsize] using ⟨(-1, msg), 0, by simp [messageFromBuf_short hsize]⟩
  by_cases htc : tcOf (headerAt buf).misc1 = 0
  · rw [(walks_messageFromBuf hsize htc).halts]
    simp only [hsize, htc, ne_eq, not_true_eq_false, false_or]
    constructor
    · intro h p hp
      exact h (.name p) (List.mem_append_right _ hp)
    · intro h it hit
      cases it with
      | span p n => trivial
      | name p =>
        rcases List.mem_append.1 hit with hit | hit
        · simp [headerItems] at hit
        · exact h p hit
  · simpa [htc] using ⟨_, 0, messageFromBuf_truncated hsize htc 0⟩

/-- A question whose name is a pointer to itself. -/
def selfPointer : List UInt8 := [0, 1, 0, 0, 0, 1, 0, 0, 0, 0, 0, 0, 0xC0, 12, 0, 1, 0, 1]

theorem selfPointer_never_halts :
    ¬ Halts (fun fuel => messageFromBuf fuel selfPointer 18 Message.zero) := by
  intro h
  have hwalk : Walks selfPointer (fun fuel => messageFromBuf fuel selfPointer 18 Message.zero)
      (headerItems ++ sectionItems selfPointer) := walks_messageFromBuf (by decide) (by decide)
  have hname : NoRevisit selfPointer 12 := hwalk.halts.1 h (.name 12) (by decide)
  exact hname 0 1 12 (by decide) rfl (by decide)

/-- A message is accepted only if every byte read has an index below `size`, and one that makes
the decoder read at or beyond `size` is refused. -/
def ReadsBelowSize (buf : List UInt8) (size : ℕ) (msg : Message) : Prop :=
  (∀ m, Returns (fun fuel => messageFromBuf fuel buf size msg) (1, m) →
    ∀ i, Touches (fun fuel => messageFromBuf fuel buf size msg) i → i < size) ∧
  ((∃ i, size ≤ i ∧ Touches (fun fuel => messageFromBuf fuel buf size msg) i) →
    ∃ m, Returns (fun fuel => messageFromBuf fuel buf size msg) (-1, m))

/-- The bounds hold exactly when the datagram is refused at once or everything it lays out, up
to a name whose pointers run in a circle, lies below `size`. -/
theorem messageFromBuf_readsBelowSize_iff (buf : List UInt8) (size : ℕ) (msg : Message) :
    ReadsBelowSize buf size msg ↔
      size < sizeofMessageHeader ∨ tcOf (headerAt buf).misc1 ≠ 0 ∨
        Fits buf size (sectionItems buf) := by
  by_cases hsize : size < sizeofMessageHeader
  · simp only [hsize, true_or, iff_true]
    refine ⟨?_, fun _ => ⟨msg, 0, by simp [messageFromBuf_short hsize]⟩⟩
    rintro m ⟨n, hn⟩
    simp [messageFromBuf_short hsize] at hn
  by_cases htc : tcOf (headerAt buf).misc1 = 0
  · have hwalk : Walks buf (fun fuel => messageFromBuf fuel buf size msg)
        (headerItems ++ sectionItems buf) := walks_messageFromBuf hsize htc
    simp only [hsize, htc, ne_eq, not_true_eq_false, false_or]
    rw [← fits_header hsize, fits_iff_uses_lt]
    constructor
    · rintro ⟨-, hrej⟩ i hi
      by_contra hlt
      obtain ⟨m, n, hn⟩ := hrej ⟨i, Nat.le_of_not_lt hlt, (hwalk.touches i).2 hi⟩
      have := messageFromBuf_ret hsize htc hn
      simp at this
    · intro hfits
      refine ⟨fun m _ i hi => hfits i ((hwalk.touches i).1 hi), ?_⟩
      rintro ⟨i, hle, hi⟩
      have := hfits i ((hwalk.touches i).1 hi)
      omega
  · simp only [htc, ne_eq, not_false_eq_true, true_or, or_true, iff_true]
    refine ⟨?_, fun _ => ⟨_, 0, messageFromBuf_truncated hsize htc 0⟩⟩
    rintro m ⟨n, hn⟩
    simp [messageFromBuf_truncated hsize htc] at hn

/-- A header alone that announces one question. -/
def bareHeader : List UInt8 := [0, 1, 0, 0, 0, 1, 0, 0, 0, 0, 0, 0]

theorem bareHeader_not_readsBelowSize : ¬ ReadsBelowSize bareHeader 12 Message.zero := by
  rintro ⟨hbound, -⟩
  have hret : ∃ m, (messageFromBuf 4 bareHeader 12 Message.zero).result = some (1, m) :=
    ⟨_, rfl⟩
  obtain ⟨m, hm⟩ := hret
  have hread : 12 ∈ (messageFromBuf 4 bareHeader 12 Message.zero).reads := by decide
  exact absurd (hbound m ⟨4, hm⟩ 12 ⟨4, hread⟩) (by decide)

end Message

end BakaDns
