import BakaDns.Forwarding
import BakaDns.Trees

/-!
# The labels of decoded names

`read_domain` copies bytes up to a zero or a pointer and never looks at the lengths of labels,
while `domain_rev` and `print_question` walk over a name by these lengths. Whether the two views
agree is decided by the bytes of the datagram.
-/

namespace BakaDns
open CBytes ReadTrace

/-- A walk over a name from length octet to length octet, from index `i` to a zero at `j`. -/
inductive LabelWalk (name : List UInt8) : ℕ → ℕ → Prop
  | stop {i : ℕ} (h : byteAt name i = 0) : LabelWalk name i i
  | label {i j : ℕ} (h : byteAt name i ≠ 0) (hlen : (byteAt name i).toNat ≤ 63)
      (ht : LabelWalk name (i + (byteAt name i).toNat + 1) j) : LabelWalk name i j

/-- The indices that the first loop of `domain_rev` reads from `i` on; the loop of
`print_question` reads the same ones and stops at `domain_len` at the latest. -/
def labelReads (name : List UInt8) : ℕ → ℕ → List ℕ
  | 0, _ => []
  | fuel + 1, i =>
    if byteAt name i = 0 then [i]
    else (List.range ((byteAt name i).toNat + 1)).map (i + ·) ++
      labelReads name fuel (i + (byteAt name i).toNat + 1)

/-- A sequence of labels of at most 63 bytes that ends with its terminator, which the walks over
it do not pass. -/
structure WellFormedName (name : List UInt8) (dlen : ℕ) : Prop where
  domain_len : domainLen name = some dlen
  walk : LabelWalk name 0 (dlen - 1)
  reads : ∀ fuel, ∀ i ∈ labelReads name fuel 0, i < dlen

/-- The question names and record names of a message. -/
def Message.names (m : Message) : List (List UInt8) :=
  m.question.reduceOption.map MessageQuestion.qname ++
    (m.answer.reduceOption.map ResourceRecord.name ++
      (m.authority.reduceOption.map ResourceRecord.name ++
        m.addition.reduceOption.map ResourceRecord.name))

/-- Where the questions and records of a datagram start. -/
def namePositions (buf : List UInt8) : List ℕ :=
  let h := headerAt buf
  let p := (questionEnd buf)^[h.qdcount.toNat] sizeofMessageHeader
  let p₁ := (recordEnd buf)^[h.ancount.toNat] p
  let p₂ := (recordEnd buf)^[h.nscount.toNat] p₁
  repeatItems (fun p => [p]) (questionEnd buf) h.qdcount.toNat sizeofMessageHeader ++
    (repeatItems (fun p => [p]) (recordEnd buf) h.ancount.toNat p ++
      (repeatItems (fun p => [p]) (recordEnd buf) h.nscount.toNat p₁ ++
        repeatItems (fun p => [p]) (recordEnd buf) h.arcount.toNat p₂))

/-- The bytes from `p` on, pointers followed wherever they stand: `k` more bytes belong to the
label at hand, a length octet is at most 63, the zero comes between labels, and at most `n` bytes
come before it. -/
inductive LabelsAt (buf : List UInt8) : ℕ → ℕ → ℕ → Prop
  | stop {p n : ℕ} (h : byteAt buf p = 0) : LabelsAt buf p 0 n
  | pointer {p k n : ℕ} (h : isPointer (byteAt buf p) = true)
      (ht : LabelsAt buf (pointerTarget (byteAt buf p) (byteAt buf (p + 1))) k n) :
      LabelsAt buf p k n
  | length {p n : ℕ} (h : IsLabelByte (byteAt buf p)) (hlen : (byteAt buf p).toNat ≤ 63)
      (ht : LabelsAt buf (p + 1) (byteAt buf p).toNat n) : LabelsAt buf p 0 (n + 1)
  | octet {p k n : ℕ} (h : IsLabelByte (byteAt buf p)) (ht : LabelsAt buf (p + 1) k n) :
      LabelsAt buf p (k + 1) (n + 1)

/-- The same on a list of bytes: `k` of them belong to the label at hand. -/
def LabelsFrom : ℕ → List UInt8 → Prop
  | 0, [] => True
  | _ + 1, [] => False
  | 0, c :: cs => c.toNat ≤ 63 ∧ LabelsFrom c.toNat cs
  | k + 1, _ :: cs => LabelsFrom k cs

section Walk

variable {s : List UInt8} {i j k : ℕ}

theorem labelsFrom_iff_drop (k : ℕ) (s : List UInt8) :
    LabelsFrom k s ↔ k ≤ s.length ∧ LabelsFrom 0 (s.drop k) := by
  induction k generalizing s with
  | zero => simp
  | succ k ih =>
    cases s with
    | nil => simp [LabelsFrom]
    | cons c s =>
      rw [LabelsFrom, ih]
      simp

theorem byteAt_name_lt (h : i < s.length) : byteAt (s ++ [0]) i = s[i] := by
  rw [byteAt, List.getD_append _ _ _ _ h, List.getD_eq_getElem _ _ h]

theorem byteAt_name_ge (h : s.length ≤ i) : byteAt (s ++ [0]) i = 0 := by
  rw [byteAt, List.getD_append_right _ _ _ _ h]
  cases hk : i - s.length with
  | zero => rfl
  | succ k => rfl

/-- The end of a walk is not before its start. -/
theorem LabelWalk.le {name : List UInt8} (h : LabelWalk name i j) : i ≤ j := by
  induction h with
  | stop h => exact Nat.le_refl _
  | label h hlen ht ih => omega

theorem LabelWalk.zero {name : List UInt8} (h : LabelWalk name i j) : byteAt name j = 0 := by
  induction h with
  | stop h => exact h
  | label h hlen ht ih => exact ih

/-- On a name without inner zeros the walk reaches the terminator exactly when the bytes are a
sequence of labels. -/
theorem labelWalk_iff (hs : ∀ c ∈ s, c ≠ 0) (hi : i ≤ s.length) :
    LabelWalk (s ++ [0]) i s.length ↔ LabelsFrom 0 (s.drop i) := by
  generalize hn : s.length - i = n
  induction n using Nat.strongRecOn generalizing i with
  | ind n ih =>
    rcases hi.eq_or_lt with rfl | hlt
    · rw [List.drop_length]
      exact iff_of_true (.stop (byteAt_name_ge (Nat.le_refl _))) trivial
    · have hbyte := byteAt_name_lt hlt
      have hne : byteAt (s ++ [0]) i ≠ 0 := by
        rw [hbyte]
        exact hs _ (List.getElem_mem hlt)
      have hdrop : (s.drop (i + 1)).length = s.length - (i + 1) := List.length_drop
      have hnext : ∀ h : i + s[i].toNat + 1 ≤ s.length, _ := fun h =>
        ih (s.length - (i + s[i].toNat + 1)) (by omega) h rfl
      rw [List.drop_eq_getElem_cons hlt, LabelsFrom, labelsFrom_iff_drop, List.drop_drop, hdrop]
      have hpos : i + 1 + s[i].toNat = i + s[i].toNat + 1 := by omega
      rw [hpos]
      constructor
      · intro h
        cases h with
        | stop h => exact absurd h hne
        | label h hlen ht =>
          rw [hbyte] at hlen ht
          have hle := ht.le
          exact ⟨hlen, by omega, (hnext hle).1 ht⟩
      · rintro ⟨hlen, hle, hrest⟩
        refine .label hne (by rw [hbyte]; exact hlen) ?_
        rw [hbyte]
        exact (hnext (by omega)).2 hrest

/-- A walk that ends on the terminator reads nothing behind it. -/
theorem labelReads_le {name : List UInt8} (h : LabelWalk name i j) (fuel : ℕ) :
    ∀ r ∈ labelReads name fuel i, r ≤ j := by
  induction fuel generalizing i with
  | zero =>
    intro r hr
    cases hr
  | succ fuel ih =>
    intro r hr
    rw [labelReads] at hr
    cases h with
    | stop h =>
      rw [if_pos h] at hr
      exact (List.mem_singleton.1 hr).le
    | label h hlen ht =>
      rw [if_neg h] at hr
      rcases List.mem_append.1 hr with hr | hr
      · obtain ⟨d, hd, rfl⟩ := List.mem_map.1 hr
        have hd := List.mem_range.1 hd
        have hle := ht.le
        omega
      · exact ih ht r hr

theorem wellFormedName_iff (hs : ∀ c ∈ s, c ≠ 0) :
    (∃ dlen, WellFormedName (s ++ [0]) dlen) ↔ s.length ≤ 254 ∧ LabelsFrom 0 s := by
  have hcstr : cstr (s ++ [0]) = s := cstr_append_zero hs
  constructor
  · rintro ⟨dlen, hlen, hwalk, -⟩
    rw [domainLen_eq_some, hcstr] at hlen
    obtain ⟨hle, rfl⟩ := hlen
    exact ⟨hle, (labelWalk_iff hs (Nat.zero_le _)).1 hwalk⟩
  · rintro ⟨hle, hlabels⟩
    have hwalk : LabelWalk (s ++ [0]) 0 s.length := (labelWalk_iff hs (Nat.zero_le _)).2 hlabels
    refine ⟨s.length + 1, domainLen_eq_some.2 ?_, hwalk, ?_⟩
    · rw [hcstr]
      exact ⟨hle, rfl⟩
    · intro fuel i hi
      exact Nat.lt_succ_of_le (labelReads_le hwalk fuel i hi)

end Walk

/-! From the datagram to the names. -/

section Datagram

variable {buf : List UInt8} {fuel p size : ℕ} {m : Message}

theorem labelsAt_terminator (hc : byteAt buf p = 0) (k n : ℕ) : LabelsAt buf p k n ↔ k = 0 := by
  have hnp : isPointer (byteAt buf p) ≠ true := by
    rw [hc]
    decide
  have hnl : ¬IsLabelByte (byteAt buf p) := fun h => ((isLabelByte_iff _).1 h).1 hc
  constructor
  · intro h
    cases h with
    | stop h => rfl
    | pointer h ht => exact absurd h hnp
    | length h hlen ht => rfl
    | octet h ht => exact absurd h hnl
  · rintro rfl
    exact .stop hc

theorem labelsAt_pointer (hc : isPointer (byteAt buf p) = true) (k n : ℕ) :
    LabelsAt buf p k n ↔
      LabelsAt buf (pointerTarget (byteAt buf p) (byteAt buf (p + 1))) k n := by
  have hnl : ¬IsLabelByte (byteAt buf p) := by
    intro h
    rw [((isLabelByte_iff _).1 h).2] at hc
    cases hc
  constructor
  · intro h
    cases h with
    | stop h =>
      rw [h] at hc
      cases hc
    | pointer h ht => exact ht
    | length h hlen ht => exact absurd h hnl
    | octet h ht => exact absurd h hnl
  · exact .pointer hc

theorem labelsAt_label (hc : IsLabelByte (byteAt buf p)) (k n : ℕ) :
    LabelsAt buf p k n ↔ 0 < n ∧
      match k with
      | 0 => (byteAt buf p).toNat ≤ 63 ∧ LabelsAt buf (p + 1) (byteAt buf p).toNat (n - 1)
      | k + 1 => LabelsAt buf (p + 1) k (n - 1) := by
  obtain ⟨hc0, hcp⟩ := (isLabelByte_iff _).1 hc
  constructor
  · intro h
    cases h with
    | stop h => exact absurd h hc0
    | pointer h ht =>
      rw [h] at hcp
      cases hcp
    | length h hlen ht => exact ⟨Nat.succ_pos _, hlen, ht⟩
    | octet h ht => exact ⟨Nat.succ_pos _, ht⟩
  · rintro ⟨hn, h⟩
    obtain ⟨n, rfl⟩ : ∃ l, n = l + 1 := ⟨n - 1, by omega⟩
    cases k with
    | zero => exact .length hc h.1 h.2
    | succ k => exact .octet hc h

/-- What `read_domain` copies from `p` is decided by the walk over the datagram. -/
theorem labelsAt_iff {dest : List UInt8} {offset : ℕ}
    (h : (readDomain buf fuel p).result = some (dest, offset)) (k n : ℕ) :
    LabelsAt buf p k n ↔ dest.length ≤ n ∧ LabelsFrom k dest := by
  induction fuel generalizing p dest offset k n with
  | zero => cases h
  | succ fuel ih =>
    rcases byte_cases (byteAt buf p) with hc | hc | hc
    · rw [readDomain_terminator hc] at h
      cases h
      rw [labelsAt_terminator hc]
      cases k <;> simp [LabelsFrom]
    · rw [readDomain_pointer hc] at h
      simp only [result_bind, result_load, Option.bind_some, Option.bind_eq_some_iff,
        result_pure, Option.some.injEq, Prod.mk.injEq, Prod.exists] at h
      obtain ⟨d, o, hr, rfl, -⟩ := h
      rw [labelsAt_pointer hc, ih hr]
    · rw [readDomain_label hc] at h
      simp only [result_bind, result_load, Option.bind_some, Option.bind_eq_some_iff,
        result_pure, Option.some.injEq, Prod.mk.injEq, Prod.exists] at h
      obtain ⟨d, o, hr, rfl, -⟩ := h
      rw [labelsAt_label hc, List.length_cons]
      cases k with
      | zero =>
        dsimp only
        rw [ih hr, LabelsFrom]
        constructor
        · rintro ⟨hn, hlen, hle, hlabels⟩
          exact ⟨by omega, hlen, hlabels⟩
        · rintro ⟨hle, hlen, hlabels⟩
          exact ⟨by omega, hlen, by omega, hlabels⟩
      | succ k =>
        dsimp only
        rw [ih hr, LabelsFrom]
        constructor
        · rintro ⟨hn, hle, hlabels⟩
          exact ⟨by omega, hlabels⟩
        · rintro ⟨hle, hlabels⟩
          exact ⟨by omega, by omega, hlabels⟩

/-- A name that was read at `p`. -/
def ReadAt (buf : List UInt8) (fuel p : ℕ) (name : List UInt8) : Prop :=
  ∃ dest offset, (readDomain buf fuel p).result = some (dest, offset) ∧ name = dest ++ [0]

/-- It is well formed exactly when the datagram has labels there. -/
theorem ReadAt.wellFormedName_iff {name : List UInt8} (h : ReadAt buf fuel p name) :
    (∃ dlen, WellFormedName name dlen) ↔ LabelsAt buf p 0 254 := by
  obtain ⟨dest, offset, hread, rfl⟩ := h
  have hnz : ∀ c ∈ dest, c ≠ 0 := fun c hc =>
    ((isLabelByte_iff c).1 (readDomain_isLabelByte hread c hc)).1
  rw [BakaDns.wellFormedName_iff hnz, labelsAt_iff hread]

theorem msgQuestionFromBuf_readAt {q : MessageQuestion} {e : ℕ}
    (h : (msgQuestionFromBuf fuel buf p).result = some (q, e)) : ReadAt buf fuel p q.qname := by
  simp only [msgQuestionFromBuf, result_bind, Option.bind_eq_some_iff, result_pure,
    Option.some.injEq, Prod.mk.injEq, Prod.exists] at h
  obtain ⟨dest, offset, hname, qtype, -, qclass, -, rfl, -⟩ := h
  exact ⟨dest, offset, hname, rfl⟩

theorem msgRrFromBuf_readAt {rr : ResourceRecord} {e : ℕ}
    (h : (msgRrFromBuf fuel buf p).result = some (rr, e)) : ReadAt buf fuel p rr.name := by
  simp only [msgRrFromBuf, result_bind, Option.bind_eq_some_iff, result_pure, Option.some.injEq,
    Prod.mk.injEq, Prod.exists] at h
  obtain ⟨dest, offset, hname, type, -, rrclass, -, ttl, -, rdlength, -, rrbuf, -, rfl, -⟩ := h
  exact ⟨dest, offset, hname, rfl⟩

/-- The names of a decoded message, in the order in which they stand in the datagram. -/
theorem messageFromBuf_names
    (h : (messageFromBuf fuel buf size Message.zero).result = some (1, m)) :
    List.Forall₂ (ReadAt buf fuel) (namePositions buf) m.names := by
  have hq := fun n p r => @result_msgQuestionFromBuf buf n p r
  have hr := fun n p r => @result_msgRrFromBuf buf n p r
  rw [messageFromBuf] at h
  split at h
  · cases h
  · rw [result_bind, result_msgHeaderFromBuf, Option.bind_some] at h
    split at h
    · cases h
    · simp only [result_bind, result_pure, Option.bind_eq_some_iff, Option.some.injEq,
        Prod.mk.injEq, true_and, Message.zero, setSection_nil] at h
      obtain ⟨⟨question, p₁⟩, hquestion, ⟨answer, p₂⟩, hanswer, ⟨authority, p₃⟩, hauthority,
        ⟨addition, p₄⟩, haddition, rfl⟩ := h
      obtain rfl := result_repeatRead hq hquestion
      obtain rfl := result_repeatRead hr hanswer
      obtain rfl := result_repeatRead hr hauthority
      have hrecords : ∀ {k p : ℕ} {rs : List ResourceRecord × ℕ},
          (repeatRead (msgRrFromBuf fuel buf) k p).result = some rs →
          List.Forall₂ (ReadAt buf fuel) (repeatItems (fun p => [p]) (recordEnd buf) k p)
            (rs.1.map ResourceRecord.name) := by
        intro k p rs hrs
        rw [List.forall₂_map_right_iff]
        refine (forall₂_result_repeatRead hr hrs).imp fun q rr hread => ?_
        obtain ⟨e, he⟩ := hread
        exact msgRrFromBuf_readAt he
      simp only [Message.names, reduceOption_map_some]
      refine List.rel_append ?_ (List.rel_append (hrecords hanswer)
        (List.rel_append (hrecords hauthority) (hrecords haddition)))
      rw [List.forall₂_map_right_iff]
      refine (forall₂_result_repeatRead hq hquestion).imp fun q question hread => ?_
      obtain ⟨e, he⟩ := hread
      exact msgQuestionFromBuf_readAt he

/-- Every question name and record name of a decoded message is well formed exactly when the
datagram has well-formed labels wherever a question or record starts. -/
theorem messageFromBuf_wellFormed_iff (fuel : ℕ) (buf : List UInt8) (size : ℕ) (m : Message)
    (h : (messageFromBuf fuel buf size Message.zero).result = some (1, m)) :
    (∀ name ∈ m.names, ∃ dlen, WellFormedName name dlen) ↔
      ∀ p ∈ namePositions buf, LabelsAt buf p 0 254 := by
  have hnames := messageFromBuf_names h
  generalize namePositions buf = ps at hnames
  generalize m.names = names at hnames
  induction hnames with
  | nil => exact iff_of_true (List.forall_mem_nil _) (List.forall_mem_nil _)
  | cons hread _ ih =>
    rw [List.forall_mem_cons, List.forall_mem_cons]
    exact and_congr hread.wellFormedName_iff ih

/-- A query whose label promises five bytes and has one. -/
def shortLabel : List UInt8 :=
  [0x12, 0x34, 1, 0, 0, 1, 0, 0, 0, 0, 0, 0, 5, 97, 0, 0, 1, 0, 1]

def shortLabelMessage : Message where
  header := ⟨0x1234, 1, 0, 1, 0, 0, 0⟩
  question := [some ⟨[5, 97, 0], rrtypeA, rrclassIn⟩]
  answer := []
  authority := []
  addition := []

/-- It is decoded without an error. -/
theorem shortLabel_not_wellFormed :
    (messageFromBuf 4 shortLabel 19 Message.zero).result = some (1, shortLabelMessage) ∧
      ¬ ∀ name ∈ shortLabelMessage.names, ∃ dlen, WellFormedName name dlen := by
  refine ⟨by decide +kernel, fun h => ?_⟩
  have hname := h [5, 97, 0] List.mem_cons_self
  have hlabels := ((wellFormedName_iff (s := [5, 97]) (by simp)).1 hname).2
  simp [LabelsFrom] at hlabels

/-- The same query with its label in order. -/
def goodLabel : List UInt8 :=
  [0x12, 0x34, 1, 0, 0, 1, 0, 0, 0, 0, 0, 0, 1, 97, 0, 0, 1, 0, 1]

theorem messageFromBuf_wellFormed_iff_goodLabel :
    ∃ m, (messageFromBuf 4 goodLabel 19 Message.zero).result = some (1, m) ∧
      ∀ name ∈ m.names, ∃ dlen, WellFormedName name dlen := by
  have hdec : (messageFromBuf 4 goodLabel 19 Message.zero).result =
      some (1, ⟨⟨0x1234, 1, 0, 1, 0, 0, 0⟩, [some ⟨[1, 97, 0], rrtypeA, rrclassIn⟩],
        [], [], []⟩) := by
    decide +kernel
  refine ⟨_, hdec, (messageFromBuf_wellFormed_iff 4 goodLabel 19 _ hdec).2 ?_⟩
  have hpos : namePositions goodLabel = [12] := by decide +kernel
  rw [hpos]
  intro p hp
  obtain rfl := List.mem_singleton.1 hp
  have hlabel : ∀ c : UInt8, c ≠ 0 → isPointer c = false → IsLabelByte c := fun c h0 hp =>
    (isLabelByte_iff c).2 ⟨h0, hp⟩
  exact .length (hlabel _ (by decide) (by decide)) (by decide)
    (.octet (hlabel _ (by decide) (by decide)) (.stop (by decide)))

end Datagram

end BakaDns
