import BakaDns.Forwarding
import BakaDns.Lib.Blocks

/-!
# The blocks of a message

What `message_from_buf` and the EDNS part of `send_question` allocate, and what `free_heap_message`
gives back. The pointers of a message are kept beside its values.
-/

namespace BakaDns
open Blocks ReadTrace

/-- A question that was decoded or copied has a name. -/
structure QuestionPtrs where
  qname : Addr

structure RecordPtrs where
  name : Ptr
  rdata : Ptr

/-- A section: NULL, or its array with the pointers to its entries. -/
abbrev SectionPtrs (α : Type) := Option (Addr × List (Option (Addr × α)))

structure MessagePtrs where
  question : SectionPtrs QuestionPtrs
  answer : SectionPtrs RecordPtrs
  authority : SectionPtrs RecordPtrs
  addition : SectionPtrs RecordPtrs

def RecordPtrs.null : RecordPtrs := ⟨none, none⟩

def MessagePtrs.null : MessagePtrs := ⟨none, none, none, none⟩

/-! What is freed. -/

/-- `free_heap_message_question`. -/
def QuestionPtrs.free (q : QuestionPtrs) : Mem Fault Unit := Blocks.free q.qname

/-- `free_heap_resource_record`. -/
def RecordPtrs.free (r : RecordPtrs) : Mem Fault RecordPtrs := do
  freePtr r.name
  freePtr r.rdata
  pure RecordPtrs.null

/-- The loop of `free_heap_message` over the entries of a section. It ends at a NULL entry. -/
def freeEntries {α β : Type} (freeEntry : α → Mem Fault β) :
    ℕ → List (Option (Addr × α)) → Mem Fault Unit
  | 0, _ => pure ()
  | n + 1, some (entry, x) :: cells => do
    let _ ← freeEntry x
    free entry
    freeEntries freeEntry n cells
  | _ + 1, none :: _ => pure ()
  | _ + 1, [] => lift (.error .crash)

/-- What `free_heap_message` does with one section, whose array may be NULL. -/
def freeSection {α β : Type} (freeEntry : α → Mem Fault β) (count : UInt16) :
    SectionPtrs α → Mem Fault (SectionPtrs α)
  | none => pure none
  | some (array, cells) => do
    freeEntries freeEntry count.toNat cells
    free array
    pure none

/-- `free_heap_message`. -/
def MessagePtrs.free (header : MessageHeader) (m : MessagePtrs) : Mem Fault MessagePtrs := do
  let question ← freeSection QuestionPtrs.free header.qdcount m.question
  let answer ← freeSection RecordPtrs.free header.ancount m.answer
  let authority ← freeSection RecordPtrs.free header.nscount m.authority
  let addition ← freeSection RecordPtrs.free header.arcount m.addition
  pure ⟨question, answer, authority, addition⟩

/-! What is allocated. -/

/-- `msg_question_from_buf` allocates the name. -/
def mallocQuestion (_ : MessageQuestion) : Mem Fault QuestionPtrs := do
  let qname ← malloc
  pure ⟨qname⟩

/-- `msg_rr_from_buf` allocates the name and the data. -/
def mallocRecord (rr : ResourceRecord) : Mem Fault RecordPtrs := do
  let name ← malloc
  -- the case of MX has a `malloc` of its own, whose result is overwritten
  if rr.type = rrtypeMx then
    let _ ← malloc
  if rr.rdlength = 0 then pure ⟨some name, none⟩
  else
    let rdata ← malloc
    pure ⟨some name, some rdata⟩

/-- The loop of `message_from_buf` over the entries of a section. -/
def mallocEntries {α β : Type} (mallocEntry : α → Mem Fault β) :
    List α → Mem Fault (List (Option (Addr × β)))
  | [] => pure []
  | x :: xs => do
    let entry ← malloc
    let ptrs ← mallocEntry x
    let cells ← mallocEntries mallocEntry xs
    pure (some (entry, ptrs) :: cells)

/-- One section of `message_from_buf`: without entries its pointer stays as it was. -/
def mallocSection {α β : Type} (mallocEntry : α → Mem Fault β) (count : UInt16)
    (entries : List (Option α)) (old : SectionPtrs β) : Mem Fault (SectionPtrs β) :=
  if count = 0 then pure old
  else do
    let array ← malloc
    let cells ← mallocEntries mallocEntry (entries.take count.toNat).reduceOption
    pure (some (array, cells))

/-- What `message_from_buf` allocates for the message that it leaves with the return value `ret`. -/
def mallocMessage (ret : ℤ) (msg : Message) (m : MessagePtrs) : Mem Fault MessagePtrs :=
  if ret < 0 then pure m
  else do
    let question ← mallocSection mallocQuestion msg.header.qdcount msg.question m.question
    let answer ← mallocSection mallocRecord msg.header.ancount msg.answer m.answer
    let authority ← mallocSection mallocRecord msg.header.nscount msg.authority m.authority
    let addition ← mallocSection mallocRecord msg.header.arcount msg.addition m.addition
    pure ⟨question, answer, authority, addition⟩

/-- What the EDNS part of `send_question` does to the additional section of `req`: the new array
takes over the entries of the old one. -/
def addOptBlocks (req : Message) (m : MessagePtrs) : Mem Fault MessagePtrs := do
  match ← lift (findOpt req.header.arcount.toNat req.addition) with
  | some _ => pure m
  | none =>
    let array ← malloc
    let cells := (m.addition.map Prod.snd).getD []
    freePtr (m.addition.map Prod.fst)
    let entry ← malloc
    let name ← malloc
    pure { m with
      addition := some (array, cells.take req.header.arcount.toNat ++
        [some (entry, ⟨some name, none⟩)]) }

/-! The blocks that these pointers point to. -/

section Owned

variable {α : Type} {count : UInt16}

def QuestionPtrs.blocks (q : QuestionPtrs) : Multiset Addr := {q.qname}

def RecordPtrs.blocks (r : RecordPtrs) : Multiset Addr := ptrBlocks r.name + ptrBlocks r.rdata

def cellBlocks (blocks : α → Multiset Addr) : Option (Addr × α) → Multiset Addr
  | none => 0
  | some (entry, x) => {entry} + blocks x

def sectionBlocks (blocks : α → Multiset Addr) : SectionPtrs α → Multiset Addr
  | none => 0
  | some (array, cells) => {array} + (cells.map (cellBlocks blocks)).sum

@[simp]
theorem sectionBlocks_none (blocks : α → Multiset Addr) :
    sectionBlocks blocks (none : SectionPtrs α) = 0 := rfl

def MessagePtrs.blocks (m : MessagePtrs) : Multiset Addr :=
  sectionBlocks QuestionPtrs.blocks m.question + (sectionBlocks RecordPtrs.blocks m.answer +
    (sectionBlocks RecordPtrs.blocks m.authority + sectionBlocks RecordPtrs.blocks m.addition))

/-- What `free_heap_message` relies on: the array has as many entries as the header says, and none
of them is NULL. -/
def IsCounted (count : UInt16) (s : SectionPtrs α) : Prop :=
  ∀ array cells, s = some (array, cells) →
    ∃ es : List (Addr × α), cells = es.map some ∧ es.length = count.toNat

structure MessagePtrs.Counted (m : MessagePtrs) (header : MessageHeader) : Prop where
  question : IsCounted header.qdcount m.question
  answer : IsCounted header.ancount m.answer
  authority : IsCounted header.nscount m.authority
  addition : IsCounted header.arcount m.addition

/-- The pointers to a section with the entries `xs`, which the header counts. -/
inductive IsSection {β : Type} (count : UInt16) (xs : List (Option β)) : SectionPtrs α → Prop
  | null (hxs : xs = []) : IsSection count xs none
  | array {a : Addr} {es : List (Addr × α)} (hlen : es.length = count.toNat)
      (hxs : xs.length = count.toNat) : IsSection count xs (some (a, es.map some))

/-- The pointers of the message `msg`. -/
structure MessagePtrs.Of (m : MessagePtrs) (msg : Message) : Prop where
  question : IsSection msg.header.qdcount msg.question m.question
  answer : IsSection msg.header.ancount msg.answer m.answer
  authority : IsSection msg.header.nscount msg.authority m.authority
  addition : IsSection msg.header.arcount msg.addition m.addition

theorem isCounted_none : IsCounted count (none : SectionPtrs α) := by
  intro array cells h
  cases h

theorem isCounted_some {array : Addr} {es : List (Addr × α)} (hlen : es.length = count.toNat) :
    IsCounted count (some (array, es.map some)) := by
  intro array' cells h
  cases h
  exact ⟨es, rfl, hlen⟩

theorem IsSection.isCounted {β : Type} {xs : List (Option β)} {s : SectionPtrs α}
    (h : IsSection count xs s) : IsCounted count s := by
  cases h with
  | null => exact isCounted_none
  | array hlen => exact isCounted_some hlen

theorem MessagePtrs.Of.counted {m : MessagePtrs} {msg : Message} (h : m.Of msg) :
    m.Counted msg.header :=
  ⟨h.question.isCounted, h.answer.isCounted, h.authority.isCounted, h.addition.isCounted⟩

/-- A section has pointers to as many entries as it has entries. -/
theorem IsSection.length_ptrs {β : Type} {xs : List (Option β)} {s : SectionPtrs α}
    (h : IsSection count xs s) :
    (((s.map Prod.snd).getD []).reduceOption.map Prod.snd).length = xs.length := by
  cases h with
  | null hxs =>
    rw [hxs]
    rfl
  | @array a es hlen hxs =>
    change ((es.map some).reduceOption.map Prod.snd).length = xs.length
    rw [List.length_map, reduceOption_map_some, hlen, hxs]

/-- A message without arrays, whatever its header says. -/
theorem MessagePtrs.null_of (header : MessageHeader) :
    MessagePtrs.null.Of { Message.zero with header := header } :=
  ⟨.null rfl, .null rfl, .null rfl, .null rfl⟩

@[simp]
theorem MessagePtrs.blocks_null : MessagePtrs.null.blocks = 0 := rfl

end Owned

/-! `free_heap_message` gives back exactly the blocks of the message. -/

section Freeing

variable {α β : Type} {count : UInt16} {freeEntry : α → Mem Fault β} {blocks : α → Multiset Addr}
  {null : β}

theorem QuestionPtrs.frees (q : QuestionPtrs) : Frees q.free q.blocks () := frees_free q.qname

theorem RecordPtrs.frees (r : RecordPtrs) : Frees r.free r.blocks RecordPtrs.null := by
  have h : Frees r.free (ptrBlocks r.name + (ptrBlocks r.rdata + 0)) RecordPtrs.null :=
    (frees_freePtr r.name).bind ((frees_freePtr r.rdata).bind (frees_pure _))
  rwa [add_zero] at h

theorem frees_entries (hentry : ∀ x, Frees (freeEntry x) (blocks x) null)
    (es : List (Addr × α)) :
    Frees (freeEntries freeEntry es.length (es.map some))
      ((es.map some).map (cellBlocks blocks)).sum () := by
  induction es with
  | nil => exact frees_pure ()
  | cons e es ih =>
    obtain ⟨entry, x⟩ := e
    have h : Frees (freeEntries freeEntry (es.length + 1) (some (entry, x) :: es.map some))
        (blocks x + ({entry} + ((es.map some).map (cellBlocks blocks)).sum)) () :=
      (hentry x).bind ((frees_free entry).bind ih)
    rwa [← add_assoc, add_comm (blocks x)] at h

theorem frees_section (hentry : ∀ x, Frees (freeEntry x) (blocks x) null) {s : SectionPtrs α}
    (hs : IsCounted count s) :
    Frees (freeSection freeEntry count s) (sectionBlocks blocks s) none := by
  cases s with
  | none => exact frees_pure none
  | some s =>
    obtain ⟨a, cells⟩ := s
    obtain ⟨es, rfl, hlen⟩ := hs a cells rfl
    have h : Frees (freeSection freeEntry count (some (a, es.map some)))
        (((es.map some).map (cellBlocks blocks)).sum + ({a} + 0)) none := by
      refine Frees.bind (r := ()) ?_ ((frees_free a).bind (frees_pure none))
      rw [← hlen]
      exact frees_entries hentry es
    rwa [add_zero, add_comm] at h

theorem MessagePtrs.Counted.frees {m : MessagePtrs} {header : MessageHeader}
    (hm : m.Counted header) : Frees (m.free header) m.blocks MessagePtrs.null := by
  have haddition : Frees (do
      let addition ← freeSection RecordPtrs.free header.arcount m.addition
      pure (⟨none, none, none, addition⟩ : MessagePtrs))
      (sectionBlocks RecordPtrs.blocks m.addition + 0) MessagePtrs.null :=
    (frees_section RecordPtrs.frees hm.addition).bind (frees_pure _)
  rw [add_zero] at haddition
  exact (frees_section QuestionPtrs.frees hm.question).bind
    ((frees_section RecordPtrs.frees hm.answer).bind
      ((frees_section RecordPtrs.frees hm.authority).bind haddition))

theorem MessagePtrs.Of.frees {m : MessagePtrs} {msg : Message} (hm : m.Of msg) :
    Frees (m.free msg.header) m.blocks MessagePtrs.null := hm.counted.frees

end Freeing

/-! What decoding leaves: the blocks of the message, and one more for every MX record. -/

section Allocating

variable {α β : Type} {mallocEntry : α → Mem Fault β} {blocks : β → Multiset Addr}
  {lost : α → ℕ}

/-- The data of a record that `malloc` is called for twice. -/
def lostBlocks (rr : ResourceRecord) : ℕ := if rr.type = rrtypeMx then 1 else 0

theorem turns_mallocQuestion (q : MessageQuestion) (s : Multiset Addr) :
    Turns (mallocQuestion q) s fun ptrs s' => HandsOut ptrs.blocks 0 s s' := by
  refine (turns_malloc fun a _ => handsOut_one a s).bind fun a s' h => turns_pure ?_
  exact h

theorem turns_mallocRecord (rr : ResourceRecord) (s : Multiset Addr) :
    Turns (mallocRecord rr) s fun ptrs s' => HandsOut ptrs.blocks (lostBlocks rr) s s' := by
  refine (turns_malloc fun name _ => handsOut_one name s).bind fun name s₁ hname => ?_
  -- after the case of MX, with its block among the lost ones
  have hdata : ∀ s₂, HandsOut {name} (lostBlocks rr) s s₂ →
      Turns (if rr.rdlength = 0 then pure ⟨some name, none⟩
        else do
          let rdata ← malloc
          pure ⟨some name, some rdata⟩ : Mem Fault RecordPtrs) s₂
        fun ptrs s' => HandsOut ptrs.blocks (lostBlocks rr) s s' := by
    intro s₂ h₂
    split
    · exact turns_pure (h₂.of_eq (add_zero _).symm rfl)
    · refine (turns_malloc fun rdata _ => handsOut_one rdata s₂).bind fun rdata s₃ h₃ => ?_
      exact turns_pure (h₂.trans h₃)
  by_cases hmx : rr.type = rrtypeMx
  · rw [if_pos hmx]
    refine (turns_malloc fun a _ => handsOut_one a s₁).bind fun a s₂ h₂ => hdata s₂ ?_
    have h := (hname.trans h₂).drop
    rwa [lostBlocks, if_pos hmx]
  · rw [if_neg hmx]
    refine hdata s₁ ?_
    rwa [lostBlocks, if_neg hmx]

theorem turns_mallocEntries (hentry : ∀ x s, Turns (mallocEntry x) s fun ptrs s' =>
      HandsOut (blocks ptrs) (lost x) s s') (xs : List α) (s : Multiset Addr) :
    Turns (mallocEntries mallocEntry xs) s fun cells s' =>
      ∃ es : List (Addr × β), cells = es.map some ∧ es.length = xs.length ∧
        HandsOut (cells.map (cellBlocks blocks)).sum (xs.map lost).sum s s' := by
  induction xs generalizing s with
  | nil => exact turns_pure ⟨[], rfl, rfl, HandsOut.refl s⟩
  | cons x xs ih =>
    refine (turns_malloc fun a _ => handsOut_one a s).bind fun a s₁ h₁ => ?_
    refine (hentry x s₁).bind fun ptrs s₂ h₂ => (ih s₂).bind fun cells s₃ h₃ => ?_
    obtain ⟨es, rfl, hlen, h₃⟩ := h₃
    refine turns_pure ⟨(a, ptrs) :: es, rfl, congrArg (· + 1) hlen, ?_⟩
    exact ((h₁.trans h₂).trans h₃).of_eq rfl (by rw [zero_add]; rfl)

theorem turns_mallocSection (hentry : ∀ x s, Turns (mallocEntry x) s fun ptrs s' =>
      HandsOut (blocks ptrs) (lost x) s s') {count : UInt16} {xs : List α}
    (hcount : count.toNat = xs.length) (s : Multiset Addr) :
    Turns (mallocSection mallocEntry count (xs.map some) none) s fun ptrs s' =>
      IsSection count (xs.map some) ptrs ∧
        HandsOut (sectionBlocks blocks ptrs) (xs.map lost).sum s s' := by
  unfold mallocSection
  split
  · next hzero =>
    obtain rfl : xs = [] := by
      rw [hzero] at hcount
      exact List.length_eq_zero_iff.1 hcount.symm
    exact turns_pure ⟨.null rfl, HandsOut.refl s⟩
  · have htake : ((xs.map some).take count.toNat).reduceOption = xs := by
      rw [List.take_of_length_le (by rw [List.length_map, hcount]), reduceOption_map_some]
    rw [htake]
    refine (turns_malloc fun a _ => handsOut_one a s).bind fun a s₁ h₁ => ?_
    refine (turns_mallocEntries hentry xs s₁).bind fun cells s₂ h₂ => ?_
    obtain ⟨es, rfl, hlen, h₂⟩ := h₂
    refine turns_pure ⟨.array (hlen.trans hcount.symm) ?_, (h₁.trans h₂).of_eq rfl (zero_add _)⟩
    rw [List.length_map, hcount]

/-- One block is lost for each of these. -/
def mxRecords (msg : Message) : ℕ :=
  (msg.answer ++ (msg.authority ++ msg.addition)).reduceOption.countP fun rr => rr.type = rrtypeMx

theorem sum_lostBlocks (rrs : List ResourceRecord) :
    (rrs.map lostBlocks).sum = rrs.countP fun rr => rr.type = rrtypeMx := by
  induction rrs with
  | nil => rfl
  | cons rr rrs ih =>
    rw [List.map_cons, List.sum_cons, List.countP_cons, ih, add_comm]
    simp [lostBlocks]

theorem mxRecords_of_holds {msg : Message} {secs : Sections} (hmsg : msg.Holds secs) :
    mxRecords msg = (secs.answer.map lostBlocks).sum + (secs.authority.map lostBlocks).sum +
      (secs.addition.map lostBlocks).sum := by
  rw [mxRecords, hmsg.answer, hmsg.authority, hmsg.addition, ← List.map_append, ← List.map_append,
    reduceOption_map_some, List.countP_append, List.countP_append, sum_lostBlocks, sum_lostBlocks, sum_lostBlocks,
    add_assoc]

theorem turns_mallocMessage {msg : Message} {secs : Sections} (hmsg : msg.Holds secs) {ret : ℤ}
    (hret : ¬ret < 0) (s : Multiset Addr) :
    Turns (mallocMessage ret msg MessagePtrs.null) s fun m s' =>
      m.Of msg ∧ HandsOut m.blocks (mxRecords msg) s s' := by
  rw [mxRecords_of_holds hmsg, mallocMessage, if_neg hret, hmsg.question, hmsg.answer,
    hmsg.authority, hmsg.addition]
  refine (turns_mallocSection turns_mallocQuestion hmsg.qdcount s).bind fun q s₁ hq => ?_
  refine (turns_mallocSection turns_mallocRecord hmsg.ancount s₁).bind fun an s₂ han => ?_
  refine (turns_mallocSection turns_mallocRecord hmsg.nscount s₂).bind fun ns s₃ hns => ?_
  refine (turns_mallocSection turns_mallocRecord hmsg.arcount s₃).bind fun ar s₄ har => ?_
  refine turns_pure ⟨⟨?_, ?_, ?_, ?_⟩, ?_⟩
  · exact hmsg.question ▸ hq.1
  · exact hmsg.answer ▸ han.1
  · exact hmsg.authority ▸ hns.1
  · exact hmsg.addition ▸ har.1
  · refine (((hq.2.trans han.2).trans hns.2).trans har.2).of_eq ?_ ?_
    · simp only [MessagePtrs.blocks, add_assoc]
    · simp

/-- The same for whatever `message_from_buf` leaves. A message that it refuses has no arrays. -/
theorem turns_mallocDecoded {fuel size : ℕ} {buf : List UInt8} {header : MessageHeader} {ret : ℤ}
    {msg : Message}
    (h : (messageFromBuf fuel buf size { Message.zero with header := header }).result =
      some (ret, msg)) (s : Multiset Addr) :
    Turns (mallocMessage ret msg MessagePtrs.null) s fun m s' =>
      m.Of msg ∧ (ret < 0 → m = MessagePtrs.null) ∧ HandsOut m.blocks (mxRecords msg) s s' := by
  by_cases hret : ret < 0
  · rw [mallocMessage, if_pos hret]
    have hmsg : msg = { Message.zero with header := msg.header } := by
      by_cases hsize : size < sizeofMessageHeader
      · rw [messageFromBuf_short hsize] at h
        cases h
        rfl
      · by_cases htc : tcOf (headerAt buf).misc1 = 0
        · have hone := messageFromBuf_ret hsize htc h
          omega
        · rw [messageFromBuf_truncated hsize htc] at h
          cases h
          rfl
    rw [hmsg]
    exact turns_pure ⟨MessagePtrs.null_of msg.header, fun _ => rfl, HandsOut.refl s⟩
  · obtain rfl : ret = 1 := messageFromBuf_ret_of_nonneg h hret
    obtain ⟨secs, hmsg, -, -⟩ := messageFromBuf_sections (messageFromBuf_setHeader h _)
    refine (turns_mallocMessage hmsg hret s).mono ?_
    rintro m s' ⟨hm, hout⟩
    exact ⟨hm, fun hneg => absurd hneg hret, hout⟩

end Allocating

/-! The EDNS part of `send_question`. -/

section Edns

variable {req : Message} {m : MessagePtrs}

theorem IsSection.of_length {α β γ : Type} {count : UInt16} {xs : List (Option β)}
    {ys : List (Option γ)} {s : SectionPtrs α} (h : IsSection count xs s)
    (hlen : ys.length = xs.length) : IsSection count ys s := by
  cases h with
  | null hxs => exact .null (List.length_eq_zero_iff.1 (by rw [hlen, hxs, List.length_nil]))
  | array hes hxs => exact .array hes (hlen.trans hxs)

/-- The entries of a section with as many of them as the header counts. -/
theorem IsSection.entries {α β : Type} {count : UInt16} {xs : List (Option β)} {s : SectionPtrs α}
    (h : IsSection count xs s) (hcount : count.toNat ≤ xs.length)
    (blocks : α → Multiset Addr) :
    ∃ es : List (Addr × α), (s.map Prod.snd).getD [] = es.map some ∧
      es.length = count.toNat ∧ xs.length = count.toNat ∧
        sectionBlocks blocks s =
          ptrBlocks (s.map Prod.fst) + ((es.map some).map (cellBlocks blocks)).sum := by
  cases h with
  | null hxs =>
    have hzero : count.toNat = 0 := by
      rw [hxs] at hcount
      exact Nat.le_zero.1 hcount
    exact ⟨[], rfl, hzero.symm, by rw [hxs, hzero, List.length_nil], rfl⟩
  | @array a es hes hxs => exact ⟨es, rfl, hes, hxs, rfl⟩

/-- The additional section apart from the others. -/
theorem MessagePtrs.blocks_addition (m : MessagePtrs) (addition : SectionPtrs RecordPtrs) :
    ({ m with addition := addition } : MessagePtrs).blocks =
      sectionBlocks RecordPtrs.blocks addition +
        ({ m with addition := none } : MessagePtrs).blocks := by
  simp only [MessagePtrs.blocks, sectionBlocks]
  abel

/-- The search looked at as many records as the header counts. -/
theorem findOpt_length {n : ℕ} {rrs : List (Option ResourceRecord)}
    (h : findOpt n rrs = .ok none) : n ≤ rrs.length := by
  induction n generalizing rrs with
  | zero => exact Nat.zero_le _
  | succ n ih =>
    match rrs with
    | [] => cases h
    | none :: rrs => cases h
    | some rr :: rrs =>
      rw [findOpt] at h
      split at h
      · cases h
      · obtain ⟨i, hfind, h⟩ := bind_eq_ok.1 h
        cases i with
        | none => exact Nat.succ_le_succ (ih hfind)
        | some i => cases h

/-- Nothing is lost when the OPT record is added: a longer array takes the place of the old one. -/
theorem turns_addOptBlocks {sent : Message} (hm : m.Of req) (h : addOpt req = .ok sent)
    {s t : Multiset Addr} (hs : s = m.blocks + t) :
    Turns (addOptBlocks req m) s fun m' s' =>
      m'.Of sent ∧ s' = m'.blocks + t := by
  unfold addOptBlocks
  obtain ⟨found, hfind, h⟩ := bind_eq_ok.1 h
  refine turns_lift hfind ?_
  cases found with
  | some i =>
    cases h
    exact turns_pure ⟨⟨hm.question, hm.answer, hm.authority,
      hm.addition.of_length (List.length_modify ..)⟩, hs⟩
  | none =>
    dsimp only at h
    split at h
    · cases h
    · next hroom =>
      cases h
      have hcount : (req.header.arcount + 1).toNat = req.header.arcount.toNat + 1 := by
        rw [UInt16.toNat_add, UInt16.toNat_one]
        have hlt := req.header.arcount.toNat_lt
        omega
      obtain ⟨es, hcells, hes, hxs, hblocks⟩ :=
        hm.addition.entries (findOpt_length hfind) RecordPtrs.blocks
      have htake : (es.map some).take req.header.arcount.toNat = es.map some :=
        List.take_of_length_le (by rw [List.length_map, hes])
      rw [hcells]
      dsimp only
      rw [htake]
      refine (turns_malloc fun array _ => handsOut_one array s).bind fun array s₁ h₁ => ?_
      -- what is left when the old array is gone
      have hold : s₁ = ptrBlocks (m.addition.map Prod.fst) + ({array} +
          (((es.map some).map (cellBlocks RecordPtrs.blocks)).sum +
            ({ m with addition := none } : MessagePtrs).blocks + t)) := by
        rw [h₁.eq, hs, m.blocks_addition m.addition, hblocks]
        abel
      refine ((frees_freePtr _).turns hold).bind ?_
      rintro _ s₂ ⟨-, rfl⟩
      refine (turns_malloc fun entry _ => handsOut_one entry _).bind fun entry s₃ h₃ => ?_
      refine (turns_malloc fun name _ => handsOut_one name s₃).bind fun name s₄ h₄ => ?_
      have hnew : es.map some ++ [some (entry, (⟨some name, none⟩ : RecordPtrs))] =
          (es ++ [(entry, (⟨some name, none⟩ : RecordPtrs))]).map some := by
        rw [List.map_append, List.map_singleton]
      rw [hnew]
      refine turns_pure ⟨⟨hm.question, hm.answer, hm.authority, .array ?_ ?_⟩, ?_⟩
      · rw [hcount, List.length_append, hes, List.length_singleton]
      · rw [hcount, List.length_append, List.length_take, hxs, Nat.min_self]
        rfl
      · rw [(h₃.trans h₄).eq, ← hnew, m.blocks_addition (some (array, _))]
        simp only [sectionBlocks, cellBlocks, List.map_append, List.map_cons, List.map_nil,
          List.sum_append, List.sum_cons, List.sum_nil, RecordPtrs.blocks, ptrBlocks]
        abel

end Edns

/-! The life of a request. -/

section Life

variable {fuel size : ℕ} {buf : List UInt8} {ret : ℤ} {msg : Message} {sent : Option Message}

/-- A request from `message_from_buf` to `free_heap_message`, with or without the EDNS part of
`send_question` between them; then `free_heap_message` once more. -/
def requestBlocks (ret : ℤ) (msg : Message) (sent : Option Message) : Mem Fault MessagePtrs := do
  let m ← mallocMessage ret msg MessagePtrs.null
  match sent with
  | none =>
    let m ← m.free msg.header
    m.free msg.header
  | some sent =>
    let m ← addOptBlocks msg m
    let m ← m.free sent.header
    m.free sent.header

/-- The second call has nothing to free. -/
theorem MessagePtrs.Of.turns_free {m : MessagePtrs} (hm : m.Of msg) {s t : Multiset Addr}
    (hs : s = m.blocks + t) :
    Turns (do
      let m ← m.free msg.header
      m.free msg.header) s fun m' s' => m' = MessagePtrs.null ∧ s' = t := by
  refine (hm.frees.turns hs).bind ?_
  rintro _ s' ⟨rfl, rfl⟩
  exact (MessagePtrs.null_of msg.header).frees.turns (zero_add s').symm

/-- Every block of a decoded request is given back exactly once, those of the OPT record included,
and a second `free_heap_message` finds nothing to free. What stays behind is one block for every MX
record of the request. -/
theorem request_freed
    (h : (messageFromBuf fuel buf size Message.zero).result = some (ret, msg))
    (hsent : ∀ m ∈ sent, addOpt msg = .ok m) (s : Multiset Addr) :
    Turns (requestBlocks ret msg sent) s fun m s' => m = MessagePtrs.null ∧
      ∃ lost, s' = lost + s ∧ lost.card = mxRecords msg := by
  have hzero : (messageFromBuf fuel buf size
      { Message.zero with header := Message.zero.header }).result = some (ret, msg) := h
  refine (turns_mallocDecoded hzero s).bind ?_
  rintro m s₁ ⟨hm, -, lost, rfl, hlost⟩
  cases sent with
  | none =>
    refine (hm.turns_free rfl).mono ?_
    rintro m' s' ⟨rfl, rfl⟩
    exact ⟨rfl, lost, rfl, hlost⟩
  | some sent =>
    refine (turns_addOptBlocks hm (hsent sent rfl) rfl).bind ?_
    rintro m₂ s₂ ⟨hm₂, hs₂⟩
    refine (hm₂.turns_free hs₂).mono ?_
    rintro m' s' ⟨rfl, rfl⟩
    exact ⟨rfl, lost, rfl, hlost⟩

/-- A query with one MX record, whose exchange is the root, in its additional section. -/
def mxRequest : List UInt8 :=
  [0, 7, 1, 0, 0, 0, 0, 0, 0, 0, 0, 1] ++ [0, 0, 15, 0, 1, 0, 0, 0, 60, 0, 3, 0, 10, 0]

def mxMessage : Message :=
  ⟨⟨7, 1, 0, 0, 0, 0, 1⟩, [], [], [], [some ⟨[0], rrtypeMx, rrclassIn, 60, 3, [0, 10, 0]⟩]⟩

theorem request_freed_mx : ∃ sent,
    (messageFromBuf 5 mxRequest mxRequest.length Message.zero).result = some (1, mxMessage) ∧
      addOpt mxMessage = .ok sent ∧
        Turns (requestBlocks 1 mxMessage (some sent)) 0 fun m s => m = MessagePtrs.null ∧
          s.card = 1 := by
  have hdecodes : (messageFromBuf 5 mxRequest mxRequest.length Message.zero).result =
      some (1, mxMessage) := by decide +kernel
  refine ⟨_, hdecodes, rfl, ?_⟩
  refine (request_freed hdecodes (fun m hm => Option.mem_some_iff.1 hm ▸ rfl) 0).mono ?_
  rintro m s ⟨hm, lost, rfl, hlost⟩
  refine ⟨hm, ?_⟩
  rw [add_zero, hlost]
  decide +kernel

end Life

end BakaDns
