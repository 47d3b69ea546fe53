import BakaDns.Edns
import BakaDns.Forwarding
import BakaDns.Lib.Cursor

/-!
# How far the encoder writes

`message_to_u8` gets no size. Its entries go one behind the other, an overlong name moves the
cursor back, and names that were compressed in the datagram are written out in full.
-/

namespace BakaDns
open CBytes ReadTrace LinkedHeap

def udpBufferSize : ℕ := 4096

/-- What the encoder makes of a question; nothing for an overlong name. -/
def questionEntry (q : MessageQuestion) : Option (List UInt8) :=
  (domainLen q.qname).map fun _ => questionWire q

def rrEntry (rr : ResourceRecord) : Option (List UInt8) :=
  (domainLen rr.name).map fun _ => rrWire rr

/-- The size of a question on the wire; nothing for an overlong name. -/
def questionSize (q : MessageQuestion) : Option ℕ := (domainLen q.qname).map fun n => n + 4

def rrSize (rr : ResourceRecord) : Option ℕ :=
  (domainLen rr.name).map fun n => n + 10 + rr.rdlength.toNat

def Sections.entries (s : Sections) : List (Option (List UInt8)) :=
  s.question.map questionEntry ++ (s.answer.map rrEntry ++
    (s.authority.map rrEntry ++ s.addition.map rrEntry))

def Sections.sizes (s : Sections) : List (Option ℕ) :=
  s.question.map questionSize ++ (s.answer.map rrSize ++
    (s.authority.map rrSize ++ s.addition.map rrSize))

/-- The pointers of a record that the encoder follows: behind an overlong name it looks at nothing
more. -/
def ResourceRecord.Present (rr : ResourceRecord) : Prop :=
  rr.name ≠ [] ∧ (domainLen rr.name ≠ none → rr.rdlength ≠ 0 → rr.rdata ≠ [])

/-- No pointer that the encoder follows is NULL. -/
structure Sections.Present (s : Sections) : Prop where
  question : ∀ q ∈ s.question, q.qname ≠ []
  answer : ∀ rr ∈ s.answer, rr.Present
  authority : ∀ rr ∈ s.authority, rr.Present
  addition : ∀ rr ∈ s.addition, rr.Present

section Entries

theorem length_questionEntry (q : MessageQuestion) :
    (questionEntry q).map List.length = questionSize q := by
  cases h : domainLen q.qname with
  | none => simp [questionEntry, questionSize, h]
  | some n =>
    have hn := (domainLen_eq_some.1 h).2
    simp only [questionEntry, questionSize, h, Option.map_some, length_questionWire, hn]

theorem length_rrEntry (rr : ResourceRecord) : (rrEntry rr).map List.length = rrSize rr := by
  cases h : domainLen rr.name with
  | none => simp [rrEntry, rrSize, h]
  | some n =>
    have hn := (domainLen_eq_some.1 h).2
    simp only [rrEntry, rrSize, h, Option.map_some, length_rrWire, hn]

theorem length_entries (s : Sections) : s.entries.map (Option.map List.length) = s.sizes := by
  have hq : Option.map List.length ∘ questionEntry = questionSize := funext length_questionEntry
  have hrr : Option.map List.length ∘ rrEntry = rrSize := funext length_rrEntry
  simp only [Sections.entries, Sections.sizes, List.map_append, List.map_map, hq, hrr]

theorem entries_ne_nil (s : Sections) {bs : List UInt8} (h : some bs ∈ s.entries) : bs ≠ [] := by
  have hq : ∀ qs : List MessageQuestion, some bs ∈ qs.map questionEntry → bs ≠ [] := by
    intro qs hmem
    obtain ⟨q, -, hbs⟩ := List.mem_map.1 hmem
    obtain ⟨n, -, rfl⟩ := Option.map_eq_some_iff.1 hbs
    simp [questionWire]
  have hrr : ∀ rrs : List ResourceRecord, some bs ∈ rrs.map rrEntry → bs ≠ [] := by
    intro rrs hmem
    obtain ⟨rr, -, hbs⟩ := List.mem_map.1 hmem
    obtain ⟨n, -, rfl⟩ := Option.map_eq_some_iff.1 hbs
    simp [rrWire]
  simp only [Sections.entries, List.mem_append] at h
  rcases h with h | h | h | h
  · exact hq _ h
  · exact hrr _ h
  · exact hrr _ h
  · exact hrr _ h

theorem msgQuestionToU8_entry {q : MessageQuestion} (hq : q.qname ≠ []) (mem : Mem) (dest : ℤ) :
    msgQuestionToU8 q mem dest =
      .ok (advance (questionEntry q), writeEntries mem dest [questionEntry q]) := by
  cases h : domainLen q.qname with
  | none => simp [msgQuestionToU8, questionEntry, hq, h, advance, writeEntries]
  | some n =>
    rw [msgQuestionToU8_eq ⟨hq, by simp [h]⟩]
    simp [questionEntry, h, advance, writeEntries]

theorem msgRrToU8_entry {rr : ResourceRecord} (hrr : rr.Present) (mem : Mem) (dest : ℤ) :
    msgRrToU8 rr mem dest = .ok (advance (rrEntry rr), writeEntries mem dest [rrEntry rr]) := by
  cases h : domainLen rr.name with
  | none => simp [msgRrToU8, rrEntry, hrr.1, h, advance, writeEntries]
  | some n =>
    have hshort : domainLen rr.name ≠ none := by simp [h]
    rw [msgRrToU8_eq ⟨hrr.1, hshort, hrr.2 hshort⟩]
    simp [rrEntry, h, advance, writeEntries]

/-- One section, written at the cursor. -/
theorem sectionToU8_entries {α : Type} {toU8 : α → Mem → ℤ → Except Fault (ℤ × Mem)}
    {entry : α → Option (List UInt8)} {xs : List α}
    (h : ∀ x ∈ xs, ∀ mem dest,
      toU8 x mem dest = .ok (advance (entry x), writeEntries mem dest [entry x]))
    (mem : Mem) (dest : ℤ) :
    sectionToU8 toU8 xs.length (xs.map some) mem dest =
      .ok (true, writeEntries mem dest (xs.map entry), advances (xs.map entry)) := by
  induction xs generalizing mem dest with
  | nil => rfl
  | cons x xs ih =>
    have hx := h x List.mem_cons_self mem dest
    have hxs := ih fun y hy => h y (List.mem_cons_of_mem x hy)
    have hone : advances [entry x] = advance (entry x) := by simp [advances]
    have happ := writeEntries_append mem dest [entry x] (xs.map entry)
    rw [hone, List.singleton_append] at happ
    simp only [List.length_cons, List.map_cons, sectionToU8, hx, hxs, bind, Except.bind, pure,
      Except.pure, happ, advances, List.sum_cons]

/-- Everything `message_to_u8` writes, overlong names or not. -/
theorem messageToU8_entries {m : Message} {s : Sections} (hm : m.Holds s) (hs : s.Present)
    (mem : Mem) :
    messageToU8 m mem 0 = .ok ((12 + advances s.entries).bmod (2 ^ 32),
      writeEntries mem 0 (some (headerWire m.header) :: s.entries)) := by
  have hq := sectionToU8_entries fun q hq => msgQuestionToU8_entry (hs.question q hq)
  have han := sectionToU8_entries fun rr hrr => msgRrToU8_entry (hs.answer rr hrr)
  have hns := sectionToU8_entries fun rr hrr => msgRrToU8_entry (hs.authority rr hrr)
  have har := sectionToU8_entries fun rr hrr => msgRrToU8_entry (hs.addition rr hrr)
  simp only [messageToU8, msgHeaderToU8_eq, hm.question, hm.answer, hm.authority, hm.addition,
    hm.qdcount, hm.ancount, hm.nscount, hm.arcount, hq, han, hns, har, bind, Except.bind, pure,
    Except.pure, not_true_eq_false, if_false, Sections.entries, writeEntries, length_headerWire,
    writeEntries_append, advances_append, Nat.cast_ofNat, add_assoc]

/-- The encoder stays inside exactly when the entries have room behind the header. -/
theorem staysInside_iff {limit : ℕ} {m : Message} {s : Sections} (hlimit : 12 ≤ limit)
    (hm : m.Holds s) (hs : s.Present) : StaysInside limit m ↔ Inside limit 12 s.sizes := by
  have hne : ∀ bs, some bs ∈ some (headerWire m.header) :: s.entries → bs ≠ [] := by
    intro bs hbs
    rcases List.mem_cons.1 hbs with h | h
    · rw [Option.some.inj h]
      simp [headerWire]
    · exact entries_ne_nil s h
  have hiff := writeEntries_inside_iff limit 0 hne
  rw [List.map_cons, length_entries] at hiff
  have hheader : Inside limit 0 (some 12 :: s.sizes) ↔ Inside limit 12 s.sizes := by
    simp only [Inside, Nat.cast_ofNat, zero_add]
    exact and_iff_right ⟨le_refl _, by omega⟩
  rw [← hheader]
  refine Iff.trans ?_ hiff
  constructor
  · intro h mem
    exact h mem _ _ (messageToU8_entries hm hs mem)
  · intro h mem n mem' hmem
    rw [messageToU8_entries hm hs] at hmem
    rw [← (Prod.mk.inj (Except.ok.inj hmem)).2]
    exact h mem

end Entries

/-! The two calls of the encoder. -/

section Calls

variable {fuel now : ℕ} {db : BucketTree} {x : Exchange} {cache : RrCache} {query m : Message}
  {s : Sections} {b : List UInt8} {sendbuf : Mem} {r : ResolvResult}

theorem msgRrFromBuf_present {p e : ℕ} {rr : ResourceRecord}
    (h : (msgRrFromBuf fuel b p).result = some (rr, e)) :
    rr.Present := by
  simp only [msgRrFromBuf, result_bind, Option.bind_eq_some_iff, result_pure, Option.some.injEq,
    Prod.mk.injEq, Prod.exists] at h
  obtain ⟨dest, offset, -, type, -, rrclass, -, ttl, -, rdlength, -, rrbuf, -, rfl, -⟩ := h
  refine ⟨by simp, fun _ hlen hnil => hlen ?_⟩
  dsimp only at hlen hnil ⊢
  rcases List.take_eq_nil_iff.1 hnil with h0 | h0
  · exact UInt16.toNat_inj.1 h0
  · rw [h0]
    rfl

/-- A decoded message has no NULL in it. -/
theorem Sections.ReadFrom.present (hs : s.ReadFrom fuel b) : s.Present where
  question q hq := by
    obtain ⟨p, e, h⟩ := hs.question q hq
    simp only [msgQuestionFromBuf, result_bind, Option.bind_eq_some_iff, result_pure,
      Option.some.injEq, Prod.mk.injEq, Prod.exists] at h
    obtain ⟨dest, offset, -, qtype, -, qclass, -, rfl, -⟩ := h
    simp
  answer rr hrr := by
    obtain ⟨p, e, h⟩ := hs.answer rr hrr
    exact msgRrFromBuf_present h
  authority rr hrr := by
    obtain ⟨p, e, h⟩ := hs.authority rr hrr
    exact msgRrFromBuf_present h
  addition rr hrr := by
    obtain ⟨p, e, h⟩ := hs.addition rr hrr
    exact msgRrFromBuf_present h

/-- A call that returns with a reply of the external server encoded that reply, as it was
decoded, under the id of the query. -/
theorem resolvHandle_external (h : resolvHandle fuel now db x sendbuf cache query = .ok r)
    (hext : r.external = true) :
    ∃ b m, x.outcome = .datagram b ∧
      (messageFromBuf fuel (b.take clientBufferSize) (b.take clientBufferSize).length
        Message.zero).result = some (1, m) ∧ m.header.id = x.newId ∧
      ∀ sendbuf', resolvHandle fuel now db x sendbuf' cache query =
        messageToU8 (m.setId query.header.id) sendbuf' 0 >>= fun w =>
          .ok ⟨if w.1 < 0 then -1 else 1, r.cache, r.query, some (m.setId query.header.id), true,
            w.2, w.1⟩ := by
  rw [resolvHandle] at h
  split at h
  · cases h
    cases hext
  · next hqr =>
    obtain ⟨built, hbuild, h⟩ := bind_eq_ok.1 h
    obtain ⟨ans, hans, h⟩ := bind_eq_ok.1 h
    obtain ⟨w, hw, h⟩ := bind_eq_ok.1 h
    cases h
    have hfin : built.fin = .external := of_decide_eq_true hext
    have hsame := hbuild
    obtain ⟨⟨st, fin⟩, hlookup, hbuild⟩ := bind_eq_ok.1 hbuild
    cases fin with
    | found =>
      cases hbuild
      cases hfin
    | failure rcode =>
      cases hbuild
      cases hfin
    | external =>
      obtain ⟨sent, hsend, hbuild⟩ := bind_eq_ok.1 hbuild
      split at hbuild
      · cases hbuild
        cases hfin
      · next hret =>
        obtain ⟨answers, -, hbuild⟩ := bind_eq_ok.1 hbuild
        obtain ⟨cache', -, hbuild⟩ := bind_eq_ok.1 hbuild
        cases hbuild
        obtain ⟨b, m, hx, hdec, hid, hresp⟩ := sendQuestion_accepted rfl hsend hret
        refine ⟨b, m, hx, hdec, hid, fun sendbuf' => ?_⟩
        rw [resolvHandle, if_neg hqr, hsame, ← hresp]
        rfl

theorem Message.Holds.sections_eq {s' : Sections} (h : m.Holds s) (h' : m.Holds s') : s = s' := by
  have hinj : ∀ {α : Type} {xs ys : List α}, xs.map some = ys.map some → xs = ys :=
    fun hxy => (Option.some_injective _).list_map hxy
  obtain ⟨question, answer, authority, addition⟩ := s
  obtain ⟨question', answer', authority', addition'⟩ := s'
  obtain rfl : question = question' := hinj (h.question.symm.trans h'.question)
  obtain rfl : answer = answer' := hinj (h.answer.symm.trans h'.answer)
  obtain rfl : authority = authority' := hinj (h.authority.symm.trans h'.authority)
  obtain rfl : addition = addition' := hinj (h.addition.symm.trans h'.addition)
  rfl

/-- `resolv_handle` leaves everything outside of the UDP send buffer alone. -/
def ResolvStaysInside (fuel now : ℕ) (db : BucketTree) (x : Exchange) (cache : RrCache)
    (query : Message) : Prop :=
  ∀ sendbuf r, resolvHandle fuel now db x sendbuf cache query = .ok r →
    ∀ a, a < 0 ∨ (udpBufferSize : ℤ) ≤ a → r.sendbuf a = sendbuf a

theorem resolvStaysInside_iff (hx : x.outcome = .datagram b) (hsize : b.length ≤ clientBufferSize)
    (hdec : (messageFromBuf fuel b b.length Message.zero).result = some (1, m)) (hm : m.Holds s)
    (h : resolvHandle fuel now db x sendbuf cache query = .ok r) (hext : r.external = true) :
    ResolvStaysInside fuel now db x cache query ↔ Inside udpBufferSize 12 s.sizes := by
  obtain ⟨b', m', hx', hdec', -, hrun⟩ := resolvHandle_external h hext
  obtain rfl : b = b' := by
    rw [hx] at hx'
    exact Upstream.datagram.inj hx'
  rw [List.take_of_length_le hsize, hdec] at hdec'
  obtain rfl : m = m' := (Prod.mk.inj (Option.some.inj hdec')).2
  obtain ⟨s', hm', hs', -⟩ := messageFromBuf_sections hdec
  obtain rfl : s = s' := hm.sections_eq hm'
  rw [← staysInside_iff (by decide) (hm.setId query.header.id) hs'.present]
  constructor
  · intro hin mem n mem' hmem
    have hr := hrun mem
    rw [hmem] at hr
    exact hin mem _ hr
  · intro hin mem r' hr
    rw [hrun mem] at hr
    obtain ⟨w, hw, hr⟩ := bind_eq_ok.1 hr
    cases hr
    exact hin mem w.1 w.2 hw

/-- The size of the OPT record that is added. -/
def optSize (s : Sections) : List (Option ℕ) := if firstOpt s.addition = none then [some 11] else []

theorem sizes_withOpt (s : Sections) :
    (s.setAddition (withOpt setOptTtl s.addition)).sizes = s.sizes ++ optSize s := by
  have hset : ∀ rr, rrSize (setOptTtl rr) = rrSize rr := fun rr => rfl
  simp only [Sections.sizes, Sections.setAddition, optSize, List.append_assoc]
  cases h : firstOpt s.addition with
  | none =>
    rw [withOpt_of_none h, if_pos rfl, List.map_append]
    rfl
  | some opt =>
    obtain ⟨pre, post, hsplit, hwith⟩ := withOpt_of_some h
    rw [hwith, if_neg (Option.some_ne_none opt), hsplit]
    simp [hset]

theorem addOpt_holds {req sent : Message} (hm : req.Holds s) (h : addOpt req = .ok sent) :
    sent.Holds (s.setAddition (withOpt setOptTtl s.addition)) := by
  have hlen : s.addition.length < 2 ^ 16 := by
    rw [← hm.arcount]
    exact UInt16.toNat_lt _
  have har : firstOpt s.addition = none → s.addition.length < 65535 := by
    intro hnone
    by_contra hge
    have harc : req.header.arcount.toNat = 65535 := by
      rw [hm.arcount]
      omega
    have hidx : s.addition.findIdx? (fun rr => rr.type = rrtypeOpt) = none := by
      simpa [firstOpt, List.find?_eq_none] using hnone
    have hfind := findOpt_eq s.addition
    rw [← hm.addition, ← hm.arcount, hidx] at hfind
    rw [addOpt, hfind] at h
    change (if req.header.arcount.toNat = 65535 then _ else _) = _ at h
    rw [if_pos harc] at h
    cases h
  rw [addOpt_eq hm har] at h
  cases h
  apply hm.setAddition
  rw [length_withOpt]
  split
  · next hnone =>
    have := har hnone
    omega
  · omega

theorem Sections.Present.withOpt (hs : s.Present) :
    (s.setAddition (withOpt setOptTtl s.addition)).Present := by
  have hopt : optRecord.Present := ⟨by decide, by decide⟩
  exact ⟨hs.question, hs.answer, hs.authority,
    forall_mem_withOpt hs.addition hopt fun rr hrr => hrr⟩

/-- Both send buffers have 4096 bytes. A datagram that comes as the reply of the external server
stays inside the client's one, and one that comes as a request inside the one of `send_question`,
exactly when the questions and records that were decoded from it have room there, in full length
and one behind the other. -/
theorem sendBuffers_staysInside_iff (fuel : ℕ) (b : List UInt8) (m : Message) (s : Sections)
    (hdec : (messageFromBuf fuel b b.length Message.zero).result = some (1, m))
    (hm : m.Holds s) :
    (∀ (now : ℕ) (db : BucketTree) (x : Exchange) (cache : RrCache) (query : Message)
        (sendbuf : Mem) (r : ResolvResult),
      x.outcome = .datagram b → b.length ≤ clientBufferSize →
      resolvHandle fuel now db x sendbuf cache query = .ok r → r.external = true →
      (ResolvStaysInside fuel now db x cache query ↔ Inside udpBufferSize 12 s.sizes)) ∧
    ∀ (sent : Message) (newId : UInt16), b.length ≤ udpBufferSize →
      addOpt (m.setId newId) = .ok sent →
      (StaysInside clientBufferSize sent ↔ Inside clientBufferSize 12 (s.sizes ++ optSize s)) := by
  constructor
  · intro now db x cache query sendbuf r hx hsize h hext
    exact resolvStaysInside_iff hx hsize hdec hm h hext
  · intro sent newId _ hopt
    obtain ⟨s', hm', hs', -⟩ := messageFromBuf_sections hdec
    obtain rfl : s = s' := hm.sections_eq hm'
    rw [← sizes_withOpt]
    exact staysInside_iff (by decide) (addOpt_holds (hm.setId newId) hopt) hs'.present.withOpt

/-- A request of 4091 bytes: one question and eight records of 509 bytes. -/
def fullSections : Sections where
  question := [⟨[1, 97, 0], rrtypeA, rrclassIn⟩]
  answer := List.replicate 8 ⟨[0], 99, rrclassIn, 0, 498, List.replicate 498 0⟩
  authority := []
  addition := []

def fullRequest : Message where
  header := ⟨0x1234, 1, 0, 1, 8, 0, 0⟩
  question := fullSections.question.map some
  answer := fullSections.answer.map some
  authority := []
  addition := []

theorem fullRequest_holds : fullRequest.Holds fullSections :=
  ⟨rfl, rfl, rfl, rfl, rfl, rfl, rfl, rfl⟩

theorem fullSections_wire : fullSections.Wire where
  question q hq := by
    obtain rfl := List.mem_singleton.1 hq
    exact ⟨[1, 97], rfl, by simp [IsLabelByte], by decide⟩
  answer rr hrr := by
    obtain rfl := List.eq_of_mem_replicate hrr
    have hlen : (List.replicate 498 (0 : UInt8)).length = 498 := List.length_replicate
    exact ⟨⟨[], rfl, by simp, by decide⟩, hlen, hlen.le.trans (by decide), trivial⟩
  authority rr hrr := by cases hrr
  addition rr hrr := by cases hrr

/-- The request as the client sends it. -/
def fullDatagram : List UInt8 := headerWire fullRequest.header ++ fullSections.wire

theorem fullDatagram_decodes :
    (messageFromBuf 255 fullDatagram fullDatagram.length Message.zero).result =
      some (1, fullRequest) := by
  apply HasAt.message_eq fullRequest_holds (fullSections_wire.readsBack (le_refl 255)) rfl
  · exact List.prefix_refl _
  · rw [fullDatagram, length_messageWire]
    exact Nat.le_add_right 12 _
  · exact le_refl 255

theorem length_fullDatagram : fullDatagram.length = 4091 := by
  rw [fullDatagram, length_messageWire]
  simp only [Sections.wire, fullSections, List.flatMap_cons, List.flatMap_nil, List.length_append,
    List.flatMap_replicate, List.length_flatten, List.map_replicate, List.sum_replicate,
    length_questionWire, length_rrWire]
  decide

theorem sendBuffers_staysInside_iff_sample :
    ResolvStaysInside 16 0 (treeInit rrHash) ⟨7, .datagram compressedReply⟩ (initCache 0)
        sampleQuery ∧
      ∃ sent, addOpt (fullRequest.setId 7) = .ok sent ∧ ¬ StaysInside clientBufferSize sent := by
  constructor
  · have hdec := compressedReply_transparent.decodes
    obtain ⟨s, hm, hs, -⟩ := messageFromBuf_sections hdec
    have hm' : compressedMessage.Holds compressedSections :=
      ⟨rfl, rfl, rfl, rfl, rfl, rfl, rfl, rfl⟩
    obtain rfl : compressedSections = s := hm'.sections_eq hm
    obtain ⟨cache', req, hrun⟩ := sampleQuery_isForwarded.resolvHandle (initCache_rep 0)
      (x := ⟨7, .datagram compressedReply⟩) rfl (by decide) hdec rfl hm 0 fun _ => 0
    rw [messageToU8_entries (hm.setId _) hs.present] at hrun
    obtain ⟨hreply, -⟩ := sendBuffers_staysInside_iff 16 _ _ _ hdec hm
    exact (hreply 0 _ _ _ _ _ _ rfl (by decide) hrun rfl).2 (by decide)
  · have hopt := addOpt_eq (fullRequest_holds.setId 7) fun _ => by decide
    refine ⟨_, hopt, fun hin => ?_⟩
    have hlen : fullDatagram.length ≤ udpBufferSize := by
      rw [length_fullDatagram]
      decide
    obtain ⟨-, hrequest⟩ := sendBuffers_staysInside_iff 255 _ _ _ fullDatagram_decodes
      fullRequest_holds
    exact absurd ((hrequest _ 7 hlen hopt).1 hin) (by decide)

/-- Written again with its OPT record, this request takes 4102 bytes. -/
theorem fullRequest_not_staysInside :
    ∃ req sent, fullDatagram.length ≤ udpBufferSize ∧
      (messageFromBuf 255 fullDatagram fullDatagram.length Message.zero).result = some (1, req) ∧
      addOpt (req.setId 7) = .ok sent ∧ ¬ StaysInside clientBufferSize sent := by
  have hopt := addOpt_eq (fullRequest_holds.setId 7) fun _ => by decide
  refine ⟨fullRequest, _, ?_, fullDatagram_decodes, hopt, ?_⟩
  · rw [length_fullDatagram]
    decide
  · obtain ⟨s, hm, hs, -⟩ := messageFromBuf_sections fullDatagram_decodes
    obtain rfl : fullSections = s := fullRequest_holds.sections_eq hm
    rw [staysInside_iff (by decide) (addOpt_holds (hm.setId 7) hopt) hs.present.withOpt,
      sizes_withOpt]
    decide

end Calls

end BakaDns
