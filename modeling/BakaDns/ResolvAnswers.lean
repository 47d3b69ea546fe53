import BakaDns.ResolvLookup
import BakaDns.RoundTrip

/-!
# Local answers

What `resolv_handle` answers when every question has local records. Each lookup writes to the
start of the answer buffer, so the records of one question are lost to the next.
-/

namespace BakaDns
open CBytes LinkedHeap

/-- A question that is answered locally: there are records for it, and those of the database are
not blocked. -/
structure AnsweredLocally (cached : List ResourceRecord) (db : BucketTree) (q : MessageQuestion) :
    Prop where
  encodes : q.Encodes
  found : localRecords cached db q ≠ []
  unblocked : cachedFor cached q = [] → ∀ r ∈ selectDatabase db q, checkBlocked r = false

variable {cache : RrCache} {xs ys : List (Addr × CacheEntry)} {st : LookupState}
  {q : MessageQuestion} {qs : List MessageQuestion} {db : BucketTree}

theorem findBlocked_eq_none {rrs : List ResourceRecord}
    (h : ∀ r ∈ rrs, checkBlocked r = false) : findBlocked rrs = .ok none := by
  induction rrs with
  | nil => rfl
  | cons r rrs ih =>
    have hr := h r List.mem_cons_self
    have hdata : r.rdata ≠ [] := by
      intro hnil
      rw [checkBlocked, hnil] at hr
      cases hr
    rw [findBlocked, if_neg hdata, hr, ih fun x hx => h x (List.mem_cons_of_mem r hx)]
    rfl

/-- One answered question: its records go to the start of the buffer, and their number is added to
the count or replaces it. -/
theorem AnsweredLocally.lookupQuestion (h : AnsweredLocally (recordsOf xs) db q)
    (hlen : (localRecords (recordsOf xs) db q).length ≤ ancountMax) (now : ℕ)
    (hrep : CacheRep st.cache ys) (hperm : ys.Perm xs) :
    ∃ st' zs, lookupQuestion now db q st = .ok (st', true) ∧ CacheRep st'.cache zs ∧ zs.Perm xs ∧
      st'.ansBuffer = localRecords (recordsOf ys) db q ++
        st.ansBuffer.drop (localRecords (recordsOf ys) db q).length ∧
      (st'.ansCnt = st.ansCnt + (localRecords (recordsOf ys) db q).length ∨
        st'.ansCnt = (localRecords (recordsOf ys) db q).length) := by
  have hfits : (localRecords (recordsOf ys) db q).length ≤ ancountMax := by
    rw [(localRecords_perm hperm db q).length_eq]
    exact hlen
  have hfound := mt (perm_eq_nil_iff (localRecords_perm hperm db q)).1 h.found
  by_cases hnil : cachedFor (recordsOf ys) q = []
  · have hnil' : cachedFor (recordsOf xs) q = [] :=
      (perm_eq_nil_iff (cachedFor_perm hperm q)).1 hnil
    have hlocal : localRecords (recordsOf ys) db q = selectDatabase db q := if_pos hnil
    rw [hlocal] at hfits hfound ⊢
    refine ⟨⟨st.cache, selectDatabase db q ++ st.ansBuffer.drop (selectDatabase db q).length,
      (selectDatabase db q).length⟩, ys, ?_, hrep, hperm, rfl, .inr rfl⟩
    rw [lookupQuestion_miss hrep hnil, lookupDatabase]
    simp only [storeRecords, if_neg (Nat.not_lt.2 hfits), bind, Except.bind, if_pos hfound,
      findBlocked_eq_none (h.unblocked hnil')]
  · have hlocal : localRecords (recordsOf ys) db q = cachedFor (recordsOf ys) q := if_neg hnil
    rw [hlocal] at hfits ⊢
    obtain ⟨cache', zs, heq, hrep', hperm'⟩ := lookupQuestion_hit hrep hnil hfits
    exact ⟨_, zs, heq, hrep', hperm'.trans hperm, rfl, .inl rfl⟩

/-- How far the loop has come: `j` questions with `total` records. The buffer has been written up
to `used`, which is less than the total from the second question on. -/
structure LoopState (xs : List (Addr × CacheEntry)) (j total : ℕ) (st : LookupState) : Prop where
  cache : ∃ ys, CacheRep st.cache ys ∧ ys.Perm xs
  buffer : ∃ used, used + j ≤ total + 1 ∧ used ≤ st.ansBuffer.length ∧
    st.ansBuffer.drop used = List.replicate (st.ansBuffer.length - used) ResourceRecord.zero
  length : st.ansBuffer.length = ancountMax
  count : st.ansCnt ≤ total
  each : j ≤ total

theorem loopState_initial (hrep : CacheRep cache xs) :
    LoopState xs 0 0 ⟨cache, List.replicate ancountMax ResourceRecord.zero, 0⟩ where
  cache := ⟨xs, hrep, List.Perm.refl xs⟩
  buffer := ⟨0, Nat.zero_le _, Nat.zero_le _, by rw [List.length_replicate]; rfl⟩
  length := List.length_replicate
  count := Nat.le_refl 0
  each := Nat.le_refl 0

theorem drop_append_replicate {α : Type} {found buf : List α} {used : ℕ} {z : α}
    (hz : buf.drop used = List.replicate (buf.length - used) z) :
    (found ++ buf.drop found.length).drop (max used found.length) =
      List.replicate (buf.length - max used found.length) z := by
  have hdrop : (found ++ buf.drop found.length).drop (max used found.length) =
      buf.drop (max used found.length) := by
    rw [List.drop_append, List.drop_eq_nil_of_le (Nat.le_max_right _ _), List.nil_append,
      List.drop_drop]
    congr 1
    omega
  rw [hdrop]
  have hmax : buf.drop (max used found.length) =
      (buf.drop used).drop (max used found.length - used) := by
    rw [List.drop_drop]
    congr 1
    omega
  rw [hmax, hz, List.drop_replicate]
  congr 1
  omega

theorem mem_take_of_drop_eq_replicate {α : Type} {buf : List α} {used cnt : ℕ} {z : α}
    (hz : buf.drop used = List.replicate (buf.length - used) z) (hused : used < cnt)
    (hcnt : cnt ≤ buf.length) : z ∈ buf.take cnt := by
  have hget : buf[used]? = some z := by
    have hdrop : (buf.drop used)[0]? = buf[used]? := List.getElem?_drop
    rw [← hdrop, hz, List.getElem?_replicate, if_pos (by omega)]
  apply List.mem_of_getElem?
  rw [List.getElem?_take_of_lt hused]
  exact hget

theorem LoopState.step {j total : ℕ} (hst : LoopState xs j total st) (now : ℕ)
    (hq : AnsweredLocally (recordsOf xs) db q)
    (hfits : (localRecords (recordsOf xs) db q).length ≤ ancountMax) :
    ∃ st', BakaDns.lookupQuestion now db q st = .ok (st', true) ∧
      LoopState xs (j + 1) (total + (localRecords (recordsOf xs) db q).length) st' := by
  obtain ⟨ys, hrep, hperm⟩ := hst.cache
  obtain ⟨used, hused, hle, hzero⟩ := hst.buffer
  obtain ⟨st', zs, heq, hrep', hperm', hbuf, hcnt⟩ := hq.lookupQuestion hfits now hrep hperm
  have hlen := (localRecords_perm hperm db q).length_eq
  have hpos : 0 < (localRecords (recordsOf xs) db q).length := List.length_pos_iff.2 hq.found
  have hbound := hst.length
  have hsize : st'.ansBuffer.length = ancountMax := by
    rw [hbuf, List.length_append, List.length_drop, hlen]
    omega
  have hcount := hst.count
  have heach := hst.each
  refine ⟨st', heq, ⟨⟨zs, hrep', hperm'⟩, ?_, hsize, ?_, ?_⟩⟩
  · refine ⟨max used (localRecords (recordsOf ys) db q).length, by omega, by omega, ?_⟩
    rw [hbuf, drop_append_replicate hzero, ← hbuf]
    congr 1
    omega
  · rcases hcnt with hcnt | hcnt
    · omega
    · omega
  · omega

theorem LoopState.loop {j total : ℕ} (hst : LoopState xs j total st) (now : ℕ)
    (hqs : ∀ q ∈ qs, AnsweredLocally (recordsOf xs) db q)
    (hlen : (qs.flatMap (localRecords (recordsOf xs) db)).length ≤ ancountMax) :
    ∃ st', lookupLoop now db qs.length (qs.map some) st = .ok (st', .found) ∧
      LoopState xs (j + qs.length)
        (total + (qs.flatMap (localRecords (recordsOf xs) db)).length) st' := by
  induction qs generalizing st j total with
  | nil => exact ⟨st, rfl, hst⟩
  | cons q qs ih =>
    have hq := hqs q List.mem_cons_self
    rw [List.flatMap_cons, List.length_append] at hlen
    obtain ⟨st₁, heq, hst₁⟩ := hst.step now hq (by omega)
    obtain ⟨st', hloop, hst'⟩ :=
      ih hst₁ (fun x hx => hqs x (List.mem_cons_of_mem q hx)) (by omega)
    refine ⟨st', ?_, ?_⟩
    · rw [List.length_cons, List.map_cons, lookupLoop, if_neg hq.encodes.1, if_neg hq.encodes.2,
        heq]
      exact hloop
    · rw [List.length_cons, List.flatMap_cons, List.length_append]
      have hj : j + (qs.length + 1) = j + 1 + qs.length := by omega
      rw [hj, ← Nat.add_assoc]
      exact hst'

/-! Completing and encoding the answer. -/

section Complete

variable {query : Message} {fuel now : ℕ} {x : Exchange} {sendbuf : Mem}

/-- A request with opcode QUERY that holds these questions. -/
structure IsQuery (query : Message) (qs : List MessageQuestion) : Prop where
  qr : qrOf query.header.misc1 = qrReq
  opcode : opcodeOf query.header.misc1 = opcodeQuery
  question : query.question = qs.map some
  qdcount : query.header.qdcount.toNat = qs.length

/-- The response that is built from `cnt` records at the start of the buffer. -/
def localAnswer (query : Message) (qs : List MessageQuestion) (rrs : List ResourceRecord)
    (cnt : ℕ) : Message :=
  { initialAnswer query with
    header := { (initialAnswer query).header with
      ancount := UInt16.ofNat cnt
      qdcount := query.header.qdcount }
    question := (qs.map mqCopy).map some
    answer := (rrs.take cnt).map some }

theorem pasteQuestions_eq (h : ∀ q ∈ qs, q.qname ≠ []) :
    pasteQuestions qs.length (qs.map some) = .ok ((qs.map mqCopy).map some) := by
  induction qs with
  | nil => rfl
  | cons q qs ih =>
    rw [List.length_cons, List.map_cons, pasteQuestions, if_neg (h q List.mem_cons_self),
      ih fun x hx => h x (List.mem_cons_of_mem q hx)]
    rfl

theorem toNat_ofNat_of_le_ancountMax {n : ℕ} (h : n ≤ ancountMax) : (UInt16.ofNat n).toNat = n := by
  rw [UInt16.toNat_ofNat']
  refine Nat.mod_eq_of_lt (Nat.lt_of_le_of_lt h ?_)
  decide

/-- When the question loop ends with everything found, the rest is the encoding. -/
theorem resolvHandle_found {st' : LookupState} (hquery : IsQuery query qs)
    (hqs : ∀ q ∈ qs, q.Encodes)
    (hloop : lookupLoop now db qs.length (qs.map some)
      ⟨cache, List.replicate ancountMax ResourceRecord.zero, 0⟩ = .ok (st', .found))
    (hcnt : st'.ansCnt ≤ ancountMax) :
    resolvHandle fuel now db x sendbuf cache query =
      messageToU8 (localAnswer query qs st'.ansBuffer st'.ansCnt) sendbuf 0 >>= fun r =>
        .ok ⟨if r.1 < 0 then -1 else 1, st'.cache, query,
          some (localAnswer query qs st'.ansBuffer st'.ansCnt), false, r.2, r.1⟩ := by
  have hlookup : lookupQuery now db cache query = .ok (st', .found) := by
    rw [lookupQuery, if_neg (not_not.2 hquery.opcode), hquery.question, hquery.qdcount]
    exact hloop
  have hbuild : buildAnswer fuel now db x cache query =
      .ok ⟨st'.cache, query, initialAnswer query, st'.ansBuffer, st'.ansCnt, .found⟩ := by
    rw [buildAnswer, hlookup]
    rfl
  have hcomplete : completeAnswer
      ⟨st'.cache, query, initialAnswer query, st'.ansBuffer, st'.ansCnt, .found⟩ =
        .ok (localAnswer query qs st'.ansBuffer st'.ansCnt) := by
    simp only [completeAnswer, completeFound, toNat_ofNat_of_le_ancountMax hcnt,
      if_neg (Nat.not_lt.2 hcnt), hquery.question, hquery.qdcount,
      pasteQuestions_eq fun q hq => (hqs q hq).1, bind, Except.bind]
    rfl
  rw [resolvHandle, if_neg (not_not.2 hquery.qr), hbuild]
  change (completeAnswer _ >>= _) = _
  rw [hcomplete]
  rfl

theorem sectionToU8_names {rrs : List ResourceRecord} {mem : Mem} {dest : ℤ}
    {r : Bool × Mem × ℤ}
    (h : sectionToU8 msgRrToU8 rrs.length (rrs.map some) mem dest = .ok r) :
    ∀ rr ∈ rrs, rr.name ≠ [] := by
  induction rrs generalizing mem dest r with
  | nil =>
    intro rr hrr
    cases hrr
  | cons rr rrs ih =>
    obtain ⟨⟨tmp, mem'⟩, hone, h⟩ := bind_eq_ok.1 h
    obtain ⟨rest, hrest, -⟩ := bind_eq_ok.1 h
    intro x hx
    rcases List.mem_cons.1 hx with rfl | hx
    · intro hnil
      rw [msgRrToU8, if_pos hnil] at hone
      cases hone
    · exact ih hrest x hx

theorem mqCopy_encodes (h : q.Encodes) : (mqCopy q).Encodes := by
  obtain ⟨n, hn⟩ := Option.ne_none_iff_exists'.1 h.2
  have hname : (mqCopy q).qname = cstr q.qname ++ [0] := by
    rw [mqCopy, hn]
    exact copyOut_domainLen hn
  refine ⟨?_, ?_⟩
  · rw [hname]
    exact List.append_ne_nil_of_right_ne_nil _ (List.cons_ne_nil _ _)
  · rw [domainLen_congr (cstr_mqCopy q)]
    exact h.2

theorem mqCopies_encode (h : ∀ q ∈ qs, q.Encodes) : ∀ q ∈ qs.map mqCopy, q.Encodes := by
  intro q hq
  obtain ⟨q', hq', rfl⟩ := List.mem_map.1 hq
  exact mqCopy_encodes (h q' hq')

/-- The encoder only comes back if every counted record of the answer has a name. -/
theorem messageToU8_answer_names {m : Message} {rrs : List ResourceRecord} {mem : Mem} {dest : ℤ}
    {r : ℤ × Mem} (hqs : ∀ q ∈ qs, q.Encodes) (hq : m.question = qs.map some)
    (hqd : m.header.qdcount.toNat = qs.length) (ha : m.answer = rrs.map some)
    (han : m.header.ancount.toNat = rrs.length) (h : messageToU8 m mem dest = .ok r) :
    ∀ rr ∈ rrs, rr.name ≠ [] := by
  have hquestion := sectionToU8_eq fun q hq => msgQuestionToU8_eq (hqs q hq)
  rw [messageToU8, hq, hqd, ha, han, msgHeaderToU8_eq] at h
  obtain ⟨⟨valid, mem', size⟩, hsection, h⟩ := bind_eq_ok.1 h
  rw [hquestion] at hsection
  cases hsection
  obtain ⟨answers, hanswers, -⟩ := bind_eq_ok.1 h
  exact sectionToU8_names hanswers

theorem rrCopy_encodes {s : ResourceRecord} (h : domainLen s.name ≠ none) :
    (rrCopy s).Encodes := by
  obtain ⟨n, hn⟩ := Option.ne_none_iff_exists'.1 h
  refine ⟨?_, ?_, ?_⟩
  · simp only [rrCopy, hn]
    rw [copyOut_domainLen hn]
    exact List.append_ne_nil_of_right_ne_nil _ (List.cons_ne_nil _ _)
  · rw [domainLen_congr (cstr_rrCopy s)]
    exact h
  · intro hlen
    rw [rrCopy_rdlength] at hlen
    simp only [rrCopy, hn, if_neg hlen]
    intro hnil
    have hzero := congrArg List.length hnil
    rw [length_copyOut, List.length_nil] at hzero
    exact hlen (UInt16.toNat_inj.1 hzero)

/-- A cached record that a question with a good name finds has a good name. -/
theorem domainLen_of_cacheFinds {e : ResourceRecord} (hq : domainLen q.qname ≠ none)
    (h : cacheFinds q.qname q.qtype q.qclass e = true) : domainLen e.name ≠ none := by
  obtain ⟨n, hn⟩ := Option.ne_none_iff_exists'.1 hq
  have hshort := (domainLen_eq_some.1 hn).1
  cases he : domainLen e.name with
  | some m => exact Option.some_ne_none m
  | none =>
    rw [cacheFinds, Bool.and_eq_true, he] at h
    have hlt : (cstr q.qname).length < asSize none := by
      change _ < 2 ^ 64 - 1
      omega
    have hname := (strncmpEq_iff_cstr hlt).1 (strncmpEq_symm h.2)
    rw [domainLen_congr hname] at he
    exact absurd he hq

theorem ResourceRecord.Encodes.length_rrWire_le {rr : ResourceRecord} (h : rr.Encodes) :
    (rrWire rr).length ≤ 65800 := by
  obtain ⟨n, hn⟩ := Option.ne_none_iff_exists'.1 h.2.1
  have hname := (domainLen_eq_some.1 hn).1
  have hdata := rr.rdlength.toNat_lt
  rw [length_rrWire]
  omega

theorem MessageQuestion.Encodes.length_questionWire_le (h : q.Encodes) :
    (questionWire q).length ≤ 259 := by
  obtain ⟨n, hn⟩ := Option.ne_none_iff_exists'.1 h.2
  have hname := (domainLen_eq_some.1 hn).1
  rw [length_questionWire]
  omega

theorem localAnswer_holds (hqd : query.header.qdcount.toNat = qs.length)
    {rrs : List ResourceRecord} (hlen : rrs.length ≤ ancountMax) (rest : List ResourceRecord) :
    (localAnswer query qs (rrs ++ rest) rrs.length).Holds ⟨qs.map mqCopy, rrs, [], []⟩ := by
  refine ⟨rfl, ?_, rfl, rfl, ?_, ?_, rfl, rfl⟩
  · simp only [localAnswer, List.take_left]
  · rw [List.length_map]
    exact hqd
  · exact toNat_ofNat_of_le_ancountMax hlen

/-- A response whose counted records are in order is written, and its size is not negative. -/
theorem messageToU8_localAnswer {rrs : List ResourceRecord} (hqs : ∀ q ∈ qs, q.Encodes)
    (hqd : query.header.qdcount.toNat = qs.length) (hrrs : ∀ rr ∈ rrs, rr.Encodes)
    (hlen : rrs.length ≤ ancountMax) (rest : List ResourceRecord) (mem : Mem) :
    messageToU8 (localAnswer query qs (rrs ++ rest) rrs.length) mem 0 =
      .ok (((12 + (Sections.wire ⟨qs.map mqCopy, rrs, [], []⟩).length : ℕ) : ℤ),
        mem.write 0 (headerWire (localAnswer query qs (rrs ++ rest) rrs.length).header ++
          Sections.wire ⟨qs.map mqCopy, rrs, [], []⟩)) := by
  have hcopies := mqCopies_encode hqs
  have hencodes : Sections.Encodes ⟨qs.map mqCopy, rrs, [], []⟩ := by
    refine ⟨hcopies, hrrs, ?_, ?_⟩
    · intro rr hrr
      cases hrr
    · intro rr hrr
      cases hrr
  have hsize : 12 + (Sections.wire ⟨qs.map mqCopy, rrs, [], []⟩).length < 2 ^ 31 := by
    have hquestion := length_flatMap_le fun q hq => (hcopies q hq).length_questionWire_le
    have hanswer := length_flatMap_le fun rr hrr => (hrrs rr hrr).length_rrWire_le
    have hcount := query.header.qdcount.toNat_lt
    rw [List.length_map, ← hqd] at hquestion
    simp only [Sections.wire, List.length_append, List.flatMap_nil, List.length_nil]
    simp only [ancountMax] at hlen
    omega
  exact messageToU8_eq_of_lt (localAnswer_holds hqd hlen rest) hencodes hsize mem 0

theorem localRecords_encodes {insertFuel : ℕ} {hashFun : List UInt8 → UInt32}
    {rrs : List ResourceRecord} (hdb : insertAll insertFuel (treeInit hashFun) rrs = some db)
    (hq : q.Encodes) (cached : List ResourceRecord) :
    ∀ rr ∈ localRecords cached db q, rr.Encodes := by
  intro rr hrr
  by_cases hnil : cachedFor cached q = []
  · rw [localRecords, if_pos hnil] at hrr
    obtain ⟨s, -, hs, -, rfl⟩ := (selectDatabase_inserted hdb q).2 rr hrr
    exact rrCopy_encodes hs
  · rw [localRecords, if_neg hnil] at hrr
    obtain ⟨e, he, rfl⟩ := List.mem_map.1 hrr
    exact rrCopy_encodes (domainLen_of_cacheFinds hq.2 (List.mem_filter.1 he).2)

/-- The response is encoded, and its answer section is exactly these records. -/
def Answers (res : Except Fault ResolvResult) (rrs : List ResourceRecord) : Prop :=
  ∃ r ans, res = .ok r ∧ r.ret = 1 ∧ r.answer = some ans ∧
    ans.header.ancount.toNat = rrs.length ∧ ans.answer = rrs.map some

theorem resolvHandle_answers {st' : LookupState} {rrs rest : List ResourceRecord}
    (hquery : IsQuery query qs) (hqs : ∀ q ∈ qs, q.Encodes)
    (hloop : lookupLoop now db qs.length (qs.map some)
      ⟨cache, List.replicate ancountMax ResourceRecord.zero, 0⟩ = .ok (st', .found))
    (hbuf : st'.ansBuffer = rrs ++ rest) (hcnt : st'.ansCnt = rrs.length)
    (hrrs : ∀ rr ∈ rrs, rr.Encodes) (hlen : rrs.length ≤ ancountMax) :
    Answers (resolvHandle fuel now db x sendbuf cache query) rrs := by
  have hle : st'.ansCnt ≤ ancountMax := by
    rw [hcnt]
    exact hlen
  rw [resolvHandle_found hquery hqs hloop hle, hbuf, hcnt,
    messageToU8_localAnswer hqs hquery.qdcount hrrs hlen rest sendbuf]
  refine ⟨_, _, rfl, ?_, rfl, toNat_ofNat_of_le_ancountMax hlen, ?_⟩
  · exact returnValue_natCast (12 + (Sections.wire ⟨qs.map mqCopy, rrs, [], []⟩).length)
  · simp only [localAnswer, List.take_left]

theorem lookupLoop_single {st' : LookupState} (hq : q.Encodes)
    (h : lookupQuestion now db q st = .ok (st', true)) :
    lookupLoop now db [q].length ([q].map some) st = .ok (st', .found) := by
  rw [List.length_singleton, List.map_singleton, lookupLoop, if_neg hq.1, if_neg hq.2, h]
  rfl

/-- A query with one question that is answered locally gets exactly the records found for it. -/
theorem resolvHandle_single {insertFuel : ℕ} {hashFun : List UInt8 → UInt32}
    {rrs : List ResourceRecord} (hdb : insertAll insertFuel (treeInit hashFun) rrs = some db)
    (hquery : IsQuery query [q]) (hrep : CacheRep cache xs)
    (hq : AnsweredLocally (recordsOf xs) db q)
    (hlen : (localRecords (recordsOf xs) db q).length ≤ ancountMax) :
    Answers (resolvHandle fuel now db x sendbuf cache query)
      (localRecords (recordsOf xs) db q) := by
  have hqs : ∀ q' ∈ [q], q'.Encodes := List.forall_mem_singleton.2 hq.encodes
  obtain ⟨st', zs, hlookup, -, -, hbuf, hcnt⟩ :=
    hq.lookupQuestion hlen now hrep.start (List.Perm.refl xs)
  have hloop := lookupLoop_single hq.encodes hlookup
  have hcnt' : st'.ansCnt = (localRecords (recordsOf xs) db q).length := by
    rcases hcnt with hcnt | hcnt
    · rw [hcnt, Nat.zero_add]
    · exact hcnt
  exact resolvHandle_answers hquery hqs hloop hbuf hcnt'
    (localRecords_encodes hdb hq.encodes (recordsOf xs)) hlen

/-- With two questions or more the count is too small, or it counts a record that was never
written and the encoder crashes. -/
theorem resolvHandle_not_answers (hquery : IsQuery query qs) (hrep : CacheRep cache xs)
    (hqs : ∀ q ∈ qs, AnsweredLocally (recordsOf xs) db q) (hmany : 2 ≤ qs.length)
    (hlen : (qs.flatMap (localRecords (recordsOf xs) db)).length ≤ ancountMax) :
    ¬Answers (resolvHandle fuel now db x sendbuf cache query)
      (qs.flatMap (localRecords (recordsOf xs) db)) := by
  rintro ⟨r, ans, hres, -, hans, hcount, -⟩
  obtain ⟨st', hloop, hst'⟩ := (loopState_initial hrep).loop now hqs hlen
  rw [Nat.zero_add, Nat.zero_add] at hst'
  have htotal := hst'.count
  have hle : st'.ansCnt ≤ ancountMax := by omega
  have hencodes : ∀ q ∈ qs, q.Encodes := fun q hq => (hqs q hq).encodes
  rw [resolvHandle_found hquery hencodes hloop hle] at hres
  obtain ⟨⟨msgsize, sendbuf'⟩, hwrite, hres⟩ := bind_eq_ok.1 hres
  cases hres
  cases hans
  change (UInt16.ofNat st'.ansCnt).toNat = _ at hcount
  rw [toNat_ofNat_of_le_ancountMax hle] at hcount
  obtain ⟨used, hused, -, hzero⟩ := hst'.buffer
  have hunwritten : ResourceRecord.zero ∈ st'.ansBuffer.take st'.ansCnt := by
    have hsize := hst'.length
    exact mem_take_of_drop_eq_replicate hzero (by omega) (by omega)
  have hqd : (localAnswer query qs st'.ansBuffer st'.ansCnt).header.qdcount.toNat =
      (qs.map mqCopy).length := by
    rw [List.length_map]
    exact hquery.qdcount
  have han : (localAnswer query qs st'.ansBuffer st'.ansCnt).header.ancount.toNat =
      (st'.ansBuffer.take st'.ansCnt).length := by
    rw [List.length_take, hst'.length, Nat.min_eq_left hle]
    exact toNat_ofNat_of_le_ancountMax hle
  exact messageToU8_answer_names (mqCopies_encode hencodes) rfl hqd rfl han hwrite _ hunwritten rfl

/-- When every question of a query is answered locally, the response holds the records of all
questions, in the order of the questions, exactly when there is only one question. -/
theorem resolvHandle_answers_iff {rrs : List ResourceRecord} (hdb : RelayDatabase rrs db)
    (hquery : IsQuery query qs) (hne : qs ≠ []) (hrep : CacheRep cache xs)
    (hqs : ∀ q ∈ qs, AnsweredLocally (recordsOf xs) db q)
    (hlen : (qs.flatMap (localRecords (recordsOf xs) db)).length ≤ ancountMax)
    (fuel now : ℕ) (x : Exchange) (sendbuf : Mem) :
    Answers (resolvHandle fuel now db x sendbuf cache query)
        (qs.flatMap (localRecords (recordsOf xs) db)) ↔ qs.length = 1 := by
  constructor
  · intro hanswers
    by_contra hone
    have hpos : 0 < qs.length := List.length_pos_iff.2 hne
    exact resolvHandle_not_answers hquery hrep hqs (by omega) hlen hanswers
  · intro hone
    obtain ⟨q, rfl⟩ := List.length_eq_one_iff.1 hone
    rw [List.flatMap_singleton] at hlen ⊢
    obtain ⟨insertFuel, hashFun, hinsert⟩ := hdb.inserted
    exact resolvHandle_single hinsert hquery hrep (hqs q (List.mem_singleton.2 rfl)) hlen

/-- Two names of the sample relay file. -/
def sampleQuestions : List MessageQuestion :=
  [⟨[1, 97, 1, 98, 0], rrtypeA, rrclassIn⟩, ⟨[1, 99, 1, 98, 0], rrtypeA, rrclassIn⟩]

/-- A query of these questions. -/
def queryOf (qs : List MessageQuestion) : Message where
  header := ⟨0x1234, 0x01, 0, UInt16.ofNat qs.length, 0, 0, 0⟩
  question := qs.map some
  answer := []
  authority := []
  addition := []

theorem sampleQuestions_answeredLocally {db : BucketTree}
    (hdb : insertAll domainLenMax (treeInit rrHash) sampleRelay = some db) :
    sampleQuestions.map (fun q => (selectDatabase db q).length) = [2, 1] ∧
      ∀ q ∈ sampleQuestions, AnsweredLocally (recordsOf []) db q := by
  have hrun : (insertAll domainLenMax (treeInit rrHash) sampleRelay).map (fun db =>
      (sampleQuestions.map fun q => (selectDatabase db q).length,
        sampleQuestions.map fun q => (selectDatabase db q).map checkBlocked)) =
      some ([2, 1], [[false, false], [false]]) := by decide +kernel
  rw [hdb] at hrun
  obtain ⟨hlengths, hblocked⟩ := Prod.mk.inj (Option.some.inj hrun)
  refine ⟨hlengths, ?_⟩
  have hencodes : ∀ q ∈ sampleQuestions, q.qname ≠ [] ∧ domainLen q.qname ≠ none := by decide
  intro q hq
  have hlen : (selectDatabase db q).length ∈ [2, 1] :=
    hlengths ▸ List.mem_map_of_mem hq
  have hflags : (selectDatabase db q).map checkBlocked ∈ [[false, false], [false]] :=
    hblocked ▸ List.mem_map_of_mem hq
  refine ⟨hencodes q hq, ?_, ?_⟩
  · intro hnil
    change selectDatabase db q = [] at hnil
    rw [hnil] at hlen
    exact absurd hlen (by decide)
  · intro _ r hr
    have hflag : checkBlocked r ∈ (selectDatabase db q).map checkBlocked := List.mem_map_of_mem hr
    simp only [List.mem_cons, List.not_mem_nil, or_false] at hflags
    rcases hflags with hflags | hflags
    · rw [hflags] at hflag
      simpa using hflag
    · rw [hflags] at hflag
      simpa using hflag

/-- Of the three records for two names of the database, only that of the second name is sent. -/
theorem sampleQuestions_not_answers :
    ∃ db, RelayDatabase sampleRelay db ∧
      IsQuery (queryOf sampleQuestions) sampleQuestions ∧
      (∀ q ∈ sampleQuestions, AnsweredLocally (recordsOf []) db q) ∧
      (sampleQuestions.flatMap (localRecords (recordsOf []) db)).length = 3 ∧
      CacheRep (initCache 0) [] ∧
      ∃ r ans, resolvHandle 16 0 db ⟨7, .recvFail⟩ (fun _ => 0) (initCache 0)
          (queryOf sampleQuestions) = .ok r ∧ r.ret = 1 ∧ r.answer = some ans ∧
        ans.answer = [some ⟨[1, 99, 1, 98, 0], rrtypeA, rrclassIn, 0, 4, [10, 0, 0, 3]⟩] ∧
        ¬Answers (resolvHandle 16 0 db ⟨7, .recvFail⟩ (fun _ => 0) (initCache 0)
          (queryOf sampleQuestions)) (sampleQuestions.flatMap (localRecords (recordsOf []) db)) := by
  have hrun : ((insertAll domainLenMax (treeInit rrHash) sampleRelay).bind fun db =>
      (resolvHandle 16 0 db ⟨7, .recvFail⟩ (fun _ => 0) (initCache 0)
        (queryOf sampleQuestions)).toOption.map
        (fun r => (r.ret, r.answer.map fun ans => ans.answer))) =
      some (1, some [some ⟨[1, 99, 1, 98, 0], rrtypeA, rrclassIn, 0, 4, [10, 0, 0, 3]⟩]) := by
    decide +kernel
  obtain ⟨db, hdb, hmap⟩ := Option.bind_eq_some_iff.1 hrun
  obtain ⟨r, hr, hres⟩ := ok_of_toOption_map hmap
  obtain ⟨hret, hans⟩ := Prod.mk.inj hres
  obtain ⟨ans, hans, hanswer⟩ := Option.map_eq_some_iff.1 hans
  obtain ⟨hlengths, hlocal⟩ := sampleQuestions_answeredLocally hdb
  have htotal : (sampleQuestions.flatMap (localRecords (recordsOf []) db)).length = 3 := by
    rw [List.length_flatMap]
    exact congrArg List.sum hlengths
  refine ⟨db, sampleRelay_database hdb, ⟨by decide, by decide, rfl, by decide⟩, hlocal, htotal, initCache_rep 0, r, ans,
    hr, hret, hans, hanswer, ?_⟩
  rintro ⟨r', ans', hr', -, hans', -, hsection⟩
  cases hr.symm.trans hr'
  cases hans.symm.trans hans'
  have hlen := congrArg List.length hsection
  rw [hanswer, List.length_map, htotal] at hlen
  cases hlen

theorem resolvHandle_answers_iff_sample :
    ∃ db, RelayDatabase sampleRelay db ∧
      (Answers (resolvHandle 16 0 db ⟨7, .recvFail⟩ (fun _ => 0) (initCache 0)
          (queryOf (sampleQuestions.take 1)))
        ((sampleQuestions.take 1).flatMap (localRecords (recordsOf []) db)) ↔
          (sampleQuestions.take 1).length = 1) := by
  have hsome : (insertAll domainLenMax (treeInit rrHash) sampleRelay).isSome = true := by
    decide +kernel
  obtain ⟨db, hdb⟩ := Option.isSome_iff_exists.1 hsome
  obtain ⟨hlengths, hlocal⟩ := sampleQuestions_answeredLocally hdb
  have hquery : IsQuery (queryOf (sampleQuestions.take 1)) (sampleQuestions.take 1) :=
    ⟨by decide, by decide, rfl, by decide⟩
  have hlen : ((sampleQuestions.take 1).flatMap (localRecords (recordsOf []) db)).length ≤
      ancountMax := by
    rw [List.length_flatMap, List.map_take]
    have htake := congrArg (fun l => (l.take 1).sum) hlengths
    exact Nat.le_trans (Nat.le_of_eq htake) (by decide)
  have hiff := resolvHandle_answers_iff (sampleRelay_database hdb) hquery (by decide) (initCache_rep 0)
    (fun q hq => hlocal q (List.mem_of_mem_take hq)) hlen 16 0 ⟨7, .recvFail⟩ fun _ => 0
  exact ⟨db, sampleRelay_database hdb, hiff⟩

end Complete

end BakaDns
