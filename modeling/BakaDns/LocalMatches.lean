import BakaDns.ResolvRuns
import BakaDns.TreePaths

/-!
# Which records answer a question

The cache compares the name, the type and the class of a question. The tree goes by its name and
type only: the class never gets there. A record of the database blocks its name when its first
four bytes are zero, which is the whole address for an A record only.
-/

namespace BakaDns
open CBytes LinkedHeap

/-- The records a query with one question gets when it is not forwarded. -/
def servedRecords (cached : List ResourceRecord) (db : BucketTree) (q : MessageQuestion) :
    List ResourceRecord :=
  if domainLen q.qname = none then []
  else if cachedFor cached q ≠ [] then cachedFor cached q
  else if (selectDatabase db q).any checkBlocked then []
  else selectDatabase db q

/-- The record is what the question asks for. -/
def ResourceRecord.MatchesQuestion (rr : ResourceRecord) (q : MessageQuestion) : Prop :=
  cstr rr.name = cstr q.qname ∧ rr.type = q.qtype ∧ rr.rrclass = q.qclass

variable {cache : RrCache} {xs : List (Addr × CacheEntry)} {st : LookupState}
  {q : MessageQuestion} {db : BucketTree} {query ans : Message} {fuel now : ℕ} {x : Exchange}
  {sendbuf : Mem} {r : ResolvResult} {rrs : List ResourceRecord}

section Served

theorem findBlocked_any {found : Option ℕ} (h : findBlocked rrs = .ok found) :
    rrs.any checkBlocked = found.isSome := by
  induction rrs generalizing found with
  | nil =>
    cases h
    rfl
  | cons rr rrs ih =>
    rw [findBlocked] at h
    split at h
    · cases h
    · split at h
      · next hblocked =>
        cases h
        simp [hblocked]
      · next hopen =>
        obtain ⟨i, hi, h⟩ := bind_eq_ok.1 h
        cases h
        simp [hopen, ih hi]

/-- What the one question leaves in the buffer. -/
theorem lookupQuestion_served (hrep : CacheRep cache xs) (hlen : domainLen q.qname ≠ none)
    (h : lookupQuestion now db q ⟨cache, List.replicate ancountMax .zero, 0⟩ = .ok (st, true)) :
    st.ansCnt = (servedRecords (recordsOf xs) db q).length ∧ st.ansCnt ≤ ancountMax ∧
      st.ansBuffer.take st.ansCnt = servedRecords (recordsOf xs) db q := by
  rw [servedRecords, if_neg hlen]
  by_cases hnil : cachedFor (recordsOf xs) q = []
  · rw [lookupQuestion_miss hrep.start hnil] at h
    rw [if_neg (not_not.2 hnil)]
    obtain ⟨buf, hstore, h⟩ := bind_eq_ok.1 h
    rw [storeRecords] at hstore
    split at hstore
    · cases hstore
    · next hfit =>
      cases hstore
      split at h
      · obtain ⟨found, hfound, h⟩ := bind_eq_ok.1 h
        rw [findBlocked_any hfound]
        cases found with
        | some i =>
          cases h
          exact ⟨rfl, Nat.zero_le _, rfl⟩
        | none =>
          cases h
          exact ⟨rfl, Nat.not_lt.1 hfit, List.take_left⟩
      · cases h
  · rw [if_pos hnil]
    rcases Nat.lt_or_ge ancountMax (cachedFor (recordsOf xs) q).length with hlt | hle
    · rw [lookupQuestion_crowded hrep.start hlt] at h
      cases h
    · obtain ⟨cache', ys, heq, -, -⟩ := lookupQuestion_hit hrep.start hnil hle
      cases heq.symm.trans h
      rw [Nat.zero_add]
      exact ⟨rfl, hle, List.take_left⟩

/-- A response to one question that did not go upstream. -/
theorem resolvHandle_served (hrep : CacheRep cache xs) (hquery : IsQuery query [q])
    (hlocal : ¬Forwards (recordsOf xs) db query)
    (h : resolvHandle fuel now db x sendbuf cache query = .ok r) (hans : r.answer = some ans) :
    ans.answer = (servedRecords (recordsOf xs) db q).map some ∧
      ans.header.ancount.toNat = (servedRecords (recordsOf xs) db q).length := by
  rw [resolvHandle, if_neg (not_not.2 hquery.qr)] at h
  obtain ⟨b, hbuild, h⟩ := bind_eq_ok.1 h
  obtain ⟨ans', hcomplete, h⟩ := bind_eq_ok.1 h
  obtain ⟨w, -, h⟩ := bind_eq_ok.1 h
  cases h
  cases hans
  obtain ⟨⟨st, fin⟩, hlookup, hbuild⟩ := bind_eq_ok.1 hbuild
  have hfin := mt (lookupQuery_ok hrep hlookup).2.1 hlocal
  rw [lookupQuery, if_neg (not_not.2 hquery.opcode), hquery.question, hquery.qdcount,
    List.length_singleton, List.map_singleton, lookupLoop] at hlookup
  split at hlookup
  · cases hlookup
  · split at hlookup
    · next hlen =>
      -- the response to an overlong name reports an error
      cases hlookup
      cases hbuild
      obtain ⟨question, -, hcomplete⟩ := bind_eq_ok.1 hcomplete
      cases hcomplete
      rw [servedRecords, if_pos hlen]
      exact ⟨rfl, rfl⟩
    · next hlen =>
      obtain ⟨⟨st', answered⟩, hquestion, hlookup⟩ := bind_eq_ok.1 hlookup
      cases answered with
      | false =>
        cases hlookup
        exact absurd rfl hfin
      | true =>
        cases hlookup
        cases hbuild
        obtain ⟨hcnt, hle, hbuf⟩ := lookupQuestion_served hrep hlen hquestion
        rw [completeAnswer, completeFound] at hcomplete
        simp only [toNat_ofNat_of_le_ancountMax hle, if_neg (Nat.not_lt.2 hle)] at hcomplete
        obtain ⟨question, -, hcomplete⟩ := bind_eq_ok.1 hcomplete
        cases hcomplete
        refine ⟨by rw [← hbuf], ?_⟩
        rw [← hcnt]
        exact toNat_ofNat_of_le_ancountMax hle

/-- The cache's records match the question. -/
theorem cachedFor_matches (hlen : domainLen q.qname ≠ none) {rr : ResourceRecord}
    (h : rr ∈ cachedFor rrs q) : rr.MatchesQuestion q := by
  obtain ⟨e, he, rfl⟩ := List.mem_map.1 h
  have hfinds := (List.mem_filter.1 he).2
  have hshort := domainLen_of_cacheFinds hlen hfinds
  simp only [cacheFinds, Bool.and_eq_true, beq_iff_eq] at hfinds
  obtain ⟨⟨htype, hclass⟩, hname⟩ := hfinds
  refine ⟨?_, ?_, ?_⟩
  · rw [cstr_rrCopy, (strncmpEq_domainLen hshort).1 hname]
  · rw [rrCopy_type, htype]
  · rw [rrCopy_rrclass, hclass]

/-- The records of the database have the name and the type of the question, and the class IN. -/
theorem selectDatabase_relay {bufs : LineBuffers} {lines : List (List UInt8)}
    (hdb : LoadedDatabase bufs lines db) {rr : ResourceRecord} (h : rr ∈ selectDatabase db q) :
    cstr rr.name = cstr q.qname ∧ rr.type = q.qtype ∧ rr.rrclass = rrclassIn := by
  obtain ⟨insertFuel, hashFun, hinsert⟩ := hdb.relay.inserted
  obtain ⟨s, hs, rfl, hname⟩ :=
    selectDatabase_name (fun rr hrr => (loadedRecords_text hrr).1) hinsert h
  obtain ⟨s', -, -, htype, heq⟩ := (selectDatabase_inserted hinsert q).2 _ h
  refine ⟨?_, ?_, ?_⟩
  · rw [cstr_rrCopy, hname]
  · rw [heq, rrCopy_type, htype]
  · rw [rrCopy_rrclass, (loadedRecords_text hs).2]

/-- The response to one question that is not forwarded holds nothing but records of the name, type
and class asked for, exactly when the class is IN, or the cache has records for the question, or
the database has none or a blocked one. -/
theorem resolvHandle_matches_iff {bufs : LineBuffers} {lines : List (List UInt8)}
    (hdb : LoadedDatabase bufs lines db) (hrep : CacheRep cache xs)
    (hquery : IsQuery query [q]) (hlocal : ¬Forwards (recordsOf xs) db query)
    (h : resolvHandle fuel now db x sendbuf cache query = .ok r) (hans : r.answer = some ans) :
    (∀ rr, some rr ∈ ans.answer.take ans.header.ancount.toNat → rr.MatchesQuestion q) ↔
      (q.qclass = rrclassIn ∨ cacheFindRr cache q.qname q.qtype q.qclass ≠ some [] ∨
        selectDatabase db q = [] ∨ ∃ rr ∈ selectDatabase db q, checkBlocked rr = true) := by
  obtain ⟨hanswer, hcount⟩ := resolvHandle_served hrep hquery hlocal h hans
  have hfind : cacheFindRr cache q.qname q.qtype q.qclass = some (cachedFor (recordsOf xs) q) :=
    hrep.find _ _ _
  have hall : (∀ rr, some rr ∈ ans.answer.take ans.header.ancount.toNat →
      rr.MatchesQuestion q) ↔
        ∀ rr ∈ servedRecords (recordsOf xs) db q, rr.MatchesQuestion q := by
    rw [hanswer, hcount, ← List.length_map some, List.take_length]
    simp
  rw [hall, hfind]
  by_cases hlen : domainLen q.qname = none
  · have hnone : selectDatabase db q = [] := by rw [selectDatabase, hlen]
    rw [servedRecords, if_pos hlen]
    exact iff_of_true (List.forall_mem_nil _) (.inr (.inr (.inl hnone)))
  · by_cases hcached : cachedFor (recordsOf xs) q = []
    · by_cases hblocked : (selectDatabase db q).any checkBlocked = true
      · rw [servedRecords, if_neg hlen, if_neg (not_not.2 hcached), if_pos hblocked]
        refine iff_of_true (List.forall_mem_nil _) (.inr (.inr (.inr ?_)))
        exact List.any_eq_true.1 hblocked
      · rw [servedRecords, if_neg hlen, if_neg (not_not.2 hcached), if_neg hblocked]
        constructor
        · intro hmatch
          rcases hdbase : selectDatabase db q with _ | ⟨rr, more⟩
          · exact .inr (.inr (.inl rfl))
          · have hrr : rr ∈ selectDatabase db q := hdbase ▸ List.mem_cons_self
            left
            rw [← (hmatch rr hrr).2.2, (selectDatabase_relay hdb hrr).2.2]
        · intro hcond rr hrr
          obtain ⟨hname, htype, hclass⟩ := selectDatabase_relay hdb hrr
          rcases hcond with hin | hcond | hnone | hsome
          · exact ⟨hname, htype, hclass.trans hin.symm⟩
          · exact absurd (congrArg some hcached) hcond
          · rw [hnone] at hrr
            cases hrr
          · exact absurd (List.any_eq_true.2 hsome) hblocked
    · rw [servedRecords, if_neg hlen, if_pos hcached]
      refine iff_of_true (fun rr hrr => cachedFor_matches hlen hrr) (.inr (.inl ?_))
      exact fun heq => hcached (Option.some.inj heq)

/-- The question for the address of `www.a.com` in some class. -/
def wwwQuestion (qclass : UInt16) : MessageQuestion :=
  ⟨[3, 119, 119, 119, 1, 97, 3, 99, 111, 109, 0], rrtypeA, qclass⟩

theorem queryOf_isQuery (q : MessageQuestion) : IsQuery (queryOf [q]) [q] := by
  have hqr : qrOf 0x01 = qrReq := by decide
  have hopcode : opcodeOf 0x01 = opcodeQuery := by decide
  exact ⟨hqr, hopcode, rfl, rfl⟩

theorem loadedRecords_sampleLine : loadedRecords ⟨[], []⟩ [sampleLine] =
    [⟨[3, 119, 119, 119, 1, 97, 3, 99, 111, 109, 0], rrtypeA, rrclassIn, 0, 4, [1, 2, 3, 4]⟩] := by
  decide +kernel

theorem sampleLine_database (h : initDatabase domainLenMax ⟨[], []⟩ [sampleLine] = some db) :
    LoadedDatabase ⟨[], []⟩ [sampleLine] db where
  fits := by
    rw [loadedRecords_sampleLine, List.forall_mem_singleton]
    exact ⟨[[119, 119, 119], [97], [99, 111, 109]], List.cons_ne_nil _ _,
      by simp [IsNodeLabel, subdomainMax], rfl, by decide⟩
  loaded := ⟨domainLenMax, h⟩

/-- With one line in the relay file its name is answered locally, in every class. -/
theorem wwwQuestion_served (qclass : UInt16) :
    ∃ db, initDatabase domainLenMax ⟨[], []⟩ [sampleLine] = some db ∧
      ¬Forwards (recordsOf []) db (queryOf [wwwQuestion qclass]) ∧
      servedRecords (recordsOf []) db (wwwQuestion qclass) =
        [⟨[3, 119, 119, 119, 1, 97, 3, 99, 111, 109, 0], rrtypeA, rrclassIn, 0, 4,
          [1, 2, 3, 4]⟩] := by
  have hrun : (initDatabase domainLenMax ⟨[], []⟩ [sampleLine]).map (selectDatabase · ⟨[3, 119, 119,
      119, 1, 97, 3, 99, 111, 109, 0], rrtypeA, rrclassIn⟩) =
      some [⟨[3, 119, 119, 119, 1, 97, 3, 99, 111, 109, 0], rrtypeA, rrclassIn, 0, 4,
        [1, 2, 3, 4]⟩] := by decide +kernel
  obtain ⟨db, hdb, hselect⟩ := Option.map_eq_some_iff.1 hrun
  have hselect' : selectDatabase db (wwwQuestion qclass) =
      [⟨[3, 119, 119, 119, 1, 97, 3, 99, 111, 109, 0], rrtypeA, rrclassIn, 0, 4, [1, 2, 3, 4]⟩] :=
    hselect
  have hcached : cachedFor (recordsOf []) (wwwQuestion qclass) = [] := rfl
  have hname : domainLen [3, 119, 119, 119, 1, 97, 3, 99, 111, 109, 0] ≠ none := by decide
  refine ⟨db, hdb, ?_, ?_⟩
  · rintro (hop | ⟨-, hnil | hrest⟩)
    · exact hop (queryOf_isQuery _).opcode
    · rw [localRecords, if_pos hcached, hselect'] at hnil
      cases hnil
    · exact hrest
  · rw [servedRecords, wwwQuestion, if_neg hname]
    rw [wwwQuestion] at hcached hselect'
    rw [if_neg (not_not.2 hcached), hselect']
    decide

/-- A call that a run on the loaded line shows to end with a response. -/
theorem exists_answer_of_run (qclass : UInt16)
    (hdb : initDatabase domainLenMax ⟨[], []⟩ [sampleLine] = some db)
    (hrun : (initDatabase domainLenMax ⟨[], []⟩ [sampleLine]).bind (fun db =>
      (resolvHandle 16 0 db ⟨7, .recvFail⟩ (fun _ => 0) (initCache 0)
        (queryOf [wwwQuestion qclass])).toOption.map fun r => r.answer.isSome) = some true) :
    ∃ r ans, resolvHandle 16 0 db ⟨7, .recvFail⟩ (fun _ => 0) (initCache 0)
      (queryOf [wwwQuestion qclass]) = .ok r ∧ r.answer = some ans := by
  rw [hdb, Option.bind_some] at hrun
  obtain ⟨r, hr, hsome⟩ := ok_of_toOption_map hrun
  obtain ⟨ans, hans⟩ := Option.isSome_iff_exists.1 hsome
  exact ⟨r, ans, hr, hans⟩

/-- The same address answers a question in the class CHAOS. -/
theorem wwwQuestion_not_matches :
    ∃ db r ans, LoadedDatabase ⟨[], []⟩ [sampleLine] db ∧
      IsQuery (queryOf [wwwQuestion 3]) [wwwQuestion 3] ∧
      ¬Forwards (recordsOf []) db (queryOf [wwwQuestion 3]) ∧
      resolvHandle 16 0 db ⟨7, .recvFail⟩ (fun _ => 0) (initCache 0) (queryOf [wwwQuestion 3]) =
        .ok r ∧ r.answer = some ans ∧
      ¬∀ rr, some rr ∈ ans.answer.take ans.header.ancount.toNat →
        rr.MatchesQuestion (wwwQuestion 3) := by
  obtain ⟨db, hdb, hlocal, hserved⟩ := wwwQuestion_served 3
  obtain ⟨r, ans, hr, hans⟩ := exists_answer_of_run 3 hdb (by decide +kernel)
  refine ⟨db, r, ans, sampleLine_database hdb, queryOf_isQuery _, hlocal, hr, hans, ?_⟩
  intro hmatch
  obtain ⟨hanswer, hcount⟩ :=
    resolvHandle_served (initCache_rep 0) (queryOf_isQuery _) hlocal hr hans
  rw [hanswer, hcount, hserved] at hmatch
  have hclass := (hmatch _ List.mem_cons_self).2.2
  exact absurd hclass (by decide)

theorem resolvHandle_matches_iff_www :
    ∃ db r ans, LoadedDatabase ⟨[], []⟩ [sampleLine] db ∧
      resolvHandle 16 0 db ⟨7, .recvFail⟩ (fun _ => 0) (initCache 0)
        (queryOf [wwwQuestion rrclassIn]) = .ok r ∧ r.answer = some ans ∧
      ∀ rr, some rr ∈ ans.answer.take ans.header.ancount.toNat →
        rr.MatchesQuestion (wwwQuestion rrclassIn) := by
  obtain ⟨db, hdb, hlocal, -⟩ := wwwQuestion_served rrclassIn
  obtain ⟨r, ans, hr, hans⟩ := exists_answer_of_run rrclassIn hdb (by decide +kernel)
  have hiff := resolvHandle_matches_iff (sampleLine_database hdb) (initCache_rep 0)
    (queryOf_isQuery _) hlocal hr hans
  exact ⟨db, r, ans, sampleLine_database hdb, hr, hans, hiff.2 (.inl rfl)⟩

end Served

/-! Blocked IPv6 names. -/

section Blocking

/-- The address `::`. -/
def unspecifiedAddress : List UInt8 := List.replicate 16 0

theorem checkBlocked_address6 {rr : ResourceRecord} (h : rr.rdata.length = 16) :
    rr.rdata ≠ [] ∧ (checkBlocked rr = true ↔ rr.rdata.take 4 = [0, 0, 0, 0]) := by
  have hcopy : copyOut rr.rdata 4 = rr.rdata.take 4 := copyOut_of_le (by omega)
  constructor
  · intro hnil
    rw [hnil] at h
    cases h
  · rw [checkBlocked, hcopy, beq_iff_eq]

/-- Two lists of records that answer the same call are equal. -/
theorem answers_unique {res : Except Fault ResolvResult} {rrs' : List ResourceRecord}
    (h : Answers res rrs) (h' : Answers res rrs') : rrs = rrs' := by
  obtain ⟨r, ans, hres, -, hans, -, hsection⟩ := h
  obtain ⟨r', ans', hres', -, hans', -, hsection'⟩ := h'
  cases hres.symm.trans hres'
  cases hans.symm.trans hans'
  exact (Option.some_injective _).list_map (hsection.symm.trans hsection')

/-- A question for IPv6 addresses of the database is answered with none of them if one is `::`, and
otherwise with all of them, exactly when no other address starts with four zero bytes, or there is
`::` as well. -/
theorem resolvHandle_aaaa_iff (hdb : RelayDatabase rrs db)
    (hrrs : ∀ rr ∈ rrs, rr.type = rrtypeAaaa → rr.rdlength = 16) (hrep : CacheRep cache xs)
    (hquery : IsQuery query [q]) (hname : q.qname ≠ []) (htype : q.qtype = rrtypeAaaa)
    (hmiss : cacheFindRr cache q.qname q.qtype q.qclass = some [])
    (hrelay : selectDatabase db q ≠ []) (fuel now : ℕ) (x : Exchange) (sendbuf : Mem) :
    (((∃ rr ∈ selectDatabase db q, rr.rdata = unspecifiedAddress) →
        Answers (resolvHandle fuel now db x sendbuf cache query) []) ∧
      ((∀ rr ∈ selectDatabase db q, rr.rdata ≠ unspecifiedAddress) →
        Answers (resolvHandle fuel now db x sendbuf cache query) (selectDatabase db q))) ↔
      ((∃ rr ∈ selectDatabase db q, rr.rdata.take 4 = [0, 0, 0, 0]) →
        ∃ rr ∈ selectDatabase db q, rr.rdata = unspecifiedAddress) := by
  have hfind : cacheFindRr cache q.qname q.qtype q.qclass = some (cachedFor (recordsOf xs) q) :=
    hrep.find _ _ _
  have hnil : cachedFor (recordsOf xs) q = [] := Option.some.inj (hfind.symm.trans hmiss)
  have hencodes := encodes_of_selectDatabase hname hrelay
  obtain ⟨insertFuel, hashFun, hinsert⟩ := hdb.inserted
  have hfits := length_selectDatabase_le hinsert q
  rw [← htype] at hrrs
  have hsixteen : (16 : UInt16) ≠ 0 := by decide
  have haddress := fun rr (hrr : rr ∈ selectDatabase db q) =>
    checkBlocked_address6 (length_rdata_inserted hsixteen hrrs hinsert hrr)
  have hblocked : (∃ rr ∈ selectDatabase db q, rr.rdata.take 4 = [0, 0, 0, 0]) →
      Answers (resolvHandle fuel now db x sendbuf cache query) [] := by
    rintro ⟨rr, hrr, hzero⟩
    refine resolvHandle_blocked hquery hencodes hrep hnil (fun r hr => (haddress r hr).1) hfits ?_
    exact ⟨rr, hrr, (haddress rr hrr).2.2 hzero⟩
  have hopen : (∀ rr ∈ selectDatabase db q, rr.rdata.take 4 ≠ [0, 0, 0, 0]) →
      Answers (resolvHandle fuel now db x sendbuf cache query) (selectDatabase db q) := by
    intro hnone
    have hlocal : localRecords (recordsOf xs) db q = selectDatabase db q := if_pos hnil
    have hq : AnsweredLocally (recordsOf xs) db q := by
      refine ⟨hencodes, hlocal ▸ hrelay, fun _ r hr => ?_⟩
      exact Bool.eq_false_iff.2 (mt (haddress r hr).2.1 (hnone r hr))
    rw [← hlocal] at hfits ⊢
    exact resolvHandle_single hinsert hquery hrep hq hfits
  constructor
  · rintro ⟨-, hall⟩ hzero
    by_contra hno
    rw [not_exists] at hno
    have hanswers := hall fun rr hrr heq => hno rr ⟨hrr, heq⟩
    exact hrelay (answers_unique hanswers (hblocked hzero))
  · intro hcond
    refine ⟨fun hzero => hblocked ?_, fun hno => hopen ?_⟩
    · obtain ⟨rr, hrr, heq⟩ := hzero
      exact ⟨rr, hrr, by rw [heq]; decide⟩
    · intro rr hrr hzero
      obtain ⟨s, hs, heq⟩ := hcond ⟨rr, hrr, hzero⟩
      exact hno s hs heq

/-- `::1 a`. -/
def loopbackLine : List UInt8 := [58, 58, 49, 32, 97, 10]

/-- The question for the IPv6 addresses of `a`. -/
def loopbackQuestion : MessageQuestion := ⟨[1, 97, 0], rrtypeAaaa, rrclassIn⟩

theorem loadedRecords_loopbackLine : loadedRecords ⟨[], []⟩ [loopbackLine] =
    [⟨[1, 97, 0], rrtypeAaaa, rrclassIn, 0, 16, List.replicate 15 0 ++ [1]⟩] := by decide +kernel

theorem loopbackLine_database
    (h : initDatabase domainLenMax ⟨[], []⟩ [loopbackLine] = some db) :
    LoadedDatabase ⟨[], []⟩ [loopbackLine] db where
  fits := by
    rw [loadedRecords_loopbackLine, List.forall_mem_singleton]
    exact ⟨[[97]], List.cons_ne_nil _ _, by simp [IsNodeLabel, subdomainMax], rfl, by decide⟩
  loaded := ⟨domainLenMax, h⟩

theorem loopbackQuestion_found :
    ∃ db, initDatabase domainLenMax ⟨[], []⟩ [loopbackLine] = some db ∧
      cacheFindRr (initCache 0) loopbackQuestion.qname loopbackQuestion.qtype
        loopbackQuestion.qclass = some [] ∧
      selectDatabase db loopbackQuestion =
        [⟨[1, 97, 0], rrtypeAaaa, rrclassIn, 0, 16, List.replicate 15 0 ++ [1]⟩] := by
  have hrun : (initDatabase domainLenMax ⟨[], []⟩ [loopbackLine]).map
      (selectDatabase · loopbackQuestion) =
        some [⟨[1, 97, 0], rrtypeAaaa, rrclassIn, 0, 16, List.replicate 15 0 ++ [1]⟩] := by
    decide +kernel
  obtain ⟨db, hdb, hselect⟩ := Option.map_eq_some_iff.1 hrun
  exact ⟨db, hdb, by decide, hselect⟩

/-- The loopback address is taken for a blocked one. -/
theorem loopbackAddress_blocked :
    ∃ db, LoadedDatabase ⟨[], []⟩ [loopbackLine] db ∧
      cacheFindRr (initCache 0) loopbackQuestion.qname loopbackQuestion.qtype
        loopbackQuestion.qclass = some [] ∧
      selectDatabase db loopbackQuestion =
        [⟨[1, 97, 0], rrtypeAaaa, rrclassIn, 0, 16, List.replicate 15 0 ++ [1]⟩] ∧
      Answers (resolvHandle 16 0 db ⟨7, .recvFail⟩ (fun _ => 0) (initCache 0)
        (queryOf [loopbackQuestion])) [] ∧
      ¬Answers (resolvHandle 16 0 db ⟨7, .recvFail⟩ (fun _ => 0) (initCache 0)
        (queryOf [loopbackQuestion])) (selectDatabase db loopbackQuestion) := by
  obtain ⟨db, hdb, hmiss, hselect⟩ := loopbackQuestion_found
  have hempty : Answers (resolvHandle 16 0 db ⟨7, .recvFail⟩ (fun _ => 0) (initCache 0)
      (queryOf [loopbackQuestion])) [] := by
    refine resolvHandle_blocked (queryOf_isQuery _) ⟨by decide, by decide⟩ (initCache_rep 0) rfl ?_
      ?_ ?_
    · rw [hselect, List.forall_mem_singleton]
      decide
    · rw [hselect]
      decide
    · rw [hselect]
      exact ⟨_, List.mem_cons_self, by decide⟩
  refine ⟨db, loopbackLine_database hdb, hmiss, hselect, hempty, fun hall => ?_⟩
  have hnil := answers_unique hall hempty
  rw [hselect] at hnil
  cases hnil

theorem resolvHandle_aaaa_iff_loopback :
    ∃ db, LoadedDatabase ⟨[], []⟩ [loopbackLine] db ∧
      ¬((∀ rr ∈ selectDatabase db loopbackQuestion, rr.rdata ≠ unspecifiedAddress) →
        Answers (resolvHandle 16 0 db ⟨7, .recvFail⟩ (fun _ => 0) (initCache 0)
          (queryOf [loopbackQuestion])) (selectDatabase db loopbackQuestion)) := by
  obtain ⟨db, hdb, hmiss, hselect⟩ := loopbackQuestion_found
  have hloaded := loopbackLine_database hdb
  have hrrs : ∀ rr ∈ loadedRecords ⟨[], []⟩ [loopbackLine], rr.type = rrtypeAaaa →
      rr.rdlength = 16 := by
    rw [loadedRecords_loopbackLine, List.forall_mem_singleton]
    exact fun _ => rfl
  have hother : ∀ rr ∈ selectDatabase db loopbackQuestion, rr.rdata ≠ unspecifiedAddress := by
    rw [hselect, List.forall_mem_singleton]
    decide
  have hrelay : selectDatabase db loopbackQuestion ≠ [] := by
    rw [hselect]
    exact List.cons_ne_nil _ _
  have hiff := resolvHandle_aaaa_iff hloaded.relay hrrs (initCache_rep 0) (queryOf_isQuery _)
    (by decide) rfl hmiss hrelay 16 0 ⟨7, .recvFail⟩ fun _ => 0
  have hnone : (∃ rr ∈ selectDatabase db loopbackQuestion, rr.rdata = unspecifiedAddress) →
      Answers (resolvHandle 16 0 db ⟨7, .recvFail⟩ (fun _ => 0) (initCache 0)
        (queryOf [loopbackQuestion])) [] := by
    rintro ⟨rr, hrr, heq⟩
    exact absurd heq (hother rr hrr)
  have hzero : ∃ rr ∈ selectDatabase db loopbackQuestion, rr.rdata.take 4 = [0, 0, 0, 0] := by
    rw [hselect]
    exact ⟨_, List.mem_cons_self, by decide⟩
  refine ⟨db, hloaded, fun hall => ?_⟩
  obtain ⟨rr, hrr, heq⟩ := hiff.1 ⟨hnone, hall⟩ hzero
  exact hother rr hrr heq

end Blocking

end BakaDns
