import BakaDns.ResolvAnswers

/-!
# Runs of the resolver

One `resolv_handle` call after another with refresh passes in between. The cache is asked before
the database, so a record that an upstream reply brought in hides those of the relay file.
-/

namespace BakaDns
open CBytes LinkedHeap

/-- The answer records of the upstream reply a call accepted. -/
def ResolvResult.accepted (r : ResolvResult) : List ResourceRecord :=
  if r.external then
    r.answer.elim [] fun ans => (ans.answer.take ans.header.ancount.toNat).reduceOption
  else []

/-- No record that a call caches has a name of more than 255 octets. The cache would share the
blocks of such a record with a reply that is freed, and its contents would change with them. -/
def ResolvResult.NamesFit (r : ResolvResult) : Prop := ∀ rr ∈ r.accepted, domainLen rr.name ≠ none

instance (r : ResolvResult) : Decidable r.NamesFit :=
  inferInstanceAs (Decidable (∀ rr ∈ r.accepted, ¬domainLen rr.name = none))

/-- The cache after a run from an empty one, and the records accepted on the way. -/
inductive ResolvRun (db : BucketTree) : RrCache → List ResourceRecord → Prop
  | start (now : ℕ) : ResolvRun db (initCache now) []
  | handle {cache : RrCache} {accepted : List ResourceRecord} {fuel now : ℕ} {x : Exchange}
      {sendbuf : Mem} {query : Message} {r : ResolvResult} (h : ResolvRun db cache accepted)
      (hr : resolvHandle fuel now db x sendbuf cache query = .ok r) (hnames : r.NamesFit) :
      ResolvRun db r.cache (accepted ++ r.accepted)
  | refresh {cache cache' : RrCache} {accepted : List ResourceRecord} {now : ℕ}
      (h : ResolvRun db cache accepted) (hc : refreshCache now cache = some cache') :
      ResolvRun db cache' accepted

/-! Where cached records come from. -/

section Origin

variable {cache cache' : RrCache} {xs : List (Addr × CacheEntry)} {now : ℕ}
  {accepted rrs : List ResourceRecord} {e : ResourceRecord} {db : BucketTree}

/-- A copy of an accepted record, up to its TTL. -/
def FromAccepted (accepted : List ResourceRecord) (e : ResourceRecord) : Prop :=
  ∃ rr ∈ accepted, e = { rrCopy rr with ttl := e.ttl }

/-- All entries of the cache come from accepted records. -/
def CacheFrom (cache : RrCache) (accepted : List ResourceRecord) : Prop :=
  ∃ xs, CacheRep cache xs ∧ ∀ x ∈ xs, FromAccepted accepted x.2.rr

theorem FromAccepted.mono {more : List ResourceRecord} (h : FromAccepted accepted e)
    (hsub : accepted ⊆ more) : FromAccepted more e := by
  obtain ⟨rr, hrr, heq⟩ := h
  exact ⟨rr, hsub hrr, heq⟩

theorem FromAccepted.ttl (h : FromAccepted accepted e) (ttl : UInt32) :
    FromAccepted accepted { e with ttl := ttl } := by
  obtain ⟨rr, hrr, heq⟩ := h
  refine ⟨rr, hrr, ?_⟩
  rw [heq]

theorem fromAccepted_rrCopy {rr : ResourceRecord} (h : rr ∈ accepted) :
    FromAccepted accepted (rrCopy rr) := ⟨rr, h, rfl⟩

theorem CacheFrom.mono {more : List ResourceRecord} (h : CacheFrom cache accepted)
    (hsub : accepted ⊆ more) : CacheFrom cache more := by
  obtain ⟨xs, hrep, hxs⟩ := h
  exact ⟨xs, hrep, fun x hx => (hxs x hx).mono hsub⟩

theorem CacheFrom.put {rr : ResourceRecord} (h : CacheFrom cache accepted) (hrr : rr ∈ accepted)
    (hput : cachePutRr now cache rr = some cache') : CacheFrom cache' accepted := by
  obtain ⟨xs, hrep, hxs⟩ := h
  obtain ⟨ys, hrep', hys⟩ := hrep.put_mem hput
  refine ⟨ys, hrep', fun y hy => ?_⟩
  rcases hys y hy with hy | ⟨heq, -⟩
  · exact hxs y hy
  · rw [heq]
    exact fromAccepted_rrCopy hrr

theorem CacheFrom.putAll (h : CacheFrom cache accepted) (hrrs : rrs ⊆ accepted)
    (hput : cachePutAll now cache rrs = .ok cache') : CacheFrom cache' accepted := by
  induction rrs generalizing cache with
  | nil =>
    cases hput
    exact h
  | cons rr rrs ih =>
    obtain ⟨cache₁, hone, hput⟩ := bind_eq_ok.1 hput
    have hsub := List.cons_subset.1 hrrs
    exact ih (h.put hsub.1 (orCrash_eq_ok.1 hone)) hsub.2 hput

theorem CacheFrom.refresh (h : CacheFrom cache accepted)
    (hc : refreshCache now cache = some cache') : CacheFrom cache' accepted := by
  obtain ⟨xs, hrep, hxs⟩ := h
  obtain ⟨ys, hrep', hys⟩ := hrep.refresh_mem hc
  refine ⟨ys, hrep', fun y hy => ?_⟩
  obtain ⟨x, hx, -, heq⟩ := hys y hy
  rw [heq]
  exact (hxs x hx).ttl _

theorem reduceOption_of_mapM_id {α : Type} {os : List (Option α)} {as : List α}
    (h : os.mapM id = some as) : os.reduceOption = as := by
  induction os generalizing as with
  | nil =>
    cases h
    rfl
  | cons o os ih =>
    rw [List.mapM_cons] at h
    obtain ⟨a, ha, h⟩ := Option.bind_eq_some_iff.1 h
    obtain ⟨as', has, h⟩ := Option.bind_eq_some_iff.1 h
    cases h
    change o = some a at ha
    rw [ha, List.reduceOption_cons_of_some, ih has]

/-- What a call does to the cache: the lookups reorder it, and the records of an accepted reply are
put into it. -/
theorem resolvHandle_puts {fuel : ℕ} {x : Exchange} {sendbuf : Mem} {query : Message}
    {r : ResolvResult} (hrep : CacheRep cache xs)
    (hr : resolvHandle fuel now db x sendbuf cache query = .ok r) :
    ∃ cache₁ ys, CacheRep cache₁ ys ∧ ys.Perm xs ∧
      cachePutAll now cache₁ r.accepted = .ok r.cache := by
  rw [resolvHandle] at hr
  split at hr
  · cases hr
    exact ⟨cache, xs, hrep, List.Perm.refl xs, rfl⟩
  · obtain ⟨b, hbuild, hr⟩ := bind_eq_ok.1 hr
    obtain ⟨ans, hans, hr⟩ := bind_eq_ok.1 hr
    obtain ⟨⟨msgsize, sendbuf'⟩, -, hr⟩ := bind_eq_ok.1 hr
    cases hr
    obtain ⟨⟨st, fin⟩, hlookup, hbuild⟩ := bind_eq_ok.1 hbuild
    obtain ⟨⟨ys, hrep', hperm⟩, -⟩ := lookupQuery_ok hrep hlookup
    refine ⟨st.cache, ys, hrep', hperm, ?_⟩
    cases fin with
    | found =>
      cases hbuild
      rfl
    | failure rcode =>
      cases hbuild
      rfl
    | external =>
      obtain ⟨sent, -, hbuild⟩ := bind_eq_ok.1 hbuild
      split at hbuild
      · cases hbuild
        rfl
      · obtain ⟨answers, hanswers, hbuild⟩ := bind_eq_ok.1 hbuild
        obtain ⟨cache', hput, hbuild⟩ := bind_eq_ok.1 hbuild
        cases hbuild
        cases hans
        rw [← reduceOption_of_mapM_id (orCrash_eq_ok.1 hanswers)] at hput
        exact hput

/-- What a call adds to the cache are records of the reply it accepted. -/
theorem CacheFrom.handle {fuel : ℕ} {x : Exchange} {sendbuf : Mem} {query : Message}
    {r : ResolvResult} (h : CacheFrom cache accepted)
    (hr : resolvHandle fuel now db x sendbuf cache query = .ok r) :
    CacheFrom r.cache (accepted ++ r.accepted) := by
  obtain ⟨xs, hrep, hxs⟩ := h
  obtain ⟨cache₁, ys, hrep₁, hperm, hput⟩ := resolvHandle_puts hrep hr
  have hfrom : CacheFrom cache₁ accepted := ⟨ys, hrep₁, fun y hy => hxs y (hperm.mem_iff.1 hy)⟩
  exact (hfrom.mono (List.subset_append_left _ _)).putAll (List.subset_append_right _ _) hput

theorem ResolvRun.cacheFrom (h : ResolvRun db cache accepted) : CacheFrom cache accepted := by
  induction h with
  | start now =>
    refine ⟨[], initCache_rep now, ?_⟩
    intro x hx
    cases hx
  | handle _ hr _ ih => exact ih.handle hr
  | refresh _ hc ih => exact ih.refresh hc

theorem rrCopy_rrCopy (rr : ResourceRecord) : rrCopy (rrCopy rr) = rrCopy rr := by
  cases hn : domainLen rr.name with
  | none =>
    have hcopy : rrCopy rr = rr := by rw [rrCopy, hn]
    rw [hcopy, hcopy]
  | some n =>
    have hn' : domainLen (rrCopy rr).name = some n := by
      rw [domainLen_congr (cstr_rrCopy rr), hn]
    have hcopy : rrCopy rr = { rr with
        name := copyOut rr.name n
        rdata := if rr.rdlength = 0 then [] else copyOut rr.rdata rr.rdlength.toNat } := by
      rw [rrCopy, hn]
    have hname : copyOut (copyOut rr.name n) n = copyOut rr.name n := by
      have hlen := copyOut_length (copyOut rr.name n)
      rwa [length_copyOut] at hlen
    have hdata : copyOut (copyOut rr.rdata rr.rdlength.toNat) rr.rdlength.toNat =
        copyOut rr.rdata rr.rdlength.toNat := by
      have hlen := copyOut_length (copyOut rr.rdata rr.rdlength.toNat)
      rwa [length_copyOut] at hlen
    rw [rrCopy, hn']
    dsimp only
    rw [hcopy]
    dsimp only
    rw [hname]
    by_cases h0 : rr.rdlength = 0
    · rw [if_pos h0, if_pos h0]
    · rw [if_neg h0, if_neg h0, hdata]

theorem rrCopy_setTtl (rr : ResourceRecord) (ttl : UInt32) :
    rrCopy { rr with ttl := ttl } = { rrCopy rr with ttl := ttl } := by
  cases hn : domainLen rr.name with
  | none => simp only [rrCopy, hn]
  | some n => simp only [rrCopy, hn]

/-- A cached record matches the questions that the record it comes from matches. -/
theorem cacheFinds_copy (domain : List UInt8) (type rrclass : UInt16) (rr : ResourceRecord)
    (ttl : UInt32) : cacheFinds domain type rrclass { rrCopy rr with ttl := ttl } =
      cacheFinds domain type rrclass rr := by
  have hname : strncmpEq domain (rrCopy rr).name (asSize (domainLen (rrCopy rr).name)) =
      strncmpEq domain rr.name (asSize (domainLen rr.name)) := by
    rw [Bool.eq_iff_iff, strncmpEq_iff, strncmpEq_iff, domainLen_congr (cstr_rrCopy rr),
      cstr_rrCopy]
  simp only [cacheFinds, rrCopy_type, rrCopy_rrclass, hname]

/-- What a lookup finds in the cache are copies of accepted records that match the question. -/
theorem ResolvRun.found (h : ResolvRun db cache accepted) (q : MessageQuestion) :
    ∃ xs, CacheRep cache xs ∧ ∀ r ∈ cachedFor (recordsOf xs) q,
      ∃ rr ∈ accepted, cacheFinds q.qname q.qtype q.qclass rr = true ∧
        r = { rrCopy rr with ttl := r.ttl } := by
  obtain ⟨xs, hrep, hxs⟩ := h.cacheFrom
  refine ⟨xs, hrep, ?_⟩
  intro r hr
  obtain ⟨e, he, rfl⟩ := List.mem_map.1 hr
  obtain ⟨hmem, hfinds⟩ := List.mem_filter.1 he
  obtain ⟨x, hx, rfl⟩ := List.mem_map.1 hmem
  obtain ⟨rr, hrr, heq⟩ := hxs x hx
  refine ⟨rr, hrr, ?_, ?_⟩
  · rw [heq, cacheFinds_copy] at hfinds
    exact hfinds
  · rw [heq, rrCopy_setTtl, rrCopy_rrCopy]

end Origin

/-! The relay file and the cache. -/

section Relay

variable {cache : RrCache} {xs : List (Addr × CacheEntry)} {q : MessageQuestion}
  {db : BucketTree} {query : Message} {fuel now : ℕ} {x : Exchange} {sendbuf : Mem}
  {accepted rrs : List ResourceRecord}

theorem findBlocked_eq_some (hdata : ∀ r ∈ rrs, r.rdata ≠ [])
    (h : ∃ r ∈ rrs, checkBlocked r = true) : ∃ i, findBlocked rrs = .ok (some i) := by
  induction rrs with
  | nil =>
    obtain ⟨r, hr, -⟩ := h
    cases hr
  | cons rr rrs ih =>
    rw [findBlocked, if_neg (hdata rr List.mem_cons_self)]
    by_cases hrr : checkBlocked rr = true
    · exact ⟨0, if_pos hrr⟩
    · obtain ⟨r, hr, hblocked⟩ := h
      rcases List.mem_cons.1 hr with rfl | hr
      · exact absurd hblocked hrr
      · obtain ⟨i, hi⟩ := ih (fun r hr => hdata r (List.mem_cons_of_mem rr hr)) ⟨r, hr, hblocked⟩
        refine ⟨i + 1, ?_⟩
        rw [if_neg hrr, hi]
        rfl

/-- The lookup of a blocked name counts no records. -/
theorem lookupQuestion_blocked (hrep : CacheRep cache xs) (hnil : cachedFor (recordsOf xs) q = [])
    (hdata : ∀ r ∈ selectDatabase db q, r.rdata ≠ [])
    (hlen : (selectDatabase db q).length ≤ ancountMax)
    (hblocked : ∃ r ∈ selectDatabase db q, checkBlocked r = true) (now : ℕ) :
    ∃ st', lookupQuestion now db q ⟨cache, List.replicate ancountMax .zero, 0⟩ =
      .ok (st', true) ∧ st'.ansCnt = 0 := by
  have hne : selectDatabase db q ≠ [] := by
    obtain ⟨r, hr, -⟩ := hblocked
    exact List.ne_nil_of_mem hr
  obtain ⟨i, hi⟩ := findBlocked_eq_some hdata hblocked
  rw [lookupQuestion_miss hrep.start hnil, lookupDatabase]
  simp only [storeRecords, if_neg (Nat.not_lt.2 hlen), bind, Except.bind, if_pos hne, hi]
  exact ⟨_, rfl, rfl⟩

theorem encodes_of_selectDatabase (hname : q.qname ≠ []) (h : selectDatabase db q ≠ []) :
    q.Encodes := by
  refine ⟨hname, ?_⟩
  intro hlen
  rw [selectDatabase, hlen] at h
  exact h rfl

theorem length_selectDatabase_le {insertFuel : ℕ} {hashFun : List UInt8 → UInt32}
    {rrs : List ResourceRecord} (hdb : insertAll insertFuel (treeInit hashFun) rrs = some db)
    (q : MessageQuestion) : (selectDatabase db q).length ≤ ancountMax :=
  Nat.le_trans (selectDatabase_inserted hdb q).1 (by decide)

/-- A blocked name gets a response without records. -/
theorem resolvHandle_blocked (hquery : IsQuery query [q]) (hq : q.Encodes)
    (hrep : CacheRep cache xs) (hnil : cachedFor (recordsOf xs) q = [])
    (hdata : ∀ r ∈ selectDatabase db q, r.rdata ≠ [])
    (hlen : (selectDatabase db q).length ≤ ancountMax)
    (hblocked : ∃ r ∈ selectDatabase db q, checkBlocked r = true) :
    Answers (resolvHandle fuel now db x sendbuf cache query) [] := by
  have hqs : ∀ q' ∈ [q], q'.Encodes := List.forall_mem_singleton.2 hq
  obtain ⟨st', hst', hcnt⟩ := lookupQuestion_blocked hrep hnil hdata hlen hblocked now
  have hloop := lookupLoop_single hq hst'
  have hnone : ∀ rr ∈ ([] : List ResourceRecord), rr.Encodes := List.forall_mem_nil _
  have hbuf : st'.ansBuffer = [] ++ st'.ansBuffer := rfl
  exact resolvHandle_answers hquery hqs hloop hbuf hcnt hnone (Nat.zero_le _)

theorem checkBlocked_address {r : ResourceRecord} (h : r.rdata.length = 4) :
    r.rdata ≠ [] ∧ (checkBlocked r = true ↔ r.rdata = [0, 0, 0, 0]) := by
  constructor
  · intro hnil
    rw [hnil] at h
    cases h
  · have hcopy := copyOut_length r.rdata
    rw [h] at hcopy
    rw [checkBlocked, hcopy, beq_iff_eq]

/-- The data of the records found have the size that the inserted records of their type have. -/
theorem length_rdata_inserted {insertFuel : ℕ} {hashFun : List UInt8 → UInt32} {size : UInt16}
    (hsize : size ≠ 0) (hrrs : ∀ rr ∈ rrs, rr.type = q.qtype → rr.rdlength = size)
    (hdb : insertAll insertFuel (treeInit hashFun) rrs = some db) {r : ResourceRecord}
    (hr : r ∈ selectDatabase db q) : r.rdata.length = size.toNat := by
  obtain ⟨s, hs, hname, htype, rfl⟩ := (selectDatabase_inserted hdb q).2 r hr
  obtain ⟨n, hn⟩ := Option.ne_none_iff_exists'.1 hname
  rw [rrCopy, hn]
  dsimp only
  rw [hrrs s hs htype, if_neg hsize, length_copyOut]

/-- An address of the relay file blocks its name exactly when it is 0.0.0.0. -/
theorem relay_address {insertFuel : ℕ} {hashFun : List UInt8 → UInt32}
    (hrrs : ∀ rr ∈ rrs, rr.type = rrtypeA → rr.rdlength = 4)
    (hdb : insertAll insertFuel (treeInit hashFun) rrs = some db) (htype : q.qtype = rrtypeA)
    {r : ResourceRecord} (hr : r ∈ selectDatabase db q) :
    r.rdata ≠ [] ∧ (checkBlocked r = true ↔ r.rdata = [0, 0, 0, 0]) := by
  rw [← htype] at hrrs
  have hfour : (4 : UInt16) ≠ 0 := by decide
  exact checkBlocked_address (length_rdata_inserted hfour hrrs hdb hr)

/-- In every run, a name of the relay file is answered from the cache if accepted replies brought
in records for it, and else from the relay file: with exactly its addresses, or with an empty
answer section when one of them is 0.0.0.0. -/
theorem resolvRun_relay (hdb : RelayDatabase rrs db)
    (hrrs : ∀ rr ∈ rrs, rr.type = rrtypeA → rr.rdlength = 4)
    (hrun : ResolvRun db cache accepted) (hquery : IsQuery query [q]) (hname : q.qname ≠ [])
    (htype : q.qtype = rrtypeA) (hrelay : selectDatabase db q ≠ [])
    (fuel now : ℕ) (x : Exchange) (sendbuf : Mem) :
    ∃ found, cacheFindRr cache q.qname q.qtype q.qclass = some found ∧
      (∀ r ∈ found, ∃ rr ∈ accepted, cacheFinds q.qname q.qtype q.qclass rr = true ∧
        r = { rrCopy rr with ttl := r.ttl }) ∧
      (found = [] →
        ((∀ r ∈ selectDatabase db q, r.rdata ≠ [0, 0, 0, 0]) →
          Answers (resolvHandle fuel now db x sendbuf cache query) (selectDatabase db q)) ∧
        ((∃ r ∈ selectDatabase db q, r.rdata = [0, 0, 0, 0]) →
          Answers (resolvHandle fuel now db x sendbuf cache query) [])) ∧
      (found ≠ [] → found.length ≤ ancountMax →
        Answers (resolvHandle fuel now db x sendbuf cache query) found) := by
  obtain ⟨insertFuel, hashFun, hinsert⟩ := hdb.inserted
  obtain ⟨xs, hrep, hfound⟩ := hrun.found q
  have hencodes := encodes_of_selectDatabase hname hrelay
  have hfits := length_selectDatabase_le hinsert q
  refine ⟨cachedFor (recordsOf xs) q, hrep.find _ _ _, hfound, ?_, ?_⟩
  · intro hnil
    have hlocal : localRecords (recordsOf xs) db q = selectDatabase db q := if_pos hnil
    constructor
    · intro hopen
      have hq : AnsweredLocally (recordsOf xs) db q := by
        refine ⟨hencodes, ?_, ?_⟩
        · rw [hlocal]
          exact hrelay
        · intro _ r hr
          exact Bool.eq_false_iff.2 (mt (relay_address hrrs hinsert htype hr).2.1 (hopen r hr))
      rw [← hlocal] at hfits ⊢
      exact resolvHandle_single hinsert hquery hrep hq hfits
    · rintro ⟨r, hr, hzero⟩
      refine resolvHandle_blocked hquery hencodes hrep hnil ?_ hfits ?_
      · intro r hr
        exact (relay_address hrrs hinsert htype hr).1
      · exact ⟨r, hr, (relay_address hrrs hinsert htype hr).2.2 hzero⟩
  · intro hne hlen
    have hlocal : localRecords (recordsOf xs) db q = cachedFor (recordsOf xs) q := if_neg hne
    have hq : AnsweredLocally (recordsOf xs) db q := by
      refine ⟨hencodes, ?_, ?_⟩
      · rw [hlocal]
        exact hne
      · intro hnil
        exact absurd hnil hne
    rw [← hlocal] at hlen ⊢
    exact resolvHandle_single hinsert hquery hrep hq hlen

/-- The question for `a.b`, which the sample relay file has. -/
def relayQuestion : MessageQuestion := ⟨[1, 97, 1, 98, 0], rrtypeA, rrclassIn⟩

theorem relayQuestion_isQuery : IsQuery (queryOf [relayQuestion]) [relayQuestion] :=
  ⟨by decide, by decide, rfl, by decide⟩

/-- A reply that makes `c` an alias of `a.b` and brings an address of its own for `a.b`. -/
def aliasReply : List UInt8 :=
  [0, 7, 0x81, 0x80, 0, 0, 0, 2, 0, 0, 0, 0,
    1, 99, 0, 0, 5, 0, 1, 0, 0, 0, 60, 0, 5, 1, 97, 1, 98, 0,
    1, 97, 1, 98, 0, 0, 1, 0, 1, 0, 0, 0, 60, 0, 4, 10, 9, 9, 9]

/-- After a query for `c` and that reply, `a.b` is answered with the address of the reply. -/
theorem aliasReply_hides_relay :
    ∃ db cache accepted, RelayDatabase sampleRelay db ∧
      ResolvRun db cache accepted ∧ IsQuery (queryOf [relayQuestion]) [relayQuestion] ∧
      selectDatabase db relayQuestion =
        [⟨[1, 97, 1, 98, 0], rrtypeA, rrclassIn, 0, 4, [10, 0, 0, 1]⟩,
          ⟨[1, 97, 1, 98, 0], rrtypeA, rrclassIn, 0, 4, [10, 0, 0, 2]⟩] ∧
      ∃ r ans, resolvHandle 64 1 db ⟨8, .recvFail⟩ (fun _ => 0) cache (queryOf [relayQuestion]) =
          .ok r ∧ r.ret = 1 ∧ r.answer = some ans ∧
        ans.answer = [some ⟨[1, 97, 1, 98, 0], rrtypeA, rrclassIn, 60, 4, [10, 9, 9, 9]⟩] ∧
        ¬Answers (resolvHandle 64 1 db ⟨8, .recvFail⟩ (fun _ => 0) cache
          (queryOf [relayQuestion])) (selectDatabase db relayQuestion) := by
  have hrun : ((insertAll domainLenMax (treeInit rrHash) sampleRelay).bind fun db =>
      (resolvHandle 64 0 db ⟨7, .datagram aliasReply⟩ (fun _ => 0) (initCache 0)
        (queryOf [⟨[1, 99, 0], rrtypeA, rrclassIn⟩])).toOption.bind fun r =>
      (resolvHandle 64 1 db ⟨8, .recvFail⟩ (fun _ => 0) r.cache
        (queryOf [relayQuestion])).toOption.map fun r' =>
      (decide r.NamesFit, selectDatabase db relayQuestion, r'.ret,
        r'.answer.map fun ans => ans.answer)) =
      some (true, [⟨[1, 97, 1, 98, 0], rrtypeA, rrclassIn, 0, 4, [10, 0, 0, 1]⟩,
          ⟨[1, 97, 1, 98, 0], rrtypeA, rrclassIn, 0, 4, [10, 0, 0, 2]⟩], 1,
        some [some ⟨[1, 97, 1, 98, 0], rrtypeA, rrclassIn, 60, 4, [10, 9, 9, 9]⟩]) := by
    decide +kernel
  obtain ⟨db, hdb, hrun⟩ := Option.bind_eq_some_iff.1 hrun
  obtain ⟨r, hr, hrun⟩ := Option.bind_eq_some_iff.1 hrun
  obtain ⟨r₀, hr₀, rfl⟩ := ok_of_toOption_map ((congrArg (Option.map id) hr).trans rfl)
  obtain ⟨r', hr', hres⟩ := ok_of_toOption_map hrun
  obtain ⟨hnames, hres⟩ := Prod.mk.inj hres
  obtain ⟨hselect, hres⟩ := Prod.mk.inj hres
  obtain ⟨hret, hans⟩ := Prod.mk.inj hres
  obtain ⟨ans, hans, hanswer⟩ := Option.map_eq_some_iff.1 hans
  have hreached := (ResolvRun.start 0).handle hr₀ (of_decide_eq_true hnames)
  refine ⟨db, r₀.cache, _, sampleRelay_database hdb, hreached, relayQuestion_isQuery, hselect, r',
    ans, hr', hret, hans, hanswer, ?_⟩
  rintro ⟨r'', ans', hr'', -, hans', -, hsection⟩
  cases hr'.symm.trans hr''
  cases hans.symm.trans hans'
  have hlen := congrArg List.length hsection
  rw [hanswer, hselect] at hlen
  cases hlen

/-- A reply with an address for `c`. -/
def otherReply : List UInt8 :=
  [0, 7, 0x81, 0x80, 0, 0, 0, 1, 0, 0, 0, 0, 1, 99, 0, 0, 1, 0, 1, 0, 0, 0, 60, 0, 4, 10, 9, 9, 9]

/-- After a query for `c`, the reply with its address and a refresh pass, `a.b` is answered with
its two addresses in the relay file. -/
theorem resolvRun_relay_sample :
    ∃ db cache, RelayDatabase sampleRelay db ∧
      ResolvRun db cache [⟨[1, 99, 0], rrtypeA, rrclassIn, 60, 4, [10, 9, 9, 9]⟩] ∧
      (selectDatabase db relayQuestion).map (fun r => r.rdata) = [[10, 0, 0, 1], [10, 0, 0, 2]] ∧
      Answers (resolvHandle 64 2 db ⟨8, .recvFail⟩ (fun _ => 0) cache (queryOf [relayQuestion]))
        (selectDatabase db relayQuestion) := by
  have hrun : ((insertAll domainLenMax (treeInit rrHash) sampleRelay).bind fun db =>
      (resolvHandle 64 0 db ⟨7, .datagram otherReply⟩ (fun _ => 0) (initCache 0)
        (queryOf [⟨[1, 99, 0], rrtypeA, rrclassIn⟩])).toOption.bind fun r =>
      (refreshCache 1 r.cache).map fun cache =>
      ((selectDatabase db relayQuestion).map (fun r => r.rdata), r.accepted,
        cacheFindRr cache relayQuestion.qname rrtypeA rrclassIn)) =
      some ([[10, 0, 0, 1], [10, 0, 0, 2]],
        [⟨[1, 99, 0], rrtypeA, rrclassIn, 60, 4, [10, 9, 9, 9]⟩], some []) := by
    decide +kernel
  obtain ⟨db, hdb, hrun⟩ := Option.bind_eq_some_iff.1 hrun
  obtain ⟨r, hr, hrun⟩ := Option.bind_eq_some_iff.1 hrun
  obtain ⟨r₀, hr₀, rfl⟩ := ok_of_toOption_map ((congrArg (Option.map id) hr).trans rfl)
  obtain ⟨cache, hcache, hres⟩ := Option.map_eq_some_iff.1 hrun
  obtain ⟨hselect, hres⟩ := Prod.mk.inj hres
  obtain ⟨haccepted, hmiss⟩ := Prod.mk.inj hres
  change r₀.accepted = _ at haccepted
  have hnames : r₀.NamesFit := by
    rw [ResolvResult.NamesFit, haccepted]
    decide
  have hreached := ((ResolvRun.start 0).handle hr₀ hnames).refresh hcache
  rw [haccepted, List.nil_append] at hreached
  have hrrs : ∀ rr ∈ sampleRelay, rr.type = rrtypeA → rr.rdlength = 4 := by decide
  have hrelay : selectDatabase db relayQuestion ≠ [] := by
    intro hnil
    rw [hnil] at hselect
    cases hselect
  have hopen : ∀ r ∈ selectDatabase db relayQuestion, r.rdata ≠ [0, 0, 0, 0] := by
    intro r hr hzero
    have hmem : r.rdata ∈ (selectDatabase db relayQuestion).map fun r => r.rdata :=
      List.mem_map_of_mem hr
    rw [hselect, hzero] at hmem
    exact absurd hmem (by decide)
  obtain ⟨found, hfind, -, hdatabase, -⟩ := resolvRun_relay (sampleRelay_database hdb)
    hrrs hreached relayQuestion_isQuery (by decide) rfl hrelay 64 2 ⟨8, .recvFail⟩ fun _ => 0
  have hnil : found = [] := (Option.some.inj (hmiss.symm.trans hfind)).symm
  exact ⟨db, cache, sampleRelay_database hdb, hreached, hselect, (hdatabase hnil).1 hopen⟩

end Relay

end BakaDns
