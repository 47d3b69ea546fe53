import BakaDns.EncodeBounds
import BakaDns.ResolvRuns

/-!
# How many records answer one question

`cache_find_rr` copies every cached record for a question to `ans_buffer`, which has room for 100.
The cache keeps records that differ by their key apart, so what a lookup copies are the different
records for its name, type and class in the replies so far, less those that have expired.
-/

namespace BakaDns
open CBytes LinkedHeap ReadTrace

/-- How many different records there are in a list. -/
def distinctCount (rrs : List ResourceRecord) : ℕ := (rrs.map rrKey).dedup.length

/-- The records of a list that answer a question. -/
def recordsFor (q : MessageQuestion) (rrs : List ResourceRecord) : List ResourceRecord :=
  rrs.filter (cacheFinds q.qname q.qtype q.qclass)

/-- For every question, the records that the cache has for it and those that a reply brings make at
most 100 different ones. -/
def ReplyFits (cache : RrCache) (reply : List ResourceRecord) : Prop :=
  ∀ (q : MessageQuestion) (found : List ResourceRecord),
    cacheFindRr cache q.qname q.qtype q.qclass = some found →
      distinctCount (found ++ recordsFor q reply) ≤ ancountMax

/-- No lookup fills more than the answer buffer. -/
def FitsBuffer (cache : RrCache) : Prop :=
  ∀ q : MessageQuestion, ∃ found, cacheFindRr cache q.qname q.qtype q.qclass = some found ∧
    found.length ≤ ancountMax

/-- A run in which every reply fits, and so do the names of its records. -/
inductive FittingRun (db : BucketTree) : RrCache → Prop
  | start (now : ℕ) : FittingRun db (initCache now)
  | handle {cache : RrCache} {fuel now : ℕ} {x : Exchange} {sendbuf : Mem} {query : Message}
      {r : ResolvResult} (h : FittingRun db cache)
      (hr : resolvHandle fuel now db x sendbuf cache query = .ok r) (hnames : r.NamesFit)
      (hfits : ReplyFits cache r.accepted) : FittingRun db r.cache
  | refresh {cache cache' : RrCache} {now : ℕ} (h : FittingRun db cache)
      (hc : refreshCache now cache = some cache') : FittingRun db cache'

variable {cache cache' : RrCache} {xs ys : List (Addr × CacheEntry)} {rrs : List ResourceRecord}
  {rr : ResourceRecord} {fuel now : ℕ} {db : BucketTree} {x : Exchange} {sendbuf : Mem}
  {query : Message} {r : ResolvResult} {q : MessageQuestion}

section Accepted

theorem msgRrFromBuf_inMemory {b : List UInt8} {p e : ℕ} (hb : b.length ≤ clientBufferSize)
    (h : (msgRrFromBuf fuel b p).result = some (rr, e)) : rr.InMemory := by
  simp only [msgRrFromBuf, result_bind, Option.bind_eq_some_iff, result_pure, Option.some.injEq,
    Prod.mk.injEq, Prod.exists] at h
  obtain ⟨dest, offset, hname, type, -, rrclass, -, ttl, -, rdlength, -, rrbuf, -, rfl, -⟩ := h
  have hlen := readDomain_length_le hname
  have hcstr : (cstr (dest ++ [0])).length ≤ (dest ++ [0]).length :=
    (List.takeWhile_sublist _).length_le
  rw [List.length_append, List.length_singleton] at hcstr
  rw [clientBufferSize] at hb
  change (cstr (dest ++ [0])).length < 2 ^ 64 - 1
  omega

/-- The names of an accepted reply are short. -/
theorem accepted_inMemory (hr : resolvHandle fuel now db x sendbuf cache query = .ok r) :
    ∀ rr ∈ r.accepted, rr.InMemory := by
  intro rr hrr
  rw [ResolvResult.accepted] at hrr
  split at hrr
  · next hext =>
    obtain ⟨b, m, -, hdec, -, hrun⟩ := resolvHandle_external hr hext
    have hown := hr
    rw [hrun sendbuf] at hown
    obtain ⟨w, -, hown⟩ := bind_eq_ok.1 hown
    have hans : r.answer = some (m.setId query.header.id) := by
      rw [← Except.ok.inj hown]
    obtain ⟨s, hm, hs, -⟩ := messageFromBuf_sections hdec
    obtain ⟨hsection, hcount⟩ : (m.setId query.header.id).answer = s.answer.map some ∧
        (m.setId query.header.id).header.ancount.toNat = s.answer.length := ⟨hm.answer, hm.ancount⟩
    rw [hans, Option.elim_some, hsection, hcount, List.take_of_length_le (by simp),
      List.reduceOption_mem_iff] at hrr
    obtain ⟨p, e, hread⟩ := hs.answer rr (by simpa using hrr)
    exact msgRrFromBuf_inMemory (List.length_take_le _ _) hread
  · cases hrr

end Accepted

section Step

/-- Records of a reply go into the cache one after another. -/
theorem cachePutAll_grown (hrep : CacheRep cache xs) (hok : EntriesOk xs)
    (hrrs : ∀ rr ∈ rrs, rr.InMemory) (hput : cachePutAll now cache rrs = .ok cache') :
    ∃ ys, CacheRep cache' ys ∧ EntriesOk ys ∧ Grown xs rrs ys := by
  induction rrs generalizing cache xs with
  | nil =>
    cases hput
    refine ⟨xs, hrep, hok, fun x hx => hx, ?_, fun y hy => .inl hy⟩
    intro r hr
    cases hr
  | cons rr rrs ih =>
    obtain ⟨cache₁, hone, hput⟩ := bind_eq_ok.1 hput
    obtain ⟨c, hone', hrep₁⟩ := hrep.put now rr
    cases hone'.symm.trans (orCrash_eq_ok.1 hone)
    have hok₁ := hok.putEntry (hrrs rr List.mem_cons_self) now cache.brk
    obtain ⟨ys, hrep', hok', hgrown⟩ :=
      ih hrep₁ hok₁ (fun r hr => hrrs r (List.mem_cons_of_mem rr hr)) hput
    exact ⟨ys, hrep', hok', (grown_putEntry hok now rr cache.brk).trans hgrown⟩

theorem resolvHandle_grown (hrep : CacheRep cache xs) (hok : EntriesOk xs)
    (hr : resolvHandle fuel now db x sendbuf cache query = .ok r) :
    ∃ ys, CacheRep r.cache ys ∧ EntriesOk ys ∧ Grown xs r.accepted ys := by
  obtain ⟨cache₁, zs, hrep₁, hperm, hput⟩ := resolvHandle_puts hrep hr
  obtain ⟨ys, hrep', hok', hgrown⟩ :=
    cachePutAll_grown hrep₁ (hok.perm hperm) (accepted_inMemory hr) hput
  refine ⟨ys, hrep', hok', fun x hx => hgrown.old x (hperm.mem_iff.2 hx), hgrown.new, ?_⟩
  intro y hy
  rcases hgrown.source y hy with hold | hnew
  · exact .inl (hperm.mem_iff.1 hold)
  · exact .inr hnew

/-- Which questions a record answers is part of its key. -/
theorem cacheFinds_congr {e e' : ResourceRecord} (he : e.InMemory) (he' : e'.InMemory)
    (hkey : rrKey e = rrKey e') (q : MessageQuestion) :
    cacheFinds q.qname q.qtype q.qclass e = cacheFinds q.qname q.qtype q.qclass e' := by
  simp only [rrKey, RrKey.mk.injEq] at hkey
  rw [Bool.eq_iff_iff, cacheFinds_iff he, cacheFinds_iff he', hkey.1, hkey.2.1, hkey.2.2.1]

/-- Entries have different keys, so a lookup finds as many as there are keys for its question. -/
theorem length_recordsFor (hok : EntriesOk ys) {keys : List RrKey}
    (hkeys : ∀ k, k ∈ keys ↔ ∃ y ∈ ys, cacheFinds q.qname q.qtype q.qclass y.2.rr = true ∧
      rrKey y.2.rr = k) : (cachedFor (recordsOf ys) q).length = keys.dedup.length := by
  have hnodup : ((recordsFor q (recordsOf ys)).map rrKey).Nodup := by
    have hsub : (recordsFor q (recordsOf ys)).Sublist (recordsOf ys) := List.filter_sublist
    refine List.Nodup.sublist (hsub.map rrKey) ?_
    rw [recordsOf, List.map_map]
    exact hok.distinct
  have hperm : ((recordsFor q (recordsOf ys)).map rrKey).Perm keys.dedup := by
    refine (List.perm_ext_iff_of_nodup hnodup (List.nodup_dedup keys)).2 fun k => ?_
    rw [List.mem_dedup, hkeys]
    simp [recordsFor, recordsOf, and_assoc]
  rw [cachedFor, List.length_map, ← hperm.length_eq, List.length_map]
  rfl

/-- What a lookup finds after a call: the different records for its question among those cached
before and those of the reply. -/
theorem resolvHandle_found_length (hrep : CacheRep cache xs) (hok : EntriesOk xs)
    (hr : resolvHandle fuel now db x sendbuf cache query = .ok r) (q : MessageQuestion) :
    ∃ found found', cacheFindRr cache q.qname q.qtype q.qclass = some found ∧
      cacheFindRr r.cache q.qname q.qtype q.qclass = some found' ∧
      found'.length = distinctCount (found ++ recordsFor q r.accepted) := by
  obtain ⟨ys, hrep', hok', hgrown⟩ := resolvHandle_grown hrep hok hr
  have hmemory := accepted_inMemory hr
  refine ⟨cachedFor (recordsOf xs) q, cachedFor (recordsOf ys) q, hrep.find _ _ _,
    hrep'.find _ _ _, ?_⟩
  refine length_recordsFor hok' fun k => ?_
  simp only [List.map_append, List.mem_append, List.mem_map, cachedFor, recordsFor, recordsOf,
    List.mem_filter, exists_exists_and_eq_and]
  constructor
  · rintro (⟨e, ⟨⟨x, hx, rfl⟩, hfinds⟩, rfl⟩ | ⟨rr, ⟨hrr, hfinds⟩, rfl⟩)
    · exact ⟨x, hgrown.old x hx, hfinds, (rrKey_rrCopy _).symm⟩
    · obtain ⟨y, hy, hkey⟩ := hgrown.new rr hrr
      refine ⟨y, hy, ?_, hkey⟩
      rw [cacheFinds_congr (hok'.inMemory y hy) (hmemory rr hrr) hkey]
      exact hfinds
  · rintro ⟨y, hy, hfinds, rfl⟩
    rcases hgrown.source y hy with hold | ⟨rr, hrr, heq⟩
    · exact .inl ⟨y.2.rr, ⟨⟨y, hold, rfl⟩, hfinds⟩, rrKey_rrCopy _⟩
    · have hkey : rrKey y.2.rr = rrKey rr := by rw [heq, rrKey_rrCopy]
      refine .inr ⟨rr, ⟨hrr, ?_⟩, hkey.symm⟩
      rw [← cacheFinds_congr (hok'.inMemory y hy) (hmemory rr hrr) hkey]
      exact hfinds

/-- A call keeps the buffer large enough exactly when the reply it accepts fits. -/
theorem fitsBuffer_handle_iff (hrep : CacheRep cache xs) (hok : EntriesOk xs)
    (hr : resolvHandle fuel now db x sendbuf cache query = .ok r) :
    FitsBuffer r.cache ↔ ReplyFits cache r.accepted := by
  constructor
  · intro hbuffer q found hfound
    obtain ⟨found₀, found', hbefore, hafter, hlen⟩ := resolvHandle_found_length hrep hok hr q
    obtain ⟨found'', hafter', hle⟩ := hbuffer q
    cases hfound.symm.trans hbefore
    cases hafter.symm.trans hafter'
    rw [← hlen]
    exact hle
  · intro hfits q
    obtain ⟨found, found', hbefore, hafter, hlen⟩ := resolvHandle_found_length hrep hok hr q
    refine ⟨found', hafter, ?_⟩
    rw [hlen]
    exact hfits q found hbefore

/-- A refresh pass only takes records away. -/
theorem length_cachedFor_refresh (now : ℕ) (xs : List (Addr × CacheEntry)) (q : MessageQuestion) :
    (cachedFor (recordsOf (refreshEntries now xs)) q).length ≤
      (cachedFor (recordsOf xs) q).length := by
  have hsub : ((xs.filter (live now)).take cacheSizeMax).Sublist xs :=
    (List.take_sublist _ _).trans List.filter_sublist
  have hcount : ∀ zs : List (Addr × CacheEntry), (cachedFor (recordsOf zs) q).length =
      zs.countP fun z => cacheFinds q.qname q.qtype q.qclass z.2.rr := by
    intro zs
    rw [cachedFor, List.length_map, recordsOf, List.filter_map, List.length_map,
      List.countP_eq_length_filter]
    rfl
  rw [hcount, hcount, refreshEntries_eq, List.countP_map]
  exact hsub.countP_le

end Step

section Runs

theorem fitsBuffer_init (now : ℕ) : FitsBuffer (initCache now) := by
  intro q
  exact ⟨_, (initCache_rep now).find _ _ _, Nat.zero_le _⟩

theorem FittingRun.invariant (h : FittingRun db cache) :
    FitsBuffer cache ∧ ∃ xs, CacheRep cache xs ∧ EntriesOk xs := by
  induction h with
  | start now => exact ⟨fitsBuffer_init now, cacheReachable_rep (.init now)⟩
  | handle _ hr _ hfits ih =>
    obtain ⟨-, xs, hrep, hok⟩ := ih
    obtain ⟨ys, hrep', hok', -⟩ := resolvHandle_grown hrep hok hr
    exact ⟨(fitsBuffer_handle_iff hrep hok hr).2 hfits, ys, hrep', hok'⟩
  | refresh _ hc ih =>
    obtain ⟨hbuffer, xs, hrep, hok⟩ := ih
    obtain ⟨cache', hc', hrep'⟩ := hrep.refresh _
    cases hc'.symm.trans hc
    refine ⟨fun q => ⟨_, hrep'.find _ _ _, ?_⟩, _, hrep', hok.refreshEntries _⟩
    obtain ⟨found, hfound, hle⟩ := hbuffer q
    cases (hrep.find q.qname q.qtype q.qclass).symm.trans hfound
    exact Nat.le_trans (length_cachedFor_refresh _ xs q) hle

/-- In every run whose replies all fit, no lookup writes more records than the answer buffer has
room for; and after the next call, if the names of its reply fit, this is so exactly when the reply
fits as well. -/
theorem fittingRun_fitsBuffer (h : FittingRun db cache) :
    FitsBuffer cache ∧ ∀ fuel now x sendbuf query r,
      resolvHandle fuel now db x sendbuf cache query = .ok r → r.NamesFit →
        (FitsBuffer r.cache ↔ ReplyFits cache r.accepted) := by
  obtain ⟨hbuffer, xs, hrep, hok⟩ := h.invariant
  refine ⟨hbuffer, ?_⟩
  intro fuel now x sendbuf query r hr _
  exact fitsBuffer_handle_iff hrep hok hr

/-- The sample query and a reply with one address. -/
theorem fittingRun_fitsBuffer_sample :
    ∃ r, resolvHandle 16 0 (treeInit rrHash) ⟨7, .datagram compressedReply⟩ (fun _ => 0)
        (initCache 0) sampleQuery = .ok r ∧ FitsBuffer r.cache := by
  have hrun : (resolvHandle 16 0 (treeInit rrHash) ⟨7, .datagram compressedReply⟩ (fun _ => 0)
      (initCache 0) sampleQuery).toOption.map (fun r => (r.accepted.length, decide r.NamesFit)) =
        some (1, true) := by
    decide +kernel
  obtain ⟨r, hr, hres⟩ := ok_of_toOption_map hrun
  obtain ⟨hlen, hnames⟩ := Prod.mk.inj hres
  have hfits : ReplyFits (initCache 0) r.accepted := by
    intro q found hfound
    cases ((initCache_rep 0).find q.qname q.qtype q.qclass).symm.trans hfound
    have hle := (List.dedup_sublist ((recordsFor q r.accepted).map rrKey)).length_le
    have hfilter : (recordsFor q r.accepted).length ≤ r.accepted.length := List.length_filter_le _ _
    rw [List.length_map] at hle
    change ((recordsFor q r.accepted).map rrKey).dedup.length ≤ 100
    omega
  have hrun := (FittingRun.start 0).handle hr (of_decide_eq_true hnames) hfits
  exact ⟨r, hr, (fittingRun_fitsBuffer hrun).1⟩

/-- A reply with 101 addresses for `a`. -/
def crowdedRecords : List ResourceRecord :=
  (List.range 101).map fun i =>
    ⟨[1, 97, 0], rrtypeA, rrclassIn, 60, 4, [UInt8.ofNat (i + 1), 1, 1, 1]⟩

theorem crowdedRecords_distinct : distinctCount crowdedRecords = 101 := by
  have hnodup : (crowdedRecords.map rrKey).Nodup := by
    rw [crowdedRecords, List.map_map]
    refine List.nodup_range.map_on fun i hi j hj hkey => ?_
    have hdata := congrArg (fun key => key.rdata.headD 0) hkey
    have hhead : ∀ b : UInt8, ((cstr [b, 1, 1, 1]).take 4).headD 0 = b := by
      intro b
      rw [cstr_cons]
      split
      · next h0 => exact h0.symm
      · rfl
    have hbyte : UInt8.ofNat (i + 1) = UInt8.ofNat (j + 1) :=
      (hhead _).symm.trans (hdata.trans (hhead _))
    have hnat := congrArg UInt8.toNat hbyte
    rw [List.mem_range] at hi hj
    rw [UInt8.toNat_ofNat', UInt8.toNat_ofNat'] at hnat
    omega
  rw [distinctCount, hnodup.dedup, List.length_map, crowdedRecords, List.length_map,
    List.length_range]

def crowdedSections : Sections := ⟨[], crowdedRecords, [], []⟩

def crowdedMessage : Message :=
  ⟨⟨7, 0x81, 0x80, 0, 101, 0, 0⟩, [], crowdedRecords.map some, [], []⟩

def crowdedReply : List UInt8 := headerWire crowdedMessage.header ++ crowdedSections.wire

theorem crowdedMessage_holds : crowdedMessage.Holds crowdedSections :=
  ⟨rfl, rfl, rfl, rfl, rfl, rfl, rfl, rfl⟩

theorem crowdedSections_wire : crowdedSections.Wire where
  question q hq := by cases hq
  answer rr hrr := by
    obtain ⟨i, -, rfl⟩ := List.mem_map.1 hrr
    refine ⟨⟨[1, 97], rfl, by simp [IsLabelByte], by decide⟩, rfl, ?_, trivial⟩
    show 4 ≤ rrBufSize
    decide
  authority rr hrr := by cases hrr
  addition rr hrr := by cases hrr

theorem crowdedReply_decodes :
    (messageFromBuf 255 crowdedReply crowdedReply.length Message.zero).result =
      some (1, crowdedMessage) := by
  apply HasAt.message_eq crowdedMessage_holds (crowdedSections_wire.readsBack (le_refl 255)) rfl
  · exact List.prefix_refl _
  · rw [crowdedReply, length_messageWire]
    exact Nat.le_add_right 12 _
  · exact le_refl 255

/-- After that reply a lookup of `a` writes 101 records. -/
theorem crowdedReply_overflows :
    ∃ cache accepted found, ResolvRun (treeInit rrHash) cache accepted ∧
      cacheFindRr cache [1, 97, 0] rrtypeA rrclassIn = some found ∧ found.length = 101 ∧
      ¬FitsBuffer cache := by
  have hlen : crowdedReply.length ≤ clientBufferSize := by decide +kernel
  have hall : recordsFor ⟨[1, 97, 0], rrtypeA, rrclassIn⟩ crowdedRecords = crowdedRecords := by
    decide +kernel
  obtain ⟨cache', req, hrun⟩ := sampleQuery_isForwarded.resolvHandle (initCache_rep 0)
    (x := ⟨7, .datagram crowdedReply⟩) rfl hlen crowdedReply_decodes rfl crowdedMessage_holds 0
    fun _ => 0
  rw [messageToU8_eq (crowdedMessage_holds.setId _) crowdedSections_wire.encodes] at hrun
  have hok : EntriesOk [] := ⟨List.forall_mem_nil _, List.nodup_nil⟩
  obtain ⟨found, found', hbefore, hafter, hfound⟩ := resolvHandle_found_length (initCache_rep 0) hok
    hrun ⟨[1, 97, 0], rrtypeA, rrclassIn⟩
  cases ((initCache_rep 0).find _ _ _).symm.trans hbefore
  have haccepted : ∀ ret req size mem, ResolvResult.accepted ⟨ret, cache', req,
      some (crowdedMessage.setId sampleQuery.header.id), true, mem, size⟩ = crowdedRecords := by
    intro ret req size mem
    change ((crowdedRecords.map some).take 101).reduceOption = crowdedRecords
    decide +kernel
  rw [haccepted, hall] at hfound
  have hlength : found'.length = 101 := hfound.trans crowdedRecords_distinct
  have hnames : ∀ rr ∈ crowdedRecords, domainLen rr.name ≠ none := by
    intro rr hrr
    obtain ⟨i, -, rfl⟩ := List.mem_map.1 hrr
    exact Option.some_ne_none 3
  refine ⟨cache', _, found', (ResolvRun.start 0).handle hrun ?_, hafter, hlength, fun hbuffer => ?_⟩
  · rw [ResolvResult.NamesFit, haccepted]
    exact hnames
  obtain ⟨found'', hafter', hle⟩ := hbuffer ⟨[1, 97, 0], rrtypeA, rrclassIn⟩
  cases hafter.symm.trans hafter'
  rw [hlength] at hle
  exact absurd hle (by decide)

end Runs

end BakaDns
