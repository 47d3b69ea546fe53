import BakaDns.Expiry
import BakaDns.Forwarding

/-!
# Where cached records come from, under interleaving

Every record in the cache came in with the answer section of an accepted datagram, no matter how
threads and passes are interleaved, as long as no such record has an overlong name.
-/

namespace BakaDns
open CBytes ReadTrace LinkedHeap Threads

/-- A record in the answer section of the datagram that came back in an exchange, which decodes
without error, is not truncated and has the id that was sent. -/
def IsAnswerOf (x : Exchange) (rr : ResourceRecord) : Prop :=
  ∃ (fuel : ℕ) (b : List UInt8) (m : Message), x.outcome = .datagram b ∧
    (messageFromBuf fuel (b.take clientBufferSize) (b.take clientBufferSize).length
      Message.zero).result = some (1, m) ∧
    tcOf m.header.misc1 = 0 ∧ m.header.id = x.newId ∧ some rr ∈ m.answer

/-- A record of one of these exchanges, up to its TTL. -/
def FromAnswers (accepted : Set Exchange) (e : ResourceRecord) : Prop :=
  ∃ x ∈ accepted, ∃ rr, IsAnswerOf x rr ∧ e = { rr with ttl := e.ttl }

/-- The exchanges whose reply `send_question` has accepted so far. -/
def Shared.accepted (s : Shared) : Set Exchange := { x | Event.received x ∈ s.log }

/-- Every record in the cache is one of an accepted reply. -/
def Shared.Provenance (s : Shared) : Prop :=
  ∃ xs, CacheRep s.cache xs ∧ ∀ x ∈ xs, FromAnswers s.accepted x.2.rr

section Answers

variable {x : Exchange} {rr e : ResourceRecord} {accepted more : Set Exchange}

theorem msgRrFromBuf_rrCopy {fuel p : ℕ} {buf : List UInt8} {end' : ℕ}
    (h : (msgRrFromBuf fuel buf p).result = some (rr, end')) : rrCopy rr = rr := by
  simp only [msgRrFromBuf, result_bind, Option.bind_eq_some_iff, result_pure, Option.some.injEq,
    Prod.mk.injEq, Prod.exists] at h
  obtain ⟨dest, offset, hname, type, -, rrclass, -, ttl, -, rdlength, -, rrbuf, -, rfl, -⟩ := h
  apply rrCopy_eq_self
  · exact (isReadName_of_readDomain hname).cstr_append
  · dsimp only
    rw [List.length_take, UInt16.toNat_ofNat']
    exact Nat.min_eq_left (Nat.mod_le _ _)

/-- Decoded records are copied as they are. -/
theorem IsAnswerOf.rrCopy_eq (h : IsAnswerOf x rr) : rrCopy rr = rr := by
  obtain ⟨fuel, b, m, -, hdecodes, -, -, hmem⟩ := h
  obtain ⟨s, hm, hs, -⟩ := messageFromBuf_sections hdecodes
  rw [hm.answer] at hmem
  obtain ⟨p, end', hread⟩ := hs.answer rr (by simpa using hmem)
  exact msgRrFromBuf_rrCopy hread

theorem FromAnswers.mono (h : FromAnswers accepted e) (hle : accepted ≤ more) :
    FromAnswers more e := by
  obtain ⟨x, hx, hrest⟩ := h
  exact ⟨x, hle hx, hrest⟩

theorem FromAnswers.ttl (h : FromAnswers accepted e) (ttl : UInt32) :
    FromAnswers accepted { e with ttl := ttl } := by
  obtain ⟨x, hx, rr, hrr, he⟩ := h
  refine ⟨x, hx, rr, hrr, ?_⟩
  rw [he]

theorem FromAnswers.rrCopy_eq (h : FromAnswers accepted e) : rrCopy e = e := by
  obtain ⟨x, -, rr, hrr, he⟩ := h
  rw [he, rrCopy_setTtl, hrr.rrCopy_eq]

end Answers

/-! What a thread may put into the cache, and what it learns. -/

def CacheOp.pre (accepted : Set Exchange) : CacheOp → Prop
  | .putBack rr => FromAnswers accepted rr
  | .store rr => ∃ x ∈ accepted, IsAnswerOf x rr
  | _ => True

def AllFromAnswers (accepted : Set Exchange) (found : List ResourceRecord) : Prop :=
  ∀ rr ∈ found, FromAnswers accepted rr

def CacheOp.post (accepted : Set Exchange) : (op : CacheOp) → op.Res → Prop
  | .find _ _ _, found => AllFromAnswers accepted found
  | .receive x, _ => x ∈ accepted
  | _, _ => True

/-- The program of a thread, from what has been accepted so far. -/
def Sound {α : Type} (p : ResolvProg α) (Q : Set Exchange → α → Prop) (accepted : Set Exchange) :
    Prop := p.Safe CacheOp.pre CacheOp.post Q accepted

section Threads

variable {α : Type} {x : Exchange} {accepted : Set Exchange} {db : BucketTree}

theorem sound_ret (a : α) : Sound (.ret a) (fun _ _ => True) accepted := fun _ _ => trivial

theorem sound_lift (c : Except Fault α) : Sound (Prog.lift c) (fun _ _ => True) accepted :=
  Prog.safe_lift fun _ _ _ _ => trivial

theorem eachRecord_sound {put : ResourceRecord → ResolvProg Unit} {rrs : List ResourceRecord}
    (h : ∀ rr ∈ rrs, ∀ w, accepted ≤ w → Sound (put rr) (fun _ _ => True) w) :
    Sound (eachRecord put rrs) (fun _ _ => True) accepted := by
  induction rrs generalizing accepted with
  | nil => exact sound_ret ()
  | cons rr rrs ih =>
    refine Prog.Safe.bind (h rr List.mem_cons_self accepted le_rfl) fun _ w hw _ => ?_
    exact ih fun r hr v hv => h r (List.mem_cons_of_mem rr hr) v (hw.trans hv)

theorem putBack_sound {rr : ResourceRecord} (h : FromAnswers accepted rr) :
    Sound (putBack rr) (fun _ _ => True) accepted :=
  Prog.safe_perform (fun _ hw => h.mono hw) fun _ _ _ _ _ _ => trivial

theorem store_sound {rr : ResourceRecord} (h : ∃ x ∈ accepted, IsAnswerOf x rr) :
    Sound (store rr) (fun _ _ => True) accepted := by
  obtain ⟨x, hx, hrr⟩ := h
  exact Prog.safe_perform (fun _ hw => ⟨x, hw hx, hrr⟩) fun _ _ _ _ _ _ => trivial

theorem questionProg_sound (q : MessageQuestion) (vars : AnswerVars) :
    Sound (questionProg db q vars) (fun _ _ => True) accepted := by
  have hfind : Sound (findRr q) (fun w found => ∀ rr ∈ found, FromAnswers w rr) accepted := by
    apply Prog.safe_perform (fun _ _ => trivial)
    exact fun found w _ hpost w' hle rr hrr => (hpost rr hrr).mono hle
  refine Prog.Safe.bind hfind fun found w _ hfound => ?_
  refine Prog.Safe.bind (sound_lift _) fun ansBuffer w' hle _ => ?_
  split
  · have hback : Sound (putBackAll found) (fun _ _ => True) w' :=
      eachRecord_sound fun rr hrr v hv => putBack_sound ((hfound rr hrr).mono (hle.trans hv))
    exact Prog.Safe.bind hback fun _ _ _ _ => sound_ret _
  · exact sound_lift _

theorem questionsProg_sound (n : ℕ) (qs : List (Option MessageQuestion)) (vars : AnswerVars) :
    Sound (questionsProg db n qs vars) (fun _ _ => True) accepted := by
  induction n generalizing qs vars accepted with
  | zero => exact sound_ret _
  | succ n ih =>
    match qs with
    | [] => trivial
    | none :: qs => exact sound_ret _
    | some q :: qs =>
      rw [questionsProg]
      split
      · trivial
      · split
        · exact sound_ret _
        · refine Prog.Safe.bind (questionProg_sound q vars) fun r w _ _ => ?_
          dsimp only
          split
          · exact ih qs r.1
          · exact sound_ret _

/-- The records that a call stores are those of the reply it has just accepted. -/
theorem externalProg_sound (fuel : ℕ) (query : Message) (vars : AnswerVars) :
    Sound (externalProg fuel x query vars) (fun _ _ => True) accepted := by
  refine Prog.Safe.bind (Q := fun _ r => sendQuestion fuel x query
    (freeHeapMessage (initialAnswer query)) = .ok r) (Prog.safe_lift fun _ h _ _ => h)
    fun r w _ hsend => ?_
  unfold replyProg
  split
  · exact sound_ret _
  · next hret =>
    obtain ⟨b, m, hx, hdecodes, hid, hresp⟩ := sendQuestion_accepted rfl hsend hret
    obtain ⟨s, hm, -, htc⟩ := messageFromBuf_sections hdecodes
    have hreceive : Sound (receive x) (fun w _ => x ∈ w) w := by
      apply Prog.safe_perform (fun _ _ => trivial)
      exact fun _ _ _ hpost _ hle => hle hpost
    refine Prog.Safe.bind hreceive fun _ w' _ hmem => ?_
    refine Prog.Safe.bind (Q := fun _ answers => ∀ rr ∈ answers, IsAnswerOf x rr)
      (Prog.safe_lift ?_) fun answers w'' hle hanswers => ?_
    · intro answers hok _ _ rr hrr
      rw [← reduceOption_of_mapM_id (orCrash_eq_ok.1 hok), hresp] at hrr
      have hin := List.mem_of_mem_take (List.reduceOption_mem_iff.1 hrr)
      exact ⟨fuel, b, m, hx, hdecodes, htc, hid, hin⟩
    · have hstore : Sound (storeAll answers) (fun _ _ => True) w'' :=
        eachRecord_sound fun rr hrr v hv => store_sound ⟨x, hv (hle hmem), hanswers rr hrr⟩
      exact Prog.Safe.bind hstore fun _ _ _ _ => sound_ret _

theorem pendingProg_sound (fuel : ℕ) (query : Message) :
    Sound (pendingProg fuel db x query) (fun _ _ => True) accepted := by
  have hquery : Sound (queryProg db query) (fun _ _ => True) accepted := by
    unfold queryProg
    dsimp only
    split
    · exact sound_ret _
    · exact questionsProg_sound _ _ _
  refine Prog.Safe.bind hquery fun r w _ _ => ?_
  obtain ⟨vars, fin⟩ := r
  cases fin with
  | external => exact externalProg_sound fuel query vars
  | found => exact sound_ret _
  | failure rcode => exact sound_ret _

theorem finish_sound (sendbuf : Mem) (p : Pending) :
    Sound (finish sendbuf p) (fun _ _ => True) accepted :=
  Prog.safe_perform (fun _ _ => trivial) fun _ _ _ _ _ _ => trivial

theorem resolvProg_sound (fuel : ℕ) (sendbuf : Mem) (query : Message) :
    Sound (resolvProg fuel db x sendbuf query) (fun _ _ => True) accepted := by
  unfold resolvProg
  split
  · exact sound_ret ()
  · exact Prog.Safe.bind (pendingProg_sound fuel query) fun p _ _ _ => finish_sound sendbuf p

end Threads

/-- The invariant of runs without overlong names. -/
structure Shared.Sourced (s : Shared) : Prop where
  entries : s.Provenance
  shallow : s.shallow = []
  stale : s.stale = []

/-- What the threads still hold is from accepted replies too. -/
structure World.Sourced (w : World) : Prop where
  shared : w.shared.Sourced
  threads : ∀ j, Sound (w.threads j) (fun _ _ => True) w.shared.accepted

section Steps

variable {s s' : Shared} {rr : ResourceRecord} {cache : RrCache}

/-- `cache_put_rr` of a record from an accepted reply. -/
theorem Shared.Provenance.put (h : s.Provenance) (hrr : FromAnswers s.accepted rr)
    (hput : cachePutRr s.now s.cache rr = some cache) :
    Shared.Provenance { s with cache := cache } := by
  obtain ⟨xs, hrep, hxs⟩ := h
  obtain ⟨ys, hrep', hys⟩ := hrep.put_mem hput
  refine ⟨ys, hrep', fun y hy => ?_⟩
  rcases hys y hy with hy | ⟨heq, -⟩
  · exact hxs y hy
  · rw [heq, hrr.rrCopy_eq]
    exact hrr

/-- A pass removes records and changes the TTL of the others. -/
theorem Shared.Provenance.refresh (h : s.Provenance)
    (hcache : refreshCache s.now s.cache = some cache) :
    Shared.Provenance { s with cache := cache } := by
  obtain ⟨xs, hrep, hxs⟩ := h
  obtain ⟨ys, hrep', hys⟩ := hrep.refresh_mem hcache
  refine ⟨ys, hrep', fun y hy => ?_⟩
  obtain ⟨x, hx, -, heq⟩ := hys y hy
  rw [heq]
  exact (hxs x hx).ttl _

theorem Shared.Provenance.log (h : s.Provenance) (event : Event) :
    Shared.Provenance { s with log := event :: s.log } := by
  obtain ⟨xs, hrep, hxs⟩ := h
  exact ⟨xs, hrep, fun x hx => (hxs x hx).mono fun _ hy => List.mem_cons_of_mem event hy⟩

/-- What `cache_find_rr` copies out is as it is in the cache. -/
theorem Shared.Provenance.found (h : s.Provenance) {domain : List UInt8} {type rrclass : UInt16}
    {found : List ResourceRecord} (hfind : cacheFindRr s.cache domain type rrclass = some found) :
    AllFromAnswers s.accepted found := by
  obtain ⟨xs, hrep, hxs⟩ := h
  rw [hrep.find, Option.some.injEq] at hfind
  intro rr hrr
  rw [← hfind] at hrr
  obtain ⟨e, he, rfl⟩ := List.mem_map.1 hrr
  obtain ⟨x, hx, rfl⟩ := List.mem_map.1 (List.mem_of_mem_filter he)
  rw [(hxs x hx).rrCopy_eq]
  exact hxs x hx

/-- Every operation of a thread that keeps its part. -/
theorem Shared.Sourced.exec (h : s.Sourced) {i : ℕ} {op : CacheOp} {r : op.Res}
    (hpre : op.pre s.accepted) (hname : op.NameIsGood)
    (hexec : BakaDns.exec i op s = .ok (r, s')) :
    s'.Sourced ∧ s.accepted ≤ s'.accepted ∧ op.post s'.accepted r := by
  cases executed_of_exec hexec with
  | found hfind => exact ⟨h, le_rfl, h.entries.found hfind⟩
  | put hput => exact ⟨⟨h.entries.put hpre hput, h.shallow, h.stale⟩, le_rfl, trivial⟩
  | received x =>
    refine ⟨⟨h.entries.log _, h.shallow, h.stale⟩, fun y hy => List.mem_cons_of_mem _ hy, ?_⟩
    exact List.mem_cons_self
  | @stored rr cache hput =>
    obtain ⟨x, hx, hrr⟩ := hpre
    have hentries := h.entries.put ⟨x, hx, rr, hrr, rfl⟩ hput
    have hshallow : (s.store i rr cache).shallow = [] :=
      (Shared.shallow_store i hname cache).trans h.shallow
    exact ⟨⟨hentries.log _, hshallow, h.stale⟩, fun y hy => List.mem_cons_of_mem _ hy, trivial⟩
  | kept sendbuf p => exact ⟨h, le_rfl, trivial⟩
  | released sendbuf p =>
    rw [Shared.release_eq_self h.shallow]
    exact ⟨h, le_rfl, trivial⟩

end Steps

theorem sourced_initial (now : ℕ) : (World.initial now).Sourced where
  shared := ⟨⟨[], initCache_rep now, fun x hx => by cases hx⟩, rfl, rfl⟩
  threads _ := sound_ret ()

theorem sourced_step {db : BucketTree} {w w' : World} {a : Action} (h : w.Sourced)
    (hok : StoresGoodNames w a) (hstep : Stepped db w a w') : w'.Sourced := by
  cases hstep with
  | spawn i fuel x sendbuf query hi =>
    refine ⟨h.shared, fun j => ?_⟩
    dsimp only
    rcases eq_or_ne j i with rfl | hj
    · rw [Function.update_self]
      exact resolvProg_sound fuel sendbuf query
    · rw [Function.update_of_ne hj]
      exact h.threads j
  | perform i op k r shared hi hexec =>
    obtain ⟨hpre, hnext⟩ := Prog.safe_update h.threads hi
    have hname := hok op (World.opOf_perform hi)
    obtain ⟨hshared, hle, hpost⟩ := h.shared.exec hpre hname hexec
    exact ⟨hshared, hnext r _ hle hpost⟩
  | tick now hle => exact ⟨⟨h.shared.entries, h.shared.shallow, h.shared.stale⟩, h.threads⟩
  | refresh cache hcache =>
    refine ⟨⟨(h.shared.entries.refresh hcache).log _, h.shared.shallow, h.shared.stale⟩, ?_⟩
    exact fun j => (h.threads j).mono fun y hy => List.mem_cons_of_mem _ hy
  | reuse a name rdata heap ha hheap =>
    rw [h.shared.stale] at ha
    cases ha

/-- In every interleaving of any number of threads in which no answer record with an overlong name
comes in, the cache holds records of accepted replies only. -/
theorem run_provenance {db : BucketTree} {w : World} (hrun : Run db StoresGoodNames w) :
    w.shared.Provenance := by
  have hsourced : w.Sourced :=
    hrun.invariant sourced_initial fun _ _ _ h hok hstep => sourced_step h hok hstep
  exact hsourced.shared.entries

/-- A record that is put back after its node was removed is still one of its reply. -/
theorem run_provenance_short :
    ∃ w, Run (treeInit rrHash) StoresGoodNames w ∧
      cacheFindRr w.shared.cache [1, 97, 0] rrtypeA rrclassIn = some [shortRecord] ∧
      w.shared.Provenance := by
  have hplay : (play (treeInit rrHash) StoresGoodNames
      (shortSchedule ++ [.tick 1, .refresh, .tick 5, .perform 1, .refresh])
      (World.initial 0)).map
        (fun w => cacheFindRr w.shared.cache [1, 97, 0] rrtypeA rrclassIn) =
      some (some [shortRecord]) := by
    decide +kernel
  obtain ⟨w, hw, hfind⟩ := Option.map_eq_some_iff.1 hplay
  have hrun := (Run.start 0).play hw
  exact ⟨w, hrun, hfind, run_provenance hrun⟩

/-- A name of 256 bytes, an address for it, and the reply that brings it. -/
def longName : List UInt8 := (List.replicate 4 (63 :: List.replicate 63 97)).flatten

def longRecord : ResourceRecord := ⟨longName ++ [0], rrtypeA, rrclassIn, 60, 4, [10, 9, 9, 9]⟩

def longDatagram : List UInt8 :=
  [0, 7, 0x81, 0x80, 0, 0, 0, 1, 0, 0, 0, 0] ++ longName ++
    [0, 0, 1, 0, 1, 0, 0, 0, 60, 0, 4, 10, 9, 9, 9]

def longReply : Exchange where
  newId := 7
  outcome := .datagram longDatagram

theorem IsAnswerOf.eq_longRecord {rr : ResourceRecord} (h : IsAnswerOf longReply rr) :
    rr = longRecord := by
  obtain ⟨fuel, b, m, hx, hdecodes, -, -, hmem⟩ := h
  cases hx
  have hwalk : Walks (longDatagram.take clientBufferSize) (fun fuel => messageFromBuf fuel
      (longDatagram.take clientBufferSize) (longDatagram.take clientBufferSize).length
      Message.zero) _ := walks_messageFromBuf (by decide +kernel) (by decide +kernel)
  have hanswer : (messageFromBuf 512 (longDatagram.take clientBufferSize)
      (longDatagram.take clientBufferSize).length Message.zero).result.map
        (fun r => r.2.answer) = some [some longRecord] := by
    decide +kernel
  obtain ⟨r, hr, hans⟩ := Option.map_eq_some_iff.1 hanswer
  cases hwalk.mono.returns_unique ⟨512, hr⟩ ⟨fuel, hdecodes⟩
  rw [hans, List.mem_singleton, Option.some.injEq] at hmem
  exact hmem

/-- What is later stored in the blocks of the reply. -/
def forgedRecord : ResourceRecord := ⟨[1, 98, 0], rrtypeA, rrclassIn, 60, 4, [6, 6, 6, 6]⟩

/-- The node of a record with an overlong name keeps the blocks of the reply. When they are used
again, the cache answers with what was never received. -/
theorem overlongName_forged :
    ∃ w, Run (treeInit rrHash) (fun _ _ => True) w ∧
      w.shared.log = [.stored 0 longRecord, .received longReply] ∧
      cacheFindRr w.shared.cache [1, 98, 0] rrtypeA rrclassIn = some [forgedRecord] ∧
      ¬w.shared.Provenance := by
  have hplay : (play (treeInit rrHash) (fun _ _ => True)
      [.spawn 0 512 longReply (fun _ => 0) (queryOf [⟨[1, 97, 0], rrtypeA, rrclassIn⟩]),
        .perform 0, .perform 0, .perform 0, .perform 0,
        .reuse 1 forgedRecord.name forgedRecord.rdata] (World.initial 0)).map
        (fun w => (w.shared.log, cacheFindRr w.shared.cache [1, 98, 0] rrtypeA rrclassIn)) =
      some ([.stored 0 longRecord, .received longReply], some [forgedRecord]) := by
    decide +kernel
  obtain ⟨w, hw, hresult⟩ := Option.map_eq_some_iff.1 hplay
  obtain ⟨hlog, hfind⟩ := Prod.mk.inj hresult
  refine ⟨w, (Run.start 0).play hw, hlog, hfind, fun hprovenance => ?_⟩
  obtain ⟨x, hx, rr, hrr, heq⟩ := hprovenance.found hfind forgedRecord List.mem_cons_self
  have hreceived : Event.received x ∈ w.shared.log := hx
  rw [hlog, List.mem_cons, List.mem_singleton] at hreceived
  rcases hreceived with h | h
  · cases h
  · cases h
    rw [hrr.eq_longRecord] at heq
    have hrdata : forgedRecord.rdata = longRecord.rdata := congrArg ResourceRecord.rdata heq
    revert hrdata
    decide

end BakaDns
