import BakaDns.Lib.Threads
import BakaDns.ResolvRuns

/-!
# Resolver threads

`resolv_handle` once more, as a program for one of many threads: the cache may change between any
two of its critical sections. The blocks that a cached record shares with a reply are freed with
the reply, and whatever is stored there later becomes part of the cached record.
-/

namespace BakaDns
open CBytes LinkedHeap Threads

/-! The program of a call. -/

/-- The local variables of the question loop. -/
structure AnswerVars where
  ansBuffer : List ResourceRecord
  ansCnt : ℕ

/-- What is left of a call when its last access to the cache is over. -/
structure Pending where
  query : Message
  ans : Message
  vars : AnswerVars
  fin : LookupEnd

def Pending.built (p : Pending) (cache : RrCache) : Built :=
  ⟨cache, p.query, p.ans, p.vars.ansBuffer, p.vars.ansCnt, p.fin⟩

/-- The steps of a call that others can see. Those on the cache hold its lock; `receive` is the
return of `send_question` with a reply, `finish` the encoding and freeing of the answer. -/
inductive CacheOp
  | find (domain : List UInt8) (type rrclass : UInt16)
  | putBack (rr : ResourceRecord)
  | receive (x : Exchange)
  | store (rr : ResourceRecord)
  | finish (sendbuf : Mem) (p : Pending)

def CacheOp.Res : CacheOp → Type
  | .find _ _ _ => List ResourceRecord
  | _ => Unit

abbrev ResolvProg := Prog Fault CacheOp CacheOp.Res

def findRr (question : MessageQuestion) : ResolvProg (List ResourceRecord) :=
  Prog.perform (CacheOp.find question.qname question.qtype question.qclass)

def putBack (rr : ResourceRecord) : ResolvProg Unit := Prog.perform (CacheOp.putBack rr)

def receive (x : Exchange) : ResolvProg Unit := Prog.perform (CacheOp.receive x)

def store (rr : ResourceRecord) : ResolvProg Unit := Prog.perform (CacheOp.store rr)

def finish (sendbuf : Mem) (p : Pending) : ResolvProg Unit :=
  Prog.perform (CacheOp.finish sendbuf p)

/-- One `cache_put_rr` after another. -/
def eachRecord (put : ResourceRecord → ResolvProg Unit) : List ResourceRecord → ResolvProg Unit
  | [] => .ret ()
  | rr :: rrs => do
    put rr
    eachRecord put rrs

/-- The loop over the records that `cache_find_rr` copied out. -/
def putBackAll (rrs : List ResourceRecord) : ResolvProg Unit := eachRecord putBack rrs

/-- The loop over the records of a reply. -/
def storeAll (rrs : List ResourceRecord) : ResolvProg Unit := eachRecord store rrs

/-- The part of the question loop that asks the database. -/
def searchDatabase (db : BucketTree) (question : MessageQuestion) (vars : AnswerVars) :
    Except Fault (AnswerVars × Bool) := do
  let rrs := selectDatabase db question
  let ansBuffer ← storeRecords vars.ansBuffer rrs
  if rrs ≠ [] then
    match ← findBlocked rrs with
    | some i => .ok (⟨ansBuffer.modify i freeHeapResourceRecord, 0⟩, true)
    | none => .ok (⟨ansBuffer, rrs.length⟩, true)
  else .ok (⟨ansBuffer, vars.ansCnt⟩, false)

/-- The body of the question loop for a question with a good name. -/
def questionProg (db : BucketTree) (question : MessageQuestion) (vars : AnswerVars) :
    ResolvProg (AnswerVars × Bool) := do
  let found ← findRr question
  let ansBuffer ← Prog.lift (storeRecords vars.ansBuffer found)
  if found ≠ [] then do
    putBackAll found
    .ret (⟨ansBuffer, vars.ansCnt + found.length⟩, true)
  else Prog.lift (searchDatabase db question { vars with ansBuffer := ansBuffer })

/-- The question loop. -/
def questionsProg (db : BucketTree) :
    ℕ → List (Option MessageQuestion) → AnswerVars → ResolvProg (AnswerVars × LookupEnd)
  | 0, _, vars => .ret (vars, .found)
  | _ + 1, [], _ => .fail .crash
  | _ + 1, none :: _, vars => .ret (vars, .failure rcodeFormatError)
  | n + 1, some question :: questions, vars =>
    if question.qname = [] then .fail .crash
    else if domainLen question.qname = none then .ret (vars, .failure rcodeFormatError)
    else do
      let (vars, answered) ← questionProg db question vars
      if answered then questionsProg db n questions vars else .ret (vars, .external)

/-- The question loop, which is left out for an opcode other than QUERY. -/
def queryProg (db : BucketTree) (query : Message) : ResolvProg (AnswerVars × LookupEnd) :=
  let vars : AnswerVars := ⟨List.replicate ancountMax ResourceRecord.zero, 0⟩
  if opcodeOf query.header.misc1 ≠ opcodeQuery then .ret (vars, .external)
  else questionsProg db query.header.qdcount.toNat query.question vars

/-- What a call does after `send_question`. -/
def replyProg (x : Exchange) (vars : AnswerVars) (r : SendResult) : ResolvProg Pending :=
  if r.ret < 0 then
    .ret ⟨r.req, { r.resp with
      header := { r.resp.header with ancount := 0, arcount := 0, nscount := 0 } }, vars, .found⟩
  else do
    receive x
    let answers ← Prog.lift (orCrash ((r.resp.answer.take r.resp.header.ancount.toNat).mapM id))
    storeAll answers
    .ret ⟨r.req, r.resp, vars, .external⟩

/-- The exchange with the external server and its fallback. -/
def externalProg (fuel : ℕ) (x : Exchange) (query : Message) (vars : AnswerVars) :
    ResolvProg Pending := do
  let r ← Prog.lift (sendQuestion fuel x query (freeHeapMessage (initialAnswer query)))
  replyProg x vars r

/-- The question loop, and the exchange if it asks for one. -/
def pendingProg (fuel : ℕ) (db : BucketTree) (x : Exchange) (query : Message) :
    ResolvProg Pending := do
  let (vars, fin) ← queryProg db query
  match fin with
  | .external => externalProg fuel x query vars
  | fin => .ret ⟨query, initialAnswer query, vars, fin⟩

/-- `resolv_handle`. -/
def resolvProg (fuel : ℕ) (db : BucketTree) (x : Exchange) (sendbuf : Mem) (query : Message) :
    ResolvProg Unit :=
  if qrOf query.header.misc1 ≠ qrReq then .ret ()
  else do
    let p ← pendingProg fuel db x query
    finish sendbuf p

/-! The state that threads share. -/

/-- What a run is asked about later. -/
inductive Event
  | received (x : Exchange)
  | stored (now : ℕ) (rr : ResourceRecord)
  | refreshed (now : ℕ)
deriving DecidableEq, Repr

/-- The clock, the cache, the nodes whose record shares its blocks with the reply of a thread, the
nodes whose record has lost its blocks, and what has happened, latest first. -/
structure Shared where
  now : ℕ
  cache : RrCache
  shallow : List (ℕ × Addr)
  stale : List Addr
  log : List Event

/-- `cache_put_rr`: a new node for a record with an overlong name shares its blocks, for `rr_copy`
gives up after the shallow copy. -/
def Shared.store (i : ℕ) (rr : ResourceRecord) (s : Shared) (cache : RrCache) : Shared :=
  { s with
    cache := cache
    shallow := if cache.brk ≠ s.cache.brk ∧ domainLen rr.name = none
      then (i, s.cache.brk) :: s.shallow else s.shallow
    log := .stored s.now rr :: s.log }

/-- `free_heap_message` of the answer that thread `i` holds. -/
def Shared.release (i : ℕ) (s : Shared) : Shared :=
  { s with
    shallow := s.shallow.filter fun p => p.1 ≠ i
    stale := (s.shallow.filter fun p => p.1 = i).map Prod.snd ++ s.stale }

theorem Shared.shallow_store {s : Shared} {rr : ResourceRecord} (i : ℕ)
    (hname : domainLen rr.name ≠ none) (cache : RrCache) :
    (s.store i rr cache).shallow = s.shallow := by
  simp only [Shared.store, hname, and_false, if_false]

/-- Nothing is shared, so nothing is lost. -/
theorem Shared.release_eq_self {s : Shared} {i : ℕ} (h : s.shallow = []) : s.release i = s := by
  obtain ⟨now, cache, shallow, stale, log⟩ := s
  cases h
  rfl

/-- One step of thread `i` on the shared state. -/
def exec (i : ℕ) : (op : CacheOp) → Shared → Except Fault (op.Res × Shared)
  | .find domain type rrclass, s => do
    let found ← orCrash (cacheFindRr s.cache domain type rrclass)
    .ok (found, s)
  | .putBack rr, s => do
    let cache ← orCrash (cachePutRr s.now s.cache rr)
    .ok ((), { s with cache := cache })
  | .receive x, s => .ok ((), { s with log := .received x :: s.log })
  | .store rr, s => do
    let cache ← orCrash (cachePutRr s.now s.cache rr)
    .ok ((), s.store i rr cache)
  | .finish sendbuf p, s => do
    let ans ← completeAnswer (p.built s.cache)
    let (msgsize, _) ← messageToU8 ans sendbuf 0
    -- an answer that cannot be encoded is not freed
    .ok ((), if msgsize < 0 then s else s.release i)

/-- What an operation of thread `i` returns and does to the shared state when it goes well. -/
inductive Executed (i : ℕ) (s : Shared) : (op : CacheOp) → op.Res → Shared → Prop
  | found {domain : List UInt8} {type rrclass : UInt16} {found : List ResourceRecord}
      (hfind : cacheFindRr s.cache domain type rrclass = some found) :
      Executed i s (.find domain type rrclass) found s
  | put {rr : ResourceRecord} {cache : RrCache}
      (hput : cachePutRr s.now s.cache rr = some cache) :
      Executed i s (.putBack rr) () { s with cache := cache }
  | received (x : Exchange) : Executed i s (.receive x) () { s with log := .received x :: s.log }
  | stored {rr : ResourceRecord} {cache : RrCache}
      (hput : cachePutRr s.now s.cache rr = some cache) :
      Executed i s (.store rr) () (s.store i rr cache)
  | kept (sendbuf : Mem) (p : Pending) : Executed i s (.finish sendbuf p) () s
  | released (sendbuf : Mem) (p : Pending) : Executed i s (.finish sendbuf p) () (s.release i)

theorem executed_of_exec {i : ℕ} {op : CacheOp} {r : op.Res} {s s' : Shared}
    (h : exec i op s = .ok (r, s')) : Executed i s op r s' := by
  cases op with
  | find domain type rrclass =>
    obtain ⟨found, hfind, heq⟩ := bind_eq_ok.1 h
    cases heq
    exact .found (orCrash_eq_ok.1 hfind)
  | putBack rr =>
    obtain ⟨cache, hput, heq⟩ := bind_eq_ok.1 h
    cases heq
    exact .put (orCrash_eq_ok.1 hput)
  | receive x =>
    cases h
    exact .received x
  | store rr =>
    obtain ⟨cache, hput, heq⟩ := bind_eq_ok.1 h
    cases heq
    exact .stored (orCrash_eq_ok.1 hput)
  | finish sendbuf p =>
    obtain ⟨ans, -, h⟩ := bind_eq_ok.1 h
    obtain ⟨⟨msgsize, mem⟩, -, heq⟩ := bind_eq_ok.1 h
    cases heq
    split
    · exact .kept sendbuf p
    · exact .released sendbuf p

/-! A thread that runs alone does what `resolvHandle` does. -/

section Alone

variable {i : ℕ} {db : BucketTree}

/-- The part of the state that `resolvHandle` is about. -/
def Shared.view (s : Shared) : ℕ × RrCache := (s.now, s.cache)

theorem eachRecord_implements {put : ResourceRecord → ResolvProg Unit}
    (hput : ∀ rr, Prog.Implements (exec i) Shared.view (put rr) fun t =>
      (orCrash (cachePutRr t.1 t.2 rr)).map fun cache => ((), (t.1, cache)))
    (rrs : List ResourceRecord) :
    Prog.Implements (exec i) Shared.view (eachRecord put rrs) fun t =>
      (cachePutAll t.1 t.2 rrs).map fun cache => ((), (t.1, cache)) := by
  induction rrs with
  | nil => exact Prog.implements_ret ()
  | cons rr rrs ih =>
    refine ((hput rr).bind fun _ => ih).congr fun t => ?_
    rw [cachePutAll]
    cases orCrash (cachePutRr t.1 t.2 rr) with
    | error e => rfl
    | ok cache => rfl

theorem map_bind_ok {α β γ : Type} (c : Except Fault α) (f : α → β) (g : β → γ) :
    (c >>= fun a => .ok (f a)).map g = c.map fun a => g (f a) := by
  cases c with
  | error e => rfl
  | ok a => rfl

theorem putBack_implements (rr : ResourceRecord) :
    Prog.Implements (exec i) Shared.view (putBack rr) fun t =>
      (orCrash (cachePutRr t.1 t.2 rr)).map fun cache => ((), (t.1, cache)) := by
  apply Prog.implements_perform
  intro s
  exact map_bind_ok (orCrash (cachePutRr s.now s.cache rr)) _ _

theorem store_implements (rr : ResourceRecord) :
    Prog.Implements (exec i) Shared.view (store rr) fun t =>
      (orCrash (cachePutRr t.1 t.2 rr)).map fun cache => ((), (t.1, cache)) := by
  apply Prog.implements_perform
  intro s
  exact map_bind_ok (orCrash (cachePutRr s.now s.cache rr)) _ _

theorem lookupDatabase_eq (db : BucketTree) (q : MessageQuestion) (cache : RrCache)
    (vars : AnswerVars) :
    lookupDatabase db q ⟨cache, vars.ansBuffer, vars.ansCnt⟩ =
      (searchDatabase db q vars).map fun r => (⟨cache, r.1.ansBuffer, r.1.ansCnt⟩, r.2) := by
  rw [lookupDatabase, searchDatabase]
  dsimp only
  cases storeRecords vars.ansBuffer (selectDatabase db q) with
  | error e => rfl
  | ok ansBuffer =>
    by_cases hne : selectDatabase db q ≠ []
    · simp only [bind, Except.bind, if_pos hne]
      cases findBlocked (selectDatabase db q) with
      | error e => rfl
      | ok blocked => cases blocked <;> rfl
    · simp only [bind, Except.bind, if_neg hne]
      rfl

/-- One question. -/
theorem questionProg_implements (q : MessageQuestion) (vars : AnswerVars) :
    Prog.Implements (exec i) Shared.view (questionProg db q vars) fun t =>
      (lookupQuestion t.1 db q ⟨t.2, vars.ansBuffer, vars.ansCnt⟩).map fun r =>
        ((⟨r.1.ansBuffer, r.1.ansCnt⟩, r.2), (t.1, r.1.cache)) := by
  have hfind : Prog.Implements (exec i) Shared.view (findRr q) fun t =>
      (orCrash (cacheFindRr t.2 q.qname q.qtype q.qclass)).map fun found => (found, t) := by
    apply Prog.implements_perform
    intro s
    exact map_bind_ok (orCrash (cacheFindRr s.cache q.qname q.qtype q.qclass)) _ _
  have hrest : ∀ found ansBuffer, Prog.Implements (exec i) Shared.view
      (if found ≠ [] then do
        putBackAll found
        .ret (⟨ansBuffer, vars.ansCnt + found.length⟩, true)
      else Prog.lift (searchDatabase db q { vars with ansBuffer := ansBuffer }))
      fun t => if found ≠ [] then
          (cachePutAll t.1 t.2 found).map fun cache =>
            ((⟨ansBuffer, vars.ansCnt + found.length⟩, true), (t.1, cache))
        else (searchDatabase db q { vars with ansBuffer := ansBuffer }).map fun r => (r, t) := by
    intro found ansBuffer
    by_cases hne : found ≠ []
    · simp only [if_pos hne]
      refine ((eachRecord_implements putBack_implements found).bind fun _ =>
        Prog.implements_ret _).congr fun t => ?_
      cases cachePutAll t.1 t.2 found with
      | error e => rfl
      | ok cache => rfl
    · simp only [if_neg hne]
      exact Prog.implements_lift _
  refine (hfind.bind fun found => (Prog.implements_lift _).bind fun ansBuffer =>
    hrest found ansBuffer).congr fun t => ?_
  rw [lookupQuestion]
  dsimp only
  cases orCrash (cacheFindRr t.2 q.qname q.qtype q.qclass) with
  | error e => rfl
  | ok found =>
    simp only [bind, Except.bind, Except.map]
    cases storeRecords vars.ansBuffer found with
    | error e => rfl
    | ok ansBuffer =>
      dsimp only
      split
      · cases cachePutAll t.1 t.2 found with
        | error e => rfl
        | ok cache => rfl
      · have heq := lookupDatabase_eq db q t.2 { vars with ansBuffer := ansBuffer }
        dsimp only at heq
        rw [heq]
        cases searchDatabase db q { vars with ansBuffer := ansBuffer } with
        | error e => rfl
        | ok r => rfl

/-- The question loop. -/
theorem questionsProg_implements (n : ℕ) (qs : List (Option MessageQuestion)) (vars : AnswerVars) :
    Prog.Implements (exec i) Shared.view (questionsProg db n qs vars) fun t =>
      (lookupLoop t.1 db n qs ⟨t.2, vars.ansBuffer, vars.ansCnt⟩).map fun r =>
        ((⟨r.1.ansBuffer, r.1.ansCnt⟩, r.2), (t.1, r.1.cache)) := by
  induction n generalizing qs vars with
  | zero => exact Prog.implements_ret (vars, LookupEnd.found)
  | succ n ih =>
    match qs with
    | [] => exact Prog.implements_lift (.error Fault.crash)
    | none :: qs => exact Prog.implements_ret (vars, LookupEnd.failure rcodeFormatError)
    | some q :: qs =>
      by_cases hnil : q.qname = []
      · simp only [questionsProg, lookupLoop, if_pos hnil]
        exact Prog.implements_lift (.error Fault.crash)
      · by_cases hlen : domainLen q.qname = none
        · simp only [questionsProg, lookupLoop, if_neg hnil, if_pos hlen]
          exact Prog.implements_ret (vars, LookupEnd.failure rcodeFormatError)
        · have hrest : ∀ r : AnswerVars × Bool, Prog.Implements (exec i) Shared.view
              (if r.2 then questionsProg db n qs r.1 else .ret (r.1, .external)) fun t =>
                if r.2 then (lookupLoop t.1 db n qs ⟨t.2, r.1.ansBuffer, r.1.ansCnt⟩).map fun r =>
                  ((⟨r.1.ansBuffer, r.1.ansCnt⟩, r.2), (t.1, r.1.cache))
                else .ok ((r.1, .external), t) := by
            rintro ⟨vars', answered⟩
            cases answered with
            | true => exact ih qs vars'
            | false => exact Prog.implements_ret (vars', LookupEnd.external)
          simp only [questionsProg, lookupLoop, if_neg hnil, if_neg hlen]
          refine ((questionProg_implements q vars).bind hrest).congr fun t => ?_
          cases lookupQuestion t.1 db q ⟨t.2, vars.ansBuffer, vars.ansCnt⟩ with
          | error e => rfl
          | ok r =>
            obtain ⟨st, answered⟩ := r
            cases answered with
            | true => rfl
            | false => rfl

theorem queryProg_implements (query : Message) :
    Prog.Implements (exec i) Shared.view (queryProg db query) fun t =>
      (lookupQuery t.1 db t.2 query).map fun r =>
        ((⟨r.1.ansBuffer, r.1.ansCnt⟩, r.2), (t.1, r.1.cache)) := by
  unfold queryProg lookupQuery
  by_cases hop : opcodeOf query.header.misc1 ≠ opcodeQuery
  · simp only [if_pos hop]
    exact Prog.implements_ret _
  · simp only [if_neg hop]
    exact questionsProg_implements _ _ _

/-- What a call still has to do, from what it has put together. -/
def Built.pending (b : Built) : Pending := ⟨b.query, b.ans, ⟨b.ansBuffer, b.ansCnt⟩, b.fin⟩

theorem replyProg_implements (x : Exchange) (vars : AnswerVars) (r : SendResult) :
    Prog.Implements (exec i) Shared.view (replyProg x vars r) fun t =>
      if r.ret < 0 then
        .ok (Pending.mk r.req { r.resp with header :=
          { r.resp.header with ancount := 0, arcount := 0, nscount := 0 } } vars .found, t)
      else orCrash ((r.resp.answer.take r.resp.header.ancount.toNat).mapM id) >>= fun answers =>
        (cachePutAll t.1 t.2 answers).map fun cache =>
          (Pending.mk r.req r.resp vars .external, (t.1, cache)) := by
  have hreceive : Prog.Implements (exec i) Shared.view (receive x) fun t => .ok ((), t) := by
    apply Prog.implements_perform
    intro s
    rfl
  unfold replyProg
  by_cases hret : r.ret < 0
  · simp only [if_pos hret]
    exact Prog.implements_ret _
  · simp only [if_neg hret]
    refine (hreceive.bind fun _ => (Prog.implements_lift _).bind fun answers =>
      (eachRecord_implements store_implements answers).bind fun _ =>
        Prog.implements_ret _).congr fun t => ?_
    cases orCrash ((r.resp.answer.take r.resp.header.ancount.toNat).mapM id) with
    | error e => rfl
    | ok answers =>
      simp only [bind, Except.bind, Except.map]
      cases cachePutAll t.1 t.2 answers with
      | error e => rfl
      | ok cache => rfl

theorem externalProg_implements (fuel : ℕ) (x : Exchange) (query : Message) (vars : AnswerVars) :
    Prog.Implements (exec i) Shared.view (externalProg fuel x query vars) fun t =>
      (askExternal fuel t.1 x query ⟨t.2, vars.ansBuffer, vars.ansCnt⟩).map fun b =>
        (b.pending, (t.1, b.cache)) := by
  refine ((Prog.implements_lift _).bind (replyProg_implements x vars)).congr fun t => ?_
  rw [askExternal]
  cases sendQuestion fuel x query (freeHeapMessage (initialAnswer query)) with
  | error e => rfl
  | ok r =>
    simp only [bind, Except.bind, Except.map]
    split
    · rfl
    · cases orCrash ((r.resp.answer.take r.resp.header.ancount.toNat).mapM id) with
      | error e => rfl
      | ok answers =>
        dsimp only
        cases cachePutAll t.1 t.2 answers with
        | error e => rfl
        | ok cache => rfl

theorem pendingProg_implements (fuel : ℕ) (x : Exchange) (query : Message) :
    Prog.Implements (exec i) Shared.view (pendingProg fuel db x query) fun t =>
      (buildAnswer fuel t.1 db x t.2 query).map fun b => (b.pending, (t.1, b.cache)) := by
  have hrest : ∀ r : AnswerVars × LookupEnd, Prog.Implements (exec i) Shared.view
      (match r.2 with
        | .external => externalProg fuel x query r.1
        | fin => .ret ⟨query, initialAnswer query, r.1, fin⟩) fun t =>
      match r.2 with
      | .external => (askExternal fuel t.1 x query ⟨t.2, r.1.ansBuffer, r.1.ansCnt⟩).map fun b =>
          (b.pending, (t.1, b.cache))
      | fin => .ok (⟨query, initialAnswer query, r.1, fin⟩, t) := by
    rintro ⟨vars, fin⟩
    cases fin with
    | external => exact externalProg_implements fuel x query vars
    | found => exact Prog.implements_ret _
    | failure rcode => exact Prog.implements_ret _
  refine ((queryProg_implements query).bind hrest).congr fun t => ?_
  rw [buildAnswer]
  cases lookupQuery t.1 db t.2 query with
  | error e => rfl
  | ok r =>
    obtain ⟨st, fin⟩ := r
    cases fin <;> rfl

/-- The end of a call does nothing to the cache. -/
theorem finish_implements (sendbuf : Mem) (p : Pending) :
    Prog.Implements (exec i) Shared.view (finish sendbuf p) fun t =>
      completeAnswer (p.built t.2) >>= fun ans =>
        (messageToU8 ans sendbuf 0).map fun _ => ((), t) := by
  apply Prog.implements_perform
  intro s
  change (completeAnswer (p.built s.cache) >>= _).map _ =
    completeAnswer (p.built s.cache) >>= _
  cases completeAnswer (p.built s.cache) with
  | error e => rfl
  | ok ans =>
    simp only [bind, Except.bind]
    cases messageToU8 ans sendbuf 0 with
    | error e => rfl
    | ok r =>
      obtain ⟨msgsize, mem⟩ := r
      simp only [Except.map]
      split <;> rfl

/-- A call that nobody interrupts leaves the cache as `resolvHandle` does. -/
theorem resolvProg_implements (fuel : ℕ) (x : Exchange) (sendbuf : Mem) (query : Message) :
    Prog.Implements (exec i) Shared.view (resolvProg fuel db x sendbuf query) fun t =>
      (resolvHandle fuel t.1 db x sendbuf t.2 query).map fun r => ((), (t.1, r.cache)) := by
  unfold resolvProg resolvHandle
  by_cases hqr : qrOf query.header.misc1 ≠ qrReq
  · simp only [if_pos hqr]
    exact Prog.implements_ret ()
  · simp only [if_neg hqr]
    refine ((pendingProg_implements fuel x query).bind (finish_implements sendbuf)).congr
      fun t => ?_
    cases buildAnswer fuel t.1 db x t.2 query with
    | error e => rfl
    | ok b =>
      have hbuilt : b.pending.built b.cache = b := rfl
      simp only [bind, Except.bind, Except.map, hbuilt]
      cases completeAnswer b with
      | error e => rfl
      | ok ans =>
        dsimp only
        cases messageToU8 ans sendbuf 0 with
        | error e => rfl
        | ok r => rfl

end Alone

/-! Any number of threads, next to the clock and the refresh thread. -/

/-- The shared state and what every thread has still to do. -/
structure World where
  shared : Shared
  threads : ℕ → ResolvProg Unit

def World.initial (now : ℕ) : World := ⟨⟨now, initCache now, [], [], []⟩, fun _ => .ret ()⟩

inductive Action
  | spawn (i fuel : ℕ) (x : Exchange) (sendbuf : Mem) (query : Message)
  | perform (i : ℕ)
  | tick (now : ℕ)
  | refresh
  | reuse (a : Addr) (name rdata : List UInt8)

/-- New content of the blocks that a cached record points to. -/
def rewriteBlocks (heap : Heap CacheData) (a : Addr) (name rdata : List UInt8) :
    Option (Heap CacheData) :=
  modifyAt heap a fun ln =>
    { ln with val := { ln.val with
      element := ln.val.element.map fun e => { e with name := name, rdata := rdata } } }

/-- One step. A thread that is done takes the next query, the clock does not go back, and only
blocks that have been freed are used for something else. -/
def step (db : BucketTree) (w : World) : Action → Option World
  | .spawn i fuel x sendbuf query =>
    match w.threads i with
    | .ret _ => some { w with
        threads := Function.update w.threads i (resolvProg fuel db x sendbuf query) }
    | _ => none
  | .perform i =>
    match w.threads i with
    | .call op k =>
      match exec i op w.shared with
      | .ok (r, shared) => some ⟨shared, Function.update w.threads i (k r)⟩
      | .error _ => none
    | _ => none
  | .tick now => if w.shared.now ≤ now then some { w with shared := { w.shared with now := now } }
    else none
  | .refresh =>
    (refreshCache w.shared.now w.shared.cache).map fun cache =>
      { w with shared := { w.shared with
        cache := cache
        log := .refreshed w.shared.now :: w.shared.log } }
  | .reuse a name rdata =>
    if a ∈ w.shared.stale then
      (rewriteBlocks w.shared.cache.heap a name rdata).map fun heap =>
        { w with shared := { w.shared with cache := { w.shared.cache with heap := heap } } }
    else none

/-- The worlds that are reached by steps that meet a condition. -/
inductive Run (db : BucketTree) (ok : World → Action → Prop) : World → Prop
  | start (now : ℕ) : Run db ok (World.initial now)
  | step {w w' : World} {a : Action} (h : Run db ok w) (hok : ok w a)
      (hstep : step db w a = some w') : Run db ok w'

/-- What a step can be. -/
inductive Stepped (db : BucketTree) (w : World) : Action → World → Prop
  | spawn (i fuel : ℕ) (x : Exchange) (sendbuf : Mem) (query : Message)
      (hi : w.threads i = .ret ()) :
      Stepped db w (.spawn i fuel x sendbuf query) ⟨w.shared,
        Function.update w.threads i (resolvProg fuel db x sendbuf query)⟩
  | perform (i : ℕ) (op : CacheOp) (k : op.Res → ResolvProg Unit) (r : op.Res) (shared : Shared)
      (hi : w.threads i = .call op k) (hexec : exec i op w.shared = .ok (r, shared)) :
      Stepped db w (.perform i) ⟨shared, Function.update w.threads i (k r)⟩
  | tick (now : ℕ) (hle : w.shared.now ≤ now) :
      Stepped db w (.tick now) ⟨{ w.shared with now := now }, w.threads⟩
  | refresh (cache : RrCache) (hcache : refreshCache w.shared.now w.shared.cache = some cache) :
      Stepped db w .refresh ⟨{ w.shared with
        cache := cache
        log := .refreshed w.shared.now :: w.shared.log }, w.threads⟩
  | reuse (a : Addr) (name rdata : List UInt8) (heap : Heap CacheData) (ha : a ∈ w.shared.stale)
      (hheap : rewriteBlocks w.shared.cache.heap a name rdata = some heap) :
      Stepped db w (.reuse a name rdata) ⟨{ w.shared with
        cache := { w.shared.cache with heap := heap } }, w.threads⟩

theorem stepped_of_step {db : BucketTree} {w w' : World} {a : Action}
    (h : step db w a = some w') : Stepped db w a w' := by
  cases a with
  | spawn i fuel x sendbuf query =>
    rw [step] at h
    split at h
    · next hi =>
      cases h
      exact .spawn i fuel x sendbuf query hi
    · cases h
  | perform i =>
    rw [step] at h
    split at h
    · next op k hi =>
      split at h
      · next r shared hexec =>
        cases h
        exact .perform i op k r shared hi hexec
      · cases h
    · cases h
  | tick now =>
    rw [step] at h
    split at h
    · next hle =>
      cases h
      exact .tick now hle
    · cases h
  | refresh =>
    obtain ⟨cache, hcache, rfl⟩ := Option.map_eq_some_iff.1 h
    exact .refresh cache hcache
  | reuse a name rdata =>
    rw [step] at h
    split at h
    · next ha =>
      obtain ⟨heap, hheap, rfl⟩ := Option.map_eq_some_iff.1 h
      exact .reuse a name rdata heap ha hheap
    · cases h

/-- An invariant that every step meeting the condition keeps. -/
theorem Run.invariant {db : BucketTree} {ok : World → Action → Prop} {I : World → Prop} {w : World}
    (hrun : Run db ok w) (hinit : ∀ now, I (World.initial now))
    (hstep : ∀ w a w', I w → ok w a → Stepped db w a w' → I w') : I w := by
  induction hrun with
  | start now => exact hinit now
  | step _ hok h ih => exact hstep _ _ _ ih hok (stepped_of_step h)

/-- The operation that a step performs, if it is the step of a thread. -/
def World.opOf (w : World) : Action → Option CacheOp
  | .perform i =>
    match w.threads i with
    | .call op _ => some op
    | _ => none
  | _ => none

theorem World.opOf_perform {w : World} {i : ℕ} {op : CacheOp} {k : op.Res → ResolvProg Unit}
    (hi : w.threads i = .call op k) : w.opOf (.perform i) = some op := by
  rw [World.opOf, hi]

/-- A copy that is put back still has a node in the cache. -/
def CacheOp.BackIsCached (cache : RrCache) : CacheOp → Prop
  | .putBack rr => cacheMatchLn cache rr ≠ some none
  | _ => True

/-- A record from the external server does not have an overlong name. -/
def CacheOp.NameIsGood : CacheOp → Prop
  | .store rr => domainLen rr.name ≠ none
  | _ => True

instance (cache : RrCache) : (op : CacheOp) → Decidable (op.BackIsCached cache)
  | .putBack _ => inferInstanceAs (Decidable (¬_ = _))
  | .find _ _ _ | .receive _ | .store _ | .finish _ _ => isTrue trivial

instance : (op : CacheOp) → Decidable op.NameIsGood
  | .store _ => inferInstanceAs (Decidable (¬_ = _))
  | .find _ _ _ | .receive _ | .putBack _ | .finish _ _ => isTrue trivial

def PutsBackCached (w : World) (a : Action) : Prop :=
  ∀ op ∈ w.opOf a, op.BackIsCached w.shared.cache

def StoresGoodNames (w : World) (a : Action) : Prop := ∀ op ∈ w.opOf a, op.NameIsGood

instance (w : World) (a : Action) : Decidable (PutsBackCached w a) :=
  inferInstanceAs (Decidable (∀ op ∈ w.opOf a, op.BackIsCached w.shared.cache))

instance (w : World) (a : Action) : Decidable (StoresGoodNames w a) :=
  inferInstanceAs (Decidable (∀ op ∈ w.opOf a, op.NameIsGood))

/-- A schedule of steps that all meet a condition. -/
def play (db : BucketTree) (ok : World → Action → Prop) [∀ w a, Decidable (ok w a)] :
    List Action → World → Option World
  | [], w => some w
  | a :: schedule, w =>
    if ok w a then (step db w a).bind (play db ok schedule) else none

theorem Run.play {db : BucketTree} {ok : World → Action → Prop} [∀ w a, Decidable (ok w a)]
    {w w' : World} {schedule : List Action} (h : Run db ok w)
    (hplay : play db ok schedule w = some w') : Run db ok w' := by
  induction schedule generalizing w with
  | nil =>
    cases hplay
    exact h
  | cons a schedule ih =>
    rw [BakaDns.play] at hplay
    split at hplay
    · next hok =>
      obtain ⟨w₁, hstep, hplay⟩ := Option.bind_eq_some_iff.1 hplay
      exact ih (h.step hok hstep) hplay
    · cases hplay

end BakaDns
